import ContractQuery.Proofs.Conversion
import ContractQuery.Proofs.Edit

/-!
# Children by Field Name

A node of a converted tree holds its children by field name, and those without one in a list.
What comparison sees of a node is therefore, for each field name, the sequence of the children
that have it (`Concrete.Alike.forall₂_kept`), provided that no field is overwritten by what the
kind of the node adds. How children of different field names are interleaved is lost.

## Main results

* `Concrete.get?_fieldsOf`: what stands under a field name.
* `Concrete.Alike.forall₂_kept`: **what equal nodes have in common**.
-/

namespace ContractQuery

/-! ### What a field stands for -/

namespace Value

/-- The nodes and texts that a field stands for: the items of a list, or itself. -/
def contents : Option Value → List Value
  | some (list items) => items
  | some (node kind span fields) => [node kind span fields]
  | some (scalar (.text s)) => [scalar (.text s)]
  | _ => []

/-- Equal values stand for equal nodes and texts. -/
theorem forall₂_contents {o o' : Option Value}
    (h : Option.Rel (fun v w => v.same w = true) o o') :
    List.Forall₂ (fun v w => v.same w = true) (contents o) (contents o') := by
  cases h with
  | none => exact .nil
  | @some v w h =>
      cases v with
      | list items =>
          cases w with
          | list items' => exact same_list_iff.1 h
          | _ => simp [same] at h
      | node kind span fields =>
          cases w with
          | node kind' span' fields' => exact .cons h .nil
          | _ => simp [same] at h
      | map entries =>
          cases w with
          | map entries' => exact .nil
          | _ => simp [same] at h
      | scalar s =>
          cases w with
          | scalar t => cases s <;> cases t <;> simp_all [contents, same, Scalar.same]
          | _ => simp [same] at h

end Value

namespace Concrete

open Value

/-! ### What stands under a field name -/

/-- A node or a text: what a child can be for its parent. -/
def IsPart (v : Value) : Prop := (∃ n : Node, v = n.toValue) ∨ ∃ s, v = Value.text s

/-- What stands under a field name that has the values given. -/
def bundle : List Value → Option Value
  | [] => none
  | [v] => some v
  | values => some (.list values)

/-- One more value, where values are no lists. -/
theorem bundle_append_singleton {values : List Value} (h : ∀ v ∈ values, IsPart v) (v : Value) :
    bundle (values ++ [v]) = some (joined (bundle values) v) := by
  rcases values with _ | ⟨w, _ | ⟨w', rest⟩⟩
  · rfl
  · rcases h w List.mem_cons_self with ⟨n, rfl⟩ | ⟨s, rfl⟩ <;> rfl
  · rfl

/-- One more value under a field name changes what stands there, and nothing else. -/
theorem get?_addField (fields : Record Value) (name : String) (v : Value) (other : String) :
    Record.get? (addField fields name v) other =
      if name = other then some (joined (Record.get? fields other) v)
      else Record.get? fields other := by
  rw [addField_eq_insert]
  split
  · next h => rw [h, Record.get?_insert_self]
  · next h => rw [Record.get?_insert_of_ne _ _ h]

/-- What stands under a field name. -/
theorem get?_fieldsOf {parts : List Part} (h : ∀ e ∈ fielded parts, IsPart e.2) (name : String) :
    Record.get? (fieldsOf parts) name =
      bundle (((fielded parts).filter fun e => e.1 = name).map Prod.snd) := by
  rw [fieldsOf_eq_foldl]
  revert h
  induction fielded parts using List.reverseRecOn with
  | nil => exact fun _ => rfl
  | append_singleton added e ih =>
      intro h
      rw [List.forall_mem_append] at h
      rw [List.foldl_append, List.foldl_cons, List.foldl_nil, get?_addField, ih h.1,
        List.filter_append, List.map_append]
      split
      · next hname =>
          rw [List.filter_cons_of_pos (by simpa using hname), List.filter_nil, List.map_singleton,
            bundle_append_singleton]
          intro v hv
          obtain ⟨e', he', rfl⟩ := List.mem_map.1 hv
          exact h.1 e' (List.mem_of_mem_filter he')
      · next hname =>
          rw [List.filter_cons_of_neg (by simpa using hname), List.filter_nil, List.map_nil,
            List.append_nil]

/-- A field without comments stands for its values without comments. -/
theorem contents_bundle {kinds : List Kind} {values : List Value} (h : ∀ v ∈ values, IsPart v) :
    contents ((bundle values).bind fun v =>
      if v.isOf kinds then none else some (v.without kinds)) = withoutItems kinds values := by
  rcases values with _ | ⟨w, _ | ⟨w', rest⟩⟩
  · rfl
  · rw [bundle, Option.bind_some, withoutItems, withoutItems]
    split
    · rfl
    · rcases h w List.mem_cons_self with ⟨n, rfl⟩ | ⟨s, rfl⟩ <;> rfl
  · rfl

/-! ### The values of a field name -/

/-- What a child is for its parent. -/
def value (source : String) (c : Concrete) : Value := c.partValue source (c.toNode source)

/-- What a child is for its parent is a node or a text. -/
theorem isPart_value (source : String) (c : Concrete) : IsPart (c.value source) := by
  unfold value partValue
  split
  · exact .inr ⟨_, rfl⟩
  · exact .inl ⟨_, rfl⟩

/-- The values of the children that have a field name, or of those that have none. -/
def valuesAt (source : String) (label : Option String) (children : List Concrete) : List Value :=
  (children.filter fun c => !c.isDelimiter && c.info.field == label).map (value source)

/-- All values under a label are nodes and texts. -/
theorem isPart_of_mem_valuesAt {source : String} {label : Option String}
    {children : List Concrete} {v : Value} (h : v ∈ valuesAt source label children) : IsPart v := by
  obtain ⟨c, -, rfl⟩ := List.mem_map.1 h
  exact isPart_value source c

/-- A token that is left out has no field name. -/
theorem isDelimiter_eq_false {c : Concrete} {name : String} (h : c.info.field = some name) :
    c.isDelimiter = false := by
  simp [isDelimiter, h]

/-- Children with a field name are no delimiters. -/
theorem valuesAt_some (source : String) (name : String) (children : List Concrete) :
    valuesAt source (some name) children =
      (children.filter fun c => c.info.field == some name).map (value source) := by
  refine congrArg _ (List.filter_congr fun c _ => ?_)
  cases hfield : c.info.field <;> simp [isDelimiter, hfield]

/-- What a child adds to its parent. -/
theorem part_toNode_eq (source : String) (c : Concrete) :
    part source c (c.toNode source) =
      match c.info.field with
      | some name => .field name (c.value source)
      | none => if c.isDelimiter then .nothing else .child (c.value source) :=
  part_eq source c (c.toNode source)

/-- The parts with a field name are the values of the children that have it. -/
theorem map_snd_filter_fielded (source : String) (children : List Concrete) (name : String) :
    ((fielded (partsOf source children)).filter fun e => e.1 = name).map Prod.snd =
      valuesAt source (some name) children := by
  induction children with
  | nil => rfl
  | cons c rest ih =>
      rw [partsOf, part_toNode_eq]
      cases hfield : c.info.field with
      | none =>
          have hkeep : valuesAt source (some name) (c :: rest) =
              valuesAt source (some name) rest := by
            simp [valuesAt, hfield]
          rw [hkeep, ← ih]
          cases c.isDelimiter <;> rfl
      | some n =>
          have hdelimiter := isDelimiter_eq_false hfield
          by_cases hname : n = name <;>
            simpa [valuesAt, fielded, hdelimiter, hfield, hname] using ih

/-- The parts without a field name are the values of the children that have none. -/
theorem unfielded_partsOf (source : String) (children : List Concrete) :
    unfielded (partsOf source children) = valuesAt source none children := by
  induction children with
  | nil => rfl
  | cons c rest ih =>
      rw [partsOf, part_toNode_eq]
      cases hfield : c.info.field with
      | none => cases hd : c.isDelimiter <;> simpa [valuesAt, unfielded, hfield, hd] using ih
      | some n => simpa [valuesAt, unfielded, hfield] using ih

/-! ### What the kind overwrites -/

/-- Whether a single child is the name, and a leaf. -/
def isNamed (c : Concrete) : Bool :=
  match c.children.filter fun d => d.info.field == some "name" with
  | [d] => d.isLeaf
  | _ => false

/-- The fields of a node that do not come from its children. -/
def overwritten (c : Concrete) : List String :=
  "children" :: (additions c.info.kind (!c.isNamed)).map Prod.fst

/-- No child has a field name that is overwritten. -/
def KeepsNames (c : Concrete) : Prop :=
  ∀ child ∈ c.children, ∀ name ∈ child.info.field, name ∉ c.overwritten

instance (c : Concrete) : Decidable c.KeepsNames :=
  inferInstanceAs (Decidable (∀ child ∈ c.children, ∀ name ∈ child.info.field, _))

/-- No node has a field that is overwritten. -/
def KeepsFields (c : Concrete) : Prop := ∀ p ∈ c.subtrees, p.node.KeepsNames

instance (c : Concrete) : Decidable c.KeepsFields :=
  inferInstanceAs (Decidable (∀ p ∈ c.subtrees, _))

/-- A tree keeps its fields if its root does and all its children do. -/
theorem keepsFields_iff {c : Concrete} :
    c.KeepsFields ↔ c.KeepsNames ∧ ∀ child ∈ c.children, child.KeepsFields :=
  forall_mem_subtrees_iff

/-- There are no values of a field name that is overwritten. -/
theorem KeepsNames.valuesAt_eq_nil {c : Concrete} (h : c.KeepsNames) (source : String)
    {name : String} (hname : name ∈ c.overwritten) :
    valuesAt source (some name) c.children = [] := by
  rw [valuesAt, List.map_eq_nil_iff, List.filter_eq_nil_iff]
  intro child hchild hfield
  rw [Bool.and_eq_true, beq_iff_eq] at hfield
  exact h child hchild name (by rw [hfield.2]; rfl) hname

/-- Under a field name stand the values of the children that have it, bundled. -/
theorem get?_fieldsOf_partsOf (source : String) (children : List Concrete) (name : String) :
    Record.get? (fieldsOf (partsOf source children)) name =
      bundle (valuesAt source (some name) children) := by
  rw [get?_fieldsOf, map_snd_filter_fielded]
  intro e he
  have hvalue : e.2 ∈ valuesAt source (some e.1) children := by
    rw [← map_snd_filter_fielded]
    exact List.mem_map_of_mem (List.mem_filter.2 ⟨he, by simp⟩)
  exact isPart_of_mem_valuesAt hvalue

/-- The fields that come from the children. -/
def ownFields (source : String) (c : Concrete) : Record Value :=
  Record.insert (fieldsOf (partsOf source c.children)) "children"
    (.list (valuesAt source none c.children))

/-- The fields that a node gets from its children, under every name but that of the list of
children. -/
theorem get?_ownFields (source : String) (c : Concrete) {name : String} (h : name ≠ "children") :
    Record.get? (c.ownFields source) name = bundle (valuesAt source (some name) c.children) := by
  rw [ownFields, Record.get?_insert_of_ne _ _ h.symm, get?_fieldsOf_partsOf]

/-- A node has a name exactly if a single child is the name, and a leaf. -/
theorem isNone_name?_ownFields (source : String) (c : Concrete) (kind : Kind)
    (span : Option Span) :
    (⟨kind, span, c.ownFields source⟩ : Node).name?.isNone = !c.isNamed := by
  have hnames : ∀ d ∈ c.children.filter (fun d => d.info.field == some "name"),
      d.info.field = some "name" := by
    intro d hd
    simpa using (List.mem_filter.1 hd).2
  rw [Node.name?, Node.field?, get?_ownFields source c (by decide), valuesAt_some, isNamed]
  generalize c.children.filter (fun d => d.info.field == some "name") = names at hnames ⊢
  rcases names with _ | ⟨d, _ | ⟨d', rest⟩⟩
  · rfl
  · have hkept : d.keptAsText = d.isLeaf := by simp [keptAsText, hnames d List.mem_cons_self]
    rw [List.map_singleton, bundle, Option.bind_some, value, partValue, hkept]
    change _ = !d.isLeaf
    cases d.isLeaf <;> rfl
  · rfl

/-- Fields that are set do not change what stands under other names. -/
theorem get?_foldl_withField_of_not_mem {added : List (String × Scalar)} {n : Node} {name : String}
    (h : name ∉ added.map Prod.fst) :
    Record.get? (added.foldl (fun m e => m.withField e.1 (.scalar e.2)) n).fields name =
      Record.get? n.fields name := by
  induction added generalizing n with
  | nil => rfl
  | cons e added ih =>
      rw [List.map_cons, List.mem_cons, not_or] at h
      rw [List.foldl_cons, ih h.2]
      exact Record.get?_insert_of_ne _ _ (Ne.symm h.1)

/-- Under a name that is set stands one of the scalars set there. -/
theorem get?_foldl_withField_of_mem {added : List (String × Scalar)} {n : Node} {name : String}
    (h : name ∈ added.map Prod.fst) :
    ∃ s, (name, s) ∈ added ∧
      Record.get? (added.foldl (fun m e => m.withField e.1 (.scalar e.2)) n).fields name =
        some (.scalar s) := by
  induction added generalizing n with
  | nil => simp at h
  | cons e added ih =>
      rw [List.foldl_cons]
      by_cases hrest : name ∈ added.map Prod.fst
      · obtain ⟨s, hs, hget⟩ := ih hrest
        exact ⟨s, List.mem_cons_of_mem _ hs, hget⟩
      · obtain rfl : name = e.1 := by simpa [hrest] using h
        refine ⟨e.2, List.mem_cons_self, ?_⟩
        rw [get?_foldl_withField_of_not_mem hrest]
        exact Record.get?_insert_self _ _ _

/-- What a kind adds is neither a node nor a text, but for the `kind` of contracts. -/
theorem contents_of_mem_additions {kind : String} {unnamed : Bool} {name : String} {s : Scalar}
    (h : (name, s) ∈ additions kind unnamed) :
    contents (some (.scalar s)) = [] ∨ name = "kind" ∧ kind ∈ contractKinds := by
  unfold additions at h
  split at h
  case h_4 =>
    rcases List.mem_pair.1 h with h | h <;> cases h <;> exact .inl rfl
  all_goals simp_all [contents, contractKinds]

/-- Contracts get a `kind`. -/
theorem kind_mem_additions {kind : String} (h : kind ∈ contractKinds) (unnamed : Bool) :
    "kind" ∈ (additions kind unnamed).map Prod.fst := by
  simp only [contractKinds, List.mem_cons, List.not_mem_nil, or_false] at h
  rcases h with rfl | rfl | rfl <;> simp [additions]

/-- No kind sets the list of children. -/
theorem children_not_mem_additions (kind : String) (unnamed : Bool) :
    "children" ∉ (additions kind unnamed).map Prod.fst := by
  unfold additions
  split <;> simp

/-- The fields of a node: those from its children, and what its kind adds. -/
theorem toNode_eq_foldl {source : String} {c : Concrete} (h : c.isLeaf = false) :
    c.toNode source = (additions c.info.kind (!c.isNamed)).foldl
      (fun m e => m.withField e.1 (.scalar e.2))
      ⟨c.info.treeKind source, some c.info.span, c.ownFields source⟩ := by
  rw [toNode_of_not_isLeaf h, finish_eq_foldl, unfielded_partsOf, ← ownFields,
    isNone_name?_ownFields]

/-- The list of children of a node without comments. -/
theorem contents_children {source : String} {c : Concrete} (h : c.isLeaf = false) :
    contents (Record.get? (withoutFields Kind.comments (c.toNode source).fields) "children") =
      withoutItems Kind.comments (valuesAt source none c.children) := by
  have hdistinct := (distinct_node.1 (distinct_toNode source c)).1
  rw [get?_withoutFields hdistinct, toNode_eq_foldl h,
    get?_foldl_withField_of_not_mem (children_not_mem_additions _ _), ownFields,
    Record.get?_insert_self]
  rfl

/-- A field of a node without comments, if it is not the `kind` of a contract. -/
theorem contents_field {source : String} {c : Concrete} (h : c.isLeaf = false)
    (hkeeps : c.KeepsNames) {name : String} (hname : name ≠ "children")
    (hkind : ¬ (name = "kind" ∧ c.info.kind ∈ contractKinds)) :
    contents (Record.get? (withoutFields Kind.comments (c.toNode source).fields) name) =
      withoutItems Kind.comments (valuesAt source (some name) c.children) := by
  have hdistinct := (distinct_node.1 (distinct_toNode source c)).1
  rw [get?_withoutFields hdistinct, toNode_eq_foldl h]
  by_cases hadded : name ∈ (additions c.info.kind (!c.isNamed)).map Prod.fst
  · obtain ⟨s, hs, hget⟩ := get?_foldl_withField_of_mem hadded
    have hnone : contents (some (.scalar s)) = [] :=
      (contents_of_mem_additions hs).resolve_right hkind
    rw [hget, hkeeps.valuesAt_eq_nil source (List.mem_cons_of_mem _ hadded)]
    exact hnone
  · rw [get?_foldl_withField_of_not_mem hadded, get?_ownFields source c hname]
    exact contents_bundle fun v hv => isPart_of_mem_valuesAt hv

/-! ### What comparison sees -/

/-- Whether a node is a comment of the tree. -/
def isComment (c : Concrete) : Bool := c.info.kind == "comment" && !c.keptAsText

/-- Whether a node has a part in comparison: delimiters and comments have none. -/
def isKept (c : Concrete) : Bool := !c.isDelimiter && !c.isComment

/-- The children that have a part in comparison. -/
def kept (c : Concrete) : List Concrete := c.children.filter isKept

/-- What comparison sees of a child. -/
def seen (source : String) (c : Concrete) : Value := (c.value source).without Kind.comments

/-- A value is a comment exactly if it comes from a comment. -/
theorem isOf_value (source : String) (c : Concrete) :
    (c.value source).isOf Kind.comments = c.isComment := by
  unfold value partValue isComment
  cases c.keptAsText with
  | true => simp [Value.text, isOf]
  | false =>
      rw [if_neg Bool.false_ne_true, Node.isOf_toValue, kind_toNode, Bool.not_false, Bool.and_true]
      exact decide_eq_decide.2 Info.treeKind_mem_comments_iff

/-- Without comments, the values under a label are those of the children that are kept. -/
theorem withoutItems_valuesAt (source : String) (label : Option String) (c : Concrete) :
    withoutItems Kind.comments (valuesAt source label c.children) =
      (c.kept.filter fun d => d.info.field = label).map (seen source) := by
  unfold valuesAt kept
  induction c.children with
  | nil => rfl
  | cons d rest ih =>
      have hof := isOf_value source d
      by_cases hlabel : d.info.field = label <;> cases hdelimiter : d.isDelimiter <;>
        cases hcomment : d.isComment <;>
        simp_all [isKept, withoutItems, seen]

/-- Nodes that are equal without comments. -/
def Alike (source source' : String) (c c' : Concrete) : Prop :=
  ((c.toNode source).toValue.without Kind.comments).same
    ((c'.toNode source').toValue.without Kind.comments) = true

instance (source source' : String) (c c' : Concrete) : Decidable (Alike source source' c c') :=
  inferInstanceAs (Decidable (_ = true))

section Alike

variable {source source' : String} {c c' : Concrete}

/-- Comparison is equality without comments, and refuses a comment at the root. -/
theorem equivalent_iff_alike :
    (c.toNode source).equivalent (c'.toNode source') none = .ok true ↔
      c.info.kind ≠ "comment" ∧ c'.info.kind ≠ "comment" ∧ Alike source source' c c' := by
  have hiff : ∀ (s : String) (d : Concrete),
      (d.toNode s).kind ∈ Kind.comments ↔ d.info.kind = "comment" := by
    intro s d
    rw [kind_toNode, Info.treeKind_mem_comments_iff]
  rw [ne_eq, ne_eq, ← hiff source c, ← hiff source' c', Node.equivalent]
  have hdistinct := distinct_toNode source c
  have hdistinct' := distinct_toNode source' c'
  by_cases hkind : (c.toNode source).kind ∈ Kind.comments
  · simp only [hkind, not_true_eq_false, false_and, iff_false]
    simp [Node.compareWithout, Node.prunedSubject, Node.subject, Node.prune,
      Node.pruneInPlace_of_mem hkind, bind, Except.bind]
  by_cases hkind' : (c'.toNode source').kind ∈ Kind.comments
  · simp only [hkind', not_true_eq_false, false_and, and_false, iff_false]
    simp [Node.compareWithout, Node.prunedSubject, Node.subject, Node.prune,
      Node.pruneInPlace_of_not_mem hdistinct hkind, Node.pruneInPlace_of_mem hkind', bind,
      Except.bind]
  rw [Node.compareWithout_none_eq hdistinct hdistinct' hkind hkind', Except.ok.injEq]
  simp only [hkind, hkind', not_false_eq_true, true_and]
  rfl

/-- Alike trees have equal values under each name, comments apart. -/
theorem Alike.rel_get? (h : Alike source source' c c') (name : String) :
    Option.Rel (fun v w => v.same w = true)
      (Record.get? (withoutFields Kind.comments (c.toNode source).fields) name)
      (Record.get? (withoutFields Kind.comments (c'.toNode source').fields) name) :=
  rel_get?_of_same (Distinct.without (distinct_toNode source c) Kind.comments)
    (Distinct.without (distinct_toNode source' c') Kind.comments) h name

/-- Alike trees become nodes of one kind. -/
theorem Alike.treeKind_eq (h : Alike source source' c c') :
    c.info.treeKind source = c'.info.treeKind source' := by
  rw [Alike, Node.toValue, Node.toValue, without, without, same, Bool.and_eq_true,
    Bool.and_eq_true, beq_iff_eq] at h
  simpa using h.1.1

/-- Exactly the nodes that are no leaves have a list of children. -/
theorem isSome_get?_children (source : String) (c : Concrete) :
    (Record.get? (withoutFields Kind.comments (c.toNode source).fields) "children").isSome =
      !c.isLeaf := by
  have hdistinct := (distinct_node.1 (distinct_toNode source c)).1
  rw [get?_withoutFields hdistinct]
  cases hleaf : c.isLeaf with
  | true => simp [toNode_of_isLeaf hleaf, Record.get?_cons]
  | false =>
      rw [toNode_eq_foldl hleaf,
        get?_foldl_withField_of_not_mem (children_not_mem_additions _ _), ownFields,
        Record.get?_insert_self]
      rfl

/-- A tree that is alike to a leaf is a leaf. -/
theorem Alike.isLeaf_eq (h : Alike source source' c c') : c.isLeaf = c'.isLeaf := by
  have hsome : ∀ {o o' : Option Value}, Option.Rel (fun v w => v.same w = true) o o' →
      o.isSome = o'.isSome := by
    intro o o' h
    cases h <;> rfl
  have hchildren := hsome (h.rel_get? "children")
  rw [isSome_get?_children, isSome_get?_children] at hchildren
  exact Bool.not_inj hchildren

/-- Alike leaves have the same text. -/
theorem Alike.textIn_eq (h : Alike source source' c c') (hleaf : c.isLeaf = true) :
    c.info.textIn source = c'.info.textIn source' := by
  have htext := h.rel_get? "text"
  rw [toNode_of_isLeaf hleaf, toNode_of_isLeaf (h.isLeaf_eq ▸ hleaf)] at htext
  simpa [withoutFields, Record.get?_cons, isOf, without, Value.text, same, Scalar.same] using htext

/-- Equal nodes have equal values under each field name. -/
theorem Alike.forall₂_valuesAt_some (h : Alike source source' c c') (hleaf : c.isLeaf = false)
    (hkeeps : c.KeepsNames) (hkeeps' : c'.KeepsNames) (name : String) :
    List.Forall₂ (fun v w => v.same w = true)
      (withoutItems Kind.comments (valuesAt source (some name) c.children))
      (withoutItems Kind.comments (valuesAt source' (some name) c'.children)) := by
  have hnil : name ∈ c.overwritten → name ∈ c'.overwritten →
      List.Forall₂ (fun v w => v.same w = true)
        (withoutItems Kind.comments (valuesAt source (some name) c.children))
        (withoutItems Kind.comments (valuesAt source' (some name) c'.children)) := by
    intro hname hname'
    rw [hkeeps.valuesAt_eq_nil source hname, hkeeps'.valuesAt_eq_nil source' hname']
    exact .nil
  have hcontract : c.info.kind ∈ contractKinds ↔ c'.info.kind ∈ contractKinds := by
    rw [← Info.treeKind_eq_contractDefinition_iff, h.treeKind_eq,
      Info.treeKind_eq_contractDefinition_iff]
  by_cases hname : name = "children"
  · rw [hname] at hnil ⊢
    exact hnil List.mem_cons_self List.mem_cons_self
  by_cases hkind : name = "kind" ∧ c.info.kind ∈ contractKinds
  · obtain ⟨rfl, hkind⟩ := hkind
    exact hnil (List.mem_cons_of_mem _ (kind_mem_additions hkind _))
      (List.mem_cons_of_mem _ (kind_mem_additions (hcontract.1 hkind) _))
  · have hfields := forall₂_contents (h.rel_get? name)
    rwa [contents_field hleaf hkeeps hname hkind,
      contents_field (h.isLeaf_eq ▸ hleaf) hkeeps' hname (by rwa [← hcontract])] at hfields

/-- **What equal nodes have in common.** Equal nodes have equal children under each field name,
and equal children without one, apart from delimiters and comments. -/
theorem Alike.forall₂_kept (h : Alike source source' c c') (hkeeps : c.KeepsNames)
    (hkeeps' : c'.KeepsNames) (label : Option String) :
    List.Forall₂ (fun d d' => (d.seen source).same (d'.seen source') = true)
      (c.kept.filter fun d => d.info.field = label)
      (c'.kept.filter fun d => d.info.field = label) := by
  have hvalues : List.Forall₂ (fun v w => v.same w = true)
      (withoutItems Kind.comments (valuesAt source label c.children))
      (withoutItems Kind.comments (valuesAt source' label c'.children)) := by
    have hleaf := h.isLeaf_eq
    cases hc : c.isLeaf with
    | true =>
        have hnone : c.children = [] := List.isEmpty_iff.1 hc
        have hnone' : c'.children = [] := List.isEmpty_iff.1 (hleaf.symm.trans hc)
        rw [hnone, hnone']
        exact .nil
    | false =>
        cases label with
        | some name => exact h.forall₂_valuesAt_some hc hkeeps hkeeps' name
        | none =>
            have hchildren := forall₂_contents (h.rel_get? "children")
            rwa [contents_children hc, contents_children (hleaf ▸ hc)] at hchildren
  rw [withoutItems_valuesAt, withoutItems_valuesAt, List.forall₂_map_left_iff,
    List.forall₂_map_right_iff] at hvalues
  exact hvalues

/-- Equal parts are both texts, or both nodes. -/
theorem seen_inv {d d' : Concrete} (h : (d.seen source).same (d'.seen source') = true) :
    d.keptAsText = d'.keptAsText ∧
      (d.keptAsText = true → d.info.textIn source = d'.info.textIn source') ∧
      (d.keptAsText = false → Alike source source' d d') := by
  unfold seen value partValue at h
  cases hkept : d.keptAsText <;> cases hkept' : d'.keptAsText <;>
    simp_all [Value.text, Node.toValue, without, same, Scalar.same, Alike]

end Alike

end Concrete

end ContractQuery
