import ContractQuery.Proofs.Comparison
import ContractQuery.Proofs.Conversion

/-!
# Comments and Formatting

Two sources whose concrete trees differ only in comments and in where things stand compare as
equal. What has to agree is the `Concrete.outline`: the kinds, the roles and the texts of all
tokens, without the comments between them.

On the side of the trees, `Value.tidy` drops the spans and the comments that are items of a list,
and gives the comments that are left one kind. Every step of the conversion treats values alike
whose tidy forms agree, so concrete trees of one outline become trees of one tidy form. A search
commutes with tidying, and a tree equals its tidy form once all comments are gone.

## Main results

* `Concrete.tidy_toNode_eq`: one outline, one tidy form.
* `Node.findContract_tidy`: the search for a contract commutes with tidying.
* `Value.same_without_tidy`: a tree equals its tidy form up to comments.
* `Concrete.equivalent_of_outline_eq`: **comments and formatting make no difference**.
-/

namespace ContractQuery

/-! ### Kinds -/

/-- The kind, with one kind for all comments. -/
def Kind.plain : Kind → Kind
  | lineComment | blockComment => comment
  | kind => kind

/-- Only kinds of comment are changed. -/
theorem Kind.plain_eq_self {kind : Kind} (h : kind ∉ comments) : kind.plain = kind := by
  cases kind with
  | lineComment | blockComment => simp [comments] at h
  | _ => rfl

/-- Comments stay comments, and nothing else becomes one. -/
theorem Kind.plain_mem_comments_iff {kind : Kind} : kind.plain ∈ comments ↔ kind ∈ comments := by
  have hplain : kind.plain.isComment = kind.isComment := by cases kind <;> rfl
  rw [mem_comments_iff, mem_comments_iff, hplain]

/-- No other kind becomes that of contracts. -/
theorem Kind.plain_eq_contractDefinition_iff {kind : Kind} :
    kind.plain = contractDefinition ↔ kind = contractDefinition := by
  cases kind <;> simp [plain]

/-- The text of a node decides at most between kinds of comment. -/
theorem Concrete.Info.plain_treeKind_congr (source source' : String) {i i' : Info}
    (h : i.kind = i'.kind) : (i.treeKind source).plain = (i'.treeKind source').plain := by
  unfold treeKind
  rw [h]
  cases opensBlock (i.textIn source) <;> cases opensBlock (i'.textIn source') <;> split <;> rfl

namespace Value

/-! ### Tidy values -/

/-- Whether the value is a comment that holds nothing but a scalar. -/
def isRemark : Value → Bool
  | node kind _ [(_, scalar _)] => kind ∈ Kind.comments
  | _ => false

mutual

/-- The value without spans and without comments in lists, and with one kind of comment. -/
def tidy : Value → Value
  | node kind _ fields => node kind.plain none (tidyFields fields)
  | list items => list (tidyItems items)
  | map entries => map entries
  | scalar s => scalar s

/-- The items of a list that are no comments, tidied. -/
def tidyItems : List Value → List Value
  | [] => []
  | v :: rest => if v.isRemark then tidyItems rest else v.tidy :: tidyItems rest

/-- Named values, tidied. -/
def tidyFields : List (String × Value) → List (String × Value)
  | [] => []
  | (name, v) :: rest => (name, v.tidy) :: tidyFields rest

end

/-- Fields are tidied one by one. -/
theorem tidyFields_eq_map (fields : Record Value) :
    tidyFields fields = fields.map fun e => (e.1, e.2.tidy) := by
  induction fields with
  | nil => rfl
  | cons e rest ih => rw [tidyFields, ih, List.map_cons]

/-- Tidy fields have the same names. -/
@[simp] theorem names_tidyFields (fields : Record Value) :
    Record.names (tidyFields fields) = Record.names fields := by
  simp [tidyFields_eq_map, Record.names]

/-- Look-up in tidy fields finds the tidy value. -/
theorem get?_tidyFields (fields : Record Value) (name : String) :
    Record.get? (tidyFields fields) name = (Record.get? fields name).map tidy := by
  rw [tidyFields_eq_map, Record.get?_map]

/-- Setting a field and tidying may change places. -/
theorem tidyFields_insert (fields : Record Value) (name : String) (v : Value) :
    tidyFields (Record.insert fields name v) = Record.insert (tidyFields fields) name v.tidy := by
  rw [tidyFields_eq_map, tidyFields_eq_map, Record.map_insert]

/-- Tidying does not change what is a comment. -/
theorem isOf_tidy (v : Value) : v.tidy.isOf Kind.comments = v.isOf Kind.comments := by
  cases v with
  | node kind span fields => simp [tidy, isOf, Kind.plain_mem_comments_iff]
  | _ => simp [tidy, isOf]

/-- A tidy value is a remark exactly if the value is. -/
theorem isRemark_tidy (v : Value) : v.tidy.isRemark = v.isRemark := by
  cases v with
  | node kind span fields =>
      rcases fields with _ | ⟨⟨name, w⟩, _ | ⟨e, rest⟩⟩
      · rfl
      · cases w <;> simp [tidy, tidyFields, isRemark, Kind.plain_mem_comments_iff]
      · simp [tidy, tidyFields, isRemark]
  | _ => rfl

/-- Items are tidied one by one, and remarks are left out. -/
theorem tidyItems_eq_filter (items : List Value) :
    tidyItems items = (items.map tidy).filter fun v => !v.isRemark := by
  induction items with
  | nil => rfl
  | cons v rest ih =>
      have hremark := isRemark_tidy v
      by_cases h : v.isRemark <;> simp [tidyItems, hremark, h, ih]

/-- A remark is a comment. -/
theorem isOf_of_isRemark {v : Value} (h : v.isRemark = true) : v.isOf Kind.comments = true := by
  unfold isRemark at h
  split at h
  · simpa [isOf] using h
  · simp at h

/-- A tidy leaf holds the same text. -/
@[simp] theorem text?_tidy (v : Value) : v.tidy.text? = v.text? := by
  cases v <;> rfl

/-- Tidying keeps names distinct. -/
theorem Distinct.tidy {v : Value} (hv : v.Distinct) : v.tidy.Distinct := by
  induction v using inductionOn with
  | node kind span fields ih =>
      obtain ⟨hnames, hfields⟩ := distinct_node.1 hv
      rw [Value.tidy, distinct_node]
      refine ⟨by simpa [Record.Distinct] using hnames, distinctFields_iff.2 fun e he => ?_⟩
      rw [tidyFields_eq_map] at he
      obtain ⟨e', he', rfl⟩ := List.mem_map.1 he
      exact ih e' he' (distinctFields_iff.1 hfields e' he')
  | list items ih =>
      have hitems := distinctItems_iff.1 (distinct_list.1 hv)
      rw [Value.tidy, distinct_list]
      clear hv
      induction items with
      | nil => exact trivial
      | cons w rest ihrest =>
          obtain ⟨ihw, ih⟩ := List.forall_mem_cons.1 ih
          obtain ⟨hw, hrest⟩ := List.forall_mem_cons.1 hitems
          rw [tidyItems]
          split
          · exact ihrest ih hrest
          · exact ⟨ihw hw, ihrest ih hrest⟩
  | map entries ih => exact hv
  | scalar s => exact distinct_scalar s

/-! ### Tidying and comments -/

/-- Fields and their tidy forms agree one by one once comments are gone. -/
theorem forall₂_withoutFields_tidy {fields : Record Value}
    (h : ∀ e ∈ fields, e.2.isOf Kind.comments = false →
      (e.2.without Kind.comments).same (e.2.tidy.without Kind.comments) = true) :
    List.Forall₂ SameEntry (withoutFields Kind.comments fields)
      (withoutFields Kind.comments (tidyFields fields)) := by
  induction fields with
  | nil => exact .nil
  | cons e rest ih =>
      obtain ⟨name, v⟩ := e
      obtain ⟨hv, hrest⟩ := List.forall_mem_cons.1 h
      rw [tidyFields, withoutFields, withoutFields, isOf_tidy]
      cases hof : v.isOf Kind.comments with
      | true => exact ih hrest
      | false => exact .cons ⟨rfl, hv hof⟩ (ih hrest)

/-- Items and their tidy forms agree one by one once comments are gone. -/
theorem forall₂_withoutItems_tidy {items : List Value}
    (h : ∀ v ∈ items, v.isOf Kind.comments = false →
      (v.without Kind.comments).same (v.tidy.without Kind.comments) = true) :
    List.Forall₂ (fun v w => v.same w = true) (withoutItems Kind.comments items)
      (withoutItems Kind.comments (tidyItems items)) := by
  induction items with
  | nil => exact .nil
  | cons v rest ih =>
      obtain ⟨hv, hrest⟩ := List.forall_mem_cons.1 h
      cases hremark : v.isRemark with
      | true =>
          rw [tidyItems, if_pos hremark, withoutItems, if_pos (isOf_of_isRemark hremark)]
          exact ih hrest
      | false =>
          rw [tidyItems, if_neg (by simp [hremark]), withoutItems, withoutItems, isOf_tidy]
          cases hof : v.isOf Kind.comments with
          | true => exact ih hrest
          | false => exact .cons (hv hof) (ih hrest)

/-- A value that is no comment equals its tidy form once all comments are gone. -/
theorem same_without_tidy {v : Value} (hv : v.Distinct) (hof : v.isOf Kind.comments = false) :
    (v.without Kind.comments).same (v.tidy.without Kind.comments) = true := by
  induction v using inductionOn with
  | node kind span fields ih =>
      have hnames := (distinct_node.1 (hv.without Kind.comments)).1
      have hnames' := (distinct_node.1 (hv.tidy.without Kind.comments)).1
      have hkind : kind ∉ Kind.comments := by simpa [isOf] using hof
      rw [tidy, Kind.plain_eq_self hkind, without, without, same_node_iff hnames hnames']
      have hfields := distinctFields_iff.1 (distinct_node.1 hv).2
      exact ⟨rfl, _, forall₂_withoutFields_tidy fun e he => ih e he (hfields e he), .refl _⟩
  | list items ih =>
      have hitems := distinctItems_iff.1 (distinct_list.1 hv)
      rw [tidy, without, without, same_list_iff]
      exact forall₂_withoutItems_tidy fun w hw => ih w hw (hitems w hw)
  | map entries ih => exact same_refl hv
  | scalar s => exact same_refl hv

/-- Values of one tidy form that are no comments are equal once all comments are gone. -/
theorem same_without_of_tidy_eq {v w : Value} (hv : v.Distinct) (hw : w.Distinct)
    (hof : v.isOf Kind.comments = false) (h : v.tidy = w.tidy) :
    (v.without Kind.comments).same (w.without Kind.comments) = true := by
  have hof' : w.isOf Kind.comments = false := by rw [← isOf_tidy, ← h, isOf_tidy, hof]
  have hleft := same_without_tidy hv hof
  have hright := same_symm (hw.without _) (hw.tidy.without _) (same_without_tidy hw hof')
  rw [h] at hleft
  exact same_trans (hv.without _) (hw.tidy.without _) (hw.without _) hleft hright

end Value

/-! ### Tidying and the search for a contract -/

namespace Node

/-- The node without spans and without comments in lists, and with one kind of comment. -/
def tidy (n : Node) : Node := ⟨n.kind.plain, none, Value.tidyFields n.fields⟩

/-- A tidy node is the tidy value of the node. -/
theorem toValue_tidy (n : Node) : n.tidy.toValue = n.toValue.tidy := by
  simp [toValue, tidy, Value.tidy]

/-- A tidy node has the same name. -/
theorem name?_tidy (n : Node) : n.tidy.name? = n.name? := by
  simp only [name?, field?, tidy, Value.get?_tidyFields]
  cases Record.get? n.fields "name" <;> simp

/-- A tidy node is a contract of a name exactly if the node is. -/
theorem isContract_tidy (n : Node) (name : String) :
    n.tidy.isContract name = n.isContract name := by
  have hkind : (n.tidy.kind == .contractDefinition) = (n.kind == .contractDefinition) := by
    rw [Bool.eq_iff_iff, beq_iff_eq, beq_iff_eq]
    exact Kind.plain_eq_contractDefinition_iff
  rw [isContract, isContract, hkind, name?_tidy]

end Node

namespace Value

/-- A comment that holds a scalar holds no contract. -/
theorem find?_nodes_of_isRemark {v : Value} (h : v.isRemark = true) (name : String) :
    v.nodes.find? (·.isContract name) = none := by
  unfold isRemark at h
  split at h
  · next kind span field s =>
      have hkind : kind ≠ .contractDefinition := by
        rintro rfl
        simp [Kind.comments] at h
      simp [nodes, nodesFields, Node.isContract, hkind]
  · simp at h

mutual

/-- The first contract of a tidy value is the tidy first contract of the value. -/
theorem find?_nodes_tidy (name : String) : ∀ v : Value,
    v.tidy.nodes.find? (·.isContract name) = (v.nodes.find? (·.isContract name)).map Node.tidy
  | node kind span fields => by
      have hhere := Node.isContract_tidy ⟨kind, span, fields⟩ name
      rw [tidy, nodes, nodes]
      cases hcontract : (⟨kind, span, fields⟩ : Node).isContract name with
      | true =>
          rw [hcontract] at hhere
          rw [List.find?_cons_of_pos (by simpa [Node.tidy] using hhere),
            List.find?_cons_of_pos (by simpa using hcontract)]
          rfl
      | false =>
          rw [hcontract] at hhere
          rw [List.find?_cons_of_neg (by simpa [Node.tidy] using hhere),
            List.find?_cons_of_neg (by simpa using hcontract)]
          exact find?_nodesFields_tidy name fields
  | list items => by
      rw [tidy, nodes, nodes]
      exact find?_nodesItems_tidy name items
  | map entries => by simp [tidy, nodes]
  | scalar s => by simp [tidy, nodes]

/-- The first contract of tidy items. -/
theorem find?_nodesItems_tidy (name : String) : ∀ items : List Value,
    (nodesItems (tidyItems items)).find? (·.isContract name) =
      ((nodesItems items).find? (·.isContract name)).map Node.tidy
  | [] => by simp [tidyItems, nodesItems]
  | v :: rest => by
      rw [nodesItems, List.find?_append, tidyItems]
      cases hremark : v.isRemark with
      | true =>
          rw [if_pos rfl, find?_nodes_of_isRemark hremark, Option.none_or]
          exact find?_nodesItems_tidy name rest
      | false =>
          rw [if_neg Bool.false_ne_true, nodesItems, List.find?_append, find?_nodes_tidy name v,
            find?_nodesItems_tidy name rest, Option.map_or]

/-- The first contract of tidy fields. -/
theorem find?_nodesFields_tidy (name : String) : ∀ fields : List (String × Value),
    (nodesFields (tidyFields fields)).find? (·.isContract name) =
      ((nodesFields fields).find? (·.isContract name)).map Node.tidy
  | [] => by simp [tidyFields, nodesFields]
  | (field, v) :: rest => by
      rw [tidyFields, nodesFields, nodesFields, List.find?_append, List.find?_append,
        find?_nodes_tidy name v, find?_nodesFields_tidy name rest, Option.map_or]

end

end Value

/-- The search for a contract commutes with tidying. -/
theorem Node.findContract_tidy (root : Node) (name : String) :
    root.tidy.findContract name = (root.findContract name).map tidy := by
  rw [findContract_eq_find?, findContract_eq_find?, toValue_tidy, Value.find?_nodes_tidy]

/-! ### Tidying and conversion -/

namespace Concrete

open Value

/-- What is joined is tidied alike if the two parts are. -/
theorem tidy_joined_congr {o o' : Option Value} {v v' : Value} (h : o.map tidy = o'.map tidy)
    (hv : v.tidy = v'.tidy) : (joined o v).tidy = (joined o' v').tidy := by
  rcases o with _ | w <;> rcases o' with _ | w'
  · exact hv
  · simp at h
  · simp at h
  · have hw : w.tidy = w'.tidy := by simpa using h
    have hpair : tidyItems [w, v] = tidyItems [w', v'] := by simp [tidyItems_eq_filter, hw, hv]
    cases w <;> cases w' <;> simp_all [tidy, joined, tidyItems_eq_filter]

/-- Fields that agree when tidied still do when values are added that do. -/
theorem tidyFields_foldl_addField_congr {added added' fields fields' : Record Value}
    (hadded : tidyFields added = tidyFields added') (h : tidyFields fields = tidyFields fields') :
    tidyFields (added.foldl (fun fields e => addField fields e.1 e.2) fields) =
      tidyFields (added'.foldl (fun fields e => addField fields e.1 e.2) fields') := by
  induction added generalizing added' fields fields' with
  | nil =>
      obtain rfl : added' = [] := by simpa [tidyFields_eq_map] using hadded.symm
      exact h
  | cons e added ih =>
      obtain ⟨name, v⟩ := e
      rcases added' with _ | ⟨⟨name', v'⟩, added'⟩
      · simp [tidyFields] at hadded
      · simp only [tidyFields, List.cons.injEq, Prod.mk.injEq] at hadded
        obtain ⟨⟨rfl, hv⟩, hadded⟩ := hadded
        rw [List.foldl_cons, List.foldl_cons]
        refine ih hadded ?_
        have hget : (Record.get? fields name).map tidy = (Record.get? fields' name).map tidy := by
          rw [← get?_tidyFields, ← get?_tidyFields, h]
        rw [addField_eq_insert, addField_eq_insert, tidyFields_insert, tidyFields_insert, h,
          tidy_joined_congr hget hv]

/-- What a child adds, tidied. -/
def Part.tidy : Part → Part
  | field name v => field name v.tidy
  | child v => child v.tidy
  | nothing => nothing

/-- The tidy parts with a field name are the parts with one, tidied. -/
theorem fielded_map_tidy (parts : List Part) :
    fielded (parts.map Part.tidy) = tidyFields (fielded parts) := by
  rw [tidyFields_eq_map, fielded, fielded, List.filterMap_map, List.map_filterMap]
  congr 1
  funext p
  cases p <;> rfl

/-- The tidy parts without a field name are the parts without one, tidied. -/
theorem unfielded_map_tidy (parts : List Part) :
    unfielded (parts.map Part.tidy) = (unfielded parts).map Value.tidy := by
  rw [unfielded, unfielded, List.filterMap_map, List.map_filterMap]
  congr 1
  funext p
  cases p <;> rfl

/-- What the kind adds does not depend on what tidying changes. -/
theorem tidy_finish (kind : String) (n : Node) : (finish kind n).tidy = finish kind n.tidy := by
  rw [finish_eq_foldl, finish_eq_foldl, Node.name?_tidy]
  generalize additions kind n.name?.isNone = added
  induction added generalizing n with
  | nil => rfl
  | cons e added ih =>
      have hset : (n.withField e.1 (.scalar e.2)).tidy = n.tidy.withField e.1 (.scalar e.2) := by
        simp only [Node.tidy, Node.withField, tidyFields_insert, Value.tidy]
      rw [List.foldl_cons, List.foldl_cons, ih, hset]

/-! ### Outlines -/

/-- Whether a node is a comment that stands between the parts of its parent. -/
def isRemark (c : Concrete) : Bool :=
  c.info.field.isNone && c.info.named && c.isLeaf && c.info.kind == "comment"

/-- A remark is a leaf of the kind of comments, named and without a field. -/
theorem isRemark_iff {c : Concrete} :
    c.isRemark = true ↔ c.info.field = none ∧ c.info.named = true ∧ c.isLeaf = true ∧
      c.info.kind = "comment" := by
  simp [isRemark, and_assoc]

/-- What is left of a concrete tree without comments and without positions. -/
inductive Outline where
  | leaf (field : Option String) (kind : String) (named : Bool) (text : String)
  | inner (field : Option String) (kind : String) (named : Bool) (children : List Outline)

mutual

/-- Decides whether two outlines are equal. -/
def Outline.decideEq : (o o' : Outline) → Decidable (o = o')
  | leaf field kind named text, leaf field' kind' named' text' =>
    decidable_of_iff (field = field' ∧ kind = kind' ∧ named = named' ∧ text = text') (by simp)
  | inner field kind named children, inner field' kind' named' children' =>
    have := Outline.decideEqs children children'
    decidable_of_iff (field = field' ∧ kind = kind' ∧ named = named' ∧ children = children')
      (by simp)
  | leaf .., inner .. => .isFalse (by simp)
  | inner .., leaf .. => .isFalse (by simp)

/-- Decides whether two lists of outlines are equal. -/
def Outline.decideEqs : (os os' : List Outline) → Decidable (os = os')
  | [], [] => .isTrue rfl
  | o :: os, o' :: os' =>
    have := Outline.decideEq o o'
    have := Outline.decideEqs os os'
    decidable_of_iff (o = o' ∧ os = os') (by simp)
  | [], _ :: _ => .isFalse (by simp)
  | _ :: _, [] => .isFalse (by simp)

end

instance : DecidableEq Outline := Outline.decideEq

mutual

/-- The outline of a concrete tree. -/
def outline (source : String) : Concrete → Outline
  | mk info children =>
    if children.isEmpty then .leaf info.field info.kind info.named (info.textIn source)
    else .inner info.field info.kind info.named (outlines source children)

/-- The outlines of the nodes that are no comments. -/
def outlines (source : String) : List Concrete → List Outline
  | [] => []
  | c :: rest =>
    if c.isRemark then outlines source rest else c.outline source :: outlines source rest

end

/-- The outlines of children are those of each child that is no remark. -/
theorem outlines_eq_map (source : String) (children : List Concrete) :
    outlines source children = (children.filter fun c => !c.isRemark).map (outline source) := by
  induction children with
  | nil => rfl
  | cons c rest ih => by_cases h : c.isRemark <;> simp [outlines, h, ih]

/-- What agrees if outlines do. -/
theorem outline_eq_iff {source source' : String} {c c' : Concrete} :
    c.outline source = c'.outline source' ↔
      c.info.field = c'.info.field ∧ c.info.kind = c'.info.kind ∧ c.info.named = c'.info.named ∧
        c.isLeaf = c'.isLeaf ∧
        (c.isLeaf = true → c.info.textIn source = c'.info.textIn source') ∧
        outlines source c.children = outlines source' c'.children := by
  obtain ⟨info, children⟩ := c
  obtain ⟨info', children'⟩ := c'
  rcases children with _ | ⟨child, children⟩ <;> rcases children' with _ | ⟨child', children'⟩ <;>
    simp [outline, isLeaf, Concrete.children, Concrete.info, outlines]

/-- A comment between the parts of its parent adds a comment to the list of children. -/
theorem part_of_isRemark (source : String) {c : Concrete} (h : c.isRemark = true) :
    part source c (c.toNode source) = .child (c.toNode source) ∧
      (c.toNode source).toValue.isRemark = true := by
  obtain ⟨hfield, hnamed, hleaf, hkind⟩ := isRemark_iff.mp h
  constructor
  · simp [part, hfield, hnamed]
  · rw [toNode_of_isLeaf hleaf, Node.toValue, Value.text, Value.isRemark]
    exact decide_eq_true (Info.treeKind_mem_comments_iff.mpr hkind)

/-- Comments have no part in the fields. -/
theorem fielded_partsOf_filter (source : String) (children : List Concrete) :
    fielded (partsOf source (children.filter fun c => !c.isRemark)) =
      fielded (partsOf source children) := by
  induction children with
  | nil => rfl
  | cons c rest ih =>
      cases h : c.isRemark with
      | true =>
          rw [List.filter_cons_of_neg (by simp [h]), ih, partsOf, (part_of_isRemark source h).1]
          rfl
      | false =>
          rw [List.filter_cons_of_pos (by simp [h]), partsOf, partsOf]
          cases part source c (c.toNode source) <;> simpa [fielded] using ih

/-- Comments have no part in the tidy list of children. -/
theorem tidyItems_unfielded_partsOf_filter (source : String) (children : List Concrete) :
    tidyItems (unfielded (partsOf source (children.filter fun c => !c.isRemark))) =
      tidyItems (unfielded (partsOf source children)) := by
  induction children with
  | nil => rfl
  | cons c rest ih =>
      cases h : c.isRemark with
      | true =>
          obtain ⟨hpart, hremark⟩ := part_of_isRemark source h
          rw [List.filter_cons_of_neg (by simp [h]), ih, partsOf, hpart]
          exact (if_pos hremark).symm
      | false =>
          rw [List.filter_cons_of_pos (by simp [h]), partsOf, partsOf]
          cases part source c (c.toNode source) with
          | child v =>
              change tidyItems (v :: unfielded _) = tidyItems (v :: unfielded _)
              rw [tidyItems, tidyItems, ih]
          | field name v => exact ih
          | nothing => exact ih

/-! ### One outline, one tidy form -/

/-- What a child adds depends on its outline and on the tidy form of the node it becomes. -/
theorem tidy_part_congr {source source' : String} {c c' : Concrete} {n n' : Node}
    (h : c.outline source = c'.outline source') (hn : n.tidy = n'.tidy)
    (hbare : c.info.named = false → c.isLeaf = true) :
    (part source c n).tidy = (part source' c' n').tidy := by
  obtain ⟨hfield, hkind, hnamed, hleaf, htext, -⟩ := outline_eq_iff.1 h
  have hkept : c.keptAsText = c'.keptAsText := by
    rw [keptAsText, keptAsText, hfield, hnamed, hleaf]
  have hdelimiter : c.isDelimiter = c'.isDelimiter := by
    rw [isDelimiter, isDelimiter, hfield, hnamed, hkind]
  have hvalue : (c.partValue source n).tidy = (c'.partValue source' n').tidy := by
    rw [partValue, partValue, ← hkept]
    split
    · next htrue => rw [htext (isLeaf_of_keptAsText hbare htrue)]
    · rw [← Node.toValue_tidy, ← Node.toValue_tidy, hn]
  rw [part_eq, part_eq, ← hfield, ← hdelimiter]
  cases c.info.field with
  | some name => rw [Part.tidy, Part.tidy, hvalue]
  | none =>
      cases c.isDelimiter with
      | true => rfl
      | false => exact congrArg Part.child hvalue

/-- Children of one outline make up fields of one tidy form, since comments add nothing to it. -/
theorem tidy_partsOf_congr {source source' : String} {children children' : List Concrete}
    (h : outlines source children = outlines source' children')
    (hstep : ∀ c ∈ children, ∀ c', c.outline source = c'.outline source' →
      (part source c (c.toNode source)).tidy = (part source' c' (c'.toNode source')).tidy) :
    tidyFields (fieldsOf (partsOf source children)) =
        tidyFields (fieldsOf (partsOf source' children')) ∧
      tidyItems (unfielded (partsOf source children)) =
        tidyItems (unfielded (partsOf source' children')) := by
  have hkept : (partsOf source (children.filter fun c => !c.isRemark)).map Part.tidy =
      (partsOf source' (children'.filter fun c => !c.isRemark)).map Part.tidy := by
    rw [outlines_eq_map, outlines_eq_map, map_eq_map_iff_forall₂] at h
    rw [partsOf_eq_map, partsOf_eq_map, List.map_map, List.map_map, map_eq_map_iff_forall₂]
    exact forall₂_imp_of_mem h fun a ha b _ => hstep a (List.mem_of_mem_filter ha) b
  constructor
  · have hfielded := congrArg fielded hkept
    rw [fielded_map_tidy, fielded_map_tidy, fielded_partsOf_filter,
      fielded_partsOf_filter] at hfielded
    rw [fieldsOf_eq_foldl, fieldsOf_eq_foldl]
    exact tidyFields_foldl_addField_congr hfielded rfl
  · have hunfielded := congrArg unfielded hkept
    rw [unfielded_map_tidy, unfielded_map_tidy] at hunfielded
    rw [← tidyItems_unfielded_partsOf_filter source children,
      ← tidyItems_unfielded_partsOf_filter source' children', tidyItems_eq_filter,
      tidyItems_eq_filter, hunfielded]

/-- **One outline, one tidy form.** -/
theorem tidy_toNode_eq {source source' : String} {c c' : Concrete} (hbare : c.TokensBare)
    (h : c.outline source = c'.outline source') :
    (c.toNode source).tidy = (c'.toNode source').tidy := by
  induction c using inductionOn generalizing c' with
  | mk info children ih =>
      obtain ⟨-, hkind, -, hleaf, htext, houtlines⟩ := outline_eq_iff.1 h
      have hplain := Info.plain_treeKind_congr source source' hkind
      cases hc : (mk info children).isLeaf with
      | true =>
          rw [toNode_of_isLeaf hc, toNode_of_isLeaf (hleaf ▸ hc), htext hc]
          simp [Node.tidy, hplain]
      | false =>
          have hbelow := (tokensBare_iff.1 hbare).2
          obtain ⟨hfields, hchildren⟩ := tidy_partsOf_congr houtlines fun a ha b hab =>
            tidy_part_congr hab (ih a ha (hbelow a ha) hab) (tokensBare_iff.1 (hbelow a ha)).1
          rw [toNode_of_not_isLeaf hc, toNode_of_not_isLeaf (hleaf ▸ hc), tidy_finish, tidy_finish,
            hkind]
          simp only [Node.tidy, tidyFields_insert, tidy, hplain, hfields, hchildren]

end Concrete

/-! ### Comparison -/

namespace Node

/-- Trees of one tidy form have subjects of one tidy form. -/
theorem subject_tidy_congr {a b : Node} (h : a.tidy = b.tidy) (target : Option String) :
    (a.subject target).map tidy = (b.subject target).map tidy := by
  cases target with
  | none => exact congrArg some h
  | some name => rw [subject, subject, ← findContract_tidy, ← findContract_tidy, h]

/-- The subject of a tree whose root is no comment is no comment. -/
theorem subject_not_comment {root node : Node} {target : Option String}
    (hkind : root.kind ∉ Kind.comments) (h : root.subject target = some node) :
    node.kind ∉ Kind.comments := by
  cases target with
  | none =>
      obtain rfl := Option.some.inj h
      exact hkind
  | some name =>
      rw [(mem_nodes_of_findContract h).2]
      decide

/-- Trees of one tidy form compare as equal, if they have what is to be compared. -/
theorem equivalent_of_tidy_eq {a b : Node} (ha : a.Distinct) (hb : b.Distinct)
    (hkind : a.kind ∉ Kind.comments) (h : a.tidy = b.tidy) (target : Option String) :
    a.equivalent b target = if (a.subject target).isSome then .ok true
      else .error (.contractMissing (target.getD "")) := by
  have hkind' : b.kind ∉ Kind.comments := by
    have hplain : a.kind.plain = b.kind.plain := congrArg kind h
    rwa [← Kind.plain_mem_comments_iff, ← hplain, Kind.plain_mem_comments_iff]
  have hsubjects := subject_tidy_congr h target
  cases hx : a.subject target with
  | none =>
      have hy : b.subject target = none := by simpa [hx] using hsubjects.symm
      rw [equivalent, compareWithout_eq_iff ha hb, hx, hy]
      exact .missing
  | some x =>
      obtain ⟨y, hy, hxy⟩ : ∃ y, b.subject target = some y ∧ y.tidy = x.tidy := by
        simpa [hx, eq_comm] using hsubjects
      have hxdistinct := ha.of_subject hx
      have hydistinct := hb.of_subject hy
      have hxkind := subject_not_comment hkind hx
      have hsame : (x.without Kind.comments).same (y.without Kind.comments) = true := by
        have htidy : x.toValue.tidy = y.toValue.tidy := by rw [← toValue_tidy, ← hxy, toValue_tidy]
        have hof : x.toValue.isOf Kind.comments = false := by simpa [isOf_toValue] using hxkind
        rw [← same_toValue, toValue_without, toValue_without]
        exact Value.same_without_of_tidy_eq hxdistinct hydistinct hof htidy
      rw [equivalent, compareWithout_eq_iff ha hb, hx, hy]
      exact .both hxdistinct hydistinct hxkind (subject_not_comment hkind' hy) hsame

end Node

namespace Concrete

/-- **Comments and formatting make no difference.** Let the concrete trees of two accepted sources
have one outline, that is, agree in all but positions and comments that stand between the parts of
a node. Then the sources compare as equal, as a whole and for every contract that one of them
declares, and a contract that neither declares is reported as missing. -/
theorem equivalent_of_outline_eq (source source' : String) (c c' : Concrete) (tree tree' : Node)
    (htree : c.toTree source = .ok tree) (htree' : c'.toTree source' = .ok tree')
    (hroot : c.info.kind = "source_file") (hbare : c.TokensBare)
    (houtline : c.outline source = c'.outline source') :
    tree.equivalent tree' none = .ok true ∧
      (∀ name, tree.Declares name ∨ tree'.Declares name →
        tree.equivalent tree' (some name) = .ok true) ∧
      ∀ name, ¬ tree.Declares name → ¬ tree'.Declares name →
        tree.equivalent tree' (some name) = .error (.contractMissing name) := by
  obtain rfl := eq_toNode_of_toTree htree
  obtain rfl := eq_toNode_of_toTree htree'
  have htidy := tidy_toNode_eq hbare houtline
  have hkind : (c.toNode source).kind ∉ Kind.comments := by
    rw [kind_toNode, Info.treeKind_mem_comments_iff, hroot]
    decide
  have hcompare := Node.equivalent_of_tidy_eq (distinct_toNode source c)
    (distinct_toNode source' c') hkind htidy
  have hdeclares : ∀ name, (c.toNode source).Declares name ↔ (c'.toNode source').Declares name := by
    intro name
    have hfound := congrArg Option.isSome (Node.subject_tidy_congr htidy (some name))
    rw [Option.isSome_map, Option.isSome_map] at hfound
    rw [← Node.isSome_findContract_iff, ← Node.isSome_findContract_iff]
    exact Bool.eq_iff_iff.1 hfound
  refine ⟨hcompare none, fun name h => ?_, fun name h _ => ?_⟩
  · rw [← hdeclares, or_self, ← Node.isSome_findContract_iff] at h
    rw [hcompare, Node.subject, if_pos h]
  · rw [← Node.isSome_findContract_iff] at h
    rw [hcompare, Node.subject, if_neg h]
    rfl

/-- A contract in one row that holds nothing but the nodes given. -/
def contractAround (row byte length : Nat) (inside : List Concrete) : Concrete :=
  .mk (.inRow none "contract_declaration" true row 0 byte length) [
    .mk (.inRow none "contract" false row 0 byte 8) [],
    .mk (.inRow (some "name") "identifier" true row 9 (byte + 9) 1) [],
    .mk (.inRow (some "body") "contract_body" true row 11 (byte + 11) (length - 11))
      (.mk (.inRow none "\x7b" false row 11 (byte + 11) 1) [] :: inside ++
        [.mk (.inRow none "\x7d" false row (length - 1) (byte + length - 1) 1) []])]

/-- A file with an empty contract. -/
def withoutRemarks : Concrete :=
  .mk (.inRow none "source_file" true 0 0 0 14) [contractAround 0 0 14 []]

/-- The same contract further down, with comments before it and in it. -/
def withRemarks : Concrete :=
  .mk ⟨none, "source_file", true, false, false, false, 0, 27, ⟨0, 0⟩, ⟨1, 22⟩⟩ [
    .mk (.inRow none "comment" true 0 0 0 4) [],
    contractAround 1 5 22 [.mk (.inRow none "comment" true 1 13 18 7) []]]

/-- The two files compare as equal, and so do their contracts. -/
theorem equivalent_withRemarks :
    ∃ tree tree', withoutRemarks.toTree "contract A \x7b \x7d" = .ok tree ∧
      withRemarks.toTree "// a\ncontract A \x7b /* b */ \x7d" = .ok tree' ∧
      tree.equivalent tree' none = .ok true ∧ tree.equivalent tree' (some "A") = .ok true ∧
      tree.equivalent tree' (some "B") = .error (.contractMissing "B") := by
  refine ⟨_, _, rfl, rfl, ?_⟩
  have houtline : withoutRemarks.outline "contract A \x7b \x7d" =
      withRemarks.outline "// a\ncontract A \x7b /* b */ \x7d" := by
    decide
  obtain ⟨hwhole, hdeclared, hmissing⟩ := equivalent_of_outline_eq _ _ withoutRemarks withRemarks
    _ _ rfl rfl rfl (by decide) houtline
  exact ⟨hwhole, hdeclared "A" (by decide), hmissing "B" (by decide) (by decide)⟩

end Concrete

end ContractQuery
