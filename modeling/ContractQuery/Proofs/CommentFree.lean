import ContractQuery.Proofs.Extraction
import ContractQuery.Proofs.Faults
import ContractQuery.Proofs.Formatting
import ContractQuery.Proofs.Leaves

/-!
# Comments Deleted before Conversion

Comments can be pruned from a converted tree, or deleted from the concrete tree before it is
converted. The two are not always the same. A node whose children are all comments has children,
so it becomes a node with a list of children, and the list is empty once it is pruned. With its
comments deleted the same node is a leaf, and becomes a node with a text.

What pruning amounts to in every case is a conversion that takes comments for delimiters
(`Concrete.muted`): they make their parent a node with children and add nothing to it. Deletion
(`Concrete.uncommented`) gives the same tree if no node has nothing but comments
(`Concrete.Solid`), and where conversion hides nothing it does so only then.

## Main results

* `Concrete.without_assemble`: filtering commutes with assembling a node from its parts.
* `Concrete.without_toNode`: **pruning takes comments for delimiters**.
* `Concrete.infos_uncommented`: deletion leaves all nodes but comments as they are.
* `Concrete.prune_toTree`: **when pruning is the same as deletion**.
-/

namespace ContractQuery

/-! ### Filtering fields -/

namespace Value

variable {kinds : List Kind} {fields : Record Value}

/-- No field is a node of some kinds. -/
def Clear (kinds : List Kind) (fields : Record Value) : Prop :=
  ∀ e ∈ fields, e.2.isOf kinds = false

/-- Where no field is dropped, fields are filtered one by one. -/
theorem Clear.withoutFields_eq_map (h : Clear kinds fields) :
    withoutFields kinds fields = fields.map fun e => (e.1, e.2.without kinds) := by
  rw [withoutFields_eq_filterMap, ← List.filterMap_eq_map]
  refine List.filterMap_congr fun e he => ?_
  rw [h e he]
  rfl

/-- Where no field is left out, look-up finds the filtered value. -/
theorem Clear.get?_withoutFields (h : Clear kinds fields) (name : String) :
    Record.get? (withoutFields kinds fields) name =
      (Record.get? fields name).map (without kinds) := by
  rw [h.withoutFields_eq_map, Record.get?_map]

/-- Fields stay clear when one is set to a value that is not of the kinds. -/
theorem Clear.insert (h : Clear kinds fields) (name : String) {v : Value}
    (hv : v.isOf kinds = false) : Clear kinds (Record.insert fields name v) :=
  Concrete.forall_mem_insert (P := fun w => w.isOf kinds = false) h name hv

/-- Filtering commutes with setting a field. -/
theorem Clear.withoutFields_insert (h : Clear kinds fields) (name : String) {v : Value}
    (hv : v.isOf kinds = false) :
    withoutFields kinds (Record.insert fields name v) =
      Record.insert (withoutFields kinds fields) name (v.without kinds) := by
  rw [(h.insert name hv).withoutFields_eq_map, h.withoutFields_eq_map, Record.map_insert]

end Value

/-- Filtering commutes with setting a field of a node. -/
theorem Node.without_withField {kinds : List Kind} {n : Node} (h : Value.Clear kinds n.fields)
    (name : String) {v : Value} (hv : v.isOf kinds = false) :
    (n.withField name v).without kinds = (n.without kinds).withField name (v.without kinds) := by
  simp only [without, withField, h.withoutFields_insert name hv]

namespace Concrete

open Value

section Filtering

variable {kinds : List Kind} {fields added : Record Value}

/-! ### Filtering and conversion -/

/-- What a value is joined to is not of the kinds if the value is not. -/
theorem isOf_joined {v : Value} (hv : v.isOf kinds = false) (o : Option Value) :
    (joined o v).isOf kinds = false := by
  unfold joined
  split
  · exact hv
  · rfl
  · rfl

/-- Filtering commutes with adding a value to those of its name. -/
theorem without_joined {o : Option Value} {v : Value} (ho : ∀ w ∈ o, w.isOf kinds = false)
    (hv : v.isOf kinds = false) :
    (joined o v).without kinds = joined (o.map (without kinds)) (v.without kinds) := by
  rcases o with _ | w
  · rfl
  · have hw := ho w rfl
    cases w <;> simp_all [joined, without, withoutItems]

/-- Fields stay clear when a value is added that is not of the kinds. -/
theorem clear_addField (h : Clear kinds fields) (name : String) {v : Value}
    (hv : v.isOf kinds = false) : Clear kinds (addField fields name v) := by
  rw [addField_eq_insert]
  exact h.insert name (isOf_joined hv _)

/-- Filtering commutes with adding a field. -/
theorem withoutFields_addField (h : Clear kinds fields) (name : String) {v : Value}
    (hv : v.isOf kinds = false) :
    withoutFields kinds (addField fields name v) =
      addField (withoutFields kinds fields) name (v.without kinds) := by
  have hold : ∀ w ∈ Record.get? fields name, w.isOf kinds = false := fun w hw =>
    h _ (Record.mem_of_get?_eq_some hw)
  rw [addField_eq_insert, addField_eq_insert, h.withoutFields_insert name (isOf_joined hv _),
    without_joined hold hv, h.get?_withoutFields]

/-- Fields stay clear when clear fields are added one by one. -/
theorem clear_foldl_addField (hadded : Clear kinds added) (h : Clear kinds fields) :
    Clear kinds (added.foldl (fun fields e => addField fields e.1 e.2) fields) := by
  induction added generalizing fields with
  | nil => exact h
  | cons e added ih =>
      obtain ⟨he, hadded⟩ := List.forall_mem_cons.mp hadded
      exact ih hadded (clear_addField h e.1 he)

/-- Filtering commutes with adding one field after the other. -/
theorem withoutFields_foldl_addField (hadded : Clear kinds added) (h : Clear kinds fields) :
    withoutFields kinds (added.foldl (fun fields e => addField fields e.1 e.2) fields) =
      (added.map fun e => (e.1, e.2.without kinds)).foldl
        (fun fields e => addField fields e.1 e.2) (withoutFields kinds fields) := by
  induction added generalizing fields with
  | nil => rfl
  | cons e added ih =>
      obtain ⟨he, hadded⟩ := List.forall_mem_cons.mp hadded
      rw [List.foldl_cons, List.map_cons, List.foldl_cons, ← withoutFields_addField h e.1 he]
      exact ih hadded (clear_addField h e.1 he)

/-- Filtering commutes with what the kind adds. -/
theorem without_finish (kind : String) {n : Node} (h : Clear kinds n.fields) :
    (finish kind n).without kinds = finish kind (n.without kinds) := by
  have hname : (n.without kinds).name? = n.name? := by
    rw [Node.name?, Node.name?, Node.field?, Node.field?, Node.fields_without,
      h.get?_withoutFields, Option.bind_map]
    congr 1
    funext v
    exact text?_without kinds v
  rw [finish_eq_foldl, finish_eq_foldl, hname]
  clear hname
  generalize additions kind n.name?.isNone = added
  induction added generalizing n with
  | nil => rfl
  | cons e added ih =>
      have hset := Node.without_withField h e.1 (v := .scalar e.2) rfl
      rw [Value.without] at hset
      rw [List.foldl_cons, List.foldl_cons, ← hset]
      exact ih (h.insert e.1 rfl)

/-- What a child adds, filtered. -/
def Part.without (kinds : List Kind) : Part → Part
  | field name v => field name (v.without kinds)
  | child v => if v.isOf kinds then nothing else child (v.without kinds)
  | nothing => nothing

/-- The filtered parts without a field name are the parts without one, filtered. -/
theorem unfielded_map_without (kinds : List Kind) (parts : List Part) :
    unfielded (parts.map (Part.without kinds)) = withoutItems kinds (unfielded parts) := by
  rw [unfielded, unfielded, withoutItems_eq_filterMap, List.filterMap_map,
    List.filterMap_filterMap]
  refine List.filterMap_congr fun p _ => ?_
  cases p with
  | child v => cases hof : v.isOf kinds <;> simp [Part.without, hof]
  | field name v => rfl
  | nothing => rfl

/-- The filtered parts with a field name are the parts with one, filtered. -/
theorem fielded_map_without (kinds : List Kind) (parts : List Part) :
    fielded (parts.map (Part.without kinds)) =
      (fielded parts).map fun e => (e.1, e.2.without kinds) := by
  rw [fielded, fielded, List.filterMap_map, List.map_filterMap]
  refine List.filterMap_congr fun p _ => ?_
  cases p with
  | child v => cases hof : v.isOf kinds <;> simp [Part.without, hof]
  | field name v => rfl
  | nothing => rfl

/-- **Filtering commutes with assembling a node**, where no part with a field name is dropped. -/
theorem without_assemble (source : String) (i : Info) (leaf : Bool) {parts : List Part}
    (h : Clear kinds (fielded parts)) :
    (assemble source i leaf parts).without kinds =
      assemble source i leaf (parts.map (Part.without kinds)) := by
  cases leaf with
  | true => rfl
  | false =>
      have hclear : Clear kinds (fieldsOf parts) := by
        rw [fieldsOf_eq_foldl]
        exact clear_foldl_addField h (List.forall_mem_nil _)
      have hfields : withoutFields kinds (fieldsOf parts) =
          fieldsOf (parts.map (Part.without kinds)) := by
        rw [fieldsOf_eq_foldl, fieldsOf_eq_foldl, fielded_map_without]
        exact withoutFields_foldl_addField h (List.forall_mem_nil _)
      have hnode : (⟨i.treeKind source, some i.span, fieldsOf parts⟩ : Node).without kinds =
          ⟨i.treeKind source, some i.span, fieldsOf (parts.map (Part.without kinds))⟩ := by
        rw [Node.without, hfields]
      rw [assemble, assemble, if_neg Bool.false_ne_true, if_neg Bool.false_ne_true,
        without_finish i.kind (hclear.insert "children" rfl), Node.without_withField hclear _ rfl,
        Value.without, hnode, unfielded_map_without]

/-- What a child is for its parent may be filtered before or after it is made a part. -/
theorem without_partValue (kinds : List Kind) (source : String) (c : Concrete) (n : Node) :
    (c.partValue source n).without kinds = c.partValue source (n.without kinds) := by
  unfold partValue
  split
  · rfl
  · exact (Node.toValue_without n kinds).symm

/-- A child whose node is not dropped adds this node, filtered. -/
theorem without_part (source : String) (c : Concrete) {n : Node} (hn : n.kind ∉ kinds) :
    (part source c n).without kinds = part source c (n.without kinds) := by
  have hof : (c.partValue source n).isOf kinds = false := by
    unfold partValue
    split
    · rfl
    · simpa [Node.isOf_toValue] using hn
  rw [part_eq, part_eq, ← without_partValue]
  cases c.info.field with
  | some name => rfl
  | none =>
      cases c.isDelimiter with
      | true => rfl
      | false => exact if_neg (by simp [hof])

end Filtering

/-! ### Comments as delimiters -/

/-- All comments stand between the parts of their parents: they are named leaves without a field
name. -/
def CommentsAside (c : Concrete) : Prop :=
  ∀ p ∈ c.subtrees, p.node.info.kind = "comment" → p.node.isRemark = true

instance (c : Concrete) : Decidable c.CommentsAside :=
  inferInstanceAs (Decidable (∀ p ∈ c.subtrees, _ → _))

/-- Comments stand aside in a tree if they do at its root and in all its children. -/
theorem commentsAside_iff {c : Concrete} :
    c.CommentsAside ↔ (c.info.kind = "comment" → c.isRemark = true) ∧
      ∀ child ∈ c.children, child.CommentsAside :=
  forall_mem_subtrees_iff (P := fun d => d.info.kind = "comment" → d.isRemark = true)

/-- A child of the kind of comments is a remark where comments stand aside. -/
theorem CommentsAside.isRemark_of_mem {c d : Concrete} (h : c.CommentsAside) (hd : d ∈ c.children)
    (hkind : d.info.kind = "comment") : d.isRemark = true :=
  (commentsAside_iff.mp ((commentsAside_iff.mp h).2 d hd)).1 hkind

/-- The node as a token that its parent leaves out. -/
def Info.asDelimiter (i : Info) : Info := { i with field := none, kind := ";", named := false }

mutual

/-- The concrete tree with a delimiter in the place of each comment below the root. -/
def muted : Concrete → Concrete
  | mk info children => mk info (mutedIn children)

/-- The concrete trees with a delimiter in the place of each comment. -/
def mutedIn : List Concrete → List Concrete
  | [] => []
  | c :: rest =>
    (if c.info.kind = "comment" then mk c.info.asDelimiter [] else c.muted) :: mutedIn rest

end

/-- Muting the children leaves what the root says. -/
@[simp] theorem info_muted (c : Concrete) : c.muted.info = c.info := by
  obtain ⟨info, children⟩ := c
  rw [muted]
  rfl

/-- A muted tree has as many children as before. -/
@[simp] theorem isLeaf_muted (c : Concrete) : c.muted.isLeaf = c.isLeaf := by
  obtain ⟨info, _ | ⟨c, rest⟩⟩ := c <;> simp [muted, mutedIn, isLeaf, Concrete.children]

/-- What a child adds depends on what it says, on whether it is a leaf, and on its node. -/
theorem part_congr {source : String} {c c' : Concrete} (hinfo : c.info = c'.info)
    (hleaf : c.isLeaf = c'.isLeaf) (n : Node) : part source c n = part source c' n := by
  rw [part, part, hinfo, hleaf]

/-- Once filtered, a comment between the parts adds nothing, as a delimiter does. -/
theorem without_part_of_isRemark (source : String) {c : Concrete} (h : c.isRemark = true) :
    (part source c (c.toNode source)).without Kind.comments = .nothing := by
  obtain ⟨hpart, hremark⟩ := part_of_isRemark source h
  rw [hpart, Part.without, if_pos (isOf_of_isRemark hremark)]

/-- No child with a field name is a comment. -/
theorem clear_fielded_partsOf (source : String) {children : List Concrete}
    (h : ∀ c ∈ children, c.CommentsAside) :
    Clear Kind.comments (fielded (partsOf source children)) := by
  intro e he
  rw [partsOf_eq_map, fielded, List.filterMap_map] at he
  obtain ⟨c, hc, he⟩ := List.mem_filterMap.mp he
  rw [Function.comp_apply, part_toNode_eq] at he
  cases hfield : c.info.field with
  | none => cases hd : c.isDelimiter <;> simp [hfield, hd] at he
  | some name =>
      rw [hfield] at he
      obtain rfl := Option.some.inj he
      have hkind : c.info.kind ≠ "comment" := by
        intro hkind
        have hnone := (isRemark_iff.mp ((commentsAside_iff.mp (h c hc)).1 hkind)).1
        simp [hfield] at hnone
      simp [isOf_value, isComment, hkind]

/-- The filtered parts of several nodes are their parts with delimiters for comments. -/
theorem map_without_partsOf {source : String} {children : List Concrete}
    (haside : ∀ c ∈ children, c.CommentsAside)
    (hstep : ∀ c ∈ children, (c.toNode source).without Kind.comments = c.muted.toNode source) :
    (partsOf source children).map (Part.without Kind.comments) =
      partsOf source (mutedIn children) := by
  induction children with
  | nil => rfl
  | cons c rest ih =>
      obtain ⟨hc, hrest⟩ := List.forall_mem_cons.mp haside
      obtain ⟨hnode, hstep⟩ := List.forall_mem_cons.mp hstep
      rw [partsOf, mutedIn, partsOf, List.map_cons, ih hrest hstep]
      congr 1
      split
      · next hkind => exact without_part_of_isRemark source ((commentsAside_iff.mp hc).1 hkind)
      · next hkind =>
          have hn : (c.toNode source).kind ∉ Kind.comments := by
            rwa [kind_toNode, Info.treeKind_mem_comments_iff]
          rw [without_part source c hn, hnode]
          exact part_congr (info_muted c).symm (isLeaf_muted c).symm _

/-- **Pruning takes comments for delimiters.** -/
theorem without_toNode {source : String} {c : Concrete} (h : c.CommentsAside) :
    (c.toNode source).without Kind.comments = c.muted.toNode source := by
  induction c using inductionOn with
  | mk info children ih =>
      have hbelow : ∀ c ∈ children, c.CommentsAside := (commentsAside_iff.mp h).2
      have hleaf : (mutedIn children).isEmpty = children.isEmpty := by
        cases children <;> rfl
      have hparts := map_without_partsOf hbelow fun c hc => ih c hc (hbelow c hc)
      rw [muted, toNode, toNode, hleaf, ← hparts]
      exact without_assemble source info _ (clear_fielded_partsOf source hbelow)

/-! ### Comments deleted -/

mutual

/-- The concrete tree with all comments below the root deleted. -/
def uncommented : Concrete → Concrete
  | mk info children => mk info (uncommentedIn children)

/-- The concrete trees that are no comments, with all comments below them deleted. -/
def uncommentedIn : List Concrete → List Concrete
  | [] => []
  | c :: rest =>
    if c.info.kind = "comment" then uncommentedIn rest
    else c.uncommented :: uncommentedIn rest

end

/-- Dropping comments below the root leaves what the root says. -/
@[simp] theorem info_uncommented (c : Concrete) : c.uncommented.info = c.info := by
  obtain ⟨info, children⟩ := c
  rw [uncommented]
  rfl

/-- The children without comments are those of other kinds, each without comments. -/
theorem children_uncommented (c : Concrete) :
    c.uncommented.children =
      (c.children.filter fun d => d.info.kind ≠ "comment").map uncommented := by
  obtain ⟨info, children⟩ := c
  rw [uncommented, Concrete.children, Concrete.children]
  induction children with
  | nil => rfl
  | cons c rest ih => by_cases h : c.info.kind = "comment" <;> simp [uncommentedIn, h, ih]

/-- A remark has no subtree but itself. -/
theorem subtreesBelow_of_isRemark {c : Concrete} (h : c.isRemark = true) (above : List Info) :
    c.subtreesBelow above = [⟨above, c⟩] := by
  obtain ⟨info, children⟩ := c
  have hleaf : children = [] := List.isEmpty_iff.mp (isRemark_iff.mp h).2.2.1
  rw [hleaf, subtreesBelow, subtreesIn]

/-- What a node says, and what the nodes above it say. -/
def Subtree.infos (p : Subtree) : Info × List Info := (p.node.info, p.above)

mutual

/-- **Deletion leaves all else as it is**: every node that is no comment, in order, with what it
says and below the same nodes. -/
theorem infos_uncommented : ∀ (c : Concrete) (above : List Info), c.CommentsAside →
    c.info.kind ≠ "comment" →
    (c.uncommented.subtreesBelow above).map Subtree.infos =
      ((c.subtreesBelow above).filter fun p => p.node.info.kind ≠ "comment").map Subtree.infos
  | mk info children, above, haside, hkind => by
      have hbelow := (commentsAside_iff.mp haside).2
      rw [uncommented, subtreesBelow, subtreesBelow, List.map_cons,
        infos_uncommentedIn children (info :: above) hbelow,
        List.filter_cons_of_pos (by simpa using hkind), List.map_cons]
      rfl

/-- Deletion leaves all nodes of several trees that are no comments. -/
theorem infos_uncommentedIn : ∀ (children : List Concrete) (above : List Info),
    (∀ c ∈ children, c.CommentsAside) →
    (subtreesIn (uncommentedIn children) above).map Subtree.infos =
      ((subtreesIn children above).filter fun p => p.node.info.kind ≠ "comment").map Subtree.infos
  | [], above, _ => rfl
  | c :: rest, above, haside => by
      obtain ⟨hc, hrest⟩ := List.forall_mem_cons.mp haside
      rw [uncommentedIn, subtreesIn, List.filter_append, List.map_append,
        ← infos_uncommentedIn rest above hrest]
      split
      · next hkind =>
          rw [subtreesBelow_of_isRemark ((commentsAside_iff.mp hc).1 hkind)]
          simp [hkind]
      · next hkind => rw [subtreesIn, List.map_append, infos_uncommented c above hc hkind]

end

/-- Without comments, comments stand aside. -/
theorem commentsAside_uncommented {c : Concrete} (h : c.CommentsAside)
    (hkind : c.info.kind ≠ "comment") : c.uncommented.CommentsAside := by
  intro p hp hcomment
  have hinfos : p.infos ∈ c.uncommented.subtrees.map Subtree.infos := List.mem_map_of_mem hp
  rw [subtrees, infos_uncommented c [] h hkind] at hinfos
  obtain ⟨q, hq, heq⟩ := List.mem_map.mp hinfos
  have hinfo : q.node.info = p.node.info := congrArg Prod.fst heq
  have hne := (List.mem_filter.mp hq).2
  simp [hinfo, hcomment] at hne

mutual

/-- Without comments there is nothing to take for a delimiter. -/
theorem muted_uncommented : ∀ c : Concrete, c.uncommented.muted = c.uncommented
  | mk info children => by rw [uncommented, muted, mutedIn_uncommentedIn children]

/-- There is nothing to mute in trees without comments. -/
theorem mutedIn_uncommentedIn : ∀ children : List Concrete,
    mutedIn (uncommentedIn children) = uncommentedIn children
  | [] => rfl
  | c :: rest => by
      rw [uncommentedIn]
      split
      · exact mutedIn_uncommentedIn rest
      · next hkind =>
          rw [mutedIn, info_uncommented, if_neg hkind, muted_uncommented c,
            mutedIn_uncommentedIn rest]

end

/-- Pruning finds nothing in what was converted without comments. -/
theorem without_toNode_uncommented (source : String) {c : Concrete} (h : c.CommentsAside)
    (hkind : c.info.kind ≠ "comment") :
    (c.uncommented.toNode source).without Kind.comments = c.uncommented.toNode source := by
  rw [without_toNode (commentsAside_uncommented h hkind), muted_uncommented]

/-! ### Nodes with nothing but comments -/

/-- Whether a node has children, all of which are comments. -/
def isHollow (c : Concrete) : Bool :=
  !c.isLeaf && c.children.all fun d => d.info.kind == "comment"

/-- No node has nothing but comments. -/
def Solid (c : Concrete) : Prop := ∀ p ∈ c.subtrees, p.node.isHollow = false

instance (c : Concrete) : Decidable c.Solid :=
  inferInstanceAs (Decidable (∀ p ∈ c.subtrees, _))

/-- A tree is solid if its root and all its children are. -/
theorem solid_iff {c : Concrete} :
    c.Solid ↔ c.isHollow = false ∧ ∀ child ∈ c.children, child.Solid :=
  forall_mem_subtrees_iff (P := fun d => d.isHollow = false)

/-- Leaves are solid. -/
theorem solid_of_isLeaf {c : Concrete} (h : c.isLeaf = true) : c.Solid := by
  intro p hp
  rw [isHollow, isLeaf_of_mem_subtrees h p hp]
  rfl

/-- Deletion makes leaves of the nodes that had nothing but comments. -/
theorem isLeaf_uncommented (c : Concrete) : c.uncommented.isLeaf = (c.isLeaf || c.isHollow) := by
  rw [isHollow, isLeaf, children_uncommented, isLeaf]
  cases c.children with
  | nil => rfl
  | cons d rest =>
      rw [Bool.eq_iff_iff]
      simp

/-- A node that is not hollow is a leaf without its comments exactly if it is one with them. -/
theorem isLeaf_muted_eq {c : Concrete} (h : c.isHollow = false) :
    c.muted.isLeaf = c.uncommented.isLeaf := by
  rw [isLeaf_muted, isLeaf_uncommented, h, Bool.or_false]

/-- A comment adds as little when it is a delimiter as when it is deleted. -/
theorem parts_uncommentedIn {source : String} {children : List Concrete}
    (hstep : ∀ c ∈ children, c.info.kind ≠ "comment" →
      part source c.muted (c.muted.toNode source) =
        part source c.uncommented (c.uncommented.toNode source)) :
    fielded (partsOf source (mutedIn children)) =
        fielded (partsOf source (uncommentedIn children)) ∧
      unfielded (partsOf source (mutedIn children)) =
        unfielded (partsOf source (uncommentedIn children)) := by
  induction children with
  | nil => exact ⟨rfl, rfl⟩
  | cons c rest ih =>
      obtain ⟨hc, hstep⟩ := List.forall_mem_cons.mp hstep
      obtain ⟨hfielded, hunfielded⟩ := ih hstep
      rw [mutedIn, uncommentedIn, partsOf]
      split
      · exact ⟨hfielded, hunfielded⟩
      · next hkind =>
          rw [partsOf, hc hkind]
          cases part source c.uncommented (c.uncommented.toNode source) with
          | field name v => exact ⟨congrArg ((name, v) :: ·) hfielded, hunfielded⟩
          | child v => exact ⟨hfielded, congrArg (v :: ·) hunfielded⟩
          | nothing => exact ⟨hfielded, hunfielded⟩

/-- A node is assembled from its parts with a field name and from those without, in their order. -/
theorem assemble_congr (source : String) (i : Info) {leaf leaf' : Bool} {parts parts' : List Part}
    (hleaf : leaf = leaf') (hfielded : fielded parts = fielded parts')
    (hunfielded : unfielded parts = unfielded parts') :
    assemble source i leaf parts = assemble source i leaf' parts' := by
  simp only [assemble, fieldsOf_eq_foldl, hleaf, hfielded, hunfielded]

/-- Muted or without comments, a child is the same part if it becomes the same node. -/
theorem part_muted_eq {source : String} {c : Concrete} (hhollow : c.isHollow = false)
    (hnode : c.muted.toNode source = c.uncommented.toNode source) :
    part source c.muted (c.muted.toNode source) =
      part source c.uncommented (c.uncommented.toNode source) := by
  have hinfo : c.muted.info = c.uncommented.info := by rw [info_muted, info_uncommented]
  rw [hnode, part_congr hinfo (isLeaf_muted_eq hhollow)]

/-- Where no node has nothing but comments, it makes no difference whether these are deleted or
taken for delimiters. -/
theorem Solid.toNode_muted_eq {source : String} {c : Concrete} (h : c.Solid) :
    c.muted.toNode source = c.uncommented.toNode source := by
  induction c using inductionOn with
  | mk info children ih =>
      obtain ⟨hhere, hbelow⟩ := solid_iff.mp h
      have hleaf : (mutedIn children).isEmpty = (uncommentedIn children).isEmpty := by
        have hleaf := isLeaf_muted_eq hhere
        rwa [muted, uncommented] at hleaf
      have hstep : ∀ c ∈ children, c.info.kind ≠ "comment" →
          part source c.muted (c.muted.toNode source) =
            part source c.uncommented (c.uncommented.toNode source) := fun c hc _ =>
        part_muted_eq (solid_iff.mp (hbelow c hc)).1 (ih c hc (hbelow c hc))
      obtain ⟨hfielded, hunfielded⟩ := parts_uncommentedIn hstep
      rw [muted, uncommented, toNode, toNode]
      exact assemble_congr source info hleaf hfielded hunfielded

/-- A file with nothing but comments keeps an empty list of children if they are taken for
delimiters, and is a leaf if they are deleted. -/
theorem toNode_of_isHollow (source : String) {c : Concrete} (h : c.isHollow = true)
    (hroot : c.info.kind = "source_file") :
    c.muted.toNode source = ⟨.sourceUnit, some c.info.span, [("children", .list [])]⟩ ∧
      c.uncommented.toNode source =
        ⟨.sourceUnit, some c.info.span, [("text", .text (c.info.textIn source))]⟩ := by
  have hkind : c.info.treeKind source = .sourceUnit := by simp [Info.treeKind, hroot]
  have hdeleted : c.uncommented.isLeaf = true := by rw [isLeaf_uncommented, h, Bool.or_true]
  obtain ⟨info, children⟩ := c
  obtain ⟨hleaf, hall⟩ := Bool.and_eq_true_iff.mp h
  have hnone : uncommentedIn children = [] := by
    rw [uncommented] at hdeleted
    exact List.isEmpty_iff.mp hdeleted
  have hstep : ∀ c ∈ children, c.info.kind ≠ "comment" →
      part source c.muted (c.muted.toNode source) =
        part source c.uncommented (c.uncommented.toNode source) := fun c hc hne =>
    absurd (by simpa using List.all_eq_true.mp hall c hc) hne
  obtain ⟨hfielded, hunfielded⟩ := parts_uncommentedIn hstep
  rw [hnone] at hfielded hunfielded
  constructor
  · have hinner : (mk info children).muted.isLeaf = false := by simpa using hleaf
    rw [toNode_of_not_isLeaf hinner, info_muted, hroot, hkind, fieldsOf_eq_foldl, muted,
      Concrete.children, hfielded, hunfielded]
    rfl
  · rw [toNode_of_isLeaf hdeleted, info_uncommented, hkind]

/-! ### Equal trees -/

/-- A choice of children that takes no comments, and for the others goes by what deletion leaves as
it is, commutes with deletion. -/
theorem filter_children_uncommented {c : Concrete} {f : Concrete → Bool}
    (hcomment : ∀ d ∈ c.children, d.info.kind = "comment" → f d = false)
    (hother : ∀ d ∈ c.children, d.info.kind ≠ "comment" → f d.uncommented = f d) :
    c.uncommented.children.filter f = (c.children.filter f).map uncommented := by
  rw [children_uncommented, List.filter_map, List.filter_filter]
  congr 1
  refine List.filter_congr fun d hd => ?_
  by_cases hkind : d.info.kind = "comment"
  · simp [hkind, hcomment d hd hkind]
  · simp [hkind, hother d hd hkind]

/-- A node without a name gets every field that its kind ever adds. -/
theorem additions_subset (kind : String) (unnamed : Bool) :
    additions kind unnamed ⊆ additions kind true := by
  unfold additions
  split <;> cases unnamed <;> simp

namespace CommentsAside

variable {c : Concrete} (h : c.CommentsAside)

include h

/-- Deletion leaves the children that have a part in comparison. -/
theorem kept_uncommented : c.uncommented.kept = c.kept.map uncommented := by
  refine filter_children_uncommented (fun d hd hkind => ?_) fun d _ hkind => ?_
  · obtain ⟨hfield, hnamed, -, -⟩ := isRemark_iff.mp (h.isRemark_of_mem hd hkind)
    simp [isKept, isComment, keptAsText, hfield, hnamed, hkind]
  · have hfalse : (d.info.kind == "comment") = false := by simpa using hkind
    simp [isKept, isComment, isDelimiter, hfalse]

/-- A node with a name keeps it. -/
theorem isNamed_uncommented (hnamed : c.isNamed = true) : c.uncommented.isNamed = true := by
  have hnames : (c.uncommented.children.filter fun d => d.info.field == some "name") =
      (c.children.filter fun d => d.info.field == some "name").map uncommented := by
    refine filter_children_uncommented (fun d hd hkind => ?_) fun d _ _ => by rw [info_uncommented]
    simp [(isRemark_iff.mp (h.isRemark_of_mem hd hkind)).1]
  unfold isNamed at hnamed ⊢
  rw [hnames]
  split at hnamed
  · next d heq =>
      rw [heq, List.map_singleton]
      simp [isLeaf_uncommented, hnamed]
  · simp at hnamed

/-- Deletion has no field overwritten that was not. -/
theorem keepsNames_uncommented (hkeeps : c.KeepsNames) : c.uncommented.KeepsNames := by
  have hadded : additions c.info.kind (!c.uncommented.isNamed) ⊆
      additions c.info.kind (!c.isNamed) := by
    cases hnamed : c.isNamed with
    | true =>
        rw [h.isNamed_uncommented hnamed]
        exact List.Subset.refl _
    | false => exact additions_subset _ _
  intro d hd name hname hmem
  rw [children_uncommented] at hd
  obtain ⟨e, he, rfl⟩ := List.mem_map.mp hd
  rw [info_uncommented] at hname
  refine hkeeps e (List.mem_of_mem_filter he) name hname ?_
  rw [overwritten, info_uncommented] at hmem
  exact List.cons_subset_cons _ (List.map_subset _ hadded) hmem

/-- If deletion leaves an equal node, it leaves equal children. -/
theorem same_seen_uncommented {source : String} (hkeeps : c.KeepsNames)
    (halike : Alike source source c c.uncommented) {d : Concrete} (hd : d ∈ c.kept) :
    (d.seen source).same (d.uncommented.seen source) = true := by
  have hall := halike.forall₂_kept hkeeps (h.keepsNames_uncommented hkeeps) d.info.field
  have hlabel : (c.uncommented.kept.filter fun e => e.info.field = d.info.field) =
      (c.kept.filter fun e => e.info.field = d.info.field).map uncommented := by
    rw [h.kept_uncommented, List.filter_map]
    simp only [Function.comp_def, info_uncommented]
  rw [hlabel, List.forall₂_map_right_iff, List.forall₂_same] at hall
  exact hall d (List.mem_filter.mpr ⟨hd, by simp⟩)

/-- What pruning leaves equals the tree after deletion exactly if comparison finds no difference
between the concrete tree and the one with its comments deleted. -/
theorem same_uncommented_iff (source : String) (hkind : c.info.kind ≠ "comment") :
    (c.muted.toNode source).same (c.uncommented.toNode source) = true ↔
      Alike source source c c.uncommented := by
  rw [Alike, ← Node.toValue_without, ← Node.toValue_without,
    without_toNode_uncommented source h hkind, without_toNode h, Node.same_toValue]

end CommentsAside

/-- Nodes with nothing but comments are told from leaves. -/
theorem Alike.isHollow_eq_false {source : String} {c : Concrete}
    (h : Alike source source c c.uncommented) : c.isHollow = false := by
  have hleaf := h.isLeaf_eq
  rw [isLeaf_uncommented] at hleaf
  cases hc : c.isLeaf with
  | true => exact (solid_iff.mp (solid_of_isLeaf hc)).1
  | false => simpa [hc] using hleaf.symm

/-- Where conversion hides nothing, deletion leaves an equal tree only if no node has nothing but
comments. -/
theorem Alike.solid {source : String} {c : Concrete} (h : Alike source source c c.uncommented)
    (hc : c.Faithful) (haside : c.CommentsAside) : c.Solid := by
  induction c using inductionOn with
  | mk info children ih =>
      refine solid_iff.mpr ⟨h.isHollow_eq_false, fun d hd => ?_⟩
      have hfaithful := hc.of_mem_children hd
      -- Nothing lies below a child that is a delimiter, a comment or a text.
      by_cases hdelimiter : d.isDelimiter = true
      · exact solid_of_isLeaf (isLeaf_of_isDelimiter hfaithful.tokensBare hdelimiter)
      by_cases hcomment : d.isComment = true
      · have hkind : d.info.kind = "comment" := by simpa using (Bool.and_eq_true_iff.mp hcomment).1
        exact solid_of_isLeaf (isRemark_iff.mp (haside.isRemark_of_mem hd hkind)).2.2.1
      have hkept : d ∈ (mk info children).kept :=
        List.mem_filter.mpr ⟨hd, by simp [isKept, hdelimiter, hcomment]⟩
      obtain ⟨-, -, halike⟩ := seen_inv (haside.same_seen_uncommented hc.keepsNames h hkept)
      cases htext : d.keptAsText with
      | true => exact solid_of_isLeaf (hfaithful.isLeaf_of_keptAsText htext)
      | false => exact ih d hd (halike htext) hfaithful ((commentsAside_iff.mp haside).2 d hd)

/-! ### Pruning and deletion -/

/-- Whether a source is accepted is for the root to say. -/
theorem toTree_eq_ok_iff {source : String} {root : Concrete} {tree : Node} :
    root.toTree source = .ok tree ↔ root.info.hasError = false ∧ root.toNode source = tree := by
  rw [toTree_eq_map_check, check]
  cases root.info.hasError with
  | false => simp [Except.map]
  | true => rcases root.faults with _ | ⟨p, _ | ⟨q, rest⟩⟩ <;> simp [Except.map]

/-- **When pruning is the same as deletion.** Let all comments of an accepted file be named leaves
without a field name. Then its comments can be pruned, which leaves the tree of the file in which
each of them is a delimiter. The file with its comments deleted is accepted as well, and has the
very same tree, spans and order included, if no node has nothing but comments. If the file itself
has nothing but comments, the trees differ: one has an empty list of children, the other one a text.
Where conversion hides nothing, the trees are equal exactly if no node has nothing but comments. -/
theorem prune_toTree (source : String) (c : Concrete) (tree : Node)
    (htree : c.toTree source = .ok tree) (hroot : c.info.kind = "source_file")
    (haside : c.CommentsAside) :
    ∃ count left clean, tree.prune Kind.comments = .ok (count, left) ∧
      c.muted.toTree source = .ok left ∧ c.uncommented.toTree source = .ok clean ∧
      (c.Solid → left = clean) ∧
      (c.isHollow = true → left.fields = [("children", .list [])] ∧
        clean.fields = [("text", .text (c.info.textIn source))] ∧ left.same clean = false) ∧
      (c.Faithful → (left.same clean = true ↔ c.Solid)) := by
  obtain ⟨haccepted, rfl⟩ := toTree_eq_ok_iff.mp htree
  have hkind : c.info.kind ≠ "comment" := by
    rw [hroot]
    decide
  have hnode : (c.toNode source).kind ∉ Kind.comments := by
    rwa [kind_toNode, Info.treeKind_mem_comments_iff]
  have hprune := Node.prune_of_not_mem (distinct_toNode source c) hnode
  rw [without_toNode haside] at hprune
  have hsame := haside.same_uncommented_iff source hkind
  refine ⟨_, c.muted.toNode source, c.uncommented.toNode source, hprune,
    toTree_eq_ok_iff.mpr ⟨by rwa [info_muted], rfl⟩,
    toTree_eq_ok_iff.mpr ⟨by rwa [info_uncommented], rfl⟩, Solid.toNode_muted_eq, ?_, ?_⟩
  · intro hhollow
    obtain ⟨hleft, hclean⟩ := toNode_of_isHollow source hhollow hroot
    refine ⟨by rw [hleft], by rw [hclean], Bool.eq_false_iff.mpr fun htrue => ?_⟩
    simp [(hsame.mp htrue).isHollow_eq_false] at hhollow
  · intro hfaithful
    refine ⟨fun htrue => (hsame.mp htrue).solid hfaithful haside, fun hsolid => ?_⟩
    rw [hsolid.toNode_muted_eq, ← Node.same_toValue]
    exact Value.same_refl (distinct_toNode source c.uncommented)

/-- A file with a comment and nothing else. -/
def loneRemark : Concrete :=
  .mk (.inRow none "source_file" true 0 0 0 4) [.mk (.inRow none "comment" true 0 0 0 4) []]

/-- A file with nothing in it. -/
def blank : Concrete := .mk (.inRow none "source_file" true 0 0 0 0) []

/-- A file with comments before and in a contract has the same tree either way, and a file with
nothing but a comment has not. -/
theorem prune_withRemarks :
    (∃ tree count left, withRemarks.toTree "// a\ncontract A \x7b /* b */ \x7d" = .ok tree ∧
      tree.prune Kind.comments = .ok (count, left) ∧
      withRemarks.uncommented.toTree "// a\ncontract A \x7b /* b */ \x7d" = .ok left) ∧
    ∃ tree count left clean, loneRemark.toTree "// a" = .ok tree ∧
      tree.prune Kind.comments = .ok (count, left) ∧
      loneRemark.uncommented.toTree "// a" = .ok clean ∧ left.same clean = false := by
  constructor
  · obtain ⟨count, left, clean, hprune, -, hclean, hsolid, -, -⟩ :=
      prune_toTree "// a\ncontract A \x7b /* b */ \x7d" withRemarks _ rfl rfl (by decide)
    obtain rfl := hsolid (by decide)
    exact ⟨_, count, left, rfl, hprune, hclean⟩
  · obtain ⟨count, left, clean, hprune, -, hclean, -, hhollow, -⟩ :=
      prune_toTree "// a" loneRemark _ rfl rfl (by decide)
    exact ⟨_, count, left, clean, rfl, hprune, hclean, (hhollow rfl).2.2⟩

/-- The comment of that file can be pruned, but what is left is not the tree of the file without it,
and it compares as different from a file with nothing in it. -/
theorem prune_loneRemark :
    loneRemark.info.kind = "source_file" ∧ loneRemark.CommentsAside ∧
      ∃ tree left, loneRemark.toTree "// a" = .ok tree ∧
        tree.prune Kind.comments = .ok (1, left) ∧
        left.same (loneRemark.uncommented.toNode "// a") = false ∧
        tree.equivalent (blank.toNode "") none = .ok false := by
  have hkind : (loneRemark.toNode "// a").kind ∉ Kind.comments := by decide
  have hblank : (blank.toNode "").kind ∉ Kind.comments := by decide
  refine ⟨rfl, by decide, loneRemark.toNode "// a", _, rfl,
    Node.prune_of_not_mem (distinct_toNode _ _) hkind, rfl, ?_⟩
  exact Node.compareWithout_none_eq (distinct_toNode _ _) (distinct_toNode _ _) hkind hblank

end Concrete

end ContractQuery
