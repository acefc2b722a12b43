import ContractQuery.Concrete.ToTree
import ContractQuery.Proofs.Equality
import ContractQuery.Proofs.Occurrence

/-!
# The Tree of a Concrete Tree

What conversion does to a concrete tree, apart from the grouping of children by field name. A
node becomes a node of the kind and the span that it says, and all that stands below it is made
of the nodes of its children, of scalars, and of lists of these
(`Concrete.forall_mem_fields_toNode`). So the nodes above a node of the tree are those above
the subtree that it comes from. The converse fails: a child that is kept as text hides what is
below it, and a field may be overwritten.

## Main results

* `Concrete.distinct_toNode`: **a converted tree has distinct names**.
* `Concrete.exists_subtree_of_mem_occurrences`: **where the nodes of a converted tree come from**.
-/

namespace ContractQuery

namespace Concrete

/-- Induction over a concrete tree: what holds of a tree whenever it holds of all trees directly
below holds of every tree. -/
theorem inductionOn {motive : Concrete → Prop} (c : Concrete)
    (mk : ∀ info children, (∀ child ∈ children, motive child) → motive (mk info children)) :
    motive c := by
  refine @Concrete.rec motive (fun children => ∀ child ∈ children, motive child) mk ?_ ?_ c
  · simp
  · intro child children hchild hchildren
    exact List.forall_mem_cons.mpr ⟨hchild, hchildren⟩

/-- Each child adds what it adds by itself. -/
theorem partsOf_eq_map (source : String) (children : List Concrete) :
    partsOf source children = children.map fun c => part source c (c.toNode source) := by
  induction children with
  | nil => rfl
  | cons c rest ih => rw [partsOf, ih, List.map_cons]

/-- The tree of an accepted source is the converted concrete tree. -/
theorem eq_toNode_of_toTree {source : String} {root : Concrete} {tree : Node}
    (h : root.toTree source = .ok tree) : tree = root.toNode source := by
  unfold toTree at h
  cases hcheck : root.check with
  | error e => simp [hcheck, bind, Except.bind] at h
  | ok _ => simpa [hcheck, bind, Except.bind, pure, Except.pure, eq_comm] using h

/-! ### What the kind adds -/

/-- The fields that a node gets for its kind. Functions get a name only if they have none. -/
def additions (kind : String) (unnamed : Bool) : List (String × Scalar) :=
  match kind with
  | "contract_declaration" => [("kind", .text "contract")]
  | "interface_declaration" => [("kind", .text "interface")]
  | "library_declaration" => [("kind", .text "library")]
  | "constructor_definition" => [("name", .null), ("isConstructor", .bool true)]
  | "function_definition" | "fallback_receive_definition" =>
    if unnamed then [("name", .null)] else []
  | _ => []

/-- The kind sets some fields to scalars, one after the other. -/
theorem finish_eq_foldl (kind : String) (n : Node) :
    finish kind n = (additions kind n.name?.isNone).foldl
      (fun m e => m.withField e.1 (.scalar e.2)) n := by
  fun_cases finish kind n <;> simp_all [additions, Value.text, Value.null]

/-- A property of nodes that does not depend on fields set to scalars is not changed by what the
kind adds. -/
theorem finish_induction {P : Node → Prop}
    (hset : ∀ m name s, P m → P (m.withField name (.scalar s))) (kind : String) {n : Node}
    (h : P n) : P (finish kind n) := by
  rw [finish_eq_foldl]
  generalize additions kind n.name?.isNone = added
  induction added generalizing n with
  | nil => exact h
  | cons e added ih => exact ih (hset n e.1 e.2 h)

/-- A leaf becomes a node with its text. -/
theorem toNode_of_isLeaf {source : String} {c : Concrete} (h : c.isLeaf = true) :
    c.toNode source =
      ⟨c.info.treeKind source, some c.info.span, [("text", .text (c.info.textIn source))]⟩ := by
  obtain ⟨info, children⟩ := c
  rw [toNode, assemble]
  exact if_pos h

/-- Any other node gets its fields from its children. -/
theorem toNode_of_not_isLeaf {source : String} {c : Concrete} (h : c.isLeaf = false) :
    c.toNode source = finish c.info.kind
      ⟨c.info.treeKind source, some c.info.span,
        Record.insert (fieldsOf (partsOf source c.children)) "children"
          (.list (unfielded (partsOf source c.children)))⟩ := by
  obtain ⟨info, children⟩ := c
  rw [toNode, assemble]
  exact if_neg (by simpa [isLeaf, Concrete.children] using h)

/-! ### Kind and span -/

/-- A node becomes a node of the kind that it says. -/
@[simp] theorem kind_toNode (source : String) (c : Concrete) :
    (c.toNode source).kind = c.info.treeKind source := by
  obtain ⟨info, children⟩ := c
  rw [toNode, assemble]
  split
  · rfl
  · exact finish_induction (P := fun n => n.kind = info.treeKind source)
      (fun _ _ _ hm => hm) info.kind rfl

/-- The grammar's kinds of contract. -/
def contractKinds : List String :=
  ["contract_declaration", "interface_declaration", "library_declaration"]

/-- The grammar's kinds of function. -/
def functionKinds : List String :=
  ["function_definition", "constructor_definition", "fallback_receive_definition"]

/-- Contracts come from three kinds of the grammar. -/
theorem Info.treeKind_eq_contractDefinition_iff {source : String} {i : Info} :
    i.treeKind source = .contractDefinition ↔ i.kind ∈ contractKinds := by
  unfold treeKind
  split <;> simp_all [contractKinds]
  split <;> simp

/-- Functions come from three kinds of the grammar. -/
theorem Info.treeKind_eq_functionDefinition_iff {source : String} {i : Info} :
    i.treeKind source = .functionDefinition ↔ i.kind ∈ functionKinds := by
  unfold treeKind
  split <;> simp_all [functionKinds]
  split <;> simp

/-- Comments are the nodes of one kind. -/
theorem Info.treeKind_mem_comments_iff {source : String} {i : Info} :
    i.treeKind source ∈ Kind.comments ↔ i.kind = "comment" := by
  rw [Kind.mem_comments_iff]
  unfold treeKind
  split
  case h_8 hkind => cases opensBlock (i.textIn source) <;> simp [hkind, Kind.isComment]
  all_goals simp_all [Kind.isComment]

/-- Every node of a converted tree has a span. -/
@[simp] theorem span_toNode (source : String) (c : Concrete) :
    (c.toNode source).span = some c.info.span := by
  obtain ⟨info, children⟩ := c
  rw [toNode, assemble]
  split
  · rfl
  · exact finish_induction (P := fun n => n.span = some info.span)
      (fun _ _ _ hm => hm) info.kind rfl

/-! ### What the fields hold -/

/-- The value that a part holds. -/
def Part.value? : Part → Option Value
  | field _ v => some v
  | child v => some v
  | nothing => none

/-- Whether a node is kept as text by its parent. -/
def keptAsText (c : Concrete) : Bool :=
  match c.info.field with
  | some name => c.isLeaf && (name == "name" || !c.info.named)
  | none => !c.info.named

/-- Whether a node is a token that its parent leaves out. -/
def isDelimiter (c : Concrete) : Bool :=
  c.info.field.isNone && !c.info.named && c.info.kind ∈ delimiters

/-- Where only leaves are bare tokens, only leaves are kept as text. -/
theorem isLeaf_of_keptAsText {c : Concrete} (hbare : c.info.named = false → c.isLeaf = true)
    (h : c.keptAsText = true) : c.isLeaf = true := by
  unfold keptAsText at h
  split at h
  · exact (Bool.and_eq_true_iff.mp h).1
  · exact hbare (by simpa using h)

/-- What a child is for its parent, given the node it becomes. -/
def partValue (source : String) (c : Concrete) (n : Node) : Value :=
  if c.keptAsText then .text (c.info.textIn source) else n

/-- A child adds its value under its field name, or to the list of children. -/
theorem part_eq (source : String) (c : Concrete) (n : Node) :
    part source c n =
      match c.info.field with
      | some name => .field name (c.partValue source n)
      | none => if c.isDelimiter then .nothing else .child (c.partValue source n) := by
  unfold part partValue keptAsText isDelimiter
  cases c.info.field with
  | some name => exact (apply_ite (Part.field name) _ _ _).symm
  | none =>
      cases c.info.named with
      | true => rfl
      | false => by_cases h : c.info.kind ∈ delimiters <;> simp [h]

/-- A child adds its text or the node that it becomes. -/
theorem eq_of_mem_value?_part {source : String} {c : Concrete} {n : Node} {v : Value}
    (h : v ∈ (part source c n).value?) : v = .text (c.info.textIn source) ∨ v = n := by
  have hvalue : v = c.partValue source n := by
    rw [part_eq] at h
    split at h
    · exact (Option.some.inj h).symm
    · split at h
      · simp [Part.value?] at h
      · exact (Option.some.inj h).symm
  rw [hvalue, partValue]
  split
  · exact .inl rfl
  · exact .inr rfl

/-- What stands under a name once one more value was added to what stood there. -/
def joined : Option Value → Value → Value
  | none, v => v
  | some (.list items), v => .list (items ++ [v])
  | some first, v => .list [first, v]

/-- The values with a field name, in order. -/
def fielded (parts : List Part) : List (String × Value) :=
  parts.filterMap fun p =>
    match p with
    | .field name v => some (name, v)
    | _ => none

/-- The fields are the values with a field name, added one after the other. -/
theorem fieldsOf_eq_foldl (parts : List Part) :
    fieldsOf parts = (fielded parts).foldl (fun fields e => addField fields e.1 e.2) [] := by
  unfold fieldsOf
  generalize ([] : Record Value) = fields
  induction parts generalizing fields with
  | nil => rfl
  | cons p parts ih => cases p <;> exact ih _

/-- Adding a value under a name sets the name to what was there, joined with the value. -/
theorem addField_eq_insert (fields : Record Value) (name : String) (v : Value) :
    addField fields name v = Record.insert fields name (joined (Record.get? fields name) v) := by
  unfold addField joined
  split <;> simp_all

section Closed

-- A property of values that scalars have, and lists exactly if all of their items have it.
variable {P : Value → Prop} (hscalar : ∀ s, P (.scalar s))
  (hlist : ∀ items, P (.list items) ↔ ∀ v ∈ items, P v)

/-- Setting a field to a value that has a property keeps the property of all fields. -/
theorem forall_mem_insert {fields : Record Value} (h : ∀ e ∈ fields, P e.2) (name : String)
    {v : Value} (hv : P v) : ∀ e ∈ Record.insert fields name v, P e.2 := by
  intro e he
  rcases Record.eq_or_mem_of_mem_insert he with rfl | he
  · exact hv
  · exact h e he

include hlist

/-- Adding a value that has the property keeps it of all fields. -/
theorem forall_mem_addField {fields : Record Value} (h : ∀ e ∈ fields, P e.2) (name : String)
    {v : Value} (hv : P v) : ∀ e ∈ addField fields name v, P e.2 := by
  rw [addField_eq_insert]
  refine forall_mem_insert h name ?_
  unfold joined
  split
  · exact hv
  · next items hget =>
      have hitems := (hlist items).mp (h _ (Record.mem_of_get?_eq_some hget))
      refine (hlist _).mpr ?_
      exact List.forall_mem_append.mpr ⟨hitems, List.forall_mem_singleton.mpr hv⟩
  · next first _ hget =>
      have hfirst := h _ (Record.mem_of_get?_eq_some hget)
      refine (hlist _).mpr ?_
      exact List.forall_mem_cons.mpr ⟨hfirst, List.forall_mem_singleton.mpr hv⟩

/-- The fields have the property if all parts have it. -/
theorem forall_mem_fieldsOf {parts : List Part} (h : ∀ p ∈ parts, ∀ v ∈ p.value?, P v) :
    ∀ e ∈ fieldsOf parts, P e.2 := by
  unfold fieldsOf
  refine List.foldlRecOn parts _
    (motive := fun fields : Record Value => ∀ e ∈ fields, P e.2) (by simp) ?_
  intro fields hfields p hp
  cases p with
  | field name v => exact forall_mem_addField hlist hfields name (h _ hp v rfl)
  | child v => exact hfields
  | nothing => exact hfields

/-- The list of children has the property if all parts have it. -/
theorem list_unfielded {parts : List Part} (h : ∀ p ∈ parts, ∀ v ∈ p.value?, P v) :
    P (.list (unfielded parts)) := by
  refine (hlist _).mpr fun v hv => ?_
  obtain ⟨p, hp, hpv⟩ := List.mem_filterMap.mp hv
  cases p with
  | child w => exact h _ hp v hpv
  | field name w => simp at hpv
  | nothing => simp at hpv

include hscalar

/-- **What the fields hold.** A property of values that scalars have, and lists exactly if their
items have it, holds of all fields of a node if it holds of the nodes of its children. -/
theorem forall_mem_fields_toNode {source : String} {info : Info} {children : List Concrete}
    (h : ∀ c ∈ children, P (c.toNode source)) :
    ∀ e ∈ (toNode source (mk info children)).fields, P e.2 := by
  have hparts : ∀ p ∈ partsOf source children, ∀ v ∈ p.value?, P v := by
    rw [partsOf_eq_map]
    intro p hp v hv
    obtain ⟨c, hc, rfl⟩ := List.mem_map.mp hp
    rcases eq_of_mem_value?_part hv with rfl | rfl
    · exact hscalar _
    · exact h c hc
  rw [toNode, assemble]
  split
  · exact forall_mem_insert (by simp) "text" (hscalar _)
  · refine finish_induction (P := fun n => ∀ e ∈ n.fields, P e.2) ?_ info.kind ?_
    · exact fun m name s hm => forall_mem_insert hm name (hscalar s)
    · exact forall_mem_insert (forall_mem_fieldsOf hlist hparts) "children"
        (list_unfielded hlist hparts)

end Closed

/-! ### Distinct names -/

/-- Adding a value keeps names distinct. -/
theorem distinct_addField {fields : Record Value} (h : Record.Distinct fields) (name : String)
    (v : Value) : Record.Distinct (addField fields name v) := by
  rw [addField_eq_insert]
  exact h.insert name _

/-- The fields of parts have distinct names. -/
theorem distinct_fieldsOf (parts : List Part) : Record.Distinct (fieldsOf parts) := by
  unfold fieldsOf
  refine List.foldlRecOn parts _ (motive := Record.Distinct) List.nodup_nil ?_
  intro fields hfields p hp
  cases p with
  | field name v => exact distinct_addField hfields name v
  | child v => exact hfields
  | nothing => exact hfields

/-- **A converted tree has distinct names.** -/
theorem distinct_toNode (source : String) (c : Concrete) : (c.toNode source).Distinct := by
  induction c using inductionOn with
  | mk info children ih =>
      refine Value.distinct_node.mpr ⟨?_, Value.distinctFields_iff.mpr ?_⟩
      · rw [toNode, assemble]
        split
        · exact Record.Distinct.insert (r := []) List.nodup_nil "text" _
        · refine finish_induction (P := fun n => Record.Distinct n.fields) ?_ info.kind ?_
          · exact fun m name s hm => hm.insert name _
          · exact (distinct_fieldsOf _).insert "children" _
      · refine forall_mem_fields_toNode Value.distinct_scalar ?_ ih
        intro items
        rw [Value.distinct_list, Value.distinctItems_iff]

end Concrete

/-! ### The outermost nodes of a value -/

namespace Value

mutual

/-- The nodes of a value that lie in no other node of it, in order. -/
def roots : Value → List Node
  | node kind span fields => [⟨kind, span, fields⟩]
  | list items => rootsItems items
  | map _ => []
  | scalar _ => []

/-- The outermost nodes of the items of a list. -/
def rootsItems : List Value → List Node
  | [] => []
  | v :: rest => v.roots ++ rootsItems rest

end

/-- A root of items is a root of one of them. -/
theorem mem_rootsItems {items : List Value} {n : Node} :
    n ∈ rootsItems items ↔ ∃ v ∈ items, n ∈ v.roots := by
  induction items with
  | nil => simp [rootsItems]
  | cons v rest ih => simp [rootsItems, ih]

mutual

/-- The nodes of a value lie in its outermost ones. -/
theorem exists_root_of_mem_occurrences : ∀ (v : Value) (path : Path) (above : List Frame),
    ∀ o ∈ v.occurrences path above, ∃ n ∈ v.roots, ∃ path' above',
      above'.map Frame.node = above.map Frame.node ∧ o ∈ n.toValue.occurrences path' above'
  | node kind span fields, path, above => by
      intro o ho
      exact ⟨_, List.mem_singleton_self _, path, above, rfl, ho⟩
  | list items, path, above => by
      rw [occurrences, roots]
      exact exists_root_of_mem_occurrencesItems items path 0 above
  | map entries, path, above => by simp [occurrences]
  | scalar leaf, path, above => by simp [occurrences]

/-- The nodes of items lie in the outermost ones. -/
theorem exists_root_of_mem_occurrencesItems : ∀ (items : List Value) (path : Path) (i : Nat)
    (above : List Frame), ∀ o ∈ occurrencesItems items path i above, ∃ n ∈ rootsItems items,
      ∃ path' above', above'.map Frame.node = above.map Frame.node ∧
        o ∈ n.toValue.occurrences path' above'
  | [], path, i, above => by simp [occurrencesItems]
  | v :: rest, path, i, above => by
      intro o ho
      rw [occurrencesItems, List.mem_append] at ho
      rw [rootsItems]
      rcases ho with ho | ho
      · obtain ⟨n, hn, hplace⟩ := exists_root_of_mem_occurrences v _ above o ho
        exact ⟨n, List.mem_append_left _ hn, hplace⟩
      · obtain ⟨n, hn, hplace⟩ := exists_root_of_mem_occurrencesItems rest path (i + 1) _ o ho
        rw [Frame.map_node_pass] at hplace
        exact ⟨n, List.mem_append_right _ hn, hplace⟩

end

/-- The nodes of fields lie in the fields. -/
theorem exists_field_of_mem_occurrences {fields : Record Value} {path : Path}
    {above : List Frame} {o : Occurrence} (ho : o ∈ occurrencesFields fields path above) :
    ∃ e ∈ fields, ∃ path' above', above'.map Frame.node = above.map Frame.node ∧
      o ∈ e.2.occurrences path' above' := by
  induction fields generalizing above with
  | nil => simp [occurrencesFields] at ho
  | cons e rest ih =>
      obtain ⟨name, v⟩ := e
      rw [occurrencesFields, List.mem_append] at ho
      rcases ho with ho | ho
      · exact ⟨_, List.mem_cons_self, _, above, rfl, ho⟩
      · obtain ⟨e, he, hplace⟩ := ih ho
        rw [Frame.map_node_pass] at hplace
        exact ⟨e, List.mem_cons_of_mem _ he, hplace⟩

end Value

/-! ### Where the nodes come from -/

namespace Concrete

/-- A subtree of a concrete tree, and what the nodes above it say, nearest first. -/
structure Subtree where
  above : List Info
  node : Concrete

mutual

/-- The subtrees of a concrete tree that lies below `above`, in pre-order. -/
def subtreesBelow : Concrete → List Info → List Subtree
  | mk info children, above => ⟨above, mk info children⟩ :: subtreesIn children (info :: above)

/-- The subtrees of several concrete trees that lie below `above`, in pre-order. -/
def subtreesIn : List Concrete → List Info → List Subtree
  | [], _ => []
  | c :: rest, above => c.subtreesBelow above ++ subtreesIn rest above

end

/-- The subtrees of a concrete tree, itself among them, in pre-order. -/
def subtrees (root : Concrete) : List Subtree := root.subtreesBelow []

/-- A subtree of several trees is a subtree of one of them. -/
theorem mem_subtreesIn {children : List Concrete} {above : List Info} {p : Subtree} :
    p ∈ subtreesIn children above ↔ ∃ c ∈ children, p ∈ c.subtreesBelow above := by
  induction children with
  | nil => simp [subtreesIn]
  | cons c rest ih => simp [subtreesIn, ih]

/-- What a node without faults says about itself if it lies in one row. -/
def Info.inRow (field : Option String) (kind : String) (named : Bool)
    (row column byte length : Nat) : Info :=
  ⟨field, kind, named, false, false, false, byte, byte + length, ⟨row, column⟩,
    ⟨row, column + length⟩⟩

/-- A tree is one of its subtrees. -/
theorem mem_subtrees_self (root : Concrete) : ⟨[], root⟩ ∈ root.subtrees := by
  obtain ⟨info, children⟩ := root
  exact List.mem_cons_self

/-- The nodes are the same below anything. -/
theorem map_node_subtreesBelow (c : Concrete) (above above' : List Info) :
    (c.subtreesBelow above).map Subtree.node = (c.subtreesBelow above').map Subtree.node := by
  induction c using inductionOn generalizing above above' with
  | mk info children ih =>
      rw [subtreesBelow, subtreesBelow, List.map_cons, List.map_cons]
      congr 1
      generalize info :: above = below
      generalize info :: above' = below'
      induction children with
      | nil => rfl
      | cons c rest ihrest =>
          obtain ⟨hc, hrest⟩ := List.forall_mem_cons.mp ih
          rw [subtreesIn, subtreesIn, List.map_append, List.map_append, hc below below',
            ihrest hrest]

/-- What holds of all nodes of a concrete tree holds of the root and of all nodes of its
children. -/
theorem forall_mem_subtrees_iff {P : Concrete → Prop} {c : Concrete} :
    (∀ p ∈ c.subtrees, P p.node) ↔ P c ∧ ∀ child ∈ c.children, ∀ p ∈ child.subtrees, P p.node := by
  have hnodes : ∀ (d : Concrete) (above : List Info),
      (∀ p ∈ d.subtreesBelow above, P p.node) ↔ ∀ p ∈ d.subtrees, P p.node := by
    intro d above
    rw [← List.forall_mem_map (f := Subtree.node), map_node_subtreesBelow d above [],
      List.forall_mem_map, subtrees]
  obtain ⟨info, children⟩ := c
  rw [subtrees, subtreesBelow, List.forall_mem_cons]
  refine and_congr_right fun _ => ?_
  simp only [mem_subtreesIn, Concrete.children, ← hnodes _ [info]]
  exact ⟨fun h c hc p hp => h p ⟨c, hc, hp⟩, fun h p ⟨c, hc, hp⟩ => h c hc p hp⟩

/-- Some node of a concrete tree has a property if the root or a node of a child has it. -/
theorem any_subtrees (f : Concrete → Bool) (c : Concrete) :
    (c.subtrees.any fun p => f p.node) =
      (f c || c.children.any fun child => child.subtrees.any fun p => f p.node) := by
  have hnone := forall_mem_subtrees_iff (P := fun d => f d = false) (c := c)
  rw [Bool.eq_iff_iff, ← not_iff_not]
  simpa using hnone

/-- Only leaves are bare tokens. -/
def TokensBare (c : Concrete) : Prop :=
  ∀ p ∈ c.subtrees, p.node.info.named = false → p.node.isLeaf = true

instance (c : Concrete) : Decidable c.TokensBare :=
  inferInstanceAs (Decidable (∀ p ∈ c.subtrees, _ → _))

/-- Tokens are bare in a tree if they are at its root and in all its children. -/
theorem tokensBare_iff {c : Concrete} :
    c.TokensBare ↔ (c.info.named = false → c.isLeaf = true) ∧
      ∀ child ∈ c.children, child.TokensBare :=
  forall_mem_subtrees_iff (P := fun d => d.info.named = false → d.isLeaf = true)

/-- The node of a tree is of the kind and has the span that the node of a concrete tree says. -/
def Info.Describes (source : String) (i : Info) (n : Node) : Prop :=
  n.kind = i.treeKind source ∧ n.span = some i.span

/-- What a concrete node says describes the node that it becomes. -/
theorem describes_toNode (source : String) (c : Concrete) :
    c.info.Describes source (c.toNode source) :=
  ⟨kind_toNode source c, span_toNode source c⟩

/-- The nodes of the tree of a concrete tree, below nodes that come from `infos`. -/
theorem exists_subtree_of_mem_occurrences_toNode {source : String} (c : Concrete)
    {infos : List Info} {path : Path} {above : List Frame} {o : Occurrence}
    (habove : List.Forall₂ (Info.Describes source) infos (above.map Frame.node))
    (ho : o ∈ (c.toNode source).toValue.occurrences path above) :
    ∃ p ∈ c.subtreesBelow infos, p.node.info.Describes source o.node ∧
      List.Forall₂ (Info.Describes source) p.above o.ancestors := by
  induction c using inductionOn generalizing infos path above with
  | mk info children ih =>
      rw [Node.toValue, Value.occurrences, List.mem_cons] at ho
      rw [subtreesBelow]
      rcases ho with rfl | ho
      · exact ⟨_, List.mem_cons_self, describes_toNode source (mk info children), habove⟩
      · -- A node further below lies in an outermost node of a field, that is, in a child.
        obtain ⟨e, he, path₁, above₁, habove₁, ho⟩ := Value.exists_field_of_mem_occurrences ho
        obtain ⟨n, hn, path₂, above₂, habove₂, ho⟩ :=
          Value.exists_root_of_mem_occurrences e.2 path₁ above₁ o ho
        have hroots : ∀ n ∈ e.2.roots, ∃ c ∈ children, n = c.toNode source := by
          refine forall_mem_fields_toNode
            (P := fun v => ∀ n ∈ v.roots, ∃ c ∈ children, n = c.toNode source) ?_ ?_ ?_ e he
          · simp [Value.roots]
          · intro items
            simp only [Value.roots, Value.mem_rootsItems, forall_exists_index, and_imp]
            exact ⟨fun h v hv n hn => h n v hv hn, fun h n v hv hn => h v hv n hn⟩
          · intro c hc n hn
            exact ⟨c, hc, List.mem_singleton.mp hn⟩
        obtain ⟨c, hc, rfl⟩ := hroots n hn
        have hbelow : List.Forall₂ (Info.Describes source) (info :: infos)
            (above₂.map Frame.node) := by
          rw [habove₂, habove₁]
          exact .cons (describes_toNode source (mk info children)) habove
        obtain ⟨p, hp, hdescribes⟩ := ih c hc hbelow ho
        exact ⟨p, List.mem_cons_of_mem _ (mem_subtreesIn.mpr ⟨c, hc, hp⟩), hdescribes⟩

/-- **Where the nodes of a converted tree come from.** Each comes from a node of the concrete
tree, and the nodes above it come, one by one, from those above that one. -/
theorem exists_subtree_of_mem_occurrences {source : String} {c : Concrete} {o : Occurrence}
    (ho : o ∈ (c.toNode source).occurrences) :
    ∃ p ∈ c.subtrees, p.node.info.Describes source o.node ∧
      List.Forall₂ (Info.Describes source) p.above o.ancestors :=
  exists_subtree_of_mem_occurrences_toNode c .nil ho

end Concrete

end ContractQuery
