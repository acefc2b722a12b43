import ContractQuery.Proofs.Search
import ContractQuery.Proofs.Tokens

/-!
# The Leaves of a Concrete Tree

Conversion sends a child one of several ways: to a field of its own, into the list of a field that
occurs more than once, into the list of children, as a node or as a text, or, if it is a
delimiter, nowhere. Each of these keeps all that a child holds, as long as no field is overwritten.
So whatever can be gathered from a value, and from a list item by item, is gathered from a node once
from each of its children and once from what its kind adds (`Concrete.perm_gathered_toNode`).

Gathered as texts, this says that the leaves of a concrete tree are the texts of its tree. Gathered
as nodes, it says that no inner node is lost.

## Main results

* `Concrete.Faithful.perm_texts`: **each leaf is kept exactly once**.
* `Concrete.Faithful.toNode_mem_nodes`: each inner node is a node of the tree.
* `Concrete.KeepsNames.field?_toNode`: **what stands under a field name**.
* `Concrete.Unreserved.keepsNames`: when no field is overwritten.
-/

namespace ContractQuery

/-! ### Texts of a value -/

namespace Value

mutual

/-- The texts in a value, at any depth, in order. -/
def texts : Value → List String
  | node _ _ fields => textsFields fields
  | list items => textsItems items
  | map entries => textsFields entries
  | scalar (.text s) => [s]
  | scalar _ => []

/-- The texts in the items of a list. -/
def textsItems : List Value → List String
  | [] => []
  | v :: rest => v.texts ++ textsItems rest

/-- The texts in named values. -/
def textsFields : List (String × Value) → List String
  | [] => []
  | (_, v) :: rest => v.texts ++ textsFields rest

end

/-- The texts of a list are those of its items, one after the other. -/
theorem texts_list (items : List Value) : (list items).texts = items.flatMap texts := by
  rw [texts]
  induction items with
  | nil => rfl
  | cons v rest ih => rw [textsItems, ih, List.flatMap_cons]

/-- The texts of a node are those of its fields, one after the other. -/
theorem texts_node (kind : Kind) (span : Option Span) (fields : Record Value) :
    (node kind span fields).texts = fields.flatMap fun e => e.2.texts := by
  rw [texts]
  induction fields with
  | nil => rfl
  | cons e rest ih =>
      obtain ⟨name, v⟩ := e
      rw [textsFields, ih, List.flatMap_cons]

/-- A text has itself. -/
@[simp] theorem texts_text (s : String) : (text s).texts = [s] := by
  rw [text, texts]

end Value

namespace Concrete

/-! ### The fields of a node -/

/-- No two additions have one name. -/
theorem distinct_additions (kind : String) (unnamed : Bool) :
    ((additions kind unnamed).map Prod.fst).Nodup := by
  unfold additions
  split <;> cases unnamed <;> decide

/-- Scalars under new names go to the end. -/
theorem fields_foldl_withField {added : List (String × Scalar)} {n : Node}
    (hnodup : (added.map Prod.fst).Nodup) (hnew : ∀ e ∈ added, e.1 ∉ Record.names n.fields) :
    (added.foldl (fun m e => m.withField e.1 (.scalar e.2)) n).fields =
      n.fields ++ added.map fun e => (e.1, .scalar e.2) := by
  induction added generalizing n with
  | nil => simp
  | cons e added ih =>
      obtain ⟨hname, hnew⟩ := List.forall_mem_cons.mp hnew
      rw [List.map_cons, List.nodup_cons] at hnodup
      have hset : (n.withField e.1 (.scalar e.2)).fields = n.fields ++ [(e.1, .scalar e.2)] :=
        Record.insert_of_not_mem _ hname
      have hothers : ∀ e' ∈ added,
          e'.1 ∉ Record.names (n.withField e.1 (.scalar e.2)).fields := by
        intro e' he'
        have hne : e'.1 ≠ e.1 := fun h => hnodup.1 (h ▸ List.mem_map_of_mem he')
        rw [hset, Record.names, List.map_append]
        simpa [hne, Record.names] using hnew e' he'
      rw [List.foldl_cons, ih hnodup.2 hothers, hset, List.map_cons, List.append_assoc]
      rfl

/-- No field of the children is overwritten by what the kind adds. -/
theorem KeepsNames.not_mem_names {source : String} {c : Concrete} (h : c.KeepsNames)
    {name : String} (hname : name ∈ (additions c.info.kind (!c.isNamed)).map Prod.fst) :
    name ∉ Record.names (c.ownFields source) := by
  have hne : name ≠ "children" := by
    rintro rfl
    exact children_not_mem_additions _ _ hname
  rw [← Record.get?_eq_none_iff, get?_ownFields source c hne,
    h.valuesAt_eq_nil source (List.mem_cons_of_mem _ hname)]
  rfl

/-- Where nothing is overwritten, a node has the fields of its children, the children without a
field name, and what its kind adds, in this order. -/
theorem KeepsNames.fields_toNode {source : String} {c : Concrete} (h : c.KeepsNames)
    (hleaf : c.isLeaf = false) :
    (c.toNode source).fields =
      fieldsOf (partsOf source c.children) ++
        ("children", .list (valuesAt source none c.children)) ::
          (additions c.info.kind (!c.isNamed)).map fun e => (e.1, .scalar e.2) := by
  have hchildren : "children" ∉ Record.names (fieldsOf (partsOf source c.children)) := by
    rw [← Record.get?_eq_none_iff, get?_fieldsOf_partsOf,
      h.valuesAt_eq_nil source List.mem_cons_self]
    rfl
  have hown : c.ownFields source = fieldsOf (partsOf source c.children) ++
      [("children", .list (valuesAt source none c.children))] :=
    Record.insert_of_not_mem _ hchildren
  rw [toNode_eq_foldl hleaf, fields_foldl_withField (distinct_additions _ _), hown,
    List.append_assoc]
  · rfl
  · exact fun e he => h.not_mem_names (List.mem_map_of_mem he)

/-! ### What is gathered from a node -/

/-- The children that conversion keeps: all but delimiters. -/
def converted (c : Concrete) : List Concrete := c.children.filter fun d => !d.isDelimiter

/-- All children are converted but delimiters. -/
theorem mem_converted {c d : Concrete} :
    d ∈ c.converted ↔ d ∈ c.children ∧ d.isDelimiter = false := by
  rw [converted, List.mem_filter, Bool.not_eq_true']

section Gathered

-- Anything that is gathered from values, and from a list item by item.
variable {β : Type} {f : Value → List β} (hlist : ∀ items, f (.list items) = items.flatMap f)

include hlist

/-- Joining two values joins what is gathered from them. -/
theorem gathered_joined (o : Option Value) (v : Value) :
    f (joined o v) = o.elim [] f ++ f v := by
  unfold joined
  split
  · rfl
  · rw [Option.elim_some, hlist, hlist, List.flatMap_append, List.flatMap_singleton]
  · rw [Option.elim_some, hlist, List.flatMap_cons, List.flatMap_singleton]

/-- One more value under a field name adds what the value holds. -/
theorem perm_gathered_addField (fields : Record Value) (name : String) (v : Value) :
    ((addField fields name v).flatMap fun e => f e.2).Perm
      ((fields.flatMap fun e => f e.2) ++ f v) := by
  rw [addField_eq_insert]
  cases hget : Record.get? fields name with
  | none =>
      rw [Record.insert_of_not_mem _ ((Record.get?_eq_none_iff fields name).mp hget),
        List.flatMap_append, List.flatMap_singleton]
      exact .refl _
  | some w =>
      have hold := (Record.perm_cons_erase hget).flatMap_right fun e => f e.2
      rw [List.flatMap_cons] at hold
      calc ((Record.insert fields name (joined (some w) v)).flatMap fun e => f e.2).Perm
            (f (joined (some w) v) ++ (Record.erase fields name).flatMap fun e => f e.2) :=
              (Record.perm_insert fields name _).flatMap_right _
        _ = f w ++ (f v ++ (Record.erase fields name).flatMap fun e => f e.2) := by
              rw [gathered_joined hlist, Option.elim_some, List.append_assoc]
        List.Perm _ (f w ++ (((Record.erase fields name).flatMap fun e => f e.2) ++ f v)) :=
              List.perm_append_comm.append_left _
        _ = (f w ++ (Record.erase fields name).flatMap fun e => f e.2) ++ f v :=
              (List.append_assoc _ _ _).symm
        List.Perm _ _ := hold.append_right _

/-- What is gathered from fields is gathered from the parts with a field name. -/
theorem perm_gathered_fieldsOf (parts : List Part) :
    ((fieldsOf parts).flatMap fun e => f e.2).Perm ((fielded parts).flatMap fun e => f e.2) := by
  rw [fieldsOf_eq_foldl]
  induction fielded parts using List.reverseRecOn with
  | nil => exact .refl _
  | append_singleton added e ih =>
      rw [List.foldl_append, List.foldl_cons, List.foldl_nil, List.flatMap_append,
        List.flatMap_singleton]
      exact (perm_gathered_addField hlist _ e.1 e.2).trans (ih.append_right _)

omit hlist in
/-- The children with a field name and those without are all children but delimiters. -/
theorem perm_gathered_children (source : String) (children : List Concrete) :
    (((fielded (partsOf source children)).flatMap fun e => f e.2) ++
      (valuesAt source none children).flatMap f).Perm
      ((children.filter fun d => !d.isDelimiter).flatMap fun d => f (d.value source)) := by
  induction children with
  | nil => exact .refl _
  | cons d rest ih =>
      rw [partsOf, part_toNode_eq]
      cases hfield : d.info.field with
      | none =>
          cases hdelimiter : d.isDelimiter with
          | true => simpa [valuesAt, fielded, hfield, hdelimiter] using ih
          | false =>
              have hrest := (List.perm_append_comm_assoc _ _ _).trans
                (ih.append_left (f (d.value source)))
              simpa [valuesAt, fielded, hfield, hdelimiter] using hrest
      | some name =>
          have hdelimiter := isDelimiter_eq_false hfield
          simpa [valuesAt, fielded, hfield, hdelimiter] using ih.append_left _

/-- **What is gathered from a node** where no field is overwritten: once from each of its children,
delimiters apart, and once from what its kind adds. -/
theorem perm_gathered_toNode (source : String) {c : Concrete} (h : c.KeepsNames)
    (hleaf : c.isLeaf = false) :
    ((c.toNode source).fields.flatMap fun e => f e.2).Perm
      ((c.converted.flatMap fun d => f (d.value source)) ++
        (additions c.info.kind (!c.isNamed)).flatMap fun e => f (.scalar e.2)) := by
  rw [h.fields_toNode hleaf, List.flatMap_append, List.flatMap_cons, hlist, List.flatMap_map,
    ← List.append_assoc]
  refine List.Perm.append_right _ ?_
  exact ((perm_gathered_fieldsOf hlist _).append_right _).trans (perm_gathered_children _ _)

end Gathered

/-! ### Leaves and declarations -/

/-- What is collected from the nodes of a concrete tree comes from the root, and from the nodes of
its children. -/
theorem filterMap_subtrees {β : Type} (g : Concrete → Option β) (c : Concrete) :
    (c.subtrees.filterMap fun p => g p.node) =
      (g c).toList ++ c.children.flatMap fun d => d.subtrees.filterMap fun p => g p.node := by
  have hbelow : ∀ (d : Concrete) (above : List Info),
      ((d.subtreesBelow above).filterMap fun p => g p.node) =
        d.subtrees.filterMap fun p => g p.node := by
    intro d above
    have hnodes := congrArg (List.filterMap g) (map_node_subtreesBelow d above [])
    rwa [List.filterMap_map, List.filterMap_map] at hnodes
  have hin : ∀ (children : List Concrete) (above : List Info),
      ((subtreesIn children above).filterMap fun p => g p.node) =
        children.flatMap fun d => d.subtrees.filterMap fun p => g p.node := by
    intro children above
    induction children with
    | nil => rfl
    | cons d rest ih =>
        rw [subtreesIn, List.filterMap_append, ih, List.flatMap_cons, hbelow]
  obtain ⟨info, children⟩ := c
  rw [subtrees, subtreesBelow, List.filterMap_cons, hin]
  cases g (mk info children) <;> rfl

/-- The text of a leaf that is no delimiter. -/
def leafText? (source : String) (c : Concrete) : Option String :=
  if c.isLeaf && !c.isDelimiter then some (c.info.textIn source) else none

/-- The texts of all leaves but delimiters, in source order. -/
def leafTexts (source : String) (c : Concrete) : List String :=
  c.subtrees.filterMap fun p => p.node.leafText? source

/-- What a declaration is called in the tree. Leaves declare nothing. -/
def declaration? (c : Concrete) : Option String :=
  if c.isLeaf then none
  else match c.info.kind with
    | "contract_declaration" => some "contract"
    | "interface_declaration" => some "interface"
    | "library_declaration" => some "library"
    | _ => none

/-- What the declarations are called, in source order. -/
def declarations (c : Concrete) : List String := c.subtrees.filterMap fun p => p.node.declaration?

/-- A leaf that is no delimiter has its own text alone. -/
theorem leafTexts_of_isLeaf {source : String} {c : Concrete} (hleaf : c.isLeaf = true)
    (hdelimiter : c.isDelimiter = false) : c.leafTexts source = [c.info.textIn source] := by
  rw [leafTexts, filterMap_subtrees, leafText?, hleaf, hdelimiter, List.isEmpty_iff.mp hleaf]
  rfl

/-- A delimiter is a leaf where only leaves are bare tokens. -/
theorem isLeaf_of_isDelimiter {c : Concrete} (hbare : c.TokensBare) (h : c.isDelimiter = true) :
    c.isLeaf = true := by
  simp only [isDelimiter, Bool.and_eq_true, Bool.not_eq_true'] at h
  exact (tokensBare_iff.mp hbare).1 h.1.2

/-- What is collected from nodes, and not from delimiters, comes from the root and from the nodes of
the children that are no delimiters. -/
theorem filterMap_subtrees_of_tokensBare {β : Type} {g : Concrete → Option β} {c : Concrete}
    (hbare : c.TokensBare) (hg : ∀ d, d.isDelimiter = true → d.isLeaf = true → g d = none) :
    (c.subtrees.filterMap fun p => g p.node) =
      (g c).toList ++ c.converted.flatMap fun d => d.subtrees.filterMap fun p => g p.node := by
  have hchildren := (tokensBare_iff.mp hbare).2
  rw [filterMap_subtrees, converted]
  congr 1
  generalize c.children = children at hchildren ⊢
  induction children with
  | nil => rfl
  | cons d rest ih =>
      obtain ⟨hd, hrest⟩ := List.forall_mem_cons.mp hchildren
      rw [List.flatMap_cons, ih hrest]
      cases hdelimiter : d.isDelimiter with
      | false => rw [List.filter_cons_of_pos (by rw [hdelimiter]; rfl), List.flatMap_cons]
      | true =>
          have hleaf := isLeaf_of_isDelimiter hd hdelimiter
          rw [List.filter_cons_of_neg (by rw [hdelimiter]; simp), filterMap_subtrees,
            hg d hdelimiter hleaf, List.isEmpty_iff.mp hleaf]
          rfl

/-- An inner node has the texts of its children, delimiters apart. -/
theorem leafTexts_of_not_isLeaf {source : String} {c : Concrete} (hbare : c.TokensBare)
    (hleaf : c.isLeaf = false) :
    c.leafTexts source = c.converted.flatMap (leafTexts source) := by
  have hdelimiter : ∀ d : Concrete, d.isDelimiter = true → d.isLeaf = true →
      d.leafText? source = none := fun d h _ => by simp [leafText?, h]
  have hroot : c.leafText? source = none := by simp [leafText?, hleaf]
  rw [leafTexts, filterMap_subtrees_of_tokensBare hbare hdelimiter, hroot]
  rfl

/-- Leaves declare nothing. -/
theorem declarations_of_isLeaf {c : Concrete} (h : c.isLeaf = true) : c.declarations = [] := by
  rw [declarations, filterMap_subtrees, declaration?, if_pos h, List.isEmpty_iff.mp h]
  rfl

/-- A node declares what it is called by itself, and what its children declare. -/
theorem declarations_eq {c : Concrete} (hbare : c.TokensBare) :
    c.declarations = c.declaration?.toList ++ c.converted.flatMap declarations :=
  filterMap_subtrees_of_tokensBare hbare fun d _ hleaf => by rw [declaration?, if_pos hleaf]

/-- The texts that a kind adds are what the declaration is called. -/
theorem texts_additions {c : Concrete} (hleaf : c.isLeaf = false) (unnamed : Bool) :
    ((additions c.info.kind unnamed).flatMap fun e => (Value.scalar e.2).texts) =
      c.declaration?.toList := by
  rw [declaration?, if_neg (by simp [hleaf])]
  unfold additions
  split <;> cases unnamed <;> simp_all [Value.texts]

/-! ### Conversion keeps leaves and nodes -/

section Faithful

variable {source : String} {c : Concrete}

/-- A leaf becomes a node that holds its text. -/
theorem texts_toNode_of_isLeaf (hleaf : c.isLeaf = true) :
    (c.toNode source).toValue.texts = [c.info.textIn source] := by
  rw [toNode_of_isLeaf hleaf, Node.toValue, Value.texts_node, List.flatMap_singleton,
    Value.texts_text]

/-- What a child is for its parent holds the same texts as the node that it becomes. -/
theorem Faithful.texts_value (h : c.Faithful) :
    (c.value source).texts = (c.toNode source).toValue.texts := by
  rw [value, partValue]
  split
  · next hkept => rw [texts_toNode_of_isLeaf (h.isLeaf_of_keptAsText hkept), Value.texts_text]
  · rfl

/-- **Each leaf is kept exactly once.** The texts of a converted tree are those of the leaves,
delimiters apart, and what its declarations are called. -/
theorem Faithful.perm_texts (h : c.Faithful) (hroot : c.isDelimiter = false) :
    (c.toNode source).toValue.texts.Perm (c.leafTexts source ++ c.declarations) := by
  induction c using inductionOn with
  | mk info children ih =>
      cases hleaf : (Concrete.mk info children).isLeaf with
      | true =>
          rw [texts_toNode_of_isLeaf hleaf, leafTexts_of_isLeaf hleaf hroot,
            declarations_of_isLeaf hleaf]
          exact .refl _
      | false =>
          have hchild : ∀ d ∈ (Concrete.mk info children).converted,
              (d.value source).texts.Perm (d.leafTexts source ++ d.declarations) := by
            intro d hd
            obtain ⟨hmem, hdelimiter⟩ := mem_converted.mp hd
            have hfaithful := h.of_mem_children hmem
            rw [hfaithful.texts_value]
            exact ih d hmem hfaithful hdelimiter
          have hchildren := (List.Perm.flatMap_left _ hchild).trans
            (List.flatMap_append_perm _ _ _).symm
          rw [leafTexts_of_not_isLeaf h.tokensBare hleaf, declarations_eq h.tokensBare,
            Node.toValue, Value.texts_node]
          refine (perm_gathered_toNode Value.texts_list source h.keepsNames hleaf).trans ?_
          rw [texts_additions hleaf]
          refine (hchildren.append_right _).trans ?_
          rw [List.append_assoc]
          exact List.perm_append_comm.append_left _

/-- A leaf has no nodes but itself. -/
theorem isLeaf_of_mem_subtrees (h : c.isLeaf = true) : ∀ p ∈ c.subtrees, p.node.isLeaf = true := by
  refine (forall_mem_subtrees_iff (P := fun d => d.isLeaf = true)).mpr ⟨h, ?_⟩
  rw [List.isEmpty_iff.mp h]
  simp

/-- The nodes of a child that is no leaf are nodes of its parent. -/
theorem Faithful.mem_nodes_of_child (h : c.Faithful) {d : Concrete} (hd : d ∈ c.children)
    (hleaf : d.isLeaf = false) {n : Node} (hn : n ∈ (d.toNode source).toValue.nodes) :
    n ∈ (c.toNode source).toValue.nodes := by
  have hfaithful := h.of_mem_children hd
  have hconverted : d ∈ c.converted := by
    refine mem_converted.mpr ⟨hd, Bool.eq_false_iff.mpr fun hdelimiter => ?_⟩
    exact Bool.eq_false_iff.mp hleaf (isLeaf_of_isDelimiter hfaithful.tokensBare hdelimiter)
  have hvalue : d.value source = (d.toNode source).toValue := by
    rw [value, partValue, if_neg]
    exact fun hkept => Bool.eq_false_iff.mp hleaf (hfaithful.isLeaf_of_keptAsText hkept)
  have hparent : c.isLeaf = false := List.isEmpty_eq_false_iff_exists_mem.mpr ⟨d, hd⟩
  have hfields : n ∈ (c.toNode source).fields.flatMap fun e => e.2.nodes := by
    rw [(perm_gathered_toNode Value.nodes_list source h.keepsNames hparent).mem_iff]
    exact List.mem_append_left _ (List.mem_flatMap.mpr ⟨d, hconverted, hvalue ▸ hn⟩)
  rw [Node.toValue, Value.nodes]
  exact List.mem_cons_of_mem _ (Value.mem_nodesFields.mpr (List.mem_flatMap.mp hfields))

/-- Each inner node is a node of the tree. -/
theorem Faithful.toNode_mem_nodes (h : c.Faithful) :
    ∀ p ∈ c.subtrees, p.node.isLeaf = false →
      p.node.toNode source ∈ (c.toNode source).toValue.nodes := by
  induction c using inductionOn with
  | mk info children ih =>
      refine (forall_mem_subtrees_iff (P := fun d => d.isLeaf = false →
        d.toNode source ∈ ((Concrete.mk info children).toNode source).toValue.nodes)).mpr ⟨?_, ?_⟩
      · intro _
        rw [Node.toValue, Value.nodes]
        exact List.mem_cons_self
      · intro d hd p hp hinner
        -- A child with an inner node below it is itself no leaf.
        have hleaf : d.isLeaf = false := Bool.eq_false_iff.mpr fun hleaf => by
          simp [isLeaf_of_mem_subtrees hleaf p hp] at hinner
        exact h.mem_nodes_of_child hd hleaf (ih d hd (h.of_mem_children hd) p hp hinner)

/-- **What stands under a field name** that some child has: the values of the children that have it,
in source order. -/
theorem KeepsNames.field?_toNode (h : c.KeepsNames) {name : String}
    (hname : ∃ d ∈ c.children, d.info.field = some name) :
    (c.toNode source).field? name =
      bundle ((c.children.filter fun d => d.info.field == some name).map (value source)) := by
  obtain ⟨d, hd, hfield⟩ := hname
  have hkept : name ∉ c.overwritten := h d hd name hfield
  rw [overwritten, List.mem_cons, not_or] at hkept
  have hleaf : c.isLeaf = false := List.isEmpty_eq_false_iff_exists_mem.mpr ⟨d, hd⟩
  rw [Node.field?, toNode_eq_foldl hleaf, get?_foldl_withField_of_not_mem hkept.2,
    get?_ownFields source c hkept.1, valuesAt_some]

end Faithful

/-! ### Field names -/

/-- No child has a field name that the node sets by itself. -/
@[mk_iff] structure Unreserved (c : Concrete) : Prop where
  /-- The list of children is under a name of its own. -/
  children : ∀ d ∈ c.children, d.info.field ≠ some "children"
  /-- Contracts get a `kind`. -/
  kind : c.info.kind ∈ contractKinds → ∀ d ∈ c.children, d.info.field ≠ some "kind"
  /-- Constructors get a `name` and a mark. -/
  constructor : c.info.kind = "constructor_definition" → ∀ d ∈ c.children,
    d.info.field ≠ some "name" ∧ d.info.field ≠ some "isConstructor"
  /-- Functions get a `name` unless they have a single one that is a leaf. -/
  function : c.info.kind = "function_definition" ∨ c.info.kind = "fallback_receive_definition" →
    (c.children.filter fun d => d.info.field == some "name").length ≤ 1 ∧
      ∀ d ∈ c.children, d.info.field = some "name" → d.isLeaf = true

instance (c : Concrete) : Decidable c.Unreserved := decidable_of_iff' _ (unreserved_iff c)

/-- A function with a name that is a leaf is named, if it has no second name. -/
theorem isNamed_of_mem {c d : Concrete}
    (hlength : (c.children.filter fun d => d.info.field == some "name").length ≤ 1)
    (hd : d ∈ c.children) (hname : d.info.field = some "name") (hleaf : d.isLeaf = true) :
    c.isNamed = true := by
  have hmem : d ∈ c.children.filter fun d => d.info.field == some "name" :=
    List.mem_filter.mpr ⟨hd, by simp [hname]⟩
  unfold isNamed
  generalize (c.children.filter fun d => d.info.field == some "name") = named at hlength hmem ⊢
  match named, hlength, hmem with
  | [e], _, hmem =>
      rw [List.mem_singleton] at hmem
      exact hmem ▸ hleaf

/-- The names that a kind adds. -/
theorem mem_additions_cases {kind name : String} {unnamed : Bool}
    (h : name ∈ (additions kind unnamed).map Prod.fst) :
    (kind ∈ contractKinds ∧ name = "kind") ∨
      (kind = "constructor_definition" ∧ (name = "name" ∨ name = "isConstructor")) ∨
      ((kind = "function_definition" ∨ kind = "fallback_receive_definition") ∧
        unnamed = true ∧ name = "name") := by
  unfold additions at h
  split at h <;> simp_all [contractKinds]

/-- No field is overwritten if no child has a field name that the node sets by itself. -/
theorem Unreserved.keepsNames {c : Concrete} (h : c.Unreserved) : c.KeepsNames := by
  intro d hd name hname hoverwritten
  have hfield : d.info.field = some name := hname
  rcases List.mem_cons.mp hoverwritten with rfl | hadded
  · exact h.children d hd hfield
  rcases mem_additions_cases hadded with ⟨hkind, rfl⟩ | ⟨hkind, rfl | rfl⟩ | ⟨hkind, hunnamed, rfl⟩
  · exact h.kind hkind d hd hfield
  · exact (h.constructor hkind d hd).1 hfield
  · exact (h.constructor hkind d hd).2 hfield
  · obtain ⟨hlength, hleaf⟩ := h.function hkind
    simp [isNamed_of_mem hlength hd hfield (hleaf d hd hfield)] at hunnamed

/-- **Conversion keeps the leaves.** Let only leaves be bare tokens, and let no child have a field
name that its parent sets by itself. Then the texts of the converted tree are those of the leaves,
delimiters apart, and what the declarations are called, each as often as it occurs. The exception is
a root that is itself a delimiter: it is the only leaf, and its text is kept. Each inner node is a
node of the tree. There, what stands under a field name are the values of the children that have it,
in source order: a node or a text if this is one child, and else a list of nodes and texts. -/
theorem texts_toNode (source : String) (c : Concrete) (hbare : c.TokensBare)
    (hnames : ∀ p ∈ c.subtrees, p.node.Unreserved) :
    (c.isDelimiter = false → (c.toNode source).toValue.texts.Perm
      ((c.subtrees.filterMap fun p => p.node.leafText? source) ++ c.declarations)) ∧
    (c.isDelimiter = true → (c.toNode source).toValue.texts = [c.info.textIn source]) ∧
      ∀ p ∈ c.subtrees, p.node.isLeaf = false →
        p.node.toNode source ∈ (c.toNode source).toValue.nodes ∧
        (∀ d ∈ p.node.children, IsPart (d.value source)) ∧
        ∀ name, (∃ d ∈ p.node.children, d.info.field = some name) →
          (p.node.toNode source).field? name = bundle
            ((p.node.children.filter fun d => d.info.field == some name).map (value source)) := by
  have hfaithful : c.Faithful := ⟨hbare, fun p hp => (hnames p hp).keepsNames⟩
  refine ⟨hfaithful.perm_texts, fun hroot => ?_, fun p hp hinner => ?_⟩
  · exact texts_toNode_of_isLeaf (isLeaf_of_isDelimiter hbare hroot)
  · exact ⟨hfaithful.toNode_mem_nodes p hp hinner, fun d _ => isPart_value source d,
      fun name hname => (hnames p hp).keepsNames.field?_toNode hname⟩

/-- A contract with a function of two parameters. -/
def contractText : String := "contract A \x7b function f(a,b) \x7d"

/-- The function, which stands between bytes 13 and 28. -/
def contractFunction : Concrete :=
  .mk (.inRow none "function_definition" true 0 13 13 15) [
    word none "function" false 13 8, word (some "name") "identifier" true 22 1,
    word none "(" false 23 1, word (some "parameter") "identifier" true 24 1,
    word none "," false 25 1, word (some "parameter") "identifier" true 26 1,
    word none ")" false 27 1]

/-- The file with the contract. -/
def contractFile : Concrete :=
  .mk (.inRow none "source_file" true 0 0 0 30) [
    .mk (.inRow none "contract_declaration" true 0 0 0 30) [
      word none "contract" false 0 8, word (some "name") "identifier" true 9 1,
      .mk (.inRow (some "body") "contract_body" true 0 11 11 19) [
        word none "\x7b" false 11 1, contractFunction, word none "\x7d" false 29 1]]]

/-- The tree of the contract has its words, and once more what it declares. The parameters of the
function are a list. A bracket by itself is kept. -/
theorem texts_contractFile :
    contractFile.TokensBare ∧ (∀ p ∈ contractFile.subtrees, p.node.Unreserved) ∧
      contractFile.isDelimiter = false ∧
      (contractFile.toNode contractText).toValue.texts.Perm
        ["contract", "A", "function", "f", "a", "b", "contract"] ∧
      contractFunction.toNode contractText ∈ (contractFile.toNode contractText).toValue.nodes ∧
      (contractFunction.toNode contractText).field? "parameter" = some (.list [
        (word (some "parameter") "identifier" true 24 1).toNode contractText,
        (word (some "parameter") "identifier" true 26 1).toNode contractText]) ∧
      (word none "(" false 23 1).isDelimiter = true ∧
      ((word none "(" false 23 1).toNode contractText).toValue.texts = ["("] := by
  have hbare : contractFile.TokensBare := by decide
  have hnames : ∀ p ∈ contractFile.subtrees, p.node.Unreserved := by decide
  have hroot : contractFile.isDelimiter = false := rfl
  obtain ⟨htexts, -, hinner⟩ := texts_toNode contractText contractFile hbare hnames
  have hleaves : (contractFile.subtrees.filterMap fun p => p.node.leafText? contractText) ++
      contractFile.declarations =
        ["contract", "A", "function", "f", "a", "b", "contract"] := by decide
  obtain ⟨-, hbracket, -⟩ :=
    texts_toNode contractText (word none "(" false 23 1) (by decide) (by decide)
  have hplace : (contractFile.subtrees.map Subtree.node)[6]? = some contractFunction := rfl
  obtain ⟨p, hp, hnode⟩ := List.mem_map.mp (List.mem_of_getElem? hplace)
  obtain ⟨hmem, -, hfields⟩ := hinner p hp (hnode ▸ rfl)
  rw [hnode] at hmem hfields
  refine ⟨hbare, hnames, hroot, hleaves ▸ htexts hroot, hmem, ?_, rfl, hbracket rfl⟩
  exact hfields "parameter"
    ⟨word (some "parameter") "identifier" true 24 1, by simp [contractFunction, children], rfl⟩

end Concrete

end ContractQuery
