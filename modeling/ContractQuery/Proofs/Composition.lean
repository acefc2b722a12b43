import ContractQuery.Proofs.Extraction

/-!
# Pruning More Than Once

Each pruning collects its paths from the tree that the one before has left, so two prunings remove
other paths in another order than a single one does, and not as many in all: a node inside a node
of the other kinds is removed by itself if its kind comes first, and together with the node around
it otherwise. The trees that are left are the same all the same. In terms of the recursive filter,
filtering twice is filtering once with all the kinds (`Value.without_without`).

A list of kinds is only ever asked which kinds are in it, so the order of the kinds and repeated
kinds make no difference to any part of the result (`Node.prune_congr`).

## Main results

* `Value.without_without`: filtering twice is filtering once.
* `Node.prune_without`: nothing is left to remove of kinds that have been removed.
* `Node.prune_compose`: **prunings compose**, in either order.
-/

namespace ContractQuery

namespace Value

variable {kinds kinds' both : List Kind}

/-- Filtering does not change whether the value itself is a node of some kinds. -/
@[simp] theorem isOf_without (kinds kinds' : List Kind) (v : Value) :
    (v.without kinds).isOf kinds' = v.isOf kinds' := by
  cases v <;> simp [without, isOf]

/-- A value is of the kinds of both lists together if it is of one of them. -/
theorem isOf_union (h : ∀ kind, kind ∈ both ↔ kind ∈ kinds ∨ kind ∈ kinds') (v : Value) :
    v.isOf both = (v.isOf kinds || v.isOf kinds') := by
  cases v <;> simp [isOf, h]

/-- **Filtering twice is filtering once** with the kinds of both filters. -/
theorem without_without (h : ∀ kind, kind ∈ both ↔ kind ∈ kinds ∨ kind ∈ kinds') (v : Value) :
    (v.without kinds).without kinds' = v.without both := by
  induction v using inductionOn with
  | node kind span fields ih =>
      simp only [without, withoutFields_eq_filterMap, List.filterMap_filterMap]
      congr 1
      refine List.filterMap_congr fun e he => ?_
      rw [isOf_union h]
      cases hof : e.2.isOf kinds with
      | true => simp
      | false => simp [ih e he]
  | list items ih =>
      simp only [without, withoutItems_eq_filterMap, List.filterMap_filterMap]
      congr 1
      refine List.filterMap_congr fun v hv => ?_
      rw [isOf_union h]
      cases hof : v.isOf kinds with
      | true => simp
      | false => simp [ih v hv]
  | map entries _ => simp only [without]
  | scalar leaf => simp only [without]

end Value

namespace Node

variable {root : Node} {kinds kinds' both : List Kind}

/-- Pruning one list of kinds and then another is pruning both. -/
theorem without_without (h : ∀ kind, kind ∈ both ↔ kind ∈ kinds ∨ kind ∈ kinds') (root : Node) :
    (root.without kinds).without kinds' = root.without both := by
  refine toValue_injective ?_
  rw [toValue_without, toValue_without, toValue_without, Value.without_without h]

/-! ### The kinds as a set -/

/-- The result of pruning depends on which kinds are in the list, and on nothing else. -/
theorem prune_congr (h : ∀ kind, kind ∈ kinds ↔ kind ∈ kinds') (root : Node) :
    root.prune kinds = root.prune kinds' := by
  have hcollector : collector kinds = collector kinds' := by simp only [collector, h]
  rw [prune, prune, pruneInPlace, pruneInPlace, collectPaths, collectPaths, hcollector]

/-! ### Kinds that have been removed -/

/-- A pruned tree has no nodes of the kinds. -/
theorem kind_not_mem_of_mem_nodes_without (hkind : root.kind ∉ kinds) {n : Node}
    (hn : n ∈ (root.without kinds).toValue.nodes) : n.kind ∉ kinds := by
  have hof : root.toValue.isOf kinds = false := by simpa [isOf_toValue] using hkind
  rw [toValue_without, Value.nodes_without hof []] at hn
  obtain ⟨o, ho, rfl⟩ := List.mem_map.mp hn
  have hkept : o.IsKept kinds := of_decide_eq_true (List.mem_filter.mp ho).2
  exact hkept.1

/-- **Nothing is left to remove** of kinds that have been removed. -/
theorem prune_without (hroot : root.Distinct) (hkind : root.kind ∉ kinds)
    (hsubset : kinds' ⊆ kinds) :
    (root.without kinds).prune kinds' = .ok (0, root.without kinds) := by
  have hcount : (root.without kinds).occurrences.filter (Occurrence.IsTopmost kinds') = [] := by
    rw [List.filter_eq_nil_iff]
    intro o ho htop
    have hmem : o.node ∈ (root.without kinds).toValue.nodes := by
      rw [← Value.map_node_occurrences _ [] []]
      exact List.mem_map_of_mem ho
    exact kind_not_mem_of_mem_nodes_without hkind hmem (hsubset (of_decide_eq_true htop).1)
  have hleft : (root.without kinds).without kinds' = root.without kinds :=
    without_without (fun kind => ⟨.inl, fun h => h.elim id (@hsubset kind)⟩) root
  rw [prune_of_not_mem (hroot.without kinds) (fun h => hkind (hsubset h)), hcount, hleft,
    List.length_nil]

/-! ### Pruning with two lists of kinds -/

/-- Pruning succeeds and leaves the second tree, however many nodes it removes. -/
def PrunesTo (root : Node) (kinds : List Kind) (left : Node) : Prop :=
  ∃ count, root.prune kinds = .ok (count, left)

/-- Pruning leaves the filtered tree unless the root is of the kinds. -/
theorem prunesTo_without (hroot : root.Distinct) (hkind : root.kind ∉ kinds) :
    root.PrunesTo kinds (root.without kinds) :=
  ⟨_, prune_of_not_mem hroot hkind⟩

/-- Pruning a pruned tree leaves what pruning with both lists of kinds leaves. -/
theorem without_prunesTo (h : ∀ kind, kind ∈ both ↔ kind ∈ kinds ∨ kind ∈ kinds')
    (hroot : root.Distinct) (hkind' : root.kind ∉ kinds') :
    (root.without kinds).PrunesTo kinds' (root.without both) := by
  rw [← without_without h]
  exact prunesTo_without (hroot.without kinds) hkind'

/-- **Prunings compose.** On a tree with distinct names whose root matches neither list of kinds,
pruning with the two lists one after the other, in either order, and pruning with both at once all
succeed and leave the same tree. Pruning again with kinds that have been pruned removes nothing and
changes nothing, and lists that have the same kinds give the same result. -/
theorem prune_compose (root : Node) (kinds kinds' : List Kind) (hroot : root.Distinct)
    (hkind : root.kind ∉ kinds) (hkind' : root.kind ∉ kinds') :
    ∃ left left' both : Node,
      (root.PrunesTo kinds left ∧ left.PrunesTo kinds' both) ∧
      (root.PrunesTo kinds' left' ∧ left'.PrunesTo kinds both) ∧
      root.PrunesTo (kinds ++ kinds') both ∧
      (∀ again, again ⊆ kinds → left.prune again = .ok (0, left)) ∧
      (∀ again, again ⊆ kinds ++ kinds' → both.prune again = .ok (0, both)) ∧
      ∀ others, (∀ kind, kind ∈ others ↔ kind ∈ kinds) → root.prune others = root.prune kinds := by
  have hboth : root.kind ∉ kinds ++ kinds' := by simp [hkind, hkind']
  refine ⟨root.without kinds, root.without kinds', root.without (kinds ++ kinds'), ⟨?_, ?_⟩,
    ⟨?_, ?_⟩, ?_, ?_, ?_, ?_⟩
  · exact prunesTo_without hroot hkind
  · exact without_prunesTo (fun _ => List.mem_append) hroot hkind'
  · exact prunesTo_without hroot hkind'
  · exact without_prunesTo (fun _ => List.mem_append.trans or_comm) hroot hkind
  · exact prunesTo_without hroot hboth
  · exact fun again hsubset => prune_without hroot hkind hsubset
  · exact fun again hsubset => prune_without hroot hboth hsubset
  · exact fun others h => prune_congr h root

/-- A block comment with a line comment inside, a line comment with a block comment inside, and a
statement between them. -/
def interleaved : Node :=
  ⟨.sourceUnit, some (.lines 1 9), [
    ("children", .list [
      .node .blockComment none [("inner", .node .lineComment none [])],
      .node (.other "Statement") (some (.lines 3 4)) [("note", .node .lineComment none [])],
      .node .lineComment none [("inner", .list [.node .blockComment none []])]])]⟩

/-- Pruning the line comments removes three nodes and leaves a block comment, which is pruned next.
Pruning both at once removes three nodes only, and what is left is the same. -/
theorem prune_compose_interleaved :
    interleaved.Distinct ∧ interleaved.kind ∉ [Kind.lineComment] ∧
      interleaved.kind ∉ [Kind.blockComment] ∧
      ∃ left both : Node,
        interleaved.prune [.lineComment] = .ok (3, left) ∧
        left.PrunesTo [.blockComment] both ∧
        interleaved.prune [.lineComment, .blockComment] = .ok (3, both) ∧
        both = ⟨.sourceUnit, some (.lines 1 9), [
          ("children", .list [.node (.other "Statement") (some (.lines 3 4)) []])]⟩ ∧
        both.prune [.blockComment, .blockComment] = .ok (0, both) := by
  have hdistinct : interleaved.Distinct := by decide
  have hline : interleaved.kind ∉ [Kind.lineComment] := by decide
  have hblock : interleaved.kind ∉ [Kind.blockComment] := by decide
  obtain ⟨left, -, both, ⟨⟨count, hleft⟩, hthen⟩, -, ⟨total, hboth⟩, -, hagain, -⟩ :=
    prune_compose interleaved [.lineComment] [.blockComment] hdistinct hline hblock
  have hfirst := hleft.symm.trans (prune_of_not_mem hdistinct hline)
  have hall := hboth.symm.trans (prune_of_not_mem hdistinct (by decide))
  obtain ⟨rfl, -⟩ := Prod.mk.inj (Except.ok.inj hfirst)
  obtain ⟨rfl, htree⟩ := Prod.mk.inj (Except.ok.inj hall)
  exact ⟨hdistinct, hline, hblock, left, both, hleft, hthen, hboth, htree,
    hagain _ (by decide)⟩

end Node

end ContractQuery
