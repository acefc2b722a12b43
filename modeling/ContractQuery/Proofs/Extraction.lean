import ContractQuery.Proofs.Comparison

/-!
# Contracts of Pruned and of Equal Trees

A comparison with a target looks for the contract first and prunes it afterwards; one without
prunes the tree as a whole. The two ways meet in the nodes that pruning keeps, those that neither
are of the pruned kinds nor lie inside such a node (`Occurrence.IsKept`): the nodes of the pruned
tree are these, each pruned (`Through.nodes_without`). If all contracts of a name are kept, the
search in the pruned tree finds what it finds in the tree, pruned (`Node.findContract_without`).

Equal trees have equal nodes, but not in one order, as the order of fields is free. Which of
several contracts of a name is the first may therefore differ, and only one that is alone in its
tree is sure to be matched by an equal one (`Node.findContract_of_same`).

## Main results

* `Node.findContract_without`: looking for a contract commutes with pruning.
* `Node.findContract_of_same`: equal trees have equal contracts of a name that occurs once.
* `Node.compareWithout_some_of_none`: **equal files have equal contracts**.
-/

namespace ContractQuery

/-- Neither the node nor a node above it is of the kinds. -/
def Occurrence.IsKept (kinds : List Kind) (o : Occurrence) : Prop :=
  o.node.kind ∉ kinds ∧ ∀ a ∈ o.ancestors, a.kind ∉ kinds

instance (kinds : List Kind) : DecidablePred (Occurrence.IsKept kinds) := fun o =>
  inferInstanceAs (Decidable (o.node.kind ∉ kinds ∧ ∀ a ∈ o.ancestors, a.kind ∉ kinds))

/-! ### The nodes that pruning keeps -/

/-- **The nodes of pruned values** are the nodes that pruning keeps, each pruned. -/
theorem Through.nodes_without {above : List Frame} {vs : List Value} {route : Route}
    {os : List Occurrence} {ps : List Place} (h : Through above vs route os ps) (kinds : List Kind)
    (habove : ∀ a ∈ above.map Frame.node, a.kind ∉ kinds) :
    (Value.withoutItems kinds vs).flatMap Value.nodes =
      (os.filter (·.IsKept kinds)).map (·.node.without kinds) := by
  induction h with
  | nil => simp [Value.withoutItems]
  | map | scalar => simp [Value.withoutItems, Value.isOf, Value.without, Value.nodes]
  | @list above items route os ps h ih =>
      have hof : (Value.list items).isOf kinds = false := rfl
      rw [Value.withoutItems, hof, if_neg Bool.false_ne_true, Value.withoutItems,
        List.flatMap_singleton, Value.without, Value.nodes_list, ih habove]
  | @node above n path address below os ps hbelow h ih =>
      by_cases hn : n.kind ∈ kinds
      · have hnone : ∀ o ∈ (⟨path, above, n⟩ :: os : List Occurrence), ¬ o.IsKept kinds := by
          refine List.forall_mem_cons.mpr ⟨fun hkept => hkept.1 hn, fun o ho hkept => ?_⟩
          exact hkept.2 n ((h.suffix_of_mem o ho).subset List.mem_cons_self) hn
        rw [Value.withoutItems, if_pos (by simpa [Node.isOf_toValue] using hn),
          List.filter_eq_nil_iff.mpr (by simpa using hnone)]
        rfl
      · have hself : Occurrence.IsKept kinds ⟨path, above, n⟩ := ⟨hn, habove⟩
        rw [Value.withoutItems, if_neg (by simpa [Node.isOf_toValue] using hn), Value.withoutItems,
          List.flatMap_singleton, ← Node.toValue_without, Value.nodes_toValue, Node.without,
          Value.map_snd_withoutFields, ih (List.forall_mem_cons.mpr ⟨hn, habove⟩),
          List.filter_cons_of_pos (by simpa using hself)]
        rfl
  | @cons above v rest first next os os' ps ps' hright h h' ih ih' =>
      rw [Frame.map_node_pass] at ih'
      rw [← List.singleton_append, Value.withoutItems_append, List.flatMap_append, ih habove,
        ih' habove, List.filter_append, List.map_append]

namespace Value

/-- The nodes of a pruned value. -/
theorem nodes_without {kinds : List Kind} {v : Value} (hof : v.isOf kinds = false) (path : Path) :
    (v.without kinds).nodes =
      ((v.occurrences path []).filter (·.IsKept kinds)).map (·.node.without kinds) := by
  rw [← (v.through path [] []).nodes_without kinds (by simp), withoutItems, hof,
    if_neg Bool.false_ne_true, withoutItems, List.flatMap_singleton]

/-- A filtered leaf holds the same text. -/
@[simp] theorem text?_without (kinds : List Kind) (v : Value) :
    (v.without kinds).text? = v.text? := by
  cases v <;> simp [without, text?]

/-- What is of some kinds is no leaf that holds text. -/
theorem text?_of_isOf {kinds : List Kind} {v : Value} (h : v.isOf kinds = true) :
    v.text? = none := by
  cases v <;> simp_all [isOf, text?]

end Value

namespace Node

/-! ### Looking for a contract in a pruned tree -/

/-- A pruned node keeps its kind. -/
@[simp] theorem kind_without (n : Node) (kinds : List Kind) : (n.without kinds).kind = n.kind := rfl

/-- The fields of a pruned node are the fields, filtered. -/
@[simp] theorem fields_without (n : Node) (kinds : List Kind) :
    (n.without kinds).fields = Value.withoutFields kinds n.fields := rfl

/-- Pruning does not change the name of a node. -/
theorem name?_without {n : Node} (hn : n.Distinct) (kinds : List Kind) :
    (n.without kinds).name? = n.name? := by
  have hnames := (Value.distinct_node.1 hn).1
  rw [name?, name?, field?, field?, without, Value.get?_withoutFields hnames, Option.bind_assoc]
  congr 1
  funext v
  cases hof : v.isOf kinds with
  | true => simp [Value.text?_of_isOf hof]
  | false => simp

/-- Pruning does not change whether a node is a contract of a name. -/
theorem isContract_without {n : Node} (hn : n.Distinct) (kinds : List Kind) (name : String) :
    (n.without kinds).isContract name = n.isContract name := by
  rw [isContract, isContract, name?_without hn, kind_without]

/-- If pruning keeps all contracts of a name, the pruned tree has these contracts, pruned. -/
theorem filter_isContract_without {root : Node} {kinds : List Kind} {name : String}
    (hroot : root.Distinct) (hkind : root.kind ∉ kinds)
    (hkept : ∀ o ∈ root.occurrences, o.node.isContract name = true → o.IsKept kinds) :
    (root.without kinds).toValue.nodes.filter (·.isContract name) =
      (root.toValue.nodes.filter (·.isContract name)).map (·.without kinds) := by
  have hof : root.toValue.isOf kinds = false := by simpa [isOf_toValue] using hkind
  have hnodes := Value.map_node_occurrences root.toValue [] []
  rw [toValue_without, Value.nodes_without hof [], ← hnodes,
    List.filter_map, List.filter_map, List.map_map, List.filter_filter]
  congr 1
  refine List.filter_congr fun o ho => ?_
  have hdistinct : o.node.Distinct :=
    Value.Distinct.of_mem_nodes hroot (hnodes ▸ List.mem_map_of_mem ho)
  rw [Function.comp_apply, isContract_without hdistinct, Function.comp_apply]
  cases hcontract : o.node.isContract name with
  | true => simpa using hkept o ho hcontract
  | false => rfl

/-- **Looking for a contract commutes with pruning**, if pruning keeps all contracts of the
name. -/
theorem findContract_without {root : Node} {kinds : List Kind} {name : String}
    (hroot : root.Distinct) (hkind : root.kind ∉ kinds)
    (hkept : ∀ o ∈ root.occurrences, o.node.isContract name = true → o.IsKept kinds) :
    (root.without kinds).findContract name = (root.findContract name).map (·.without kinds) := by
  rw [findContract_eq_find?, findContract_eq_find?, ← List.head?_filter, ← List.head?_filter,
    filter_isContract_without hroot hkind hkept, List.head?_map]

end Node

/-! ### Contracts of equal trees -/

namespace Value

/-- Equal values hold the same text, if any. -/
theorem text?_of_same {v w : Value} (h : v.same w = true) : v.text? = w.text? := by
  cases v with
  | scalar s =>
      cases w with
      | scalar t =>
          have hsame := same_scalar_iff.1 h
          cases s <;> cases t <;> simp_all [Scalar.same, text?]
      | _ => simp [same] at h
  | node | list | map => cases w <;> simp_all [same, text?]

/-- Each node of a value has an equal one in every equal value. -/
theorem exists_mem_nodes_of_same {v w : Value} (h : v.same w = true) {m : Node}
    (hm : m ∈ v.nodes) : ∃ m' ∈ w.nodes, m.same m' = true := by
  induction v using inductionOn generalizing w with
  | node kind span r ih =>
      cases w with
      | node kind' span' r' =>
          rw [nodes, List.mem_cons] at hm
          rcases hm with rfl | hm
          · exact ⟨_, List.mem_cons_self, by rwa [← Node.same_toValue]⟩
          · obtain ⟨e, he, hm⟩ := mem_nodesFields.1 hm
            rw [same, Bool.and_eq_true] at h
            obtain ⟨u, hget, hsame⟩ := sameFields_iff.1 h.2 e he
            obtain ⟨m', hm', hequal⟩ := ih e he hsame hm
            refine ⟨m', List.mem_cons_of_mem _ (mem_nodesFields.2 ?_), hequal⟩
            exact ⟨_, Record.mem_of_get?_eq_some hget, hm'⟩
      | _ => simp [same] at h
  | list items ih =>
      cases w with
      | list items' =>
          obtain ⟨u, hu, hm⟩ := mem_nodesItems.1 hm
          obtain ⟨u', hu', hsame⟩ := exists_mem_of_forall₂ (same_list_iff.1 h).flip hu
          obtain ⟨m', hm', hequal⟩ := ih u hu hsame hm
          exact ⟨m', mem_nodesItems.2 ⟨u', hu', hm'⟩, hequal⟩
      | _ => simp [same] at h
  | map entries ih => simp [nodes] at hm
  | scalar leaf => simp [nodes] at hm

end Value

namespace Node

/-- Equal nodes have one kind. -/
theorem kind_of_same {m m' : Node} (h : m.same m' = true) : m.kind = m'.kind := by
  rw [same, Bool.and_eq_true, Bool.and_eq_true, beq_iff_eq] at h
  exact h.1.1

/-- Equal nodes have the same name, if any. -/
theorem name?_of_same {m m' : Node} (hm : m.Distinct) (hm' : m'.Distinct)
    (h : m.same m' = true) : m.name? = m'.name? := by
  rw [← same_toValue] at h
  have hrel := Value.rel_get?_of_same hm hm' h "name"
  rw [name?, name?, field?, field?]
  generalize Record.get? m.fields "name" = o, Record.get? m'.fields "name" = o' at hrel ⊢
  cases hrel with
  | none => rfl
  | some hsame => exact Value.text?_of_same hsame

/-- Equal nodes are contracts of the same names. -/
theorem isContract_of_same {m m' : Node} (hm : m.Distinct) (hm' : m'.Distinct)
    (h : m.same m' = true) (name : String) : m.isContract name = m'.isContract name := by
  rw [isContract, isContract, kind_of_same h, name?_of_same hm hm' h]

/-- **Equal trees have equal contracts of a name**, if the second has not more than one. -/
theorem findContract_of_same {a b x : Node} {name : String} (ha : a.Distinct) (hb : b.Distinct)
    (h : a.same b = true)
    (hunique : (b.toValue.nodes.filter (·.isContract name)).length ≤ 1)
    (hx : a.findContract name = some x) :
    ∃ y, b.findContract name = some y ∧ x.same y = true := by
  have hmem := (mem_nodes_of_findContract hx).1
  rw [findContract_eq_find?] at hx
  have hcontract : x.isContract name = true := by simpa using List.find?_some hx
  rw [← same_toValue] at h
  obtain ⟨y, hy, hxy⟩ := Value.exists_mem_nodes_of_same h hmem
  have hycontract : y.isContract name = true := by
    rw [← isContract_of_same (ha.of_mem_nodes hmem) (hb.of_mem_nodes hy) hxy, hcontract]
  refine ⟨y, ?_, hxy⟩
  -- The only contract of the name is also the first.
  have hfiltered : y ∈ b.toValue.nodes.filter (·.isContract name) :=
    List.mem_filter.2 ⟨hy, hycontract⟩
  rw [findContract_eq_find?, ← List.head?_filter]
  obtain ⟨z, hz⟩ : ∃ z, b.toValue.nodes.filter (·.isContract name) = [z] :=
    List.length_eq_one_iff.1 (le_antisymm hunique (List.length_pos_of_mem hfiltered))
  rw [hz, List.mem_singleton] at hfiltered
  rw [hz, hfiltered, List.head?_cons]

/-! ### Equal files have equal contracts -/

/-- A contract of the name stands alone, if there is one: no other contract of the tree has the
name, and the contract is not inside a node of the kinds. -/
structure StandsAlone (root : Node) (name : String) (kinds : List Kind) : Prop where
  unique : (root.occurrences.filter (·.node.isContract name)).length ≤ 1
  outside : ∀ o ∈ root.occurrences, o.node.isContract name = true →
    ∀ a ∈ o.ancestors, a.kind ∉ kinds

variable {a b root : Node} {name : String} {kinds : List Kind}

/-- A contract that stands alone is kept if no contracts are pruned. -/
theorem StandsAlone.isKept (h : root.StandsAlone name kinds)
    (hcontract : .contractDefinition ∉ kinds) :
    ∀ o ∈ root.occurrences, o.node.isContract name = true → o.IsKept kinds := by
  intro o ho hname
  exact ⟨kind_of_isContract hname ▸ hcontract, h.outside o ho hname⟩

/-- What pruning leaves of a tree still has not more than one contract of the name. -/
theorem StandsAlone.unique_without (h : root.StandsAlone name kinds) (hroot : root.Distinct)
    (hkind : root.kind ∉ kinds) (hcontract : .contractDefinition ∉ kinds) :
    ((root.without kinds).toValue.nodes.filter (·.isContract name)).length ≤ 1 := by
  have hunique := h.unique
  rw [filter_isContract_without hroot hkind (h.isKept hcontract), List.length_map,
    ← Value.map_node_occurrences root.toValue [] [], List.filter_map, List.length_map]
  exact hunique

/-- If two trees are equal once pruned, a contract that the first one has is equal to that of the
second once pruned. -/
theorem compareWithout_some_of_same (ha : a.Distinct) (hb : b.Distinct) (hka : a.kind ∉ kinds)
    (hkb : b.kind ∉ kinds) (hcontract : .contractDefinition ∉ kinds)
    (haalone : a.StandsAlone name kinds) (hbalone : b.StandsAlone name kinds)
    (hsame : (a.without kinds).same (b.without kinds) = true) (hdeclares : a.Declares name) :
    a.compareWithout b (some name) kinds = .ok true := by
  obtain ⟨x, hx⟩ := Option.isSome_iff_exists.1 (isSome_findContract_iff.2 hdeclares)
  have hx' : (a.without kinds).findContract name = some (x.without kinds) := by
    rw [findContract_without ha hka (haalone.isKept hcontract), hx, Option.map_some]
  obtain ⟨y', hy', hxy⟩ := findContract_of_same (ha.without kinds) (hb.without kinds) hsame
    (hbalone.unique_without hb hkb hcontract) hx'
  rw [findContract_without hb hkb (hbalone.isKept hcontract), Option.map_eq_some_iff] at hy'
  obtain ⟨y, hy, rfl⟩ := hy'
  obtain ⟨hxmem, hxkind⟩ := mem_nodes_of_findContract hx
  obtain ⟨hymem, hykind⟩ := mem_nodes_of_findContract hy
  rw [compareWithout_eq_iff ha hb, subject, subject, hx, hy]
  exact .both (ha.of_mem_nodes hxmem) (hb.of_mem_nodes hymem) (hxkind ▸ hcontract)
    (hykind ▸ hcontract) hxy

/-- **Equal files have equal contracts.** Let a contract of the name stand alone in both trees, and
let one of the trees have it. If the trees compare as equal as a whole, without nodes of some kinds
that do not include contracts, then their contracts of the name compare as equal as well. -/
theorem compareWithout_some_of_none (a b : Node) (kinds : List Kind) (name : String)
    (ha : a.Distinct) (hb : b.Distinct) (hcontract : .contractDefinition ∉ kinds)
    (haalone : a.StandsAlone name kinds) (hbalone : b.StandsAlone name kinds)
    (hdeclares : a.Declares name ∨ b.Declares name)
    (hwhole : a.compareWithout b none kinds = .ok true) :
    a.compareWithout b (some name) kinds = .ok true := by
  rw [compareWithout_eq_iff ha hb] at hwhole
  cases hwhole with
  | both _ _ hka hkb hsame =>
      rcases hdeclares with hdeclares | hdeclares
      · exact compareWithout_some_of_same ha hb hka hkb hcontract haalone hbalone hsame hdeclares
      · rw [same_comm (ha.without kinds) (hb.without kinds)] at hsame
        rw [compareWithout_comm ha hb]
        exact compareWithout_some_of_same hb ha hkb hka hcontract hbalone haalone hsame hdeclares

/-- A file with a contract in a list inside a list, another one in a field, and a comment. -/
def ledger : Node :=
  ⟨.sourceUnit, none, [
    ("main", .node .contractDefinition none [
      ("name", .text "Ledger"), ("doc", .node .blockComment none []), ("kind", .text "contract")]),
    ("children", .list [
      .list [.node .contractDefinition none [("name", .text "Entry")]],
      .node .lineComment none []])]⟩

/-- The file with its fields in another order, with spans, and with a comment that has a contract
`Entry` inside. -/
def ledgerRearranged : Node :=
  ⟨.sourceUnit, some (.lines 1 30), [
    ("children", .list [
      .node .blockComment none [
        ("example", .node .contractDefinition none [("name", .text "Entry")])],
      .list [.node .contractDefinition (some (.lines 4 9)) [("name", .text "Entry")]]]),
    ("main", .node .contractDefinition (some (.lines 10 20)) [
      ("kind", .text "contract"), ("name", .text "Ledger")])]⟩

/-- The files compare as equal, and so do their contracts `Ledger`. -/
theorem compareWithout_ledger :
    ledger.Distinct ∧ ledgerRearranged.Distinct ∧ ledger.StandsAlone "Ledger" Kind.comments ∧
      ledgerRearranged.StandsAlone "Ledger" Kind.comments ∧
      ledger.compareWithout ledgerRearranged none Kind.comments = .ok true ∧
      ledger.compareWithout ledgerRearranged (some "Ledger") Kind.comments = .ok true := by
  have ha : ledger.Distinct := by decide
  have hb : ledgerRearranged.Distinct := by decide
  have haalone : ledger.StandsAlone "Ledger" Kind.comments := ⟨by decide, by decide⟩
  have hbalone : ledgerRearranged.StandsAlone "Ledger" Kind.comments := ⟨by decide, by decide⟩
  have hwhole : ledger.compareWithout ledgerRearranged none Kind.comments = .ok true :=
    (compareWithout_eq_iff ha hb).2 (.both ha hb (by decide) (by decide) rfl)
  exact ⟨ha, hb, haalone, hbalone, hwhole,
    compareWithout_some_of_none ledger ledgerRearranged Kind.comments "Ledger" ha hb (by decide)
      haalone hbalone (.inl (by decide)) hwhole⟩

end Node

end ContractQuery
