import ContractQuery.Proofs.Route
import ContractQuery.Query.Contract

/-!
# Looking for a Contract

The search for a contract stops at the first node that is one of the given name, so it finds the
first such node among all nodes of the tree in pre-order. `Value.nodes` lists these nodes without
their places.

## Main results

* `Through.walk_finder`: what a search along a route finds.
* `Node.findContract_eq_find?`: **the search finds the first contract of a name**.
* `Node.isSome_findContract_iff`: it finds one if there is one.
-/

namespace ContractQuery

namespace Value

mutual

/-- The nodes of a value, in pre-order. -/
def nodes : Value → List Node
  | node kind span fields => ⟨kind, span, fields⟩ :: nodesFields fields
  | list items => nodesItems items
  | map _ => []
  | scalar _ => []

/-- The nodes of the items of a list, in pre-order. -/
def nodesItems : List Value → List Node
  | [] => []
  | v :: rest => v.nodes ++ nodesItems rest

/-- The nodes of the fields of a node, in pre-order. -/
def nodesFields : List (String × Value) → List Node
  | [] => []
  | (_, v) :: rest => v.nodes ++ nodesFields rest

end

/-- The nodes of items are those of each item, one after the other. -/
theorem nodes_list (items : List Value) : (list items).nodes = items.flatMap nodes := by
  rw [nodes]
  induction items with
  | nil => rfl
  | cons v rest ih => rw [nodesItems, ih, List.flatMap_cons]

/-- The nodes of a tree are the root and those of its fields, one after the other. -/
theorem nodes_toValue (n : Node) :
    n.toValue.nodes = n :: (n.fields.map Prod.snd).flatMap nodes := by
  rw [Node.toValue, nodes]
  congr 1
  induction n.fields with
  | nil => rfl
  | cons e rest ih => rw [nodesFields, ih, List.map_cons, List.flatMap_cons]

/-- A node of items is a node of one of them. -/
theorem mem_nodesItems {items : List Value} {n : Node} :
    n ∈ nodesItems items ↔ ∃ v ∈ items, n ∈ v.nodes := by
  induction items with
  | nil => simp [nodesItems]
  | cons v rest ih => simp [nodesItems, ih]

/-- A node of fields is a node of one of them. -/
theorem mem_nodesFields {fields : Record Value} {n : Node} :
    n ∈ nodesFields fields ↔ ∃ e ∈ fields, n ∈ e.2.nodes := by
  induction fields with
  | nil => simp [nodesFields]
  | cons e rest ih =>
      obtain ⟨name, v⟩ := e
      rw [nodesFields, List.mem_append, ih, List.exists_mem_cons_iff]

/-- The nodes of a value with distinct names have distinct names. -/
theorem Distinct.of_mem_nodes {v : Value} (hv : v.Distinct) {n : Node} (hn : n ∈ v.nodes) :
    n.Distinct := by
  induction v using inductionOn with
  | node kind span fields ih =>
      rw [nodes, List.mem_cons] at hn
      rcases hn with rfl | hn
      · exact hv
      · obtain ⟨e, he, hn⟩ := mem_nodesFields.mp hn
        exact ih e he (distinctFields_iff.mp (distinct_node.mp hv).2 e he) hn
  | list items ih =>
      rw [nodes] at hn
      obtain ⟨w, hw, hn⟩ := mem_nodesItems.mp hn
      exact ih w hw (distinctItems_iff.mp (distinct_list.mp hv) w hw) hn
  | map entries ih => simp [nodes] at hn
  | scalar s => simp [nodes] at hn

end Value

/-! ### A whole walk -/

namespace Through

variable {above : List Frame} {vs : List Value} {route : Route} {os : List Occurrence}
  {ps : List Place}

/-- The nodes that a route goes through are those of the values. -/
theorem map_node (h : Through above vs route os ps) :
    os.map Occurrence.node = vs.flatMap Value.nodes := by
  induction h with
  | nil => rfl
  | map | scalar => simp [Value.nodes]
  | list h ih => rw [ih, List.flatMap_singleton, Value.nodes_list]
  | node hbelow h ih => rw [List.map_cons, ih, List.flatMap_singleton, Value.nodes_toValue]
  | cons hright h h' ih ih' =>
      rw [List.map_append, ih, ih', List.flatMap_singleton, List.flatMap_cons]

/-- How a search ends that is to find `found`. -/
def searched (found : Option Node) : Option Node × Outcome :=
  (found, if found.isSome then .stopped else .completed)

/-- A search along a route finds the first contract of the name. -/
theorem walk_finder (h : Through above vs route os ps) (name : String) :
    route.walk (Node.finder name) none =
      searched ((os.map Occurrence.node).find? (·.isContract name)) := by
  induction h with
  | nil | map | scalar => rfl
  | list h ih => exact ih
  | @node above n path address below os ps hbelow h ih =>
      rw [List.map_cons, List.find?_cons]
      cases hcontract : n.isContract name with
      | true =>
          exact Route.walk_visit_of_stop (by simp [Node.finder, Visitor.entering, hcontract])
      | false =>
          have henter : (Node.finder name).enter none n path = (none, .descend) := by
            simp [Node.finder, Visitor.entering, hcontract]
          cases hfound : (os.map Occurrence.node).find? (·.isContract name) with
          | some found =>
              rw [hfound] at ih
              exact Route.walk_visit_of_stopped henter ih
          | none =>
              rw [hfound] at ih
              exact Route.walk_visit_of_completed henter ih
  | @cons above v rest first next os os' ps ps' hright h h' ih ih' =>
      rw [List.map_append, List.find?_append]
      cases hfound : (os.map Occurrence.node).find? (·.isContract name) with
      | some found =>
          rw [hfound] at ih
          exact Route.walk_onward_of_stopped ih
      | none =>
          rw [hfound] at ih
          exact (Route.walk_onward_of_completed ih).trans ih'

end Through

/-- The nodes of a value, whatever its place. -/
theorem Value.map_node_occurrences (v : Value) (path : Path) (above : List Frame) :
    (v.occurrences path above).map Occurrence.node = v.nodes := by
  rw [(v.through path [] above).map_node, List.flatMap_singleton]

namespace Node

/-- **The search finds the first contract of a name.** -/
theorem findContract_eq_find? (root : Node) (name : String) :
    root.findContract name = root.toValue.nodes.find? (·.isContract name) := by
  rw [findContract, walk, Value.walk_eq_route, (root.toValue.through [] [] []).walk_finder name,
    Value.map_node_occurrences, Through.searched]

/-- A contract of a name is a contract. -/
theorem kind_of_isContract {n : Node} {name : String} (h : n.isContract name = true) :
    n.kind = .contractDefinition := by
  rw [isContract, Bool.and_eq_true, beq_iff_eq] at h
  exact h.1

/-- What the search finds is a contract of the name, somewhere in the tree. -/
theorem mem_nodes_of_findContract {root found : Node} {name : String}
    (h : root.findContract name = some found) :
    found ∈ root.toValue.nodes ∧ found.kind = .contractDefinition := by
  rw [findContract_eq_find?] at h
  have hcontract : found.isContract name = true := by simpa using List.find?_some h
  exact ⟨List.mem_of_find?_eq_some h, kind_of_isContract hcontract⟩

/-- Some node of the tree is a contract of the name. -/
def Declares (root : Node) (name : String) : Prop :=
  ∃ o ∈ root.occurrences, o.node.isContract name = true

instance (root : Node) (name : String) : Decidable (root.Declares name) :=
  inferInstanceAs (Decidable (∃ o ∈ root.occurrences, _))

/-- The search finds a contract if there is one. -/
theorem isSome_findContract_iff {root : Node} {name : String} :
    (root.findContract name).isSome ↔ root.Declares name := by
  have hnodes : root.toValue.nodes = root.occurrences.map Occurrence.node :=
    (Value.map_node_occurrences root.toValue [] []).symm
  rw [findContract_eq_find?, hnodes, List.find?_isSome]
  simp [Declares]

end Node

end ContractQuery
