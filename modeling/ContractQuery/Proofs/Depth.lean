import ContractQuery.Proofs.Calls
import ContractQuery.Proofs.Listing
import ContractQuery.Proofs.Nesting

/-!
# The Count of a Listing

The count of a listing is a matter of visitor and walk together: whenever the visitor is called,
the count is the number of contracts that the walk is in.

A property of the nodes around and of the state that entering and leaving a node keep
(`Visitor.Follows`) holds at every call of a walk. To say so, `Visitor.watching` takes down each
call with the state in which it is made, and the calls are put to their places in the tree
(`Through.walk_watching`). The count is such a property (`Listing.follows_counts`).

## Main results

* `Through.walk_watching`: what the calls of a visitor keep holds at each call of a walk.
* `Node.listFunctions_exact`: **the functions of a contract, and the count on the way**.
-/

namespace ContractQuery

universe u

/-! ### States along a walk -/

/-- A visitor that takes down each call with the state in which it is made, and otherwise does as
another one. -/
def Visitor.watching {σ : Type u} (visitor : Visitor σ) : Visitor (σ × List (σ × Call Site)) where
  enter state n path :=
    let (s, flow) := visitor.enter state.1 n path
    ((s, state.2 ++ [(state.1, .enter ⟨n, path⟩ flow)]), flow)
  exit state n path := (visitor.exit state.1 n path, state.2 ++ [(state.1, .exit ⟨n, path⟩)])

/-- What a visitor is shown of a node at its place. -/
def Occurrence.site (o : Occurrence) : Site := ⟨o.node, o.path⟩

/-- The nodes that a walk is in when it makes a call, nearest first. A node that is left is among
them, a node that is entered is not. -/
def Call.around : Call Occurrence → List Node
  | enter o _ => o.ancestors
  | exit o => o.node :: o.ancestors

/-- The calls `seen` are made at places in pre-order, each in a state that goes with the nodes
around. -/
structure Watched {σ : Type u} (P : List Node → σ → Prop) (places : List Occurrence)
    (seen : List (σ × Call Occurrence)) : Prop where
  entered_sublist : (Call.entered (seen.map Prod.snd)).Sublist places
  place_mem : ∀ e ∈ seen, e.2.place ∈ places
  holds : ∀ e ∈ seen, P e.2.around e.1

namespace Watched

variable {σ : Type u} {P : List Node → σ → Prop} {places places' : List Occurrence}
  {seen seen' : List (σ × Call Occurrence)}

/-- Where nothing is called, nothing is seen. -/
theorem nil (places : List Occurrence) : Watched P places [] :=
  ⟨List.nil_sublist _, by simp, by simp⟩

/-- What is seen at some places and then at more places is seen at all of them. -/
theorem append (h : Watched P places seen) (h' : Watched P places' seen') :
    Watched P (places ++ places') (seen ++ seen') := by
  refine ⟨?_, ?_, ?_⟩
  · rw [List.map_append, Call.entered_append]
    exact h.entered_sublist.append h'.entered_sublist
  · intro e he
    rcases List.mem_append.mp he with he | he
    · exact List.mem_append_left _ (h.place_mem e he)
    · exact List.mem_append_right _ (h'.place_mem e he)
  · intro e he
    rcases List.mem_append.mp he with he | he
    · exact h.holds e he
    · exact h'.holds e he

/-- A walk that stops does not see the places that follow. -/
theorem append_left (h : Watched P places seen) (places' : List Occurrence) :
    Watched P (places ++ places') seen := by
  simpa using h.append (nil places')

/-- The call that enters a node. -/
theorem enter {o : Occurrence} {s : σ} (hs : P o.ancestors s) (flow : Flow) :
    Watched P [o] [(s, .enter o flow)] :=
  ⟨by simp, by simp, by simpa [Call.around] using hs⟩

/-- The call that leaves a node, after the calls below it. -/
theorem exit {o : Occurrence} {s : σ} (h : Watched P (o :: places) seen)
    (hs : P (o.node :: o.ancestors) s) : Watched P (o :: places) (seen ++ [(s, .exit o)]) := by
  refine ⟨?_, ?_, ?_⟩
  · simpa using h.entered_sublist
  · intro e he
    rcases List.mem_append.mp he with he | he
    · exact h.place_mem e he
    · obtain rfl := List.mem_singleton.mp he
      exact List.mem_cons_self
  · intro e he
    rcases List.mem_append.mp he with he | he
    · exact h.holds e he
    · obtain rfl := List.mem_singleton.mp he
      exact hs

end Watched

section Watching

variable {σ : Type u} {visitor : Visitor σ} {P : List Node → σ → Prop}

/-- What watching a walk comes to if the walk comes to `result` and the calls are `seen`. -/
def watched (result : σ × Outcome) (log : List (σ × Call Site))
    (seen : List (σ × Call Occurrence)) : (σ × List (σ × Call Site)) × Outcome :=
  ((result.1, log ++ seen.map fun e => (e.1, e.2.map Occurrence.site)), result.2)

/-- A watched call that enters a node. -/
theorem enter_watching {s s' : σ} {n : Node} {path : Path} {flow : Flow}
    (h : visitor.enter s n path = (s', flow)) (log : List (σ × Call Site)) :
    visitor.watching.enter (s, log) n path =
      ((s', log ++ [(s, .enter ⟨n, path⟩ flow)]), flow) := by
  simp [Visitor.watching, h]

/-- **What the calls of a visitor keep holds at each call of a walk.** -/
theorem Through.walk_watching {above : List Frame} {vs : List Value} {route : Route}
    {os : List Occurrence} {ps : List Place} (h : Through above vs route os ps)
    (hvisitor : visitor.Follows P) {s : σ} (hs : P (above.map Frame.node) s)
    (log : List (σ × Call Site)) :
    ∃ seen, route.walk visitor.watching (s, log) = watched (route.walk visitor s) log seen ∧
      Watched P os seen := by
  induction h generalizing s log with
  | nil | map | scalar => exact ⟨[], by simp [watched], .nil []⟩
  | list h ih => exact ih hs log
  | @node above n path address below os ps hbelow h ih =>
      have hcall := fun flow => Watched.enter (o := ⟨path, above, n⟩) hs flow
      rcases Route.walk_visit_cases visitor ⟨n, path⟩ below s with ⟨s', henter, hwalk⟩ |
        ⟨s', henter, hwalk⟩ | ⟨s', s'', henter, hinside, hwalk⟩ |
        ⟨s', s'', henter, hinside, hwalk⟩ <;>
        have hwatch := enter_watching henter log <;> rw [hwalk]
      · exact ⟨[(s, .enter ⟨path, above, n⟩ .stop)], Route.walk_visit_of_stop hwatch,
          (hcall .stop).append_left os⟩
      · exact ⟨[(s, .enter ⟨path, above, n⟩ .skip)], Route.walk_visit_of_skip hwatch,
          (hcall .skip).append_left os⟩
      · obtain ⟨seen, hseen, hwatched⟩ := ih (hvisitor.descend hs henter) _
        rw [hinside] at hseen
        refine ⟨_, (Route.walk_visit_of_stopped hwatch hseen).trans ?_,
          (hcall .descend).append hwatched⟩
        simp [watched, Call.map, Occurrence.site]
      · have hs' := hvisitor.descend hs henter
        obtain ⟨seen, hseen, hwatched⟩ := ih hs' _
        rw [hinside] at hseen
        refine ⟨_, (Route.walk_visit_of_completed hwatch hseen).trans ?_,
          ((hcall .descend).append hwatched).exit (h.follows hvisitor hs' hinside)⟩
        simp [watched, Call.map, Occurrence.site, Visitor.watching]
  | @cons above v rest first next os os' ps ps' hright h h' ih ih' =>
      rw [Frame.map_node_pass] at ih'
      obtain ⟨seen, hseen, hwatched⟩ := ih hs log
      rcases Route.walk_onward_cases visitor first next s with ⟨s', hfirst, hwalk⟩ |
        ⟨s', hfirst, hwalk⟩ <;> rw [hfirst] at hseen <;> rw [hwalk]
      · exact ⟨seen, Route.walk_onward_of_stopped hseen, hwatched.append_left os'⟩
      · obtain ⟨seen', hseen', hwatched'⟩ := ih' (h.follows hvisitor hs hfirst)
          (log ++ seen.map fun e => (e.1, e.2.map Occurrence.site))
        refine ⟨seen ++ seen', (Route.walk_onward_of_completed hseen).trans ?_,
          hwatched.append hwatched'⟩
        simpa [watched] using hseen'

end Watching

namespace Node

/-- **The functions of a contract, and the count on the way.** Listed are, in pre-order, the names
of the functions that are in a contract, in no function and in no contract of another name. The
calls of the walk can be put to their places in the tree, in pre-order where nodes are entered, and
at each call the count is the number of contracts that the walk is in; so it is not zero when a
contract is left. -/
theorem listFunctions_exact (root : Node) (contract : String) :
    root.listFunctions contract =
      (root.occurrences.filter (·.IsMember contract)).map (·.node.name?) ∧
    ∃ seen : List (Listing × Call Occurrence),
      root.walk (Listing.visitor contract).watching (⟨0, []⟩, []) =
        ((⟨0, root.listFunctions contract⟩,
          seen.map fun e => (e.1, e.2.map Occurrence.site)), .completed) ∧
      (Call.entered (seen.map Prod.snd)).Sublist root.occurrences ∧
      (∀ e ∈ seen, e.2.place ∈ root.occurrences ∧
        e.1.depth = e.2.around.countP (·.kind = .contractDefinition)) ∧
      ∀ s o, (s, .exit o) ∈ seen → o.node.kind = .contractDefinition → 0 < s.depth := by
  have hstart : Listing.Counts [] ⟨0, []⟩ := rfl
  obtain ⟨seen, hseen, hwatched⟩ := (root.toValue.through [] [] []).walk_watching
    (Listing.follows_counts contract) hstart []
  refine ⟨root.listFunctions_eq contract, seen, ?_, hwatched.entered_sublist,
    fun e he => ⟨hwatched.place_mem e he, hwatched.holds e he⟩, fun s o he hkind => ?_⟩
  · rw [walk, Value.walk_eq_route, hseen, ← Value.walk_eq_route, ← walk, walk_listing,
      listFunctions_eq]
    rfl
  · exact (hwatched.holds _ he).pos_iff.mpr ⟨o.node, List.mem_cons_self, hkind⟩

/-- A function in a map of a contract. -/
def shelved : Node :=
  ⟨.sourceUnit, none, [
    ("children", .list [
      .node .contractDefinition none [
        ("name", .text "Vault"),
        ("meta", .map [("hidden", .node .functionDefinition none [("name", .text "f")])])]])]⟩

/-- A function in a map of a contract is in the contract, and yet it is not listed. -/
theorem listFunctions_shelved :
    ¬ ∀ name, name ∈ shelved.listFunctions "Vault" ↔
      ∃ above n, shelved.toValue.Holds above n ∧ n.kind = .functionDefinition ∧
        (∀ a ∈ above, a.kind ≠ .functionDefinition) ∧
        (∃ a ∈ above, a.kind = .contractDefinition) ∧
        (∀ a ∈ above, a.kind = .contractDefinition → a.name? = some "Vault") ∧
        n.name? = name := by
  intro h
  have hlisted : some "f" ∈ shelved.listFunctions "Vault" := by
    refine (h (some "f")).mpr ⟨_, _, .inField (List.mem_singleton_self _) (.inItem
      (List.mem_singleton_self _) (.inField (List.mem_cons_of_mem _ (List.mem_singleton_self _))
      (.inEntry (List.mem_singleton_self _) .here))), rfl, ?_, ?_, ?_, rfl⟩ <;> decide
  have hnone : shelved.listFunctions "Vault" = [] := rfl
  rw [hnone] at hlisted
  cases hlisted

end Node

end ContractQuery
