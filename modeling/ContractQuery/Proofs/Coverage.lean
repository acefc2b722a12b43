import ContractQuery.Proofs.Route
import ContractQuery.Query.Coverage

/-!
# Which Functions Locations Touch

A walk that looks for functions keeps the open contract in a single slot: entering a contract
that some location meets fills it, and leaving one empties it. This module says what the slot
holds at every place of every tree (`Coverage.openContract`): the nearest contract above, as
long as no other contract was entered inside it on the way. From this follows the exact answer
for every tree.

A walk goes below a node only if it is no function and, if it is a contract, some location
meets it (`Coverage.Passable`); a place is reached if this holds of all nodes above it. What is
known at a place (`Coverage.At`) and what a walk makes of it (`Coverage.Finds`) are the two
halves of the induction.

## Main results

* `Coverage.walk_of_passable`, `Coverage.walk_of_not_passable`: what a walk does at one node.
* `Through.walk_visitor`: what a walk along a route finds, and what it leaves in the slot.
* `Node.functionsAt_eq`: **the answer for every tree**.
-/

namespace ContractQuery

/-- Some location meets the span of the node. -/
def Node.Touched (locations : List Location) (n : Node) : Prop :=
  ∃ span, n.span = some span ∧ ∃ l ∈ locations, l.toSpan.intersects span = true

namespace Coverage

/-- The test of a walk is whether some location meets the node. -/
theorem inScope_iff_touched {locations : List Location} {n : Node} :
    inScope (locations.map Location.toSpan) n = true ↔ n.Touched locations := by
  cases h : n.span <;> simp [inScope, Node.Touched, h]

instance (locations : List Location) (n : Node) : Decidable (n.Touched locations) :=
  decidable_of_iff _ inScope_iff_touched

/-- A walk goes below the node. -/
def Passable (locations : List Location) (n : Node) : Prop :=
  n.kind ≠ .functionDefinition ∧ (n.kind = .contractDefinition → n.Touched locations)

instance (locations : List Location) (n : Node) : Decidable (Passable locations n) :=
  inferInstanceAs (Decidable (_ ∧ _))

end Coverage

namespace Value

mutual

/-- Whether a walk through the value enters a contract. -/
def opens (locations : List Location) : Value → Bool
  | node kind span fields =>
    if kind = .contractDefinition then (⟨kind, span, fields⟩ : Node).Touched locations
    else if kind = .functionDefinition then false
    else opensFields locations fields
  | list items => opensItems locations items
  | map _ => false
  | scalar _ => false

/-- Whether a walk through the items enters a contract. -/
def opensItems (locations : List Location) : List Value → Bool
  | [] => false
  | v :: rest => v.opens locations || opensItems locations rest

/-- Whether a walk through the fields enters a contract. -/
def opensFields (locations : List Location) : List (String × Value) → Bool
  | [] => false
  | (_, v) :: rest => v.opens locations || opensFields locations rest

end

/-- A list enters a contract if one of its items does. -/
theorem opens_list (locations : List Location) (items : List Value) :
    (list items).opens locations = items.any (·.opens locations) := by
  rw [opens]
  induction items with
  | nil => rfl
  | cons v rest ih => rw [opensItems, ih, List.any_cons]

/-- Fields enter a contract if one of their values does. -/
theorem opensFields_eq_any (locations : List Location) (fields : Record Value) :
    opensFields locations fields = (fields.map Prod.snd).any (·.opens locations) := by
  induction fields with
  | nil => rfl
  | cons e rest ih => rw [opensFields, ih, List.map_cons, List.any_cons]

end Value

namespace Coverage

/-- The contract that is open at a place: the nearest one above, unless a walk has entered
another contract since. -/
def openContract (locations : List Location) : List Frame → Option Node
  | [] => none
  | frame :: above =>
    -- The contracts that came earlier have been left, so this goes before the node itself.
    if frame.earlier.any (·.opens locations) then none
    else if frame.node.kind = .contractDefinition then some frame.node
    else openContract locations above

/-- Going through a value that enters a contract leaves no contract open. -/
theorem openContract_pass (locations : List Location) (v : Value) (above : List Frame) :
    openContract locations (Frame.pass v above) =
      if v.opens locations then none else openContract locations above := by
  cases above with
  | nil => simp [Frame.pass, openContract]
  | cons frame above =>
      cases hv : v.opens locations <;> simp [Frame.pass, openContract, hv]

/-- The open contract is the nearest one above. -/
theorem find?_of_openContract {locations : List Location} {above : List Frame} {c : Node}
    (h : openContract locations above = some c) :
    (above.map Frame.node).find? (·.kind = .contractDefinition) = some c := by
  induction above with
  | nil => simp [openContract] at h
  | cons frame above ih =>
      rw [openContract] at h
      split at h
      · simp at h
      · split at h
        · next hkind => simpa [hkind] using h
        · next hkind => simpa [hkind] using ih h

end Coverage

namespace Occurrence

/-- No node above the place keeps a walk out of it. -/
def IsReached (locations : List Location) (o : Occurrence) : Prop :=
  ∀ a ∈ o.ancestors, Coverage.Passable locations a

/-- The nearest contract around a place. -/
def contract? (o : Occurrence) : Option Node :=
  o.ancestors.find? (·.kind = .contractDefinition)

/-- The name of a node behind that of the nearest contract around it. -/
def qualifiedName (o : Occurrence) : String :=
  o.contract?.elim "null" Coverage.label ++ "." ++ Coverage.label o.node

/-- A function to which a walk comes when no contract is open. -/
def IsLost (locations : List Location) (o : Occurrence) : Prop :=
  o.node.kind = .functionDefinition ∧ o.IsReached locations ∧
    (Coverage.openContract locations o.above).isNone = true

/-- A function to which a walk comes and that some location meets. -/
def IsListed (locations : List Location) (o : Occurrence) : Prop :=
  o.node.kind = .functionDefinition ∧ o.IsReached locations ∧ o.node.Touched locations

instance (locations : List Location) : DecidablePred (IsReached locations) := fun o =>
  inferInstanceAs (Decidable (∀ a ∈ o.ancestors, Coverage.Passable locations a))

instance (locations : List Location) : DecidablePred (IsLost locations) := fun o =>
  inferInstanceAs (Decidable (_ ∧ o.IsReached locations ∧ _))

instance (locations : List Location) : DecidablePred (IsListed locations) := fun o =>
  inferInstanceAs (Decidable (_ ∧ o.IsReached locations ∧ o.node.Touched locations))

end Occurrence

namespace Coverage

variable {locations : List Location}

/-! ### What a walk finds -/

/-- The state of a walk that has come to a place below `above`. -/
structure At (locations : List Location) (above : List Frame) (s : Coverage) : Prop where
  passable : ∀ a ∈ above.map Frame.node, Passable locations a
  contract_eq : s.contract = (openContract locations above).map label
  stray_eq : s.stray = none

/-- What a walk through some places has to come to: it stops at the first lost function, or
it adds all listed ones, and keeps the open contract unless it enters another. -/
def Finds (locations : List Location) (places : List Occurrence) (opened : Bool)
    (s : Coverage) (result : Coverage × Outcome) : Prop :=
  match places.find? (·.IsLost locations) with
  | some o => result.2 = .stopped ∧ result.1.stray = some (label o.node)
  | none =>
    result = (⟨if opened then none else s.contract,
      s.found ++ (places.filter (·.IsListed locations)).map Occurrence.qualifiedName, none⟩,
      .completed)

/-- Without places, nothing is found and nothing changes. -/
theorem At.finds_nil {above : List Frame} {s : Coverage} (h : At locations above s) :
    Finds locations [] false s (s, .completed) := by
  obtain ⟨contract, found, stray⟩ := s
  obtain rfl : stray = none := h.stray_eq
  simp [Finds]

/-- Going through a value leads from its place to the next. -/
theorem At.pass {above : List Frame} {s s' : Coverage} {v : Value} {places : List Occurrence}
    (h : At locations above s)
    (hfinds : Finds locations places (v.opens locations) s (s', .completed)) :
    At locations (Frame.pass v above) s' := by
  unfold Finds at hfinds
  split at hfinds
  · exact absurd hfinds.1 (by simp)
  · obtain rfl := (Prod.mk.inj hfinds).1
    refine ⟨?_, ?_, rfl⟩
    · rw [Frame.map_node_pass]
      exact h.passable
    · rw [openContract_pass]
      cases v.opens locations
      · exact h.contract_eq
      · rfl

/-- A walk that has stopped does not come to further places. -/
theorem Finds.append_stopped {first : List Occurrence} {opened : Bool} {s s' : Coverage}
    (h : Finds locations first opened s (s', .stopped)) (rest : List Occurrence)
    (opened' : Bool) : Finds locations (first ++ rest) opened' s (s', .stopped) := by
  unfold Finds at h ⊢
  rw [List.find?_append]
  cases hlost : first.find? (·.IsLost locations) with
  | some o => simpa only [hlost, Option.some_or] using h
  | none => simp [hlost] at h

/-- A walk that has not stopped goes on from what is known. -/
theorem Finds.append {first rest : List Occurrence} {opened opened' : Bool}
    {s s' : Coverage} {result : Coverage × Outcome}
    (h : Finds locations first opened s (s', .completed))
    (hrest : Finds locations rest opened' s' result) :
    Finds locations (first ++ rest) (opened || opened') s result := by
  unfold Finds at h hrest ⊢
  rw [List.find?_append]
  cases hlost : first.find? (·.IsLost locations) with
  | some o => simp [hlost] at h
  | none =>
      simp only [hlost, Prod.mk.injEq, and_true] at h
      subst h
      rw [Option.none_or]
      cases hlost' : rest.find? (·.IsLost locations) with
      | some o => simpa only [hlost'] using hrest
      | none =>
          simp only [hlost'] at hrest
          simp only [hrest, List.filter_append, List.map_append, List.append_assoc]
          cases opened <;> cases opened' <;> rfl

/-- A walk that does not pass a node finds at most this node. -/
theorem Finds.of_not_passable {n : Node} (h : ¬ Passable locations n) {path : Path}
    {above : List Frame} {vs : List Value} {below : Route} {os : List Occurrence} {ps : List Place}
    (hbelow : Through (⟨n, []⟩ :: above) vs below os ps) {s : Coverage}
    {result : Coverage × Outcome}
    (hfinds : Finds locations [⟨path, above, n⟩] false s result) :
    Finds locations (⟨path, above, n⟩ :: os) false s result := by
  have hreached : ∀ o ∈ os, ¬ o.IsReached locations := by
    intro o ho hreached
    have hmem : n ∈ o.ancestors := (hbelow.suffix_of_mem o ho).subset List.mem_cons_self
    exact h (hreached n hmem)
  have hlost : os.find? (·.IsLost locations) = none := by
    simpa using fun o ho hl => hreached o ho hl.2.1
  have hlisted : os.filter (·.IsListed locations) = [] := by
    simpa using fun o ho hl => hreached o ho hl.2.1
  unfold Finds at hfinds ⊢
  rw [← List.singleton_append, List.find?_append, hlost, Option.or_none, List.filter_append,
    hlisted, List.append_nil]
  exact hfinds

/-! ### One node -/

/-- A walk enters no contract at a node that it does not pass. -/
theorem opens_of_not_passable {n : Node} (h : ¬ Passable locations n) :
    n.toValue.opens locations = false := by
  rw [Node.toValue, Value.opens]
  split
  · next hkind =>
      simp only [Passable, hkind, ne_eq, reduceCtorEq, not_false_eq_true, true_and,
        forall_const] at h
      simpa using h
  · next hkind =>
      have hfunction : n.kind = .functionDefinition := by
        by_contra hne
        exact h ⟨hne, fun hcontract => absurd hcontract hkind⟩
      rw [if_pos hfunction]

/-- At a node that it passes, a walk enters this contract or those inside. -/
theorem opens_of_passable {n : Node} (h : Passable locations n) :
    n.toValue.opens locations =
      (decide (n.kind = .contractDefinition) ||
        (n.fields.map Prod.snd).any (·.opens locations)) := by
  rw [Node.toValue, Value.opens, Value.opensFields_eq_any]
  split
  · next hkind =>
      rw [decide_eq_true hkind, Bool.true_or]
      exact decide_eq_true (h.2 hkind)
  · next hkind => simp [hkind, h.1]

/-- What is known once a node is entered that a walk passes. -/
def entered (s : Coverage) (n : Node) : Coverage :=
  if n.kind = .contractDefinition then { s with contract := some (label n) } else s

/-- A walk that passes a node goes below it. -/
theorem enter_of_passable {n : Node} (h : Passable locations n) (s : Coverage) (path : Path) :
    (visitor (locations.map Location.toSpan)).enter s n path = (entered s n, .descend) := by
  simp only [visitor, entered]
  split
  · next hkind =>
      rw [if_pos (inScope_iff_touched.mpr (h.2 hkind)), if_pos hkind]
  · next hkind => exact absurd hkind h.1
  · next hcontract _ => rw [if_neg hcontract]

/-- Entering a node leads to the place of its first field. -/
theorem At.entered {above : List Frame} {s : Coverage} {n : Node}
    (h : At locations above s) (hn : Passable locations n) :
    At locations (⟨n, []⟩ :: above) (s.entered n) := by
  refine ⟨?_, ?_, ?_⟩
  · rintro a ha
    rcases List.mem_cons.mp ha with rfl | ha
    · exact hn
    · exact h.passable a ha
  · unfold Coverage.entered
    split
    · next hkind => simp [openContract, hkind]
    · next hkind => simpa [openContract, hkind] using h.contract_eq
  · unfold Coverage.entered
    split <;> exact h.stray_eq

/-- A walk through a node that it passes finds what it finds in the fields. -/
theorem walk_of_passable {above : List Frame} {s : Coverage} {n : Node} {path : Path}
    {below : Route} {os : List Occurrence} (hn : Passable locations n)
    (hbelow : Finds locations os ((n.fields.map Prod.snd).any (·.opens locations)) (s.entered n)
      (below.walk (visitor (locations.map Location.toSpan)) (s.entered n))) :
    Finds locations (⟨path, above, n⟩ :: os) (n.toValue.opens locations) s
      ((Route.visit ⟨n, path⟩ below).walk (visitor (locations.map Location.toSpan)) s) := by
  have hlost : ¬ Occurrence.IsLost locations ⟨path, above, n⟩ := fun h => hn.1 h.1
  have hlisted : ¬ Occurrence.IsListed locations ⟨path, above, n⟩ := fun h => hn.1 h.1
  have henter := enter_of_passable hn s path
  rw [opens_of_passable hn]
  generalize (n.fields.map Prod.snd).any (·.opens locations) = opened at hbelow
  unfold Finds at hbelow ⊢
  rw [List.find?_cons_of_neg (by simpa using hlost),
    List.filter_cons_of_neg (by simpa using hlisted)]
  split
  · next o hfind =>
      simp only [hfind] at hbelow
      rcases hend : below.walk (visitor (locations.map Location.toSpan)) (s.entered n) with
        ⟨s', outcome⟩
      rw [hend] at hbelow
      obtain ⟨rfl, hstray⟩ := hbelow
      rw [Route.walk_visit_of_stopped henter hend]
      exact ⟨rfl, hstray⟩
  · next hfind =>
      simp only [hfind] at hbelow
      rw [Route.walk_visit_of_completed henter hbelow]
      -- Leaving a contract empties the slot, whatever the fields have left in it.
      by_cases hkind : n.kind = .contractDefinition <;>
        simp [visitor, Coverage.entered, hkind]

/-- A walk stops at a function if no contract is open. -/
theorem enter_function_of_none {n : Node} (h : n.kind = .functionDefinition) {s : Coverage}
    (hs : s.contract = none) (path : Path) :
    (visitor (locations.map Location.toSpan)).enter s n path =
      ({ s with stray := some (label n) }, .stop) := by
  simp only [visitor, h, hs]

/-- Under an open contract a walk goes past a function, and adds it if some location meets
it. -/
theorem enter_function_of_some {n : Node} (h : n.kind = .functionDefinition) {s : Coverage}
    {contract : String} (hs : s.contract = some contract) (path : Path) :
    (visitor (locations.map Location.toSpan)).enter s n path =
      ({ s with found := s.found ++
          if n.Touched locations then [contract ++ "." ++ label n] else [] }, .skip) := by
  by_cases htouched : n.Touched locations
  · simp only [visitor, h, hs, if_pos (inScope_iff_touched.mpr htouched), if_pos htouched]
  · simp only [visitor, h, hs, inScope_iff_touched, if_neg htouched, List.append_nil]
    rw [← hs]

/-- A contract that no location meets is gone past. -/
theorem enter_of_not_touched {n : Node} (h : n.kind = .contractDefinition)
    (htouched : ¬ n.Touched locations) (s : Coverage) (path : Path) :
    (visitor (locations.map Location.toSpan)).enter s n path = (s, .skip) := by
  simp only [visitor, h, inScope_iff_touched, if_neg htouched]

/-- What a walk finds at a function. -/
theorem At.finds_function {above : List Frame} {s : Coverage} {n : Node}
    (h : At locations above s) (hkind : n.kind = .functionDefinition) (path : Path)
    (below : Route) :
    Finds locations [⟨path, above, n⟩] false s
      ((Route.visit ⟨n, path⟩ below).walk (visitor (locations.map Location.toSpan)) s) := by
  have hreached : Occurrence.IsReached locations ⟨path, above, n⟩ := h.passable
  cases hopen : openContract locations above with
  | none =>
      have hlost : Occurrence.IsLost locations ⟨path, above, n⟩ :=
        ⟨hkind, hreached, by simp [hopen]⟩
      have hcontract : s.contract = none := by rw [h.contract_eq, hopen, Option.map_none]
      rw [Route.walk_visit_of_stop (enter_function_of_none hkind hcontract path)]
      simp [Finds, hlost]
  | some c =>
      have hlost : ¬ Occurrence.IsLost locations ⟨path, above, n⟩ := by
        intro hlost
        simpa [hopen] using hlost.2.2
      have hcontract : s.contract = some (label c) := by
        rw [h.contract_eq, hopen, Option.map_some]
      have hname : Occurrence.qualifiedName ⟨path, above, n⟩ =
          label c ++ "." ++ label n := by
        have hfind : Occurrence.contract? ⟨path, above, n⟩ = some c :=
          find?_of_openContract hopen
        rw [Occurrence.qualifiedName, hfind, Option.elim_some]
      have hlisted : Occurrence.IsListed locations ⟨path, above, n⟩ ↔ n.Touched locations :=
        ⟨fun hl => hl.2.2, fun ht => ⟨hkind, hreached, ht⟩⟩
      rw [Route.walk_visit_of_skip (enter_function_of_some hkind hcontract path)]
      by_cases htouched : n.Touched locations <;>
        simp [Finds, hlost, hlisted, htouched, hname, h.stray_eq]

/-- A walk that does not pass a node looks at this node alone. -/
theorem walk_of_not_passable {above : List Frame} {s : Coverage} {n : Node} {path : Path}
    {vs : List Value} {below : Route} {os : List Occurrence} {ps : List Place}
    (h : At locations above s) (hn : ¬ Passable locations n)
    (hbelow : Through (⟨n, []⟩ :: above) vs below os ps) :
    Finds locations (⟨path, above, n⟩ :: os) (n.toValue.opens locations) s
      ((Route.visit ⟨n, path⟩ below).walk (visitor (locations.map Location.toSpan)) s) := by
  rw [opens_of_not_passable hn]
  apply Finds.of_not_passable hn hbelow
  by_cases hkind : n.kind = .functionDefinition
  · exact h.finds_function hkind path below
  · obtain ⟨hcontract, htouched⟩ :
        n.kind = .contractDefinition ∧ ¬ n.Touched locations := by
      simpa [Passable, hkind] using hn
    have hlost : ¬ Occurrence.IsLost locations ⟨path, above, n⟩ := fun hl => hkind hl.1
    have hlisted : ¬ Occurrence.IsListed locations ⟨path, above, n⟩ := fun hl => hkind hl.1
    rw [Route.walk_visit_of_skip (enter_of_not_touched hcontract htouched s path)]
    simpa [Finds, hlost, hlisted] using h.finds_nil

end Coverage

/-! ### A whole walk -/

/-- **What a walk along a route finds**, and what it leaves in the slot. -/
theorem Through.walk_visitor {locations : List Location} {above : List Frame} {vs : List Value}
    {route : Route} {os : List Occurrence} {ps : List Place} (h : Through above vs route os ps)
    {s : Coverage} (hs : Coverage.At locations above s) :
    Coverage.Finds locations os (vs.any (·.opens locations)) s
      (route.walk (Coverage.visitor (locations.map Location.toSpan)) s) := by
  induction h generalizing s with
  | nil => exact hs.finds_nil
  | map | scalar => exact hs.finds_nil
  | list h ih =>
      rw [List.any_cons, List.any_nil, Bool.or_false, Value.opens_list]
      exact ih hs
  | @node above n path address below os ps hbelow h ih =>
      rw [List.any_cons, List.any_nil, Bool.or_false]
      by_cases hn : Coverage.Passable locations n
      · exact Coverage.walk_of_passable hn (ih (hs.entered hn))
      · exact Coverage.walk_of_not_passable hs hn h
  | @cons above v rest first next os os' ps ps' hright h h' ih ih' =>
      have hfirst := ih hs
      rw [List.any_cons, List.any_nil, Bool.or_false] at hfirst
      rw [List.any_cons]
      rcases Route.walk_onward_cases (Coverage.visitor (locations.map Location.toSpan)) first next s
        with ⟨s', hend, hwalk⟩ | ⟨s', hend, hwalk⟩ <;> rw [hend] at hfirst <;> rw [hwalk]
      · exact hfirst.append_stopped os' _
      · -- What is known after `v` is what is known at the place of the next value.
        exact hfirst.append (ih' (hs.pass hfirst))

/-- The functions that some location touches, or the first one for which no contract is
open. -/
theorem Node.functionsAt_eq (root : Node) (locations : List Location) :
    root.functionsAt locations =
      match root.occurrences.find? (·.IsLost locations) with
      | some o => .error (.outsideContract (Coverage.label o.node))
      | none =>
        .ok ((root.occurrences.filter (·.IsListed locations)).map
          Occurrence.qualifiedName) := by
  have hstart : Coverage.At locations [] ⟨none, [], none⟩ := ⟨by simp, rfl, rfl⟩
  have hfinds := (root.toValue.through [] [] []).walk_visitor hstart
  rw [← Value.walk_eq_route] at hfinds
  unfold Node.functionsAt Node.walk Node.occurrences
  unfold Coverage.Finds at hfinds
  split
  · next o hfind =>
      simp only [hfind] at hfinds
      simp [hfinds.2]
  · next hfind =>
      simp only [hfind] at hfinds
      simp [hfinds]

end ContractQuery
