import ContractQuery.Proofs.Route
import ContractQuery.Query.Functions

/-!
# Which Functions a Contract Has

A walk that lists the functions of a contract counts the contracts that it is in. It counts up at a
contract of the name and counts down whenever it leaves a contract, and the two belong together
because a walk does not leave a node that it has gone past. So the count is the number of contracts
around, whatever the walk has gone through before: one call keeps it (`Listing.follows_counts`), and
therefore a walk does.

A walk goes below a node only if this is no function and, if it is a contract, has the name
(`Listing.Passable`). What is listed at a place is therefore a matter of the nodes above it: the
functions that have a contract above them, no function and no contract of another name
(`Occurrence.IsMember`).

## Main results

* `Listing.follows_counts`: one call of a listing keeps the count.
* `Listing.enter_of_passable`, `Listing.enter_of_not_passable`: what is done at one node.
* `Through.walk_listing`: what a walk along a route lists.
* `Node.listFunctions_eq`: **the functions of a contract**, in any tree.
-/

namespace ContractQuery

namespace Listing

/-- A walk goes below the node. -/
def Passable (contract : String) (n : Node) : Prop :=
  n.kind ≠ .functionDefinition ∧ (n.kind = .contractDefinition → n.name? = some contract)

instance (contract : String) (n : Node) : Decidable (Passable contract n) :=
  inferInstanceAs (Decidable (_ ∧ _))

/-! ### The count -/

/-- The state of a listing counts the contracts among the nodes around. -/
def Counts (above : List Node) (s : Listing) : Prop :=
  s.depth = above.countP (·.kind = .contractDefinition)

/-- **One call keeps the count.** It goes up with the contracts that are gone into, which are those
of the name, and down again when one is left. -/
theorem follows_counts (contract : String) : (visitor contract).Follows Counts where
  descend := by
    intro s s' n path above hs henter
    simp only [visitor] at henter
    split at henter
    · next hkind =>
        split at henter
        · obtain ⟨rfl, -⟩ := Prod.mk.inj henter
          rw [Counts, List.countP_cons_of_pos (by simp [hkind]), hs]
        · cases henter
    · split at henter <;> cases henter
    · next hcontract hfunction =>
        obtain ⟨rfl, -⟩ := Prod.mk.inj henter
        rw [Counts, List.countP_cons_of_neg (by simpa using hcontract), hs]
  skip := by
    intro s s' n path above hs henter
    simp only [visitor] at henter
    split at henter
    · split at henter <;> cases henter
      exact hs
    · split at henter <;> cases henter <;> exact hs
    · cases henter
  exit := by
    intro s n path above hs
    by_cases hkind : n.kind = .contractDefinition
    · rw [Counts, List.countP_cons_of_pos (by simp [hkind])] at hs
      simp [visitor, hkind, Counts, hs]
    · rw [Counts, List.countP_cons_of_neg (by simp [hkind])] at hs
      simp [visitor, hkind, Counts, hs]

/-- The count is positive exactly in a contract. -/
theorem Counts.pos_iff {above : List Node} {s : Listing} (h : Counts above s) :
    0 < s.depth ↔ ∃ a ∈ above, a.kind = .contractDefinition := by
  rw [h, List.countP_pos_iff]
  simp

end Listing

namespace Occurrence

/-- A function with a contract above it, and with no function and no contract of another name. -/
def IsMember (contract : String) (o : Occurrence) : Prop :=
  o.node.kind = .functionDefinition ∧ (∀ a ∈ o.ancestors, Listing.Passable contract a) ∧
    ∃ a ∈ o.ancestors, a.kind = .contractDefinition

instance (contract : String) : DecidablePred (IsMember contract) := fun o =>
  inferInstanceAs (Decidable (_ ∧ (∀ a ∈ o.ancestors, _) ∧ ∃ a ∈ o.ancestors, _))

end Occurrence

namespace Listing

variable {contract : String} {n : Node} {s : Listing}

/-- The names of the functions among some places. -/
def members (contract : String) (places : List Occurrence) : List (Option String) :=
  (places.filter (·.IsMember contract)).map (·.node.name?)

/-- Where there is no place there is nothing to list. -/
@[simp] theorem members_nil (contract : String) : members contract [] = [] := rfl

/-- Places are listed one after the other. -/
@[simp] theorem members_append (contract : String) (places places' : List Occurrence) :
    members contract (places ++ places') = members contract places ++ members contract places' := by
  simp [members]

/-- A function of the contract is listed before what comes after it. -/
theorem members_cons_of_pos {o : Occurrence} (h : o.IsMember contract) (places : List Occurrence) :
    members contract (o :: places) = o.node.name? :: members contract places := by
  simp [members, h]

/-- All else is left out. -/
theorem members_cons_of_neg {o : Occurrence} (h : ¬ o.IsMember contract)
    (places : List Occurrence) : members contract (o :: places) = members contract places := by
  simp [members, h]

/-! ### One node -/

/-- A node that a walk passes is gone into, and nothing is listed. -/
theorem enter_of_passable (hn : Passable contract n) (s : Listing) (path : Path) :
    ∃ s', (visitor contract).enter s n path = (s', .descend) ∧ s'.names = s.names := by
  simp only [visitor]
  split
  · next hkind => exact ⟨_, if_pos (hn.2 hkind), rfl⟩
  · next hkind => exact absurd hkind hn.1
  · exact ⟨s, rfl, rfl⟩

/-- Leaving a node lists nothing. -/
@[simp] theorem names_exit (contract : String) (s : Listing) (n : Node) (path : Path) :
    ((visitor contract).exit s n path).names = s.names := by
  simp only [visitor]
  split <;> rfl

/-- A node that a walk does not pass is gone past, and listed if it is a function of the
contract. -/
theorem enter_of_not_passable {above : List Frame} (hn : ¬ Passable contract n)
    (habove : ∀ a ∈ above.map Frame.node, Passable contract a)
    (hs : Counts (above.map Frame.node) s) (path : Path) :
    (visitor contract).enter s n path =
      (⟨s.depth, s.names ++ members contract [⟨path, above, n⟩]⟩, .skip) := by
  by_cases hkind : n.kind = .functionDefinition
  · have hmember : Occurrence.IsMember contract ⟨path, above, n⟩ ↔ 0 < s.depth :=
      ⟨fun h => hs.pos_iff.mpr h.2.2, fun h => ⟨hkind, habove, hs.pos_iff.mp h⟩⟩
    simp only [visitor, hkind]
    split
    · next hdepth => rw [members_cons_of_pos (hmember.mpr hdepth), members_nil]
    · next hdepth =>
        rw [members_cons_of_neg (mt hmember.mp hdepth), members_nil, List.append_nil]
  · obtain ⟨hcontract, hname⟩ : n.kind = .contractDefinition ∧ n.name? ≠ some contract := by
      simpa [Passable, hkind] using hn
    have hself : ¬ Occurrence.IsMember contract ⟨path, above, n⟩ := fun h => hkind h.1
    rw [members_cons_of_neg hself, members_nil, List.append_nil]
    simp only [visitor, hcontract, if_neg hname]

end Listing

/-! ### A whole walk -/

namespace Through

open Listing

variable {above : List Frame} {vs : List Value} {route : Route} {os : List Occurrence}
  {ps : List Place}

/-- Below a node that a walk does not pass, there is nothing to list. -/
theorem members_of_not_passable {contract : String} {n : Node}
    (h : Through (⟨n, []⟩ :: above) vs route os ps) (hn : ¬ Passable contract n) :
    members contract os = [] := by
  rw [members, List.map_eq_nil_iff, List.filter_eq_nil_iff]
  intro o ho hmember
  have hmem : n ∈ o.ancestors := (h.suffix_of_mem o ho).subset List.mem_cons_self
  exact hn ((of_decide_eq_true hmember).2.1 n hmem)

/-- **What a walk along a route lists**: the functions of the contract, if the walk passes all nodes
above and the count is right. -/
theorem walk_listing (h : Through above vs route os ps) (contract : String) {s : Listing}
    (habove : ∀ a ∈ above.map Frame.node, Passable contract a)
    (hs : Counts (above.map Frame.node) s) :
    ∃ s', route.walk (visitor contract) s = (s', .completed) ∧
      s'.names = s.names ++ members contract os := by
  induction h generalizing s with
  | nil | map | scalar => exact ⟨s, rfl, by simp⟩
  | list h ih => exact ih habove hs
  | @node above n path address below os ps hbelow h ih =>
      by_cases hn : Passable contract n
      · obtain ⟨s', henter, hnames⟩ := enter_of_passable hn s path
        obtain ⟨s'', hwalk, hnames'⟩ := ih (List.forall_mem_cons.mpr ⟨hn, habove⟩)
          ((follows_counts contract).descend hs henter)
        have hself : ¬ Occurrence.IsMember contract ⟨path, above, n⟩ := fun h => hn.1 h.1
        refine ⟨_, Route.walk_visit_of_completed henter hwalk, ?_⟩
        rw [names_exit, hnames', hnames, members_cons_of_neg hself]
      · have hself : members contract (⟨path, above, n⟩ :: os) =
            members contract [⟨path, above, n⟩] := by
          rw [← List.singleton_append, members_append, h.members_of_not_passable hn,
            List.append_nil]
        rw [hself]
        exact ⟨_, Route.walk_visit_of_skip (enter_of_not_passable hn habove hs path), rfl⟩
  | @cons above v rest first next os os' ps ps' hright h h' ih ih' =>
      rw [Frame.map_node_pass] at ih'
      obtain ⟨s', hwalk, hnames⟩ := ih habove hs
      -- The count after `v` is the count before it, since a walk keeps what one call keeps.
      obtain ⟨s'', hwalk', hnames'⟩ := ih' habove (h.follows (follows_counts contract) hs hwalk)
      refine ⟨s'', (Route.walk_onward_of_completed hwalk).trans hwalk', ?_⟩
      rw [hnames', hnames, members_append, List.append_assoc]

end Through

namespace Node

/-- A listing ends with all functions of the contract and with the count at zero. -/
theorem walk_listing (root : Node) (contract : String) :
    root.walk (Listing.visitor contract) ⟨0, []⟩ =
      (⟨0, Listing.members contract root.occurrences⟩, .completed) := by
  have hroot := root.toValue.through [] [] []
  have hstart : Listing.Counts [] ⟨0, []⟩ := rfl
  obtain ⟨⟨depth, names⟩, hwalk, hnames⟩ :=
    hroot.walk_listing contract (by simp) hstart
  obtain rfl : depth = 0 := hroot.follows (Listing.follows_counts contract) hstart hwalk
  rw [walk, Value.walk_eq_route, hwalk, show names = _ from hnames]
  rfl

/-- **The functions of a contract** are those below contracts of the name, in pre-order. -/
theorem listFunctions_eq (root : Node) (contract : String) :
    root.listFunctions contract =
      (root.occurrences.filter (·.IsMember contract)).map (·.node.name?) := by
  rw [listFunctions, walk_listing, Listing.members]

end Node

end ContractQuery
