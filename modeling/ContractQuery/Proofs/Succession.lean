import ContractQuery.Proofs.Locality

/-!
# Removals One After the Other

Each removal may move the values at the paths that are still to come, or take them away. In
descending order it does neither. A path that comes later in this order either ends on the way of
the removal, and then it still leads to a value, or it leaves the way towards an earlier field or
item, and then it leads to the same value as before (`Value.get?_eraseAt_of_before`).

A run of removals is a relation between the tree, the paths, the removed values and what is left
(`Node.Removals`). No assumption on names is needed here: a node that uses a name twice is treated
by its first field throughout.

## Main results

* `Path.descending_eq`: there is one descending order of distinct paths.
* `Value.get?_eraseAt_of_before`: what a removal does to a path that comes before its own.
* `Node.exists_removals`: a run through paths in descending order.
* `Node.removals_descending`: **descending order is safe**, whatever the paths are, and returns
  the values that were there if no path leads to another.
-/

namespace ContractQuery

open Std

namespace Path

instance (q p : Path) : Decidable (Before q p) := inferInstanceAs (Decidable (_ = _))

/-- Paths with one beginning are ordered by what follows. -/
theorem before_append_iff {r q p : Path} : Before (r ++ q) (r ++ p) ↔ Before q p := by
  induction r with
  | nil => rfl
  | cons s r ih => rw [List.cons_append, List.cons_append, before_cons_iff, ih]

/-- Two paths do not come before each other. -/
theorem Before.asymm {p q : Path} (h : Before p q) : ¬ Before q p := by
  intro h'
  have hswap : compare q p = (compare p q).swap := OrientedCmp.eq_swap
  rw [Before, hswap, show compare p q = .lt from h] at h'
  cases h'

/-- There is one descending order of distinct paths. -/
theorem descending_eq {ps qs : List Path} (hperm : qs.Perm ps)
    (hqs : qs.Pairwise fun p q => Before q p) : descending ps = qs := by
  have hnodup : ps.Nodup := by
    refine hperm.nodup_iff.mp (hqs.imp ?_)
    rintro p q h rfl
    exact h.asymm h
  refine List.Perm.eq_of_pairwise ?_ (pairwise_descending hnodup) hqs
    ((List.mergeSort_perm ps _).trans hperm.symm)
  intro p q _ _ hqp hpq
  exact absurd hpq hqp.asymm

end Path

namespace Value

/-- After a removal, a path that comes before and does not end on the way leads to what it led to
before. -/
theorem get?_eraseAt_of_before {v : Value} {p q : Path} (haddr : (v.get? p).isSome)
    (hqp : Path.Before q p) (hpre : ¬ q <+: p) : (v.eraseAt p).get? q = v.get? q := by
  obtain rfl | ⟨r, last, rfl⟩ := List.eq_nil_or_concat' p
  · rfl
  · by_cases hrq : r <+: q
    · obtain ⟨rest, rfl⟩ := hrq
      obtain ⟨c, hc, -⟩ := Option.bind_eq_some_iff.mp
        ((get?_append v r [last]).symm.trans (Option.some_get haddr).symm)
      cases rest with
      | nil => exact absurd (by simp) hpre
      | cons t s =>
          rw [get?_eraseAt_append (List.cons_ne_nil last []) hc, get?_append, hc, Option.bind_some,
            eraseAt, get?_cons, get?_cons,
            child?_eraseChild_of_before (Path.before_append_iff.mp hqp)]
    · exact get?_eraseAt_of_aside (List.cons_ne_nil last []) hrq fun hqr =>
        hpre (hqr.trans (List.prefix_append r [last]))

end Value

namespace Node

/-- Removals at the given paths, one after the other, succeed with the given values and leave the
last tree. -/
inductive Removals : Node → List Path → List Value → Node → Prop
  | nil (n : Node) : Removals n [] [] n
  | cons {n mid left : Node} {p : Path} {ps : List Path} {v : Value} {vs : List Value} :
      n.removeAt p = .ok (v, mid) → Removals mid ps vs left → Removals n (p :: ps) (v :: vs) left

/-- A run of removals that succeed is what removing all paths comes to. -/
theorem Removals.removeAll_eq {n left : Node} {ps : List Path} {vs : List Value}
    (h : Removals n ps vs left) : n.removeAll ps = (.ok (), left) := by
  induction h with
  | nil n => rfl
  | cons hremove _ ih =>
      rw [removeAll, hremove]
      exact ih

/-- **The run.** Paths that lead to values below the root can be removed one by one if each comes
before all that are removed earlier. If none leads to another, what is removed is what was there at
the beginning. -/
theorem exists_removals {n : Node} {ps : List Path}
    (haddr : ∀ p ∈ ps, p ≠ [] ∧ (n.get? p).isSome)
    (hsorted : ps.Pairwise fun p q => Path.Before q p) :
    ∃ vs left, Removals n ps vs left ∧
      ((∀ p ∈ ps, ∀ q ∈ ps, p <+: q → p = q) → ps.map n.get? = vs.map some) := by
  induction ps generalizing n with
  | nil => exact ⟨[], n, .nil n, fun _ => rfl⟩
  | cons p ps ih =>
      obtain ⟨hlater, hsorted'⟩ := List.pairwise_cons.mp hsorted
      obtain ⟨⟨hp, hpaddr⟩, haddr'⟩ := List.forall_mem_cons.mp haddr
      obtain ⟨v, hv⟩ := Option.isSome_iff_exists.mp hpaddr
      obtain ⟨mid, hremove, hmid⟩ := exists_removeAt_eq_ok_of_get? hp hv
      have hmidaddr : ∀ q ∈ ps, q ≠ [] ∧ (mid.get? q).isSome := by
        intro q hq
        obtain ⟨hqne, hqaddr⟩ := haddr' q hq
        refine ⟨hqne, ?_⟩
        rw [get?, hmid]
        exact Value.get?_eraseAt_isSome hpaddr hqaddr (hlater q hq)
      obtain ⟨vs, left, hrun, hvalues⟩ := ih hmidaddr hsorted'
      refine ⟨v :: vs, left, .cons hremove hrun, fun hapart => ?_⟩
      have hkept : ∀ q ∈ ps, n.get? q = mid.get? q := by
        intro q hq
        have hqp := hlater q hq
        rw [get?, get?, hmid, Value.get?_eraseAt_of_before hpaddr hqp]
        intro hpre
        obtain rfl := hapart q (List.mem_cons_of_mem _ hq) p List.mem_cons_self hpre
        exact hqp.asymm hqp
      have hrest : ps.map mid.get? = vs.map some :=
        hvalues fun q hq q' hq' =>
          hapart q (List.mem_cons_of_mem _ hq) q' (List.mem_cons_of_mem _ hq')
      rw [List.map_cons, List.map_cons, hv, ← hrest, List.map_congr_left hkept]

/-- **Descending order is safe.** Whatever distinct paths are given, if each of them leads to a
value below the root, the removals in descending order all succeed; and if none of the paths leads
to another, each returns the value that its path led to at the beginning. -/
theorem removals_descending (root : Node) {ps : List Path} (hps : ps.Nodup)
    (haddr : ∀ p ∈ ps, p ≠ [] ∧ (root.get? p).isSome) :
    (Path.descending ps).Perm ps ∧
    ((Path.descending ps).Pairwise fun p q => Path.Before q p) ∧
    ∃ removed left, Removals root (Path.descending ps) removed left ∧
      root.removeAll (Path.descending ps) = (.ok (), left) ∧
      ((∀ p ∈ ps, ∀ q ∈ ps, p <+: q → p = q) →
        (Path.descending ps).map root.get? = removed.map some) := by
  have hsorted := Path.pairwise_descending hps
  obtain ⟨removed, left, hrun, hvalues⟩ :=
    exists_removals (fun p hp => haddr p (Path.mem_descending.mp hp)) hsorted
  refine ⟨List.mergeSort_perm ps _, hsorted, removed, left, hrun, hrun.removeAll_eq, ?_⟩
  intro hapart
  exact hvalues fun p hp q hq =>
    hapart p (Path.mem_descending.mp hp) q (Path.mem_descending.mp hq)

/-- Paths to two of three items, and to the label of the one between. -/
def scattered : List Path :=
  [[.field "children", .index 0], [.field "children", .index 1, .field "label"],
    [.field "children", .index 2]]

/-- The two items and the label are removed from the last to the first, and each is returned. -/
theorem removals_descending_scattered :
    scattered.Nodup ∧
    (∀ p ∈ scattered, p ≠ [] ∧
      ((sequenced [.text "a", labelledBlock, .text "e"]).get? p).isSome) ∧
    (∀ p ∈ scattered, ∀ q ∈ scattered, p <+: q → p = q) ∧
    Path.descending scattered = scattered.reverse ∧
    ∃ left, Removals (sequenced [.text "a", labelledBlock, .text "e"]) scattered.reverse
      [.text "e", .text "d", .text "a"] left := by
  have hnodup : scattered.Nodup := by decide
  have haddr : ∀ p ∈ scattered, p ≠ [] ∧
      ((sequenced [.text "a", labelledBlock, .text "e"]).get? p).isSome := by decide
  have hapart : ∀ p ∈ scattered, ∀ q ∈ scattered, p <+: q → p = q := by decide
  have horder : Path.descending scattered = scattered.reverse :=
    Path.descending_eq (List.reverse_perm scattered) (by decide)
  obtain ⟨-, -, removed, left, hrun, -, hvalues⟩ := removals_descending _ hnodup haddr
  rw [horder] at hrun hvalues
  obtain rfl : [.text "e", .text "d", .text "a"] = removed :=
    (List.map_inj_right fun _ _ => Option.some.inj).mp (hvalues hapart)
  exact ⟨hnodup, haddr, hapart, horder, left, hrun⟩

end Node

end ContractQuery
