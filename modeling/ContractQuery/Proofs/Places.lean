import Mathlib.Data.List.Lex
import ContractQuery.Path
import ContractQuery.Proofs.Distinct

/-!
# The Places of Nodes

What a visitor is shown of a node does not tell nodes apart: where a node uses a name twice, two
places have the same path. So `Place` adds an address, which counts fields and items. Of two places
one is above the other if its address is a prefix, and pre-order is the lexicographic order of the
addresses.

## Main results

* `Place.Above.before`: in pre-order, a node comes before all that is below it.
* `Value.above_of_mem_placesFields`: a node is above the places in its fields.
* `Value.leftOf_of_mem_placesItems`, `Value.leftOf_of_mem_placesFields`: what comes in an earlier
  item or field is on the left.
-/

namespace ContractQuery

/-- What a visitor is shown: a node, and its path. -/
structure Site where
  node : Node
  path : Path

/-- The place of a node in a tree. The address tells, from the root on, which field of a node
and which item of a list leads to it. -/
structure Place extends Site where
  address : List Nat

namespace Place

/-- The place `a` is a proper ancestor of the place `p`. -/
def Above (a p : Place) : Prop := a.address <+: p.address ∧ a.address ≠ p.address

/-- The place `p` comes before the place `q` in pre-order. -/
def Before (p q : Place) : Prop := List.Lex (· < ·) p.address q.address

/-- The place `p` comes before the place `q` and is not above it. The places on the right of
`p` are its later siblings, those of its ancestors, and all that is below these. -/
def LeftOf (p q : Place) : Prop := p.Before q ∧ ¬ p.Above q

variable {a p q : Place}

/-- No place comes before itself. -/
theorem not_before_self (p : Place) : ¬ p.Before p := List.lex_irrefl Nat.lt_irrefl p.address

/-- Of two places at most one comes before the other. -/
theorem Before.asymm (h : p.Before q) : ¬ q.Before p := List.lex_asymm Nat.lt_asymm h

/-- Places in order have different addresses. -/
theorem Before.address_ne (h : p.Before q) : p.address ≠ q.address := by
  intro heq
  rw [Before, heq] at h
  exact not_before_self q h

/-- Places in order are different. -/
theorem Before.ne (h : p.Before q) : p ≠ q := fun heq => h.address_ne (congrArg address heq)

/-- In pre-order, a node comes before all that is below it. -/
theorem Above.before (h : a.Above p) : a.Before p := by
  obtain ⟨⟨rest, hrest⟩, hne⟩ := h
  cases rest with
  | nil => exact absurd (by simpa using hrest) hne
  | cons i rest =>
      have hlex := List.Lex.append_left (· < ·) (List.Lex.nil (a := i) (l := rest)) a.address
      rwa [List.append_nil, hrest] at hlex

/-- No place is above itself. -/
theorem not_above_self (p : Place) : ¬ p.Above p := fun h => h.2 rfl

/-- Nothing that comes later is above. -/
theorem Before.not_above (h : p.Before q) : ¬ q.Above p := fun ha => h.asymm ha.before

/-- What goes through field or item `i` of a node is below the node. -/
theorem above_of_isPrefix {i : Nat} (h : p.address ++ [i] <+: q.address) : p.Above q := by
  refine ⟨(List.prefix_append _ _).trans h, fun heq => ?_⟩
  have hlength := h.length_le
  rw [← heq, List.length_append, List.length_singleton] at hlength
  omega

/-- What goes through an earlier field or item is on the left. -/
theorem leftOf_of_isPrefix {address : List Nat} {i j : Nat} (hij : i < j)
    (hp : address ++ [i] <+: p.address) (hq : address ++ [j] <+: q.address) : p.LeftOf q := by
  obtain ⟨x, hx⟩ := hp
  obtain ⟨y, hy⟩ := hq
  rw [List.append_assoc, List.singleton_append] at hx hy
  constructor
  · rw [Before, ← hx, ← hy]
    exact List.Lex.append_left (· < ·) (.rel hij) address
  · rintro ⟨hpre, -⟩
    rw [← hx, ← hy, List.prefix_append_right_inj, List.cons_prefix_cons] at hpre
    omega

end Place

namespace Value

mutual

/-- The places of the nodes of a value, in pre-order: fields in their order, items by position,
and nothing inside maps and scalars. -/
def places : Value → Path → List Nat → List Place
  | node kind span fields, path, address =>
    ⟨⟨⟨kind, span, fields⟩, path⟩, address⟩ :: placesFields fields path address 0
  | list items, path, address => placesItems items path address 0
  | map _, _, _ => []
  | scalar _, _, _ => []

/-- The places in the items of a list, the first of which has position `i`. -/
def placesItems : List Value → Path → List Nat → Nat → List Place
  | [], _, _, _ => []
  | v :: rest, path, address, i =>
    v.places (path ++ [.index i]) (address ++ [i]) ++ placesItems rest path address (i + 1)

/-- The places in the fields of a node, the first of which is the `i`-th. -/
def placesFields : List (String × Value) → Path → List Nat → Nat → List Place
  | [], _, _, _ => []
  | (name, v) :: rest, path, address, i =>
    v.places (path ++ [.field name]) (address ++ [i]) ++ placesFields rest path address (i + 1)

end

/-- A place in items is a place in one of them. -/
theorem mem_placesItems {items : List Value} {path : Path} {address : List Nat} {i : Nat}
    {p : Place} : p ∈ placesItems items path address i ↔ ∃ (j : Nat) (v : Value),
      items[j]? = some v ∧ p ∈ v.places (path ++ [.index (i + j)]) (address ++ [i + j]) := by
  induction items generalizing i with
  | nil => simp [placesItems]
  | cons v rest ih =>
      have hnext : ∀ j, i + 1 + j = i + (j + 1) := fun j => by omega
      rw [placesItems, List.mem_append, ih]
      constructor
      · rintro (h | ⟨j, w, hw, h⟩)
        · exact ⟨0, v, rfl, h⟩
        · exact ⟨j + 1, w, hw, hnext j ▸ h⟩
      · rintro ⟨j, w, hw, h⟩
        cases j with
        | zero =>
            obtain rfl : v = w := by simpa using hw
            exact .inl h
        | succ j => exact .inr ⟨j, w, hw, hnext j ▸ h⟩

/-- A place in fields is a place in one of them. -/
theorem mem_placesFields {fields : Record Value} {path : Path} {address : List Nat} {i : Nat}
    {p : Place} : p ∈ placesFields fields path address i ↔ ∃ (j : Nat) (e : String × Value),
      fields[j]? = some e ∧
      p ∈ e.2.places (path ++ [.field e.1]) (address ++ [i + j]) := by
  induction fields generalizing i with
  | nil => simp [placesFields]
  | cons e rest ih =>
      have hnext : ∀ j, i + 1 + j = i + (j + 1) := fun j => by omega
      rw [placesFields, List.mem_append, ih]
      constructor
      · rintro (h | ⟨j, f, hf, h⟩)
        · exact ⟨0, e, rfl, h⟩
        · exact ⟨j + 1, f, hf, hnext j ▸ h⟩
      · rintro ⟨j, f, hf, h⟩
        cases j with
        | zero =>
            obtain rfl : e = f := by simpa using hf
            exact .inl h
        | succ j => exact .inr ⟨j, f, hf, hnext j ▸ h⟩

/-- The address of a value leads to all places in it. -/
theorem prefix_of_mem_places {v : Value} {path : Path} {address : List Nat} {p : Place}
    (hp : p ∈ v.places path address) : address <+: p.address := by
  induction v using inductionOn generalizing path address with
  | node kind span fields ih =>
      rw [places, List.mem_cons] at hp
      rcases hp with rfl | hp
      · exact List.prefix_refl _
      · obtain ⟨j, e, he, hp⟩ := mem_placesFields.mp hp
        exact (List.prefix_append _ _).trans (ih e (List.mem_of_getElem? he) hp)
  | list items ih =>
      rw [places] at hp
      obtain ⟨j, w, hw, hp⟩ := mem_placesItems.mp hp
      exact (List.prefix_append _ _).trans (ih w (List.mem_of_getElem? hw) hp)
  | map entries ih => simp [places] at hp
  | scalar leaf => simp [places] at hp

/-- The places in items from the `i`-th on go through such an item. -/
theorem prefix_of_mem_placesItems {items : List Value} {path : Path} {address : List Nat}
    {i : Nat} {p : Place} (hp : p ∈ placesItems items path address i) :
    ∃ j, i ≤ j ∧ address ++ [j] <+: p.address := by
  obtain ⟨j, v, -, hp⟩ := mem_placesItems.mp hp
  exact ⟨i + j, Nat.le_add_right i j, prefix_of_mem_places hp⟩

/-- The places in fields from the `i`-th on go through such a field. -/
theorem prefix_of_mem_placesFields {fields : Record Value} {path : Path} {address : List Nat}
    {i : Nat} {p : Place} (hp : p ∈ placesFields fields path address i) :
    ∃ j, i ≤ j ∧ address ++ [j] <+: p.address := by
  obtain ⟨j, e, -, hp⟩ := mem_placesFields.mp hp
  exact ⟨i + j, Nat.le_add_right i j, prefix_of_mem_places hp⟩

/-- The places in one item are on the left of those in later items. -/
theorem leftOf_of_mem_placesItems {v : Value} {rest : List Value} {path path' : Path}
    {address : List Nat} {i : Nat} {p q : Place} (hp : p ∈ v.places path' (address ++ [i]))
    (hq : q ∈ placesItems rest path address (i + 1)) : p.LeftOf q := by
  obtain ⟨j, hj, hpre⟩ := prefix_of_mem_placesItems hq
  exact Place.leftOf_of_isPrefix hj (prefix_of_mem_places hp) hpre

/-- The places in one field are on the left of those in later fields. -/
theorem leftOf_of_mem_placesFields {v : Value} {rest : Record Value} {path path' : Path}
    {address : List Nat} {i : Nat} {p q : Place} (hp : p ∈ v.places path' (address ++ [i]))
    (hq : q ∈ placesFields rest path address (i + 1)) : p.LeftOf q := by
  obtain ⟨j, hj, hpre⟩ := prefix_of_mem_placesFields hq
  exact Place.leftOf_of_isPrefix hj (prefix_of_mem_places hp) hpre

/-- A node is above the places in its fields. -/
theorem above_of_mem_placesFields {site : Site} {fields : Record Value} {path : Path}
    {address : List Nat} {i : Nat} {q : Place} (hq : q ∈ placesFields fields path address i) :
    Place.Above ⟨site, address⟩ q := by
  obtain ⟨j, -, hpre⟩ := prefix_of_mem_placesFields hq
  exact Place.above_of_isPrefix hpre

end Value

/-- The places of the nodes of a tree that a walk can reach, in pre-order. -/
def Node.places (root : Node) : List Place := root.toValue.places [] []

end ContractQuery
