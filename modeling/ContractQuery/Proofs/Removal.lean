import Mathlib.Data.List.Basic
import ContractQuery.Proofs.Distinct
import ContractQuery.Prune

/-!
# Removing Several Paths

Taking an item out of a list moves the later items, so removing one path may change where
the others lead. This module shows that nothing of the kind happens in descending order: the
paths may then be removed one by one, and the outcome is that of removing all of them at
once.

`Value.dropAll v s` is the value without everything at the paths of a set `s`, in one pass.
One removal is the step (`Value.dropAll_eraseAt`): if every path of `s` comes before `p`,
removing `p` first and then all of `s` is removing `s` together with `p`. The order is
needed in one place only, where an item is taken out of a list (`Value.dropItems_eraseIdx`):
no path of `s` goes through a later item. The run follows by induction over the paths
(`Node.removeAll_of_pairwise`).

## Main results

* `Path.pairwise_descending`: the descending order of distinct paths is strict.
* `Value.removeBelow_eq_ok`: removal succeeds at every path that leads to a value.
* `Value.dropAll_eraseAt`: one removal, against the removal of a set of earlier paths.
* `Node.removeAll_descending`: the removals in descending order succeed and amount to one
  pass over the tree.
-/

namespace ContractQuery

open Std

/-! ### The order of paths -/

instance : TransCmp Segment.compare where
  eq_swap {a b} := by
    cases a <;> cases b <;> simp only [Segment.compare, Ordering.swap_lt, Ordering.swap_gt]
    · exact OrientedCmp.eq_swap
    · exact OrientedCmp.eq_swap
  isLE_trans {a b c} hab hbc := by
    cases a <;> cases b <;> cases c <;> simp_all [Segment.compare]
    · exact TransCmp.isLE_trans hab hbc
    · exact TransCmp.isLE_trans hab hbc

instance : LawfulEqCmp Segment.compare where
  compare_self {a} := by cases a <;> simp [Segment.compare]
  eq_of_compare {a b} h := by cases a <;> cases b <;> simp_all [Segment.compare]

namespace Path

instance : TransCmp compare := inferInstanceAs (TransCmp (List.compareLex Segment.compare))

instance : LawfulEqCmp compare :=
  inferInstanceAs (LawfulEqCmp (List.compareLex Segment.compare))

/-- The path `q` comes before the path `p`. -/
def Before (q p : Path) : Prop := compare q p = .lt

/-- Paths with one first step are ordered by what follows. -/
theorem before_cons_iff {s : Segment} {q p : Path} :
    Before (s :: q) (s :: p) ↔ Before q p := by
  have hself : Segment.compare s s = .eq := ReflCmp.compare_self
  simp [Before, compare, List.compareLex_cons_cons, hself]

/-- A path does not come before one of its prefixes. -/
theorem not_before_singleton (s : Segment) (q : Path) : ¬ Before (s :: q) [s] := by
  rw [before_cons_iff]
  cases q <;> simp [Before, compare, List.compareLex_nil_nil, List.compareLex_cons_nil]

/-- A path through an item that comes before another item goes through an earlier one. -/
theorem lt_of_before_index {i j : Nat} {q : Path} (h : Before (.index j :: q) [.index i]) :
    j < i := by
  rcases Nat.lt_trichotomy j i with hlt | rfl | hgt
  · exact hlt
  · exact absurd h (not_before_singleton _ _)
  · have hcmp : Segment.compare (.index j) (.index i) = .gt := Nat.compare_eq_gt.2 hgt
    simp [Before, compare, List.compareLex_cons_cons, hcmp] at h

/-- Ordering paths keeps all of them. -/
theorem mem_descending {ps : List Path} {p : Path} : p ∈ descending ps ↔ p ∈ ps :=
  List.mem_mergeSort

/-- The descending order of distinct paths is strict. -/
theorem pairwise_descending {ps : List Path} (h : ps.Nodup) :
    (descending ps).Pairwise fun p q => Before q p := by
  have hsorted : (descending ps).Pairwise fun p q => (compare p q).isGE := by
    refine List.pairwise_mergeSort ?_ ?_ ps
    · intro a b c hab hbc
      exact TransCmp.isGE_trans hab hbc
    · intro a b
      have hswap : compare b a = (compare a b).swap := OrientedCmp.eq_swap
      rw [hswap]
      cases compare a b <;> rfl
  have hnodup : (descending ps).Nodup := (List.mergeSort_perm ps _).nodup_iff.2 h
  refine (hsorted.and hnodup).imp ?_
  rintro p q ⟨hge, hne⟩
  have hswap : compare q p = (compare p q).swap := OrientedCmp.eq_swap
  have hnot : compare p q ≠ .eq := fun heq => hne (LawfulEqCmp.eq_of_compare heq)
  rw [Before, hswap]
  cases hpq : compare p q <;> simp_all

end Path

namespace Value

/-! ### One removal -/

/-- The value without what a path addresses. -/
def eraseAt (v : Value) : Path → Value
  | [] => v
  | [s] => v.eraseChild s
  | s :: next :: rest =>
    match v.child? s with
    | some c => v.setChild s (c.eraseAt (next :: rest))
    | none => v

@[simp] theorem get?_nil (v : Value) : v.get? [] = some v := rfl

/-- A path is followed step by step. -/
theorem get?_cons (v : Value) (s : Segment) (rest : Path) :
    v.get? (s :: rest) = (v.child? s).bind (·.get? rest) := rfl

/-- A path is followed one part after the other. -/
theorem get?_append (v : Value) (p q : Path) :
    v.get? (p ++ q) = (v.get? p).bind (·.get? q) := by
  induction p generalizing v with
  | nil => rfl
  | cons s p ih => simp only [List.cons_append, get?_cons, Option.bind_assoc, ih]

/-- Erasing below a child changes the child alone. -/
theorem eraseAt_cons {v c : Value} {s : Segment} {rest : Path} (hrest : rest ≠ [])
    (hc : v.child? s = some c) : v.eraseAt (s :: rest) = v.setChild s (c.eraseAt rest) := by
  obtain ⟨next, rest, rfl⟩ := List.exists_cons_of_ne_nil hrest
  rw [eraseAt, hc]

/-- Below a path that leads further there is a value that it leads through. -/
theorem exists_child_of_get?_isSome {v : Value} {s : Segment} {rest : Path}
    (h : (v.get? (s :: rest)).isSome) : ∃ c, v.child? s = some c ∧ (c.get? rest).isSome := by
  rw [get?_cons] at h
  cases hc : v.child? s with
  | none => simp [hc] at h
  | some c => exact ⟨c, rfl, by simpa [hc] using h⟩

/-- **Removal succeeds** at every path that leads to a value, returns that value, and leaves
the value without it. -/
theorem removeBelow_eq_ok {v r : Value} {s : Segment} {rest : Path} (walked : Path)
    (h : v.get? (s :: rest) = some r) :
    v.removeBelow walked s rest = .ok (r, v.eraseAt (s :: rest)) := by
  induction rest generalizing v s walked with
  | nil =>
      obtain ⟨c, hc, -⟩ := exists_child_of_get?_isSome (Option.isSome_of_eq_some h)
      rw [get?_cons, hc] at h
      obtain rfl : c = r := Option.some.inj h
      simp [removeBelow, eraseAt, hc]
  | cons next rest ih =>
      obtain ⟨c, hc, -⟩ := exists_child_of_get?_isSome (Option.isSome_of_eq_some h)
      rw [get?_cons, hc, Option.bind_some] at h
      have hrec := ih (walked ++ [s]) h
      -- A map or a scalar has nothing below it, so the path goes through a node or a list.
      cases c with
      | map entries => simp [get?_cons, child?] at h
      | scalar leaf => simp [get?_cons, child?] at h
      | node kind span fields =>
          simp only [removeBelow, hc, hrec, eraseAt]
          rfl
      | list items =>
          simp only [removeBelow, hc, hrec, eraseAt]
          rfl

/-- Erasing below a node leaves a node of the same kind and span. -/
theorem eraseAt_node (kind : Kind) (span : Option Span) (fields : Record Value) (p : Path) :
    ∃ fields', (node kind span fields).eraseAt p = node kind span fields' := by
  fun_cases eraseAt (node kind span fields) p with
  | case1 => exact ⟨fields, rfl⟩
  | case2 s => cases s <;> exact ⟨_, rfl⟩
  | case3 s next rest c hc => cases s <;> exact ⟨_, rfl⟩
  | case4 s next rest hc => exact ⟨fields, rfl⟩

/-- Names stay distinct. -/
theorem Distinct.eraseAt {v : Value} (hv : v.Distinct) (p : Path) : (v.eraseAt p).Distinct := by
  induction p generalizing v with
  | nil => exact hv
  | cons s rest ih =>
      cases rest with
      | nil => exact hv.eraseChild s
      | cons next rest =>
          rw [Value.eraseAt]
          cases hc : v.child? s with
          | none => exact hv
          | some c => exact hv.setChild s (ih (hv.child hc))

/-- Taking out a value does not move what an earlier path leads to. -/
theorem child?_eraseChild_of_before {v : Value} {s t : Segment} {q : Path}
    (h : Path.Before (t :: q) [s]) : (v.eraseChild s).child? t = v.child? t := by
  have hne : s ≠ t := by
    rintro rfl
    exact Path.not_before_singleton _ _ h
  fun_cases eraseChild v s with
  | case1 kind span fields name =>
      cases t with
      | field other => exact Record.get?_erase_of_ne fields (by simpa using hne)
      | index j => rfl
  | case2 items i =>
      cases t with
      | field other => rfl
      | index j =>
          have hlt := Path.lt_of_before_index h
          simp only [child?, List.getElem?_eraseIdx_of_lt hlt]
  | case3 v s hnode hlist => rfl

/-- Replacing a value keeps the values beside it. -/
theorem child?_setChild_of_ne {v c : Value} {s t : Segment} (h : s ≠ t) :
    (v.setChild s c).child? t = v.child? t := by
  fun_cases setChild v s c with
  | case1 kind span fields name =>
      cases t with
      | field other => exact Record.get?_insert_of_ne fields c (by simpa using h)
      | index j => rfl
  | case2 items i =>
      cases t with
      | field other => rfl
      | index j =>
          have hij : i ≠ j := by simpa using h
          simp only [child?, List.getElem?_set_ne hij]
  | case3 v s hnode hlist => rfl

/-- A replaced value is found in its place. -/
theorem child?_setChild_self {v c old : Value} {s : Segment} (h : v.child? s = some old) :
    (v.setChild s c).child? s = some c := by
  fun_cases setChild v s c with
  | case1 kind span fields name => exact Record.get?_insert_self fields name c
  | case2 items i =>
      have hi : i < items.length := (List.getElem?_eq_some_iff.1 h).1
      simp only [child?, List.getElem?_set_self hi]
  | case3 v s hnode hlist => simp_all [child?]

/-- After the removal of a path every earlier path still leads to a value. -/
theorem get?_eraseAt_isSome {v : Value} {p q : Path} (hp : (v.get? p).isSome)
    (hq : (v.get? q).isSome) (hqp : Path.Before q p) : ((v.eraseAt p).get? q).isSome := by
  induction p generalizing v q with
  | nil => exact hq
  | cons s rest ih =>
      obtain ⟨c, hc, hrest⟩ := exists_child_of_get?_isSome hp
      cases q with
      | nil => rfl
      | cons t q =>
          cases rest with
          | nil => rwa [eraseAt, get?_cons, child?_eraseChild_of_before hqp, ← get?_cons]
          | cons next rest =>
              rw [eraseAt, hc]
              by_cases hst : s = t
              · subst hst
                obtain ⟨c', hc', hq'⟩ := exists_child_of_get?_isSome hq
                obtain rfl : c = c' := Option.some.inj (hc.symm.trans hc')
                rw [get?_cons, child?_setChild_self hc, Option.bind_some]
                exact ih hrest hq' (Path.before_cons_iff.1 hqp)
              · rwa [get?_cons, child?_setChild_of_ne hst, ← get?_cons]

/-! ### Removing a set of paths in one pass -/

mutual

/-- The value without everything at the paths of a set, in one pass. -/
def dropAll : Value → (Path → Bool) → Value
  | node kind span fields, s => node kind span (dropFields fields s)
  | list items, s => list (dropItems items 0 s)
  | map entries, _ => map entries
  | scalar leaf, _ => scalar leaf

/-- The items without everything at the paths of a set; the first item has position `i`. -/
def dropItems : List Value → Nat → (Path → Bool) → List Value
  | [], _, _ => []
  | v :: rest, i, s =>
    if s [.index i] then dropItems rest (i + 1) s
    else v.dropAll (fun q => s (.index i :: q)) :: dropItems rest (i + 1) s

/-- The fields without everything at the paths of a set. -/
def dropFields : List (String × Value) → (Path → Bool) → List (String × Value)
  | [], _ => []
  | (name, v) :: rest, s =>
    if s [.field name] then dropFields rest s
    else (name, v.dropAll fun q => s (.field name :: q)) :: dropFields rest s

end

/-- Fields are treated one by one, by their name alone. -/
theorem dropFields_eq_filterMap (fields : Record Value) (s : Path → Bool) :
    dropFields fields s = fields.filterMap fun e =>
      if s [.field e.1] then none else some (e.1, e.2.dropAll fun q => s (.field e.1 :: q)) := by
  induction fields with
  | nil => simp [dropFields]
  | cons e rest ih =>
      obtain ⟨name, v⟩ := e
      by_cases h : s [.field name] <;> simp [dropFields, h, ih]

/-- What is removed from items depends on the paths through these items only. -/
theorem dropItems_congr {items : List Value} {i : Nat} {s s' : Path → Bool}
    (h : ∀ j q, i ≤ j → s (.index j :: q) = s' (.index j :: q)) :
    dropItems items i s = dropItems items i s' := by
  induction items generalizing i with
  | nil => simp [dropItems]
  | cons v rest ih =>
      have hhere : (fun q => s (.index i :: q)) = fun q => s' (.index i :: q) :=
        funext fun q => h i q (Nat.le_refl i)
      have hrest := ih (i := i + 1) fun j q hj => h j q (by omega)
      simp only [dropItems, h i [] (Nat.le_refl i), hhere, hrest]

mutual

/-- Removing no path changes nothing. -/
theorem dropAll_none : ∀ v : Value, v.dropAll (fun _ => false) = v
  | node kind span fields => by rw [dropAll, dropFields_none fields]
  | list items => by rw [dropAll, dropItems_none items 0]
  | map entries => by rw [dropAll]
  | scalar leaf => by rw [dropAll]

/-- Removing no path from items changes nothing. -/
theorem dropItems_none : ∀ (items : List Value) (i : Nat),
    dropItems items i (fun _ => false) = items
  | [], i => by rw [dropItems]
  | v :: rest, i => by simp [dropItems, dropAll_none v, dropItems_none rest (i + 1)]

/-- Removing no path from fields changes nothing. -/
theorem dropFields_none : ∀ fields : Record Value, dropFields fields (fun _ => false) = fields
  | [] => by rw [dropFields]
  | (name, v) :: rest => by simp [dropFields, dropAll_none v, dropFields_none rest]

end

/-! ### One removal against a set of earlier paths -/

/-- A set of paths with one more path. -/
def withPath (s : Path → Bool) (p : Path) : Path → Bool := fun q => s q || decide (q = p)

/-- Going into the step that the path takes, the path takes its next step. -/
theorem withPath_cons_self (s : Path → Bool) (t : Segment) (rest : Path) :
    (fun q => withPath s (t :: rest) (t :: q)) = withPath (fun q => s (t :: q)) rest := by
  funext q
  simp [withPath]

/-- The path does not matter off its way. -/
theorem withPath_cons_of_ne (s : Path → Bool) {t t' : Segment} (h : t' ≠ t) (rest q : Path) :
    withPath s (t :: rest) (t' :: q) = s (t' :: q) := by
  simp [withPath, h]

/-- A longer path leaves the value at its first step in place. -/
theorem withPath_singleton (s : Path → Bool) (t : Segment) {rest : Path} (h : rest ≠ []) :
    withPath s (t :: rest) [t] = s [t] := by
  simp [withPath, Ne.symm h]

/-- Erasing a field is dropping its path as well. -/
theorem dropFields_erase {fields : Record Value} (hf : Record.Distinct fields) (name : String)
    (s : Path → Bool) :
    dropFields (Record.erase fields name) s = dropFields fields (withPath s [.field name]) := by
  rw [dropFields_eq_filterMap, dropFields_eq_filterMap, Record.erase_eq_filter hf,
    List.filterMap_filter]
  refine List.filterMap_congr ?_
  rintro ⟨n, v⟩ -
  by_cases hn : n = name
  · subst hn
    simp [withPath]
  · have hne : Segment.field n ≠ Segment.field name := by simpa using hn
    simp [withPath_cons_of_ne s hne, hn]

/-- Erasing below a field is dropping a path through it as well. -/
theorem dropFields_insert {fields : Record Value} (hf : Record.Distinct fields)
    {name : String} {c c' : Value} (hc : Record.get? fields name = some c)
    {s : Path → Bool} {rest : Path} (hrest : rest ≠ [])
    (h : c'.dropAll (fun q => s (.field name :: q)) =
      c.dropAll (withPath (fun q => s (.field name :: q)) rest)) :
    dropFields (Record.insert fields name c') s =
      dropFields fields (withPath s (.field name :: rest)) := by
  have hmem : (name, c) ∈ fields := Record.mem_of_get?_eq_some hc
  rw [dropFields_eq_filterMap, dropFields_eq_filterMap,
    Record.insert_eq_map hf (Record.mem_names_of_mem hmem), List.filterMap_map]
  refine List.filterMap_congr ?_
  rintro ⟨n, v⟩ hv
  by_cases hn : n = name
  · subst hn
    obtain rfl : v = c := by
      have hget := Record.get?_eq_some_of_mem hf hv
      exact Option.some.inj (hget.symm.trans hc)
    simp only [Function.comp_apply, if_true, h, withPath_singleton s _ hrest,
      withPath_cons_self]
  · have hne : Segment.field n ≠ Segment.field name := by simpa using hn
    simp [withPath_cons_of_ne s hne, hn]

/-- Taking out an item is dropping its path as well, if no path goes through a later item.
Here the first item has position `k`. -/
theorem dropItems_eraseIdx {items : List Value} {i k : Nat} {s : Path → Bool}
    (hs : ∀ j q, k + i ≤ j → s (.index j :: q) = false) (hi : i < items.length) :
    dropItems (items.eraseIdx i) k s = dropItems items k (withPath s [.index (k + i)]) := by
  induction items generalizing i k with
  | nil => simp at hi
  | cons v rest ih =>
      cases i with
      | zero =>
          -- All later items stay as they are, whether they have moved or not.
          have hmoved : dropItems rest k s = dropItems rest k fun _ => false :=
            dropItems_congr hs
          have hunmoved : dropItems rest (k + 1) (withPath s [.index k]) =
              dropItems rest (k + 1) fun _ => false := by
            refine dropItems_congr fun j q hj => ?_
            have hne : Segment.index j ≠ Segment.index k := by simp; omega
            rw [withPath_cons_of_ne s hne, hs j q (by omega)]
          rw [List.eraseIdx_cons_zero, hmoved, Nat.add_zero, dropItems, if_pos (by simp [withPath]),
            hunmoved, dropItems_none, dropItems_none]
      | succ i =>
          have hi' : i < rest.length := by simpa using hi
          have hrest := ih (k := k + 1) (fun j q hj => hs j q (by omega)) hi'
          have hpos : k + 1 + i = k + (i + 1) := by omega
          have hne : Segment.index k ≠ Segment.index (k + (i + 1)) := by simp
          rw [hpos] at hrest
          simp only [List.eraseIdx_cons_succ, dropItems, withPath_cons_of_ne s hne, hrest]

/-- Erasing below an item is dropping a path through it as well. -/
theorem dropItems_set {items : List Value} {i k : Nat} {c c' : Value}
    (hc : items[i]? = some c) {s : Path → Bool} {rest : Path} (hrest : rest ≠ [])
    (h : c'.dropAll (fun q => s (.index (k + i) :: q)) =
      c.dropAll (withPath (fun q => s (.index (k + i) :: q)) rest)) :
    dropItems (items.set i c') k s =
      dropItems items k (withPath s (.index (k + i) :: rest)) := by
  induction items generalizing i k with
  | nil => simp at hc
  | cons v items ih =>
      cases i with
      | zero =>
          obtain rfl : v = c := by simpa using hc
          have hlater : dropItems items (k + 1) (withPath s (.index k :: rest)) =
              dropItems items (k + 1) s := by
            refine dropItems_congr fun j q hj => ?_
            have hne : Segment.index j ≠ Segment.index k := by simp; omega
            exact withPath_cons_of_ne s hne rest q
          rw [Nat.add_zero] at h
          simp only [List.set_cons_zero, Nat.add_zero, dropItems, withPath_singleton s _ hrest,
            withPath_cons_self, hlater, h]
      | succ i =>
          have hpos : k + 1 + i = k + (i + 1) := by omega
          have hne : Segment.index k ≠ Segment.index (k + (i + 1)) := by simp
          have htail := ih (k := k + 1) (by simpa using hc) (by rw [hpos]; exact h)
          rw [hpos] at htail
          simp only [List.set_cons_succ, dropItems, withPath_cons_of_ne s hne, htail]

/-- **The step.** If every path of a set comes before `p`, removing `p` and then the set is
removing the set together with `p`. -/
theorem dropAll_eraseAt {v : Value} (hv : v.Distinct) {p : Path} (hp : p ≠ [])
    (haddr : (v.get? p).isSome) {s : Path → Bool} (hs : ∀ q, s q = true → Path.Before q p) :
    (v.eraseAt p).dropAll s = v.dropAll (withPath s p) := by
  induction p generalizing v s with
  | nil => exact absurd rfl hp
  | cons t rest ih =>
      obtain ⟨c, hc, hrest⟩ := exists_child_of_get?_isSome haddr
      by_cases hnil : rest = []
      · subst hnil
        fun_cases child? v t with
        | case1 kind span fields name =>
            simp only [eraseAt, eraseChild, dropAll, dropFields_erase (distinct_node.1 hv).1]
        | case2 items i =>
            have hlater : ∀ j q, 0 + i ≤ j → s (.index j :: q) = false := by
              intro j q hj
              rw [Bool.eq_false_iff]
              intro hsq
              have hlt := Path.lt_of_before_index (hs _ hsq)
              omega
            have hi : i < items.length := (List.getElem?_eq_some_iff.1 hc).1
            have hdrop := dropItems_eraseIdx hlater hi
            rw [Nat.zero_add] at hdrop
            simp only [eraseAt, eraseChild, dropAll, hdrop]
        | case3 v t hnode hlist => simp_all [child?]
      · have hbelow : (c.eraseAt rest).dropAll (fun q => s (t :: q)) =
            c.dropAll (withPath (fun q => s (t :: q)) rest) :=
          ih (hv.child hc) hnil hrest fun q hq => Path.before_cons_iff.1 (hs _ hq)
        rw [eraseAt_cons hnil hc]
        fun_cases child? v t with
        | case1 kind span fields name =>
            simp only [setChild, dropAll,
              dropFields_insert (distinct_node.1 hv).1 hc hnil hbelow]
        | case2 items i =>
            have hdrop := dropItems_set (k := 0) hc hnil (by rw [Nat.zero_add]; exact hbelow)
            rw [Nat.zero_add] at hdrop
            simp only [setChild, dropAll, hdrop]
        | case3 v t hnode hlist => simp_all [child?]

end Value

/-! ### All removals -/

namespace Node

/-- The tree without everything at the paths of a set, in one pass. -/
def dropAll (n : Node) (s : Path → Bool) : Node :=
  ⟨n.kind, n.span, Value.dropFields n.fields s⟩

/-- Dropping in a tree is dropping in its value. -/
theorem toValue_dropAll (n : Node) (s : Path → Bool) :
    (n.dropAll s).toValue = n.toValue.dropAll s := by
  simp [toValue, dropAll, Value.dropAll]

/-- A node is told by its value. -/
theorem toValue_injective {a b : Node} (h : a.toValue = b.toValue) : a = b := by
  simpa using congrArg Value.node? h

/-- Look-up finds a node exactly where it is the value. -/
theorem at?_eq_some_iff_get? {n m : Node} {p : Path} :
    n.at? p = some m ↔ n.get? p = some m.toValue := by
  rw [at?, Option.bind_eq_some_iff]
  constructor
  · rintro ⟨v, hv, hm⟩
    cases v <;> cases hm
    exact hv
  · intro h
    exact ⟨m.toValue, h, node?_toValue m⟩

/-- Removal at a path below the root that leads to a value succeeds and returns that value. -/
theorem exists_removeAt_eq_ok_of_get? {n : Node} {p : Path} {r : Value} (hp : p ≠ [])
    (h : n.get? p = some r) :
    ∃ left, n.removeAt p = .ok (r, left) ∧ left.toValue = n.toValue.eraseAt p := by
  obtain ⟨s, rest, rfl⟩ := List.exists_cons_of_ne_nil hp
  obtain ⟨fields, herase⟩ := Value.eraseAt_node n.kind n.span n.fields (s :: rest)
  refine ⟨⟨n.kind, n.span, fields⟩, ?_, herase.symm⟩
  rw [removeAt, Value.removeBelow_eq_ok [] h]
  simp only [toValue, herase]
  rfl

/-- Removal at a path below the root that leads to a value succeeds. -/
theorem exists_removeAt_eq_ok {n : Node} {p : Path} (hp : p ≠ []) (h : (n.get? p).isSome) :
    ∃ r left, n.removeAt p = .ok (r, left) ∧ left.toValue = n.toValue.eraseAt p := by
  obtain ⟨r, hr⟩ := Option.isSome_iff_exists.1 h
  exact ⟨r, exists_removeAt_eq_ok_of_get? hp hr⟩

/-- **The run.** Paths that lead to values below the root can be removed one by one if each
comes before all that are removed earlier, and the outcome is that of one pass. -/
theorem removeAll_of_pairwise {n : Node} (hn : n.Distinct) {ps : List Path}
    (haddr : ∀ p ∈ ps, p ≠ [] ∧ (n.get? p).isSome)
    (hsorted : ps.Pairwise fun p q => Path.Before q p) :
    n.removeAll ps = (.ok (), n.dropAll fun p => decide (p ∈ ps)) := by
  induction ps generalizing n with
  | nil =>
      have hnone : n.toValue.dropAll (fun _ => false) = n.toValue := Value.dropAll_none _
      rw [← toValue_dropAll] at hnone
      simp [removeAll, toValue_injective hnone]
  | cons p ps ih =>
      obtain ⟨hlater, hsorted'⟩ := List.pairwise_cons.1 hsorted
      obtain ⟨hp, hpaddr⟩ := haddr p List.mem_cons_self
      obtain ⟨r, left, hremove, hleft⟩ := exists_removeAt_eq_ok hp hpaddr
      have hdistinct : left.Distinct := by
        rw [Distinct, hleft]
        exact Value.Distinct.eraseAt hn p
      have haddr' : ∀ q ∈ ps, q ≠ [] ∧ (left.get? q).isSome := by
        intro q hq
        obtain ⟨hqne, hqaddr⟩ := haddr q (List.mem_cons_of_mem _ hq)
        refine ⟨hqne, ?_⟩
        rw [get?, hleft]
        exact Value.get?_eraseAt_isSome hpaddr hqaddr (hlater q hq)
      have hset : (fun q => decide (q ∈ p :: ps)) =
          Value.withPath (fun q => decide (q ∈ ps)) p := by
        funext q
        simp [Value.withPath, Bool.or_comm]
      have hstep : left.dropAll (fun q => decide (q ∈ ps)) =
          n.dropAll fun q => decide (q ∈ p :: ps) := by
        refine toValue_injective ?_
        rw [toValue_dropAll, toValue_dropAll, hleft, hset]
        refine Value.dropAll_eraseAt hn hp hpaddr fun q hq => hlater q ?_
        simpa using hq
      rw [removeAll, hremove]
      simp only [ih hdistinct haddr' hsorted', hstep]

/-- **Descending order is safe.** Distinct paths that lead to values below the root can be
removed in descending order, and the outcome is that of one pass. -/
theorem removeAll_descending {n : Node} (hn : n.Distinct) {ps : List Path} (hps : ps.Nodup)
    (haddr : ∀ p ∈ ps, p ≠ [] ∧ (n.get? p).isSome) :
    n.removeAll (Path.descending ps) = (.ok (), n.dropAll fun p => decide (p ∈ ps)) := by
  rw [removeAll_of_pairwise hn (fun p hp => haddr p (Path.mem_descending.1 hp))
    (Path.pairwise_descending hps)]
  simp only [Path.mem_descending]

end Node

end ContractQuery
