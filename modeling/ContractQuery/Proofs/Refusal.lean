import Mathlib.Data.List.Infix
import Mathlib.Data.Nat.Find
import ContractQuery.Proofs.Removal

/-!
# When a Removal is Refused

A removal goes down a path one step at a time, and there are three ways to fail: a step leads
nowhere, a step leads to a map or a scalar although the path goes on, or the last step leads
nowhere. Look-up knows nothing of these: it finds a value or it does not. This module says, in
terms of look-up, which paths are refused and with which error.

A prefix of a path *blocks* it if it leads to no value, or if the path goes on behind it and it
leads to a map or a scalar (`Value.Blocks`). The error shows the shortest such prefix
(`Value.FirstBlock`); there is one exactly if the path leads nowhere.

A refused removal changes nothing. For `Node.removeAt`, which returns a tree only if it succeeds,
there would be nothing to prove; so `Node.removeInPlace` takes the tree apart on the way down and
puts it together again on the way up, whatever the outcome is, and the two are compared.

## Main results

* `Value.removeBelow_of_firstBlock`: the error of a blocked path.
* `Value.existsUnique_firstBlock`: a path that leads nowhere has one shortest bad prefix.
* `Node.removeAt_eq_ok_iff`: what a removal returns when it succeeds.
* `Node.removeInPlace_eq`: **a refused removal leaves the tree as it was**.
* `Node.removeAt_outcome`: **the outcome of a removal**, for every tree and path.
-/

namespace ContractQuery

/-- Setting a name to the value that it has changes nothing. -/
theorem Record.insert_of_get? {α : Type} {r : Record α} {name : String} {v : α}
    (h : Record.get? r name = some v) : Record.insert r name v = r := by
  induction r with
  | nil => simp at h
  | cons e r ih =>
      obtain ⟨n, w⟩ := e
      rw [Record.get?_cons] at h
      by_cases hn : n = name
      · rw [if_pos hn, Option.some.injEq] at h
        rw [Record.insert, if_pos hn, h]
      · rw [if_neg hn] at h
        rw [Record.insert, if_neg hn, ih h]

namespace Value

/-! ### Blocked paths -/

/-- No path leads into the value: it is a map or a scalar. -/
def IsClosed (v : Value) : Prop := v.shape = .map ∨ v.shape = .scalar

instance (v : Value) : Decidable v.IsClosed := inferInstanceAs (Decidable (_ ∨ _))

/-- What is closed has no children. -/
theorem IsClosed.child?_eq_none {v : Value} (h : v.IsClosed) (s : Segment) :
    v.child? s = none := by
  cases v with
  | node kind span fields => rcases h with h | h <;> cases h
  | list items => rcases h with h | h <;> cases h
  | map entries => rfl
  | scalar leaf => rfl

/-- The prefix `q` of the path `p` is bad: it leads to no value, or the path goes on behind it
and it leads to a map or a scalar. -/
structure Blocks (v : Value) (p q : Path) : Prop where
  isPrefix : q <+: p
  bad : v.get? q = none ∨ q ≠ p ∧ ∃ w, v.get? q = some w ∧ w.IsClosed

/-- The path `q` is the shortest bad prefix of `p`. -/
structure FirstBlock (v : Value) (p q : Path) : Prop where
  blocks : v.Blocks p q
  shortest : ∀ q', v.Blocks p q' → q.length ≤ q'.length

/-- A blocked path leads nowhere. -/
theorem Blocks.get?_eq_none {v : Value} {p q : Path} (h : v.Blocks p q) : v.get? p = none := by
  obtain ⟨⟨rest, rfl⟩, hbad⟩ := h
  rw [get?_append]
  rcases hbad with hnone | ⟨hne, w, hw, hclosed⟩
  · rw [hnone, Option.bind_none]
  · cases rest with
    | nil => exact absurd (List.append_nil q).symm hne
    | cons s rest => rw [hw, Option.bind_some, get?_cons, hclosed.child?_eq_none, Option.bind_none]

/-- A path that leads nowhere is its own bad prefix. -/
theorem blocks_self {v : Value} {p : Path} (h : v.get? p = none) : v.Blocks p p :=
  ⟨List.prefix_refl p, .inl h⟩

/-- Behind a step that leads to a value, the path is blocked as it is from there. -/
theorem blocks_cons_iff {v c : Value} {s : Segment} (hc : v.child? s = some c) {p q : Path} :
    v.Blocks (s :: p) (s :: q) ↔ c.Blocks p q := by
  have hget : v.get? (s :: q) = c.get? q := by rw [get?_cons, hc, Option.bind_some]
  constructor
  · rintro ⟨hpre, hbad⟩
    exact ⟨(List.cons_prefix_cons.mp hpre).2, by simpa [hget] using hbad⟩
  · rintro ⟨hpre, hbad⟩
    exact ⟨List.cons_prefix_cons.mpr ⟨rfl, hpre⟩, by simpa [hget] using hbad⟩

/-- Two shortest bad prefixes are the same. -/
theorem FirstBlock.unique {v : Value} {p q q' : Path} (h : v.FirstBlock p q)
    (h' : v.FirstBlock p q') : q = q' := by
  have hpre : q <+: q' :=
    List.prefix_of_prefix_length_le h.blocks.isPrefix h'.blocks.isPrefix
      (h.shortest q' h'.blocks)
  exact hpre.eq_of_length_le (h'.shortest q h.blocks)

/-- **A path that leads nowhere has one shortest bad prefix.** -/
theorem existsUnique_firstBlock {v : Value} {p : Path} (h : v.get? p = none) :
    ∃! q, v.FirstBlock p q := by
  classical
  have hlength : ∃ k, ∃ q, v.Blocks p q ∧ q.length = k := ⟨_, p, blocks_self h, rfl⟩
  obtain ⟨q, hq, hk⟩ := Nat.find_spec hlength
  have hfirst : v.FirstBlock p q :=
    ⟨hq, fun q' hq' => hk ▸ Nat.find_min' hlength ⟨q', hq', rfl⟩⟩
  exact ⟨q, hfirst, fun q' hq' => hq'.unique hfirst⟩

/-- The shortest bad prefix goes through the first step, unless nothing can be below at all. -/
theorem FirstBlock.exists_cons {v : Value} (hv : ¬ v.IsClosed) {s : Segment} {rest q : Path}
    (h : v.FirstBlock (s :: rest) q) : ∃ q', q = s :: q' := by
  obtain ⟨⟨hpre, hbad⟩, -⟩ := h
  cases q with
  | nil =>
      rcases hbad with hnone | ⟨-, w, hw, hclosed⟩
      · cases hnone
      · obtain rfl : v = w := Option.some.inj hw
        exact absurd hclosed hv
  | cons t q' =>
      obtain ⟨rfl, -⟩ := List.cons_prefix_cons.mp hpre
      exact ⟨q', rfl⟩

/-- A first step that is bad itself is the shortest bad prefix. -/
theorem FirstBlock.eq_singleton {v : Value} (hv : ¬ v.IsClosed) {s : Segment} {rest q : Path}
    (h : v.FirstBlock (s :: rest) q) (hs : v.Blocks (s :: rest) [s]) : q = [s] := by
  obtain ⟨q', rfl⟩ := h.exists_cons hv
  have hle := h.shortest [s] hs
  cases q' with
  | nil => rfl
  | cons t q' => simp at hle

/-- Behind a first step that leads to a value with values below it, the search goes on there. -/
theorem FirstBlock.tail {v c : Value} {s : Segment} {rest q : Path}
    (h : v.FirstBlock (s :: rest) (s :: q)) (hc : v.child? s = some c) : c.FirstBlock rest q := by
  refine ⟨(blocks_cons_iff hc).mp h.blocks, fun q' hq' => ?_⟩
  have hle := h.shortest (s :: q') ((blocks_cons_iff hc).mpr hq')
  simpa using hle

/-! ### The error -/

/-- A step that leads nowhere is refused. -/
theorem removeBelow_of_none {v : Value} {s : Segment} (hc : v.child? s = none)
    (walked rest : Path) :
    v.removeBelow walked s rest = .error (.missing (walked ++ [s])) := by
  cases rest <;> simp [removeBelow, hc]

/-- A path that goes on in what is closed is refused there. -/
theorem removeBelow_of_isClosed {v c : Value} {s : Segment} (hc : v.child? s = some c)
    (h : c.IsClosed) (walked : Path) (next : Segment) (rest : Path) :
    v.removeBelow walked s (next :: rest) = .error (.notContainer (walked ++ [s]) c.shape) := by
  cases c with
  | map entries => simp [removeBelow, hc, shape]
  | scalar leaf => simp [removeBelow, hc, shape]
  | node kind span fields => rcases h with h | h <;> cases h
  | list items => rcases h with h | h <;> cases h

/-- A path that goes on in what is open is followed there. -/
theorem removeBelow_of_not_isClosed {v c : Value} {s : Segment} (hc : v.child? s = some c)
    (h : ¬ c.IsClosed) (walked : Path) (next : Segment) (rest : Path) :
    v.removeBelow walked s (next :: rest) =
      (c.removeBelow (walked ++ [s]) next rest).map fun r => (r.1, v.setChild s r.2) := by
  cases c with
  | map entries => exact absurd (.inl rfl) h
  | scalar leaf => exact absurd (.inr rfl) h
  | node kind span fields =>
      simp only [removeBelow, hc]
      rfl
  | list items =>
      simp only [removeBelow, hc]
      rfl

/-- **The error of a blocked path** shows the shortest bad prefix: as missing if it leads to no
value, and otherwise with what it leads to. -/
theorem removeBelow_of_firstBlock {v : Value} (hv : ¬ v.IsClosed) {s : Segment} {rest q : Path}
    (h : v.FirstBlock (s :: rest) q) (walked : Path) :
    (v.get? q = none → v.removeBelow walked s rest = .error (.missing (walked ++ q))) ∧
    ∀ w, v.get? q = some w → w.IsClosed ∧
      v.removeBelow walked s rest = .error (.notContainer (walked ++ q) w.shape) := by
  induction rest generalizing v s q walked with
  | nil =>
      have hget : v.get? [s] = none := h.blocks.get?_eq_none
      obtain rfl := h.eq_singleton hv (blocks_self hget)
      have hc : v.child? s = none := by simpa [get?_cons] using hget
      exact ⟨fun _ => removeBelow_of_none hc walked [], fun w hw => by simp [hget] at hw⟩
  | cons next rest ih =>
      have hpre : [s] <+: s :: next :: rest := List.cons_prefix_cons.mpr ⟨rfl, List.nil_prefix⟩
      cases hc : v.child? s with
      | none =>
          have hget : v.get? [s] = none := by rw [get?_cons, hc, Option.bind_none]
          obtain rfl := h.eq_singleton hv ⟨hpre, .inl hget⟩
          exact ⟨fun _ => removeBelow_of_none hc walked _, fun w hw => by simp [hget] at hw⟩
      | some c =>
          by_cases hclosed : c.IsClosed
          · have hget : v.get? [s] = some c := by rw [get?_cons, hc, Option.bind_some, get?_nil]
            obtain rfl := h.eq_singleton hv ⟨hpre, .inr ⟨by simp, c, hget, hclosed⟩⟩
            refine ⟨fun hnone => by simp [hget] at hnone, fun w hw => ?_⟩
            obtain rfl : c = w := Option.some.inj (hget.symm.trans hw)
            exact ⟨hclosed, removeBelow_of_isClosed hc hclosed walked next rest⟩
          · -- The path goes on through a node or a list, and so does the search for the error.
            obtain ⟨q, rfl⟩ := h.exists_cons hv
            have hget : v.get? (s :: q) = c.get? q := by rw [get?_cons, hc, Option.bind_some]
            have hwalked : walked ++ s :: q = walked ++ [s] ++ q := by simp
            obtain ⟨hmissing, hnot⟩ := ih hclosed (h.tail hc) (walked ++ [s])
            rw [hget, hwalked, removeBelow_of_not_isClosed hc hclosed]
            constructor
            · intro hnone
              rw [hmissing hnone, Except.map]
            · intro w hw
              obtain ⟨hw, hcause⟩ := hnot w hw
              rw [hcause, Except.map]
              exact ⟨hw, rfl⟩

/-! ### Removal in place -/

/-- Removes in place what `segment :: rest` addresses below a value that itself lies at `walked`.
Each level is put together again with what the removal has left of the level below, whether or
not anything was removed. Returns the removed value or the error, and what is left. -/
def removeInPlace (walked : Path) (v : Value) (segment : Segment) :
    Path → Except RemovalError Value × Value
  | [] =>
    match v.child? segment with
    | none => (.error (.missing (walked ++ [segment])), v)
    | some removed => (.ok removed, v.eraseChild segment)
  | next :: rest =>
    match v.child? segment with
    | none => (.error (.missing (walked ++ [segment])), v)
    | some (map _) => (.error (.notContainer (walked ++ [segment]) .map), v)
    | some (scalar _) => (.error (.notContainer (walked ++ [segment]) .scalar), v)
    | some child =>
      let (result, left) := child.removeInPlace (walked ++ [segment]) next rest
      (result, v.setChild segment left)

/-- A value that is put back where it was changes nothing. -/
theorem setChild_of_child? {v c : Value} {s : Segment} (h : v.child? s = some c) :
    v.setChild s c = v := by
  fun_cases setChild v s c with
  | case1 kind span fields name => rw [Record.insert_of_get? h]
  | case2 items i =>
      obtain ⟨hi, rfl⟩ := List.getElem?_eq_some_iff.mp h
      rw [List.set_getElem_self]
  | case3 v s hnode hlist => rfl

/-- What an operation on `a` comes to that leaves `a` as it is when it fails. -/
def outcomeOn {ε α β : Type} (a : α) : Except ε (β × α) → Except ε β × α
  | .ok (b, left) => (.ok b, left)
  | .error cause => (.error cause, a)

/-- A path that goes on in what is open changes this alone. -/
theorem removeInPlace_of_not_isClosed {v c : Value} {s : Segment} (hc : v.child? s = some c)
    (h : ¬ c.IsClosed) (walked : Path) (next : Segment) (rest : Path) :
    v.removeInPlace walked s (next :: rest) =
      ((c.removeInPlace (walked ++ [s]) next rest).1,
        v.setChild s (c.removeInPlace (walked ++ [s]) next rest).2) := by
  cases c with
  | map entries => exact absurd (.inl rfl) h
  | scalar leaf => exact absurd (.inr rfl) h
  | node kind span fields => simp only [removeInPlace, hc]
  | list items => simp only [removeInPlace, hc]

/-- **Removing in place is removing**, with nothing changed if it is refused. -/
theorem removeInPlace_eq (walked : Path) (v : Value) (s : Segment) (rest : Path) :
    v.removeInPlace walked s rest = outcomeOn v (v.removeBelow walked s rest) := by
  induction rest generalizing v s walked with
  | nil => cases hc : v.child? s <;> simp [removeInPlace, removeBelow, hc, outcomeOn]
  | cons next rest ih =>
      cases hc : v.child? s with
      | none => simp [removeInPlace, removeBelow, hc, outcomeOn]
      | some c =>
          by_cases hclosed : c.IsClosed
          · rw [removeBelow_of_isClosed hc hclosed]
            cases c with
            | map entries => simp [removeInPlace, hc, outcomeOn, shape]
            | scalar leaf => simp [removeInPlace, hc, outcomeOn, shape]
            | node kind span fields => rcases hclosed with h | h <;> cases h
            | list items => rcases hclosed with h | h <;> cases h
          · rw [removeInPlace_of_not_isClosed hc hclosed,
              removeBelow_of_not_isClosed hc hclosed, ih]
            cases c.removeBelow (walked ++ [s]) next rest with
            | ok r => rfl
            | error cause =>
                -- The level below is as it was, and so this one is when it is put back.
                simp only [outcomeOn, Except.map, setChild_of_child? hc]

end Value

namespace Node

/-- Removes in place what a path addresses. Returns the removed value or the error, and the tree
that is left. -/
def removeInPlace (n : Node) : Path → Except RemovalError Value × Node
  | [] => (.error .root, n)
  | segment :: rest =>
    let (result, left) := n.toValue.removeInPlace [] segment rest
    (result, left.node?.getD n)

/-- **A refused removal leaves the tree as it was.** -/
theorem removeInPlace_eq (n : Node) (p : Path) :
    n.removeInPlace p = Value.outcomeOn n (n.removeAt p) := by
  cases p with
  | nil => rfl
  | cons s rest =>
      rw [removeInPlace, removeAt, Value.removeInPlace_eq]
      cases n.toValue.removeBelow [] s rest with
      | ok r => rfl
      | error cause => rfl

/-- Nodes are open. -/
theorem not_isClosed_toValue (n : Node) : ¬ n.toValue.IsClosed := by
  rintro (h | h) <;> cases h

/-- The error of a removal shows the shortest bad prefix. -/
theorem removeAt_of_firstBlock {n : Node} {p q : Path} (h : n.toValue.FirstBlock p q) :
    (n.get? q = none → n.removeAt p = .error (.missing q)) ∧
    ∀ v, n.get? q = some v → v.IsClosed ∧ n.removeAt p = .error (.notContainer q v.shape) := by
  cases p with
  | nil => cases h.blocks.get?_eq_none
  | cons s rest =>
      obtain ⟨hmissing, hnot⟩ := Value.removeBelow_of_firstBlock n.not_isClosed_toValue h []
      constructor
      · intro hnone
        rw [removeAt, hmissing hnone]
        rfl
      · intro v hv
        obtain ⟨hclosed, hcause⟩ := hnot v hv
        refine ⟨hclosed, ?_⟩
        rw [removeAt, hcause]
        rfl

/-- A removal at a path that leads nowhere is refused, and not for being at the root. -/
theorem exists_removeAt_eq_error {n : Node} {p : Path} (h : n.get? p = none) :
    ∃ cause, n.removeAt p = .error cause ∧ cause ≠ .root := by
  obtain ⟨q, hq, -⟩ := Value.existsUnique_firstBlock h
  obtain ⟨hmissing, hnot⟩ := removeAt_of_firstBlock hq
  cases hget : n.get? q with
  | none => exact ⟨_, hmissing hget, by simp⟩
  | some v => exact ⟨_, (hnot v hget).2, by simp⟩

/-- What a removal returns when it succeeds: the value at the path, and the tree without it. -/
theorem removeAt_eq_ok_iff {n left : Node} {p : Path} {removed : Value} :
    n.removeAt p = .ok (removed, left) ↔
      p ≠ [] ∧ n.get? p = some removed ∧ left.toValue = n.toValue.eraseAt p := by
  constructor
  · intro h
    have hp : p ≠ [] := by
      rintro rfl
      cases h
    cases hget : n.get? p with
    | none =>
        obtain ⟨cause, hcause, -⟩ := exists_removeAt_eq_error hget
        cases h.symm.trans hcause
    | some r =>
        obtain ⟨left', hremove, hleft⟩ := exists_removeAt_eq_ok_of_get? hp hget
        obtain ⟨rfl, rfl⟩ := Prod.mk.inj (Except.ok.inj (h.symm.trans hremove))
        exact ⟨hp, rfl, hleft⟩
  · rintro ⟨hp, hget, hleft⟩
    obtain ⟨left', hremove, hleft'⟩ := exists_removeAt_eq_ok_of_get? hp hget
    obtain rfl : left = left' := toValue_injective (hleft.trans hleft'.symm)
    exact hremove

/-- Only at the empty path is a removal refused as one of the root. -/
theorem removeAt_eq_root_iff {n : Node} {p : Path} : n.removeAt p = .error .root ↔ p = [] := by
  constructor
  · intro h
    by_contra hp
    cases hget : n.get? p with
    | none =>
        obtain ⟨cause, hcause, hne⟩ := exists_removeAt_eq_error hget
        exact hne (Except.error.inj (hcause.symm.trans h))
    | some r =>
        obtain ⟨left, hremove, -⟩ := exists_removeAt_eq_ok_of_get? hp hget
        cases h.symm.trans hremove
  · rintro rfl
    rfl

/-- Below the root, a removal succeeds exactly at the paths that lead to a value. -/
theorem exists_removeAt_eq_ok_iff {n : Node} {p : Path} (hp : p ≠ []) :
    (∃ removed left, n.removeAt p = .ok (removed, left)) ↔ (n.get? p).isSome := by
  constructor
  · rintro ⟨removed, left, h⟩
    exact Option.isSome_of_eq_some (removeAt_eq_ok_iff.mp h).2.1
  · intro h
    obtain ⟨removed, left, hremove, -⟩ := exists_removeAt_eq_ok hp h
    exact ⟨removed, left, hremove⟩

/-- **The outcome of a removal.** It is refused as one of the root exactly at the empty path. At
any other path it succeeds exactly if the path leads to a value. If the path leads nowhere, it has
one shortest bad prefix `q`, and this is what the error shows: as missing if it leads to no value,
and otherwise with the map or scalar that it leads to. In place, a refused removal leaves the tree
as it was, and at a path that leads to a node the removal returns this node. -/
theorem removeAt_outcome (root : Node) (p : Path) :
    (root.removeAt p = .error .root ↔ p = []) ∧
    (p ≠ [] →
      ((∃ removed left, root.removeAt p = .ok (removed, left)) ↔ (root.get? p).isSome)) ∧
    (root.get? p = none → ∃! q, root.toValue.FirstBlock p q) ∧
    (∀ q, root.toValue.FirstBlock p q →
      (root.get? q = none → ∃ cause, root.removeAt p = .error cause ∧ cause = .missing q ∧
        cause.message = "path `" ++ q.text ++ "` does not resolve to a container") ∧
      ∀ v, root.get? q = some v → v.IsClosed ∧
        ∃ cause, root.removeAt p = .error cause ∧ cause = .notContainer q v.shape ∧
          cause.message = "path `" ++ q.text ++ "` addresses a " ++ v.shape.text ++
            ", expected a node or list") ∧
    (∀ removed left, root.removeAt p = .ok (removed, left) →
      root.removeInPlace p = (.ok removed, left)) ∧
    (∀ cause, root.removeAt p = .error cause → root.removeInPlace p = (.error cause, root)) ∧
    (p ≠ [] → ∀ n, root.at? p = some n → ∃ left, root.removeAt p = .ok (n.toValue, left)) := by
  refine ⟨removeAt_eq_root_iff, exists_removeAt_eq_ok_iff, Value.existsUnique_firstBlock,
    ?_, ?_, ?_, ?_⟩
  · intro q hq
    obtain ⟨hmissing, hnot⟩ := removeAt_of_firstBlock hq
    refine ⟨fun hnone => ⟨_, hmissing hnone, rfl, rfl⟩, fun v hv => ?_⟩
    obtain ⟨hclosed, hcause⟩ := hnot v hv
    exact ⟨hclosed, _, hcause, rfl, rfl⟩
  · intro removed left h
    rw [removeInPlace_eq, h, Value.outcomeOn]
  · intro cause h
    rw [removeInPlace_eq, h, Value.outcomeOn]
  · intro hp n hn
    obtain ⟨left, hremove, -⟩ := exists_removeAt_eq_ok_of_get? hp (at?_eq_some_iff_get?.mp hn)
    exact ⟨left, hremove⟩

/-- A tree with a name to go through and with notes in a map. -/
def labelled : Node :=
  ⟨.sourceUnit, none, [
    ("children", .list [.node (.other "Identifier") none [("name", .text "a")]]),
    ("notes", .map [("first", .node .comment none [])])]⟩

/-- In that tree one path goes on behind the name, which is its first bad prefix, and one goes into
the map, which is left as it was. -/
theorem removeAt_outcome_labelled :
    labelled.toValue.FirstBlock [.field "children", .index 0, .field "name", .index 0]
      [.field "children", .index 0, .field "name"] ∧
    labelled.removeInPlace [.field "notes", .field "first"] =
      (.error (.notContainer [.field "notes"] .map), labelled) := by
  constructor
  · obtain ⟨-, -, hfirst, herror, -⟩ :=
      removeAt_outcome labelled [.field "children", .index 0, .field "name", .index 0]
    have hrun : labelled.removeAt [.field "children", .index 0, .field "name", .index 0] =
        .error (.notContainer [.field "children", .index 0, .field "name"] .scalar) := rfl
    obtain ⟨q, hq, -⟩ := hfirst rfl
    cases hget : labelled.get? q with
    | none =>
        obtain ⟨cause, hcause, rfl, -⟩ := (herror q hq).1 hget
        cases hrun.symm.trans hcause
    | some v =>
        obtain ⟨-, cause, hcause, rfl, -⟩ := (herror q hq).2 v hget
        obtain ⟨rfl, -⟩ := RemovalError.notContainer.inj
          (Except.error.inj (hrun.symm.trans hcause))
        exact hq
  · obtain ⟨-, -, -, -, -, hkept, -⟩ := removeAt_outcome labelled [.field "notes", .field "first"]
    exact hkept _ rfl

end Node

end ContractQuery
