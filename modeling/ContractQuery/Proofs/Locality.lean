import ContractQuery.Proofs.Refusal
import ContractQuery.Proofs.Search

/-!
# What a Removal Leaves Alone

A removal changes the values on its way and nothing else. This module says what look-up finds
after a removal, at every path, in terms of what it found before.

The path of a removal is cut at some point into `r ++ p`, and look-up at a path `q` is compared
with it. If `q` leaves the way to `r`, it leads to what it led to before
(`Value.get?_eraseAt_of_aside`). If it goes through `r`, it goes on in what the removal of `p` has
left there (`Value.get?_eraseAt_append`); this is also what is found at `r` itself. With `r` right
above the removed value, one step is left: a field of a node that is gone, or the items of a list,
of which the later ones have moved up.

## Main results

* `Value.get?_eraseAt_append`: look-up through a place on the way.
* `Value.get?_eraseAt_of_aside`: look-up off the way.
* `Value.exists_eraseAt_eq_node`: what a removal keeps of a node on the way.
* `Node.removeAt_frame`: **what a removal leaves alone**.
-/

namespace ContractQuery

/-- With distinct names, an erased name is not found any more. -/
theorem Record.get?_erase_self {α : Type} {r : Record α} (hr : Record.Distinct r) (name : String) :
    Record.get? (Record.erase r name) name = none := by
  rw [Record.get?_eq_none_iff, Record.names_erase]
  exact hr.not_mem_erase

namespace Value

/-! ### Look-up along the way -/

/-- Nothing is erased where a path leads nowhere. -/
theorem eraseAt_cons_of_none {v : Value} {s : Segment} {rest : Path} (hrest : rest ≠ [])
    (hc : v.child? s = none) : v.eraseAt (s :: rest) = v := by
  obtain ⟨next, rest, rfl⟩ := List.exists_cons_of_ne_nil hrest
  rw [eraseAt, hc]

/-- A path through a place on the way goes on in what the removal has left there. -/
theorem get?_eraseAt_append {v c : Value} {r p : Path} (hp : p ≠ []) (hc : v.get? r = some c)
    (q : Path) : (v.eraseAt (r ++ p)).get? (r ++ q) = (c.eraseAt p).get? q := by
  induction r generalizing v with
  | nil =>
      obtain rfl : v = c := Option.some.inj hc
      rfl
  | cons s r ih =>
      obtain ⟨d, hd, hr⟩ := Option.bind_eq_some_iff.mp hc
      have hne : r ++ p ≠ [] := by simp [hp]
      rw [List.cons_append, List.cons_append, eraseAt_cons hne hd, get?_cons,
        child?_setChild_self hd, Option.bind_some, ih hr]

/-- A path that leaves the way leads to what it led to before. -/
theorem get?_eraseAt_of_aside {v : Value} {r p q : Path} (hp : p ≠ []) (hrq : ¬ r <+: q)
    (hqr : ¬ q <+: r) : (v.eraseAt (r ++ p)).get? q = v.get? q := by
  induction r generalizing v q with
  | nil => exact absurd List.nil_prefix hrq
  | cons s r ih =>
      have hne : r ++ p ≠ [] := by simp [hp]
      cases q with
      | nil => exact absurd List.nil_prefix hqr
      | cons t q =>
          rw [List.cons_append]
          cases hc : v.child? s with
          | none => rw [eraseAt_cons_of_none hne hc]
          | some c =>
              rw [eraseAt_cons hne hc, get?_cons, get?_cons]
              by_cases hst : s = t
              · subst hst
                rw [List.cons_prefix_cons, and_iff_right rfl] at hrq hqr
                rw [child?_setChild_self hc, hc, Option.bind_some, Option.bind_some, ih hrq hqr]
              · rw [child?_setChild_of_ne hst]

/-! ### The last step -/

/-- Only lists have a child at a position. -/
theorem exists_list_of_child? {v c : Value} {i : Nat} (h : v.child? (.index i) = some c) :
    ∃ items, v = list items := by
  cases v with
  | list items => exact ⟨items, rfl⟩
  | _ => cases h

/-- Only nodes have a child under a name. -/
theorem exists_node_of_child? {v c : Value} {name : String} (h : v.child? (.field name) = some c) :
    ∃ kind span fields, v = node kind span fields := by
  cases v with
  | node kind span fields => exact ⟨kind, span, fields, rfl⟩
  | _ => cases h

/-- When an item is taken out of a list, the earlier ones stay and the later ones move up. -/
theorem child?_eraseChild_index (items : List Value) (i j : Nat) :
    ((list items).eraseChild (.index i)).child? (.index j) =
      (list items).child? (.index (if j < i then j else j + 1)) := by
  rw [eraseChild, child?, child?, List.getElem?_eraseIdx]
  split <;> rfl

/-- When a field is taken out of a node, what is not below it stays. -/
theorem child?_eraseChild_of_ne {v : Value} {name : String} {t : Segment} (h : t ≠ .field name) :
    (v.eraseChild (.field name)).child? t = v.child? t := by
  cases v with
  | node kind span fields =>
      cases t with
      | field other =>
          have hne : name ≠ other := fun heq => h (heq ▸ rfl)
          exact Record.get?_erase_of_ne fields hne
      | index j => rfl
  | _ => rfl

/-- A removal below a node keeps its kind, its span and the names of all fields but a removed
one, in their order. -/
theorem exists_eraseAt_eq_node {kind : Kind} {span : Option Span} {fields : Record Value}
    (hfields : Record.Distinct fields) {p : Path}
    (hp : ((node kind span fields).get? p).isSome) :
    ∃ fields', (node kind span fields).eraseAt p = node kind span fields' ∧
      Record.names fields' = (Record.names fields).filter fun name => [.field name] ≠ p := by
  fun_cases eraseAt (node kind span fields) p with
  | case1 => exact ⟨fields, rfl, by simp⟩
  | case2 s =>
      cases s with
      | field name =>
          refine ⟨Record.erase fields name, rfl, ?_⟩
          rw [Record.names_erase, hfields.erase_eq_filter]
          exact List.filter_congr fun other _ => by simp [bne, beq_eq_decide]
      | index i => simp [get?_cons, child?] at hp
  | case3 s next rest c hc =>
      cases s with
      | field name =>
          refine ⟨_, rfl, ?_⟩
          have hmem : name ∈ Record.names fields :=
            Record.mem_names_of_mem (Record.mem_of_get?_eq_some hc)
          rw [Record.names_insert_of_mem _ hmem, List.filter_eq_self.mpr (by simp)]
      | index i => cases hc
  | case4 s next rest hc =>
      rw [get?_cons, hc] at hp
      cases hp

/-- A node that a path leads to is a node of the value. -/
theorem mem_nodes_of_get? {v : Value} {p : Path} {n : Node} (h : v.get? p = some n.toValue) :
    n ∈ v.nodes := by
  induction p generalizing v with
  | nil =>
      obtain rfl : v = n.toValue := Option.some.inj h
      exact List.mem_cons_self
  | cons s p ih =>
      obtain ⟨c, hc, hp⟩ := Option.bind_eq_some_iff.mp h
      cases s with
      | field name =>
          obtain ⟨kind, span, fields, rfl⟩ := exists_node_of_child? hc
          exact List.mem_cons_of_mem _
            (mem_nodesFields.mpr ⟨_, Record.mem_of_get?_eq_some hc, ih hp⟩)
      | index i =>
          obtain ⟨items, rfl⟩ := exists_list_of_child? hc
          rw [nodes]
          exact mem_nodesItems.mpr ⟨c, List.mem_of_getElem? hc, ih hp⟩

end Value

namespace Node

variable {root left : Node} {p r : Path} {last : Segment} {removed : Value}

/-- A removal takes one value out of the value right above, and look-up goes on in what is left
there. -/
theorem exists_container_of_removeAt (h : root.removeAt (r ++ [last]) = .ok (removed, left)) :
    ∃ c, root.get? r = some c ∧ c.child? last = some removed ∧
      ∀ s, left.get? (r ++ s) = (c.eraseChild last).get? s := by
  obtain ⟨-, hget, hleft⟩ := removeAt_eq_ok_iff.mp h
  rw [get?, Value.get?_append] at hget
  obtain ⟨c, hc, hlast⟩ := Option.bind_eq_some_iff.mp hget
  refine ⟨c, hc, by simpa [Value.get?_cons] using hlast, fun s => ?_⟩
  rw [get?, hleft, Value.get?_eraseAt_append (List.cons_ne_nil last []) hc, Value.eraseAt]

/-- A path that does not end on the way leads to what it led to before, if it does not go through
a step that the removal changes. -/
theorem get?_of_removeAt (h : root.removeAt (r ++ [last]) = .ok (removed, left)) {q : Path}
    (hq : ¬ q <+: r)
    (hstep : ∀ c t s, root.get? r = some c → q = r ++ t :: s →
      (c.eraseChild last).child? t = c.child? t) : left.get? q = root.get? q := by
  by_cases hrq : r <+: q
  · obtain ⟨rest, rfl⟩ := hrq
    obtain ⟨c, hc, -, hbelow⟩ := exists_container_of_removeAt h
    cases rest with
    | nil => exact absurd (by simp) hq
    | cons t s =>
        rw [hbelow, get?, Value.get?_append, ← get?, hc, Option.bind_some, Value.get?_cons,
          Value.get?_cons, hstep c t s hc rfl]
  · obtain ⟨-, -, hleft⟩ := removeAt_eq_ok_iff.mp h
    rw [get?, hleft]
    exact Value.get?_eraseAt_of_aside (List.cons_ne_nil last []) hrq hq

/-- After the removal of an item, the earlier items are where they were and the later ones have
moved up. -/
theorem get?_of_removeAt_index {i : Nat}
    (h : root.removeAt (r ++ [.index i]) = .ok (removed, left)) (j : Nat) (s : Path) :
    left.get? (r ++ .index j :: s) =
      root.get? (r ++ .index (if j < i then j else j + 1) :: s) := by
  obtain ⟨c, hc, hlast, hbelow⟩ := exists_container_of_removeAt h
  obtain ⟨items, rfl⟩ := Value.exists_list_of_child? hlast
  rw [hbelow, get?, Value.get?_append, ← get?, hc, Option.bind_some, Value.get?_cons,
    Value.get?_cons, Value.child?_eraseChild_index]

/-- After the removal of a field, nothing is found under its name. -/
theorem get?_of_removeAt_field (hroot : ∀ n ∈ root.toValue.nodes, Record.Distinct n.fields)
    {f : String} (h : root.removeAt (r ++ [.field f]) = .ok (removed, left)) (s : Path) :
    left.get? (r ++ .field f :: s) = none := by
  obtain ⟨c, hc, hlast, hbelow⟩ := exists_container_of_removeAt h
  obtain ⟨kind, span, fields, rfl⟩ := Value.exists_node_of_child? hlast
  have hfields : Record.Distinct fields :=
    hroot ⟨kind, span, fields⟩ (Value.mem_nodes_of_get? hc)
  rw [hbelow, Value.get?_cons, Value.eraseChild, Value.child?, Record.get?_erase_self hfields,
    Option.bind_none]

/-- A node on the way keeps its kind, its span and the names of its other fields. -/
theorem exists_at?_of_removeAt (hroot : ∀ n ∈ root.toValue.nodes, Record.Distinct n.fields)
    (h : root.removeAt p = .ok (removed, left)) {a : Path} (ha : a <+: p) (hne : a ≠ p) {n : Node}
    (hn : root.at? a = some n) :
    ∃ n', left.at? a = some n' ∧ n'.kind = n.kind ∧ n'.span = n.span ∧
      Record.names n'.fields =
        (Record.names n.fields).filter fun name => a ++ [.field name] ≠ p := by
  obtain ⟨rest, rfl⟩ := ha
  have hrest : rest ≠ [] := by
    rintro rfl
    exact hne (List.append_nil a).symm
  have hget := at?_eq_some_iff_get?.mp hn
  obtain ⟨-, hremoved, hleft⟩ := removeAt_eq_ok_iff.mp h
  have hbelow : (n.toValue.get? rest).isSome := by
    rw [get?, Value.get?_append, ← get?, hget, Option.bind_some] at hremoved
    exact Option.isSome_of_eq_some hremoved
  obtain ⟨fields, herase, hnames⟩ :=
    Value.exists_eraseAt_eq_node (hroot n (Value.mem_nodes_of_get? hget)) hbelow
  have hfound : left.get? a = some (.node n.kind n.span fields) := by
    have happend := Value.get?_eraseAt_append hrest hget []
    rw [List.append_nil, Value.get?_nil, ← hleft] at happend
    exact happend.trans (congrArg some herase)
  refine ⟨⟨n.kind, n.span, fields⟩, at?_eq_some_iff_get?.mpr hfound, rfl, rfl, ?_⟩
  rw [hnames]
  exact List.filter_congr fun name _ => by simp

/-- **What a removal leaves alone.** Let a removal at `p` succeed in a tree in which no node uses a
name twice. Then it returns what `p` led to. If `p` ends with a position, the items after it have
moved up by one, and all other paths that do not end on the way lead to what they led to before. If
`p` ends with a name, nothing is found at `p` or below, and again all other paths that do not end on
the way lead to what they led to. The nodes on the way keep their kind, their span and the names of
their fields in order, but for the removed field. -/
theorem removeAt_frame (hroot : ∀ n ∈ root.toValue.nodes, Record.Distinct n.fields)
    (h : root.removeAt p = .ok (removed, left)) :
    root.get? p = some removed ∧
    (∀ r i, p = r ++ [.index i] →
      (∀ j s, left.get? (r ++ .index j :: s) =
        root.get? (r ++ .index (if j < i then j else j + 1) :: s)) ∧
      ∀ q, ¬ q <+: r → (∀ j s, q ≠ r ++ .index j :: s) → left.get? q = root.get? q) ∧
    (∀ r f, p = r ++ [.field f] →
      (∀ q, p <+: q → left.get? q = none) ∧
      ∀ q, ¬ q <+: r → ¬ p <+: q → left.get? q = root.get? q) ∧
    ∀ r last a n, p = r ++ [last] → a <+: r → root.at? a = some n →
      ∃ n', left.at? a = some n' ∧ n'.kind = n.kind ∧ n'.span = n.span ∧
        Record.names n'.fields =
          (Record.names n.fields).filter fun name => a ++ [.field name] ≠ p := by
  refine ⟨(removeAt_eq_ok_iff.mp h).2.1, ?_, ?_, ?_⟩
  · rintro r i rfl
    refine ⟨get?_of_removeAt_index h, fun q hq hother => get?_of_removeAt h hq ?_⟩
    intro c t s hc hqt
    -- The value above is a list, and through it there is no other way than by a position.
    obtain ⟨c', hc', hlast, -⟩ := exists_container_of_removeAt h
    obtain rfl : c = c' := Option.some.inj (hc.symm.trans hc')
    obtain ⟨items, rfl⟩ := Value.exists_list_of_child? hlast
    cases t with
    | field name => rfl
    | index j => exact absurd hqt (hother j s)
  · rintro r f rfl
    refine ⟨?_, fun q hq hother => get?_of_removeAt h hq ?_⟩
    · rintro q ⟨s, rfl⟩
      rw [List.append_assoc, List.singleton_append]
      exact get?_of_removeAt_field hroot h s
    · rintro c t s - rfl
      refine Value.child?_eraseChild_of_ne ?_
      rintro rfl
      exact hother ⟨s, by simp⟩
  · rintro r last a n rfl ha hn
    refine exists_at?_of_removeAt hroot h (ha.trans (List.prefix_append r [last])) ?_ hn
    rintro rfl
    have hlength := ha.length_le
    rw [List.length_append, List.length_singleton] at hlength
    omega

/-- A tree with some items. -/
def sequenced (items : List Value) : Node := ⟨.sourceUnit, none, [("children", .list items)]⟩

/-- A block with a label and a statement. -/
def labelledBlock : Value :=
  .node (.other "Block") none [("label", .text "d"), ("statements", .list [.null])]

/-- When the first of three items is removed, all that was below the second is found below the
first, and the root still has its only field. -/
theorem removeAt_frame_sequenced :
    (∀ n ∈ (sequenced [.text "a", labelledBlock, .text "e"]).toValue.nodes,
      Record.Distinct n.fields) ∧
    (sequenced [.text "a", labelledBlock, .text "e"]).removeAt [.field "children", .index 0] =
      .ok (.text "a", sequenced [labelledBlock, .text "e"]) ∧
    (∀ s, (sequenced [labelledBlock, .text "e"]).get? (.field "children" :: .index 0 :: s) =
      (sequenced [.text "a", labelledBlock, .text "e"]).get?
        (.field "children" :: .index 1 :: s)) ∧
    ∃ n, (sequenced [labelledBlock, .text "e"]).at? [] = some n ∧ n.kind = .sourceUnit ∧
      n.span = none ∧ Record.names n.fields = ["children"] := by
  have hdistinct : ∀ n ∈ (sequenced [.text "a", labelledBlock, .text "e"]).toValue.nodes,
      Record.Distinct n.fields := by
    simp [sequenced, labelledBlock, toValue, Value.text, Value.null, Value.nodes,
      Value.nodesFields, Value.nodesItems, Record.Distinct]
  have hremove : (sequenced [.text "a", labelledBlock, .text "e"]).removeAt
      [.field "children", .index 0] = .ok (.text "a", sequenced [labelledBlock, .text "e"]) := rfl
  obtain ⟨-, hindex, -, hway⟩ := removeAt_frame hdistinct hremove
  refine ⟨hdistinct, hremove, (hindex [.field "children"] 0 rfl).1 0, ?_⟩
  exact hway [.field "children"] (.index 0) [] _ rfl List.nil_prefix rfl

end Node

end ContractQuery
