import Mathlib.Data.List.Infix
import ContractQuery.Proofs.Occurrence
import ContractQuery.Proofs.Places

/-!
# The Route of a Walk

The recursion of a walk is a matter of the tree alone: what a visitor answers only cuts it short.
A `Route` is that recursion made into data, with the nodes in the order in which they are shown and
each with the route below it. A walk through a value is a walk along its route
(`Value.walk_eq_route`), and this is the only statement that follows the recursion of the walk.

`Through` says in six rules what a route goes through: which values, at which occurrences and at
which places, and what is above and on the left of what. Every value has such a route
(`Value.through`), so a statement about all walks, or about all nodes of a tree, is an induction
over these rules. The rules for a node and for one part after another carry the argument; in the
others nothing is shown to the visitor.

Two such inductions are the run lemmas for invariants. What each call keeps whatever its answer, a
walk keeps (`Route.walk_keeps`); and what goes along with the nodes that the walk is in holds again
when it comes out (`Through.follows`).

## Main results

* `Value.walk_eq_route`: a walk through a value is a walk along its route.
* `Value.through`: the route of a value goes through it.
* `Route.walk_keeps`: **what each call of a visitor keeps, a walk keeps**.
* `Through.follows`: **what follows the nodes around holds again at the end**.
-/

namespace ContractQuery

universe u

/-- The way of a walk: nowhere, to a node and to what is below it, or through two parts one after
the other. -/
inductive Route where
  | nowhere
  | visit (site : Site) (below : Route)
  | onward (first next : Route)

namespace Route

variable {σ : Type u}

/-- Walks along a route. -/
def walk (visitor : Visitor σ) : Route → σ → σ × Outcome
  | nowhere, s => (s, .completed)
  | visit site below, s =>
    match visitor.enter s site.node site.path with
    | (s, .stop) => (s, .stopped)
    | (s, .skip) => (s, .completed)
    | (s, .descend) =>
      match below.walk visitor s with
      | (s, .stopped) => (s, .stopped)
      | (s, .completed) => (visitor.exit s site.node site.path, .completed)
  | onward first next, s =>
    match first.walk visitor s with
    | (s, .stopped) => (s, .stopped)
    | (s, .completed) => next.walk visitor s

/-! ### One step, by what the visitor says and how the parts end -/

section Step

variable {visitor : Visitor σ} {site : Site} {below first next : Route} {s s' s'' : σ}

@[simp] theorem walk_nowhere (visitor : Visitor σ) (s : σ) :
    nowhere.walk visitor s = (s, .completed) := rfl

/-- A node at which the visitor stops. -/
theorem walk_visit_of_stop (h : visitor.enter s site.node site.path = (s', .stop)) :
    (visit site below).walk visitor s = (s', .stopped) := by
  rw [walk, h]

/-- A node that is gone past. -/
theorem walk_visit_of_skip (h : visitor.enter s site.node site.path = (s', .skip)) :
    (visit site below).walk visitor s = (s', .completed) := by
  rw [walk, h]

/-- A node that is gone into and left. -/
theorem walk_visit_of_completed (h : visitor.enter s site.node site.path = (s', .descend))
    (hbelow : below.walk visitor s' = (s'', .completed)) :
    (visit site below).walk visitor s = (visitor.exit s'' site.node site.path, .completed) := by
  rw [walk, h]
  simp only [hbelow]

/-- A node that is gone into and not left, since the walk has stopped inside. -/
theorem walk_visit_of_stopped (h : visitor.enter s site.node site.path = (s', .descend))
    (hbelow : below.walk visitor s' = (s'', .stopped)) :
    (visit site below).walk visitor s = (s'', .stopped) := by
  rw [walk, h]
  simp only [hbelow]

/-- After a part that was gone through, a walk goes on with the next. -/
theorem walk_onward_of_completed (h : first.walk visitor s = (s', .completed)) :
    (onward first next).walk visitor s = next.walk visitor s' := by
  rw [walk, h]

/-- After a part in which it has stopped, a walk does not go on. -/
theorem walk_onward_of_stopped (h : first.walk visitor s = (s', .stopped)) :
    (onward first next).walk visitor s = (s', .stopped) := by
  rw [walk, h]

/-- **What a walk can do at a node**: stop, go past it, go into it and stop inside, or go into it
and leave it. -/
theorem walk_visit_cases (visitor : Visitor σ) (site : Site) (below : Route) (s : σ) :
    (∃ s', visitor.enter s site.node site.path = (s', .stop) ∧
      (visit site below).walk visitor s = (s', .stopped)) ∨
    (∃ s', visitor.enter s site.node site.path = (s', .skip) ∧
      (visit site below).walk visitor s = (s', .completed)) ∨
    (∃ s' s'', visitor.enter s site.node site.path = (s', .descend) ∧
      below.walk visitor s' = (s'', .stopped) ∧
      (visit site below).walk visitor s = (s'', .stopped)) ∨
    ∃ s' s'', visitor.enter s site.node site.path = (s', .descend) ∧
      below.walk visitor s' = (s'', .completed) ∧
      (visit site below).walk visitor s = (visitor.exit s'' site.node site.path, .completed) := by
  rcases henter : visitor.enter s site.node site.path with ⟨s', flow⟩
  cases flow with
  | stop => exact .inl ⟨s', rfl, walk_visit_of_stop henter⟩
  | skip => exact .inr (.inl ⟨s', rfl, walk_visit_of_skip henter⟩)
  | descend =>
      rcases hbelow : below.walk visitor s' with ⟨s'', outcome⟩
      cases outcome with
      | stopped =>
          exact .inr (.inr (.inl ⟨s', s'', rfl, hbelow, walk_visit_of_stopped henter hbelow⟩))
      | completed =>
          exact .inr (.inr (.inr ⟨s', s'', rfl, hbelow, walk_visit_of_completed henter hbelow⟩))

/-- **What a walk can do with two parts**: stop in the first, or go on with the second. -/
theorem walk_onward_cases (visitor : Visitor σ) (first next : Route) (s : σ) :
    (∃ s', first.walk visitor s = (s', .stopped) ∧
      (onward first next).walk visitor s = (s', .stopped)) ∨
    ∃ s', first.walk visitor s = (s', .completed) ∧
      (onward first next).walk visitor s = next.walk visitor s' := by
  rcases hfirst : first.walk visitor s with ⟨s', outcome⟩
  cases outcome with
  | stopped => exact .inl ⟨s', rfl, walk_onward_of_stopped hfirst⟩
  | completed => exact .inr ⟨s', rfl, walk_onward_of_completed hfirst⟩

end Step

end Route

/-! ### The route of a value -/

namespace Value

mutual

/-- The route of a walk through a value that lies at `path`. -/
def route : Value → Path → Route
  | node kind span fields, path =>
    .visit ⟨⟨kind, span, fields⟩, path⟩ (routeFields fields path)
  | list items, path => routeItems items path 0
  | map _, _ => .nowhere
  | scalar _, _ => .nowhere

/-- The route through the items of a list, the first of which has position `i`. -/
def routeItems : List Value → Path → Nat → Route
  | [], _, _ => .nowhere
  | v :: rest, path, i => .onward (v.route (path ++ [.index i])) (routeItems rest path (i + 1))

/-- The route through the fields of a node. -/
def routeFields : List (String × Value) → Path → Route
  | [], _ => .nowhere
  | (name, v) :: rest, path => .onward (v.route (path ++ [.field name])) (routeFields rest path)

end

section Walk

variable {σ : Type u} (visitor : Visitor σ)

mutual

/-- **A walk through a value is a walk along its route.** -/
theorem walk_eq_route : ∀ (v : Value) (path : Path) (s : σ),
    v.walk visitor path s = (v.route path).walk visitor s
  | node kind span fields, path, s => by
      rw [walk, funext (walkFields_eq_route fields path)]
      rfl
  | list items, path, s => by rw [walk, route, walkItems_eq_route items path 0 s]
  | map entries, path, s => by rw [walk, route, Route.walk]
  | scalar leaf, path, s => by rw [walk, route, Route.walk]

/-- A walk through items is a walk along their route. -/
theorem walkItems_eq_route : ∀ (items : List Value) (path : Path) (i : Nat) (s : σ),
    walkItems visitor items path i s = (routeItems items path i).walk visitor s
  | [], path, i, s => by rw [walkItems, routeItems, Route.walk]
  | v :: rest, path, i, s => by
      rw [walkItems, walk_eq_route v, funext (walkItems_eq_route rest path (i + 1))]
      rfl

/-- A walk through fields is a walk along their route. -/
theorem walkFields_eq_route : ∀ (fields : List (String × Value)) (path : Path) (s : σ),
    walkFields visitor fields path s = (routeFields fields path).walk visitor s
  | [], path, s => by rw [walkFields, routeFields, Route.walk]
  | (name, v) :: rest, path, s => by
      rw [walkFields, walk_eq_route v, funext (walkFields_eq_route rest path)]
      rfl

end

end Walk

end Value

/-! ### What a route goes through -/

/-- A route through values that lie one after the other below `above`, with the nodes in them as
occurrences and as places, both in pre-order. -/
inductive Through : List Frame → List Value → Route → List Occurrence → List Place → Prop
  | nil {above : List Frame} : Through above [] .nowhere [] []
  | map {above : List Frame} {entries : Record Value} :
      Through above [.map entries] .nowhere [] []
  | scalar {above : List Frame} {leaf : Scalar} : Through above [.scalar leaf] .nowhere [] []
  /-- A list adds nothing to the route through its items. -/
  | list {above : List Frame} {items : List Value} {route : Route} {os : List Occurrence}
      {ps : List Place} (h : Through above items route os ps) :
      Through above [.list items] route os ps
  /-- A node is shown first, and it is above all that is in its fields. -/
  | node {above : List Frame} {n : Node} {path : Path} {address : List Nat} {below : Route}
      {os : List Occurrence} {ps : List Place}
      (hbelow : ∀ q ∈ ps, Place.Above ⟨⟨n, path⟩, address⟩ q)
      (h : Through (⟨n, []⟩ :: above) (n.fields.map Prod.snd) below os ps) :
      Through above [n.toValue] (.visit ⟨n, path⟩ below) (⟨path, above, n⟩ :: os)
        (⟨⟨n, path⟩, address⟩ :: ps)
  /-- One value comes after another and is on its right. -/
  | cons {above : List Frame} {v : Value} {rest : List Value} {first next : Route}
      {os os' : List Occurrence} {ps ps' : List Place}
      (hright : ∀ p ∈ ps, ∀ q ∈ ps', p.LeftOf q) (h : Through above [v] first os ps)
      (h' : Through (Frame.pass v above) rest next os' ps') :
      Through above (v :: rest) (.onward first next) (os ++ os') (ps ++ ps')

namespace Value

mutual

/-- **The route of a value goes through it**, wherever it lies. -/
theorem through : ∀ (v : Value) (path : Path) (address : List Nat) (above : List Frame),
    Through above [v] (v.route path) (v.occurrences path above) (v.places path address)
  | node kind span fields, path, address, above => by
      rw [route, occurrences, places]
      exact .node (n := ⟨kind, span, fields⟩) (fun q hq => above_of_mem_placesFields hq)
        (throughFields fields path address 0 _)
  | list items, path, address, above => by
      rw [route, occurrences, places]
      exact .list (throughItems items path address 0 above)
  | map entries, path, address, above => by
      rw [route, occurrences, places]
      exact .map
  | scalar leaf, path, address, above => by
      rw [route, occurrences, places]
      exact .scalar

/-- The route of items goes through them. -/
theorem throughItems : ∀ (items : List Value) (path : Path) (address : List Nat) (i : Nat)
    (above : List Frame),
    Through above items (routeItems items path i) (occurrencesItems items path i above)
      (placesItems items path address i)
  | [], path, address, i, above => by
      rw [routeItems, occurrencesItems, placesItems]
      exact .nil
  | v :: rest, path, address, i, above => by
      rw [routeItems, occurrencesItems, placesItems]
      exact .cons (fun p hp q hq => leftOf_of_mem_placesItems hp hq) (through v _ _ above)
        (throughItems rest path address (i + 1) _)

/-- The route of fields goes through their values. -/
theorem throughFields : ∀ (fields : List (String × Value)) (path : Path) (address : List Nat)
    (i : Nat) (above : List Frame),
    Through above (fields.map Prod.snd) (routeFields fields path)
      (occurrencesFields fields path above) (placesFields fields path address i)
  | [], path, address, i, above => by
      rw [routeFields, occurrencesFields, placesFields]
      exact .nil
  | (name, v) :: rest, path, address, i, above => by
      rw [routeFields, occurrencesFields, placesFields]
      exact .cons (fun p hp q hq => leftOf_of_mem_placesFields hp hq) (through v _ _ above)
        (throughFields rest path address (i + 1) _)

end

end Value

namespace Through

variable {above : List Frame} {vs : List Value} {route : Route} {os : List Occurrence}
  {ps : List Place}

/-- What is above the values is above all nodes in them. -/
theorem suffix_of_mem (h : Through above vs route os ps) :
    ∀ o ∈ os, above.map Frame.node <:+ o.ancestors := by
  induction h with
  | nil | map | scalar => simp
  | list h ih => exact ih
  | @node above n path address below os ps hbelow h ih =>
      refine List.forall_mem_cons.mpr ⟨List.suffix_refl _, fun o ho => ?_⟩
      exact (List.suffix_cons n _).trans (ih o ho)
  | cons hright h h' ih ih' =>
      rw [Frame.map_node_pass] at ih'
      exact List.forall_mem_append.mpr ⟨ih, ih'⟩

/-- Places are listed in pre-order. -/
theorem pairwise_before (h : Through above vs route os ps) : ps.Pairwise Place.Before := by
  induction h with
  | nil | map | scalar => exact .nil
  | list h ih => exact ih
  | node hbelow h ih => exact .cons (fun q hq => (hbelow q hq).before) ih
  | cons hright h h' ih ih' =>
      exact List.pairwise_append.mpr ⟨ih, ih', fun p hp q hq => (hright p hp q hq).1⟩

end Through

/-- The places of a value stand in pre-order. -/
theorem Value.pairwise_places (v : Value) (path : Path) (address : List Nat) :
    (v.places path address).Pairwise Place.Before :=
  (v.through path address []).pairwise_before

/-! ### Invariants of a walk -/

section Invariants

variable {σ : Type u} {visitor : Visitor σ}

/-- Each call of the visitor keeps a property of its state. -/
structure Visitor.Keeps (visitor : Visitor σ) (P : σ → Prop) : Prop where
  enter : ∀ s n path, P s → P (visitor.enter s n path).1
  exit : ∀ s n path, P s → P (visitor.exit s n path)

/-- **What each call of a visitor keeps, a walk keeps**, also if it stops. -/
theorem Route.walk_keeps {P : σ → Prop} (h : visitor.Keeps P) {route : Route} {s : σ} (hs : P s) :
    P (route.walk visitor s).1 := by
  induction route generalizing s with
  | nowhere => exact hs
  | visit site below ih =>
      have hs' := h.enter s site.node site.path hs
      rcases walk_visit_cases visitor site below s with ⟨s', henter, hwalk⟩ | ⟨s', henter, hwalk⟩ |
        ⟨s', s'', henter, hbelow, hwalk⟩ | ⟨s', s'', henter, hbelow, hwalk⟩ <;>
        rw [henter] at hs' <;> rw [hwalk]
      · exact hs'
      · exact hs'
      · simpa [hbelow] using ih hs'
      · exact h.exit s'' site.node site.path (by simpa [hbelow] using ih hs')
  | onward first next ih ih' =>
      have hs' := ih hs
      rcases walk_onward_cases visitor first next s with ⟨s', hfirst, hwalk⟩ |
        ⟨s', hfirst, hwalk⟩ <;>
        rw [hfirst] at hs' <;> rw [hwalk]
      · exact hs'
      · exact ih' hs'

/-- Entering and leaving a node keeps a property of the nodes around and of the state. -/
structure Visitor.Follows (visitor : Visitor σ) (P : List Node → σ → Prop) : Prop where
  descend : ∀ {s s' n path above}, P above s → visitor.enter s n path = (s', .descend) →
    P (n :: above) s'
  skip : ∀ {s s' n path above}, P above s → visitor.enter s n path = (s', .skip) → P above s'
  exit : ∀ {s n path above}, P (n :: above) s → P above (visitor.exit s n path)

/-- **What follows the nodes around holds again at the end**, unless the walk has stopped. -/
theorem Through.follows {P : List Node → σ → Prop} {above : List Frame} {vs : List Value}
    {route : Route} {os : List Occurrence} {ps : List Place} (h : Through above vs route os ps)
    (hvisitor : visitor.Follows P) {s s' : σ} (hs : P (above.map Frame.node) s)
    (hend : route.walk visitor s = (s', .completed)) : P (above.map Frame.node) s' := by
  induction h generalizing s s' with
  | nil | map | scalar =>
      obtain ⟨rfl, -⟩ := Prod.mk.inj hend
      exact hs
  | list h ih => exact ih hs hend
  | @node above n path address below os ps hbelow h ih =>
      rcases Route.walk_visit_cases visitor ⟨n, path⟩ below s with ⟨t, henter, hwalk⟩ |
        ⟨t, henter, hwalk⟩ | ⟨t, t', henter, hinside, hwalk⟩ | ⟨t, t', henter, hinside, hwalk⟩ <;>
        rw [hwalk] at hend <;> cases hend
      · exact hvisitor.skip hs henter
      · exact hvisitor.exit (ih (hvisitor.descend hs henter) hinside)
  | @cons above v rest first next os os' ps ps' hright h h' ih ih' =>
      rw [Frame.map_node_pass] at ih'
      rcases Route.walk_onward_cases visitor first next s with ⟨t, hfirst, hwalk⟩ |
        ⟨t, hfirst, hwalk⟩ <;> rw [hwalk] at hend
      · cases hend
      · exact ih' (ih hs hfirst) hend

end Invariants

end ContractQuery
