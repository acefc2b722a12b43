import Mathlib.Data.List.Basic
import ContractQuery.Proofs.Route

/-!
# The Calls of a Walk

Which calls a walk makes, and in which order, for every tree and every visitor. The answers of
a visitor may depend on all that it saw before, so nothing is assumed about them:
`Visitor.recording` takes down each call with the answer it got, and the statements are about
the calls that were taken down.

A call shows a node and its path, which may not tell its place, so the calls are put to places of
the tree. `Visits` says how a walk goes on, one rule for each way: past a node, into it and out
again, and from one part of the tree to the part on its right. A walk keeps to these rules
(`Through.walk_recording`), and each part of the discipline is an induction over them.

## Main results

* `Through.walk_recording`: a walk with recording is the walk, and its calls follow the rules.
* `Visits.mem_entered_iff`: which nodes are entered.
* `Visits.exit_mem_iff`: which nodes are left.
* `Node.walk_disciplined`: **the discipline of a walk**.
-/

namespace ContractQuery

universe u

/-- A call of a visitor: one that enters a place and gets an answer, or one that leaves it. -/
inductive Call (α : Type) where
  | enter (place : α) (flow : Flow)
  | exit (place : α)

namespace Call

variable {α β : Type}

/-- Where a call is made. -/
def place : Call α → α
  | enter p _ => p
  | exit p => p

/-- The call with its place told in other terms. -/
def map (f : α → β) : Call α → Call β
  | enter p flow => enter (f p) flow
  | exit p => exit (f p)

/-- The place that a call enters. -/
def entered? : Call α → Option α
  | enter p _ => some p
  | exit _ => none

/-- The places that calls enter, in the order of the calls. -/
def entered (calls : List (Call α)) : List α := calls.filterMap entered?

/-- The call that leaves a place, which is not made if the walk has stopped there. -/
def leaving (p : α) : Outcome → List (Call α)
  | .completed => [exit p]
  | .stopped => []

@[simp] theorem place_enter (p : α) (flow : Flow) : (enter p flow).place = p := rfl

@[simp] theorem place_exit (p : α) : (exit p).place = p := rfl

/-- The place of a call, told in other terms. -/
@[simp] theorem place_map (f : α → β) (c : Call α) : (c.map f).place = f c.place := by
  cases c <;> rfl

@[simp] theorem entered_nil : entered ([] : List (Call α)) = [] := rfl

@[simp] theorem entered_enter_cons (p : α) (flow : Flow) (calls : List (Call α)) :
    entered (enter p flow :: calls) = p :: entered calls := rfl

@[simp] theorem entered_exit_cons (p : α) (calls : List (Call α)) :
    entered (exit p :: calls) = entered calls := rfl

/-- The places that calls enter and then those that more calls enter. -/
@[simp] theorem entered_append (calls calls' : List (Call α)) :
    entered (calls ++ calls') = entered calls ++ entered calls' :=
  List.filterMap_append

/-- A node is left only if the walk has not stopped inside. -/
@[simp] theorem mem_leaving {p : α} {outcome : Outcome} {c : Call α} :
    c ∈ leaving p outcome ↔ outcome = .completed ∧ c = exit p := by
  cases outcome <;> simp [leaving]

/-- Leaving a node enters none. -/
@[simp] theorem entered_leaving (p : α) (outcome : Outcome) :
    entered (leaving p outcome) = [] := by
  cases outcome <;> rfl

/-- The places entered, told in other terms. -/
theorem entered_map (f : α → β) (calls : List (Call α)) :
    entered (calls.map (map f)) = (entered calls).map f := by
  induction calls with
  | nil => rfl
  | cons c calls ih => cases c <;> simp [map, ih]

end Call

/-- A visitor that takes down each call with its answer and otherwise does as another one. -/
def Visitor.recording {σ : Type u} (visitor : Visitor σ) : Visitor (σ × List (Call Site)) where
  enter state n path :=
    let (s, flow) := visitor.enter state.1 n path
    ((s, state.2 ++ [.enter ⟨n, path⟩ flow]), flow)
  exit state n path := (visitor.exit state.1 n path, state.2 ++ [.exit ⟨n, path⟩])

/-! ### The rules -/

/-- How a walk goes through places that stand in pre-order, with which calls, and how it ends.
A node is gone past, or gone into and left unless the walk has stopped inside; and a walk goes
on with what is on the right unless it has stopped. -/
inductive Visits : List Place → List (Call Place) → Outcome → Prop
  | nil : Visits [] [] .completed
  | stop {p : Place} {below : List Place} (hbelow : ∀ q ∈ below, p.Above q) :
      Visits (p :: below) [.enter p .stop] .stopped
  | skip {p : Place} {below : List Place} (hbelow : ∀ q ∈ below, p.Above q) :
      Visits (p :: below) [.enter p .skip] .completed
  | descend {p : Place} {below : List Place} {calls : List (Call Place)} {outcome : Outcome}
      (hbelow : ∀ q ∈ below, p.Above q) (h : Visits below calls outcome) :
      Visits (p :: below) (.enter p .descend :: (calls ++ Call.leaving p outcome)) outcome
  | append {left right : List Place} {calls calls' : List (Call Place)} {outcome : Outcome}
      (hright : ∀ p ∈ left, ∀ q ∈ right, p.LeftOf q) (h : Visits left calls .completed)
      (h' : Visits right calls' outcome) : Visits (left ++ right) (calls ++ calls') outcome
  | cut {left right : List Place} {calls : List (Call Place)}
      (hright : ∀ p ∈ left, ∀ q ∈ right, p.LeftOf q) (h : Visits left calls .stopped) :
      Visits (left ++ right) calls .stopped

/-- Nothing keeps a walk out of a place: all nodes above it were gone into, and the walk has not
stopped before. -/
def IsOpen (places : List Place) (calls : List (Call Place)) (p : Place) : Prop :=
  (∀ a ∈ places, a.Above p → .enter a .descend ∈ calls) ∧
    ∀ q, .enter q .stop ∈ calls → ¬ q.Before p

section IsOpen

variable {left right below : List Place} {calls calls' : List (Call Place)} {p q : Place}

/-- What is on the right does not matter to a place. -/
theorem isOpen_append_left (hright : ∀ p ∈ left, ∀ q ∈ right, p.LeftOf q)
    (hcalls' : ∀ c ∈ calls', c.place ∈ right) (hp : p ∈ left) :
    IsOpen (left ++ right) (calls ++ calls') p ↔ IsOpen left calls p := by
  constructor
  · rintro ⟨habove, hstop⟩
    refine ⟨fun a ha hap => ?_, fun q hq => hstop q (List.mem_append_left _ hq)⟩
    rcases List.mem_append.mp (habove a (List.mem_append_left _ ha) hap) with h | h
    · exact h
    · exact absurd (hright a ha a (hcalls' _ h)).1 (Place.not_before_self a)
  · rintro ⟨habove, hstop⟩
    refine ⟨fun a ha hap => ?_, fun q hq => ?_⟩
    · rcases List.mem_append.mp ha with ha | ha
      · exact List.mem_append_left _ (habove a ha hap)
      · exact absurd hap (hright p hp a ha).1.not_above
    · rcases List.mem_append.mp hq with hq | hq
      · exact hstop q hq
      · exact (hright p hp q (hcalls' _ hq)).1.asymm

/-- What is on the left does not matter to a place unless the walk has stopped there. -/
theorem isOpen_append_right (hright : ∀ p ∈ left, ∀ q ∈ right, p.LeftOf q)
    (hcalls : ∀ c ∈ calls, c.place ∈ left) (hstopped : ¬ ∃ q, .enter q .stop ∈ calls)
    (hp : p ∈ right) : IsOpen (left ++ right) (calls ++ calls') p ↔ IsOpen right calls' p := by
  constructor
  · rintro ⟨habove, hstop⟩
    refine ⟨fun a ha hap => ?_, fun q hq => hstop q (List.mem_append_right _ hq)⟩
    rcases List.mem_append.mp (habove a (List.mem_append_right _ ha) hap) with h | h
    · exact absurd (hright a (hcalls _ h) a ha).1 (Place.not_before_self a)
    · exact h
  · rintro ⟨habove, hstop⟩
    refine ⟨fun a ha hap => ?_, fun q hq => ?_⟩
    · rcases List.mem_append.mp ha with ha | ha
      · exact absurd hap (hright a ha p hp).2
      · exact List.mem_append_right _ (habove a ha hap)
    · rcases List.mem_append.mp hq with hq | hq
      · exact absurd ⟨q, hq⟩ hstopped
      · exact hstop q hq

/-- Nothing keeps a walk out of the first place. -/
theorem isOpen_head (hbelow : ∀ q ∈ below, p.Above q)
    (hcalls : ∀ c ∈ calls, c.place ∈ p :: below) : IsOpen (p :: below) calls p := by
  have hbefore : ∀ q ∈ p :: below, ¬ q.Before p := by
    intro q hq
    rcases List.mem_cons.mp hq with rfl | hq
    · exact Place.not_before_self q
    · exact (hbelow q hq).before.asymm
  exact ⟨fun a ha hap => absurd hap.before (hbefore a ha), fun q hq => hbefore q (hcalls _ hq)⟩

/-- A node that was gone into does not matter to what is below it. -/
theorem isOpen_below (hbelow : ∀ q ∈ below, p.Above q) (outcome : Outcome) :
    IsOpen (p :: below) (.enter p .descend :: (calls ++ Call.leaving p outcome)) q ↔
      IsOpen below calls q := by
  have hne : ∀ a ∈ below, a ≠ p := fun a ha => (hbelow a ha).before.ne.symm
  constructor
  · rintro ⟨habove, hstop⟩
    refine ⟨fun a ha haq => ?_, fun r hr => hstop r (by simp [hr])⟩
    simpa [hne a ha] using habove a (List.mem_cons_of_mem _ ha) haq
  · rintro ⟨habove, hstop⟩
    refine ⟨fun a ha haq => ?_, fun r hr => hstop r (by simpa using hr)⟩
    rcases List.mem_cons.mp ha with rfl | ha
    · exact List.mem_cons_self
    · simp [habove a ha haq]

end IsOpen

namespace Visits

variable {places : List Place} {calls : List (Call Place)} {outcome : Outcome}

/-- Calls are made at the places gone through, and nowhere else. -/
theorem place_mem (h : Visits places calls outcome) : ∀ c ∈ calls, c.place ∈ places := by
  induction h with
  | nil | stop | skip => simp
  | @descend p below calls outcome hbelow h ih =>
      intro c hc
      simp only [List.mem_cons, List.mem_append, Call.mem_leaving] at hc
      rcases hc with rfl | hc | ⟨-, rfl⟩
      · exact List.mem_cons_self
      · exact List.mem_cons_of_mem _ (ih c hc)
      · exact List.mem_cons_self
  | append hright h h' ih ih' =>
      intro c hc
      rcases List.mem_append.mp hc with hc | hc
      · exact List.mem_append_left _ (ih c hc)
      · exact List.mem_append_right _ (ih' c hc)
  | cut hright h ih => exact fun c hc => List.mem_append_left _ (ih c hc)

/-- Nodes are entered in pre-order. -/
theorem entered_sublist (h : Visits places calls outcome) :
    (Call.entered calls).Sublist places := by
  induction h with
  | nil => exact .slnil
  | stop | skip => simp
  | descend hbelow h ih => simpa using ih
  | append hright h h' ih ih' =>
      rw [Call.entered_append]
      exact ih.append ih'
  | cut hright h ih => exact ih.trans (List.sublist_append_left _ _)

/-- The walk has stopped exactly when some node was entered with that answer. -/
theorem stopped_iff (h : Visits places calls outcome) :
    outcome = .stopped ↔ ∃ p, .enter p .stop ∈ calls := by
  induction h with
  | nil | stop | skip => simp
  | descend hbelow h ih => simpa using ih
  | append hright h h' ih ih' => simp_all
  | cut hright h ih => exact ih

/-- A walk that has not stopped got no such answer. -/
theorem not_stop (h : Visits places calls .completed) : ¬ ∃ p, .enter p .stop ∈ calls := by
  rw [← h.stopped_iff]
  simp

/-- Nothing is called after the answer to stop. -/
theorem getLast?_of_stop (h : Visits places calls outcome) {p : Place}
    (hp : .enter p .stop ∈ calls) : calls.getLast? = some (.enter p .stop) := by
  induction h with
  | nil => simp at hp
  | stop | skip => simp_all
  | @descend q below calls outcome hbelow h ih =>
      have hmem : .enter p .stop ∈ calls := by simpa using hp
      obtain rfl : outcome = .stopped := h.stopped_iff.mpr ⟨p, hmem⟩
      simp [Call.leaving, List.getLast?_cons, ih hmem]
  | @append left right calls calls' outcome hright h h' ih ih' =>
      have hmem : .enter p .stop ∈ calls' :=
        (List.mem_append.mp hp).resolve_left fun hmem => h.not_stop ⟨p, hmem⟩
      rw [List.getLast?_append, ih' hmem, Option.some_or]
  | cut hright h ih => exact ih hp

/-- **Which nodes are entered**: those that nothing keeps the walk out of. -/
theorem mem_entered_iff (h : Visits places calls outcome) :
    ∀ p ∈ places, p ∈ Call.entered calls ↔ IsOpen places calls p := by
  have hmem := h.place_mem
  induction h with
  | nil => simp
  | @stop p below hbelow =>
      intro q hq
      rcases List.mem_cons.mp hq with rfl | hq
      · exact iff_of_true (by simp) (isOpen_head hbelow hmem)
      · have hpq := (hbelow q hq).before
        exact iff_of_false (by simpa using hpq.ne.symm)
          fun hopen => hopen.2 p List.mem_cons_self hpq
  | @skip p below hbelow =>
      intro q hq
      rcases List.mem_cons.mp hq with rfl | hq
      · exact iff_of_true (by simp) (isOpen_head hbelow hmem)
      · have hpq := hbelow q hq
        refine iff_of_false (by simpa using hpq.before.ne.symm) fun hopen => ?_
        simpa using hopen.1 p List.mem_cons_self hpq
  | @descend p below calls outcome hbelow h ih =>
      intro q hq
      rcases List.mem_cons.mp hq with rfl | hq
      · exact iff_of_true (by simp) (isOpen_head hbelow hmem)
      · rw [isOpen_below hbelow, ← ih h.place_mem q hq]
        simp [(hbelow q hq).before.ne.symm]
  | @append left right calls calls' outcome hright h h' ih ih' =>
      intro p hp
      rw [Call.entered_append, List.mem_append]
      -- The two sides have no place in common.
      rcases List.mem_append.mp hp with hp | hp
      · have hnot : p ∉ Call.entered calls' := fun hp' =>
          Place.not_before_self p (hright p hp p (h'.entered_sublist.subset hp')).1
        rw [isOpen_append_left hright h'.place_mem hp, ← ih h.place_mem p hp]
        exact or_iff_left hnot
      · have hnot : p ∉ Call.entered calls := fun hp' =>
          Place.not_before_self p (hright p (h.entered_sublist.subset hp') p hp).1
        rw [isOpen_append_right hright h.place_mem h.not_stop hp, ← ih' h'.place_mem p hp]
        exact or_iff_right hnot
  | @cut left right calls hright h ih =>
      intro p hp
      rcases List.mem_append.mp hp with hp | hp
      · have hleft : IsOpen (left ++ right) (calls ++ []) p ↔ IsOpen left calls p :=
          isOpen_append_left hright (by simp) hp
        rw [List.append_nil] at hleft
        rw [hleft, ih h.place_mem p hp]
      · -- The walk has stopped on the left, so nothing on the right is entered.
        obtain ⟨q, hq⟩ := h.stopped_iff.mp rfl
        have hqp := (hright q (h.place_mem _ hq) p hp).1
        refine iff_of_false (fun hp' => ?_) fun hopen => hopen.2 q hq hqp
        exact Place.not_before_self p (hright p (h.entered_sublist.subset hp') p hp).1

/-- **Which nodes are left**: those that were gone into, unless the walk has stopped inside. -/
theorem exit_mem_iff (h : Visits places calls outcome) (p : Place) :
    .exit p ∈ calls ↔ .enter p .descend ∈ calls ∧ ∀ q, .enter q .stop ∈ calls → ¬ p.Above q := by
  induction h with
  | nil | stop | skip => simp
  | @descend r below calls outcome hbelow h ih =>
      have hstop : ∀ q, .enter q .stop ∈ calls → r.Above q :=
        fun q hq => hbelow q (h.place_mem _ hq)
      by_cases hp : p = r
      · subst hp
        have hnot : .exit p ∉ calls := fun hexit =>
          Place.not_above_self p (hbelow p (h.place_mem _ hexit))
        have hcompleted : outcome = .completed ↔ ∀ q, .enter q .stop ∉ calls := by
          rw [← not_exists, ← h.stopped_iff]
          cases outcome <;> simp
        have hiff : (∀ q, .enter q .stop ∉ calls) ↔ ∀ q, .enter q .stop ∈ calls → ¬ p.Above q :=
          ⟨fun hnone q hq => absurd hq (hnone q), fun habove q hq => habove q hq (hstop q hq)⟩
        simpa [hnot, hcompleted] using hiff
      · simpa [hp] using ih
  | @append left right calls calls' outcome hright h h' ih ih' =>
      simp only [List.mem_append, ih, ih']
      constructor
      · rintro (⟨hp, hq⟩ | ⟨hp, hq⟩)
        · refine ⟨.inl hp, fun q hstop => ?_⟩
          rcases hstop with hstop | hstop
          · exact hq q hstop
          · exact (hright p (h.place_mem _ hp) q (h'.place_mem _ hstop)).2
        · refine ⟨.inr hp, fun q hstop => ?_⟩
          rcases hstop with hstop | hstop
          · exact absurd ⟨q, hstop⟩ h.not_stop
          · exact hq q hstop
      · rintro ⟨hp | hp, hq⟩
        · exact .inl ⟨hp, fun q hstop => hq q (.inl hstop)⟩
        · exact .inr ⟨hp, fun q hstop => hq q (.inr hstop)⟩
  | cut hright h ih => exact ih

/-- A node is left after all calls at it and below it. -/
theorem pairwise_exit_below (h : Visits places calls outcome) :
    calls.Pairwise fun c d => ∀ p, c = .exit p → d.place ≠ p ∧ ¬ p.Above d.place := by
  induction h with
  | nil | stop | skip => simp
  | @descend r below calls outcome hbelow h ih =>
      rw [List.pairwise_cons, List.pairwise_append]
      refine ⟨by simp, ih, by cases outcome <;> simp [Call.leaving], ?_⟩
      intro c hc d hd p hp
      obtain ⟨-, rfl⟩ := Call.mem_leaving.mp hd
      subst hp
      have hrp := (hbelow p (h.place_mem _ hc)).before
      exact ⟨hrp.ne, hrp.not_above⟩
  | @append left right calls calls' outcome hright h h' ih ih' =>
      refine List.pairwise_append.mpr ⟨ih, ih', fun c hc d hd p hp => ?_⟩
      subst hp
      have hpd := hright p (h.place_mem _ hc) _ (h'.place_mem d hd)
      exact ⟨hpd.1.ne.symm, hpd.2⟩
  | cut hright h ih => exact ih

/-- A node is left before all calls on its right. -/
theorem pairwise_exit_right (h : Visits places calls outcome) :
    calls.Pairwise fun c d => ∀ p, d = .exit p → ¬ p.LeftOf c.place := by
  induction h with
  | nil | stop | skip => simp
  | @descend r below calls outcome hbelow h ih =>
      rw [List.pairwise_cons, List.pairwise_append]
      refine ⟨?_, ih, by cases outcome <;> simp [Call.leaving], ?_⟩
      · rintro d hd p rfl hleft
        rcases List.mem_append.mp hd with hd | hd
        · exact (hbelow p (h.place_mem _ hd)).before.asymm hleft.1
        · obtain ⟨-, hp⟩ := Call.mem_leaving.mp hd
          obtain rfl : p = r := by simpa using hp
          exact Place.not_before_self p hleft.1
      · rintro c hc d hd p rfl hleft
        obtain ⟨-, hp⟩ := Call.mem_leaving.mp hd
        obtain rfl : p = r := by simpa using hp
        exact hleft.2 (hbelow _ (h.place_mem c hc))
  | @append left right calls calls' outcome hright h h' ih ih' =>
      refine List.pairwise_append.mpr ⟨ih, ih', ?_⟩
      rintro c hc d hd p rfl hleft
      exact (hright _ (h.place_mem c hc) p (h'.place_mem _ hd)).1.asymm hleft.1
  | cut hright h ih => exact ih

end Visits

/-! ### A whole walk -/

section Recording

variable {σ : Type u} {visitor : Visitor σ}

/-- What a walk with recording comes to if the walk comes to `result` and makes `calls`. -/
def recorded (result : σ × Outcome) (log : List (Call Site)) (calls : List (Call Place)) :
    (σ × List (Call Site)) × Outcome :=
  ((result.1, log ++ calls.map (Call.map Place.toSite)), result.2)

/-- A recorded call that enters a node. -/
theorem enter_recording {s s' : σ} {n : Node} {path : Path} {flow : Flow}
    (h : visitor.enter s n path = (s', flow)) (log : List (Call Site)) :
    visitor.recording.enter (s, log) n path = ((s', log ++ [.enter ⟨n, path⟩ flow]), flow) := by
  simp [Visitor.recording, h]

/-- **A walk with recording is the walk**, and its calls follow the rules. -/
theorem Through.walk_recording {above : List Frame} {vs : List Value} {route : Route}
    {os : List Occurrence} {ps : List Place} (h : Through above vs route os ps) (s : σ)
    (log : List (Call Site)) :
    ∃ calls, route.walk visitor.recording (s, log) = recorded (route.walk visitor s) log calls ∧
      Visits ps calls (route.walk visitor s).2 := by
  induction h generalizing s log with
  | nil | map | scalar => exact ⟨[], by simp [recorded], .nil⟩
  | list h ih => exact ih s log
  | @node above n path address below os ps hbelow h ih =>
      rcases Route.walk_visit_cases visitor ⟨n, path⟩ below s with ⟨s', henter, hwalk⟩ |
        ⟨s', henter, hwalk⟩ | ⟨s', s'', henter, hinside, hwalk⟩ |
        ⟨s', s'', henter, hinside, hwalk⟩ <;>
        have hrecord := enter_recording henter log <;> rw [hwalk]
      · exact ⟨[.enter ⟨⟨n, path⟩, address⟩ .stop], Route.walk_visit_of_stop hrecord, .stop hbelow⟩
      · exact ⟨[.enter ⟨⟨n, path⟩, address⟩ .skip], Route.walk_visit_of_skip hrecord, .skip hbelow⟩
      · obtain ⟨calls, hcalls, hvisits⟩ := ih s' (log ++ [.enter ⟨n, path⟩ .descend])
        rw [hinside] at hcalls hvisits
        refine ⟨_, (Route.walk_visit_of_stopped hrecord hcalls).trans ?_, .descend hbelow hvisits⟩
        simp [recorded, Call.leaving, Call.map]
      · obtain ⟨calls, hcalls, hvisits⟩ := ih s' (log ++ [.enter ⟨n, path⟩ .descend])
        rw [hinside] at hcalls hvisits
        refine ⟨_, (Route.walk_visit_of_completed hrecord hcalls).trans ?_, .descend hbelow hvisits⟩
        simp [recorded, Call.leaving, Call.map, Visitor.recording]
  | @cons above v rest first next os os' ps ps' hright h h' ih ih' =>
      obtain ⟨calls, hcalls, hvisits⟩ := ih s log
      rcases Route.walk_onward_cases visitor first next s with ⟨s', hfirst, hwalk⟩ |
        ⟨s', hfirst, hwalk⟩ <;> rw [hfirst] at hcalls hvisits <;> rw [hwalk]
      · exact ⟨calls, Route.walk_onward_of_stopped hcalls, .cut hright hvisits⟩
      · obtain ⟨calls', hcalls', hvisits'⟩ := ih' s' (log ++ calls.map (Call.map Place.toSite))
        refine ⟨calls ++ calls', (Route.walk_onward_of_completed hcalls).trans ?_,
          .append hright hvisits hvisits'⟩
        simpa [recorded] using hcalls'

/-- A walk through a tree with recording is the walk, and its calls follow the rules. -/
theorem Node.walk_recording (root : Node) (visitor : Visitor σ) (s : σ) :
    ∃ calls, root.walk visitor.recording (s, []) = recorded (root.walk visitor s) [] calls ∧
      Visits root.places calls (root.walk visitor s).2 := by
  simp only [walk, Value.walk_eq_route]
  exact (root.toValue.through [] [] []).walk_recording s []

end Recording

/-- The discipline of calls at the places of a tree, and of how the walk ends. -/
structure Disciplined (places : List Place) (calls : List (Call Place)) (outcome : Outcome) :
    Prop where
  /-- Nodes are entered in pre-order. -/
  entered_sublist : (Call.entered calls).Sublist places
  /-- No place is entered twice. -/
  entered_once : (Call.entered calls).Pairwise fun p q => p.address ≠ q.address
  /-- A node is entered exactly when each proper ancestor was entered with the answer to descend
  and no earlier node with the answer to stop. -/
  mem_entered_iff : ∀ p ∈ places, p ∈ Call.entered calls ↔
    (∀ a ∈ places, a.Above p → .enter a .descend ∈ calls) ∧
      ∀ q, .enter q .stop ∈ calls → ¬ q.Before p
  /-- A node is left exactly when it was entered with the answer to descend and nothing below it
  with the answer to stop. -/
  exit_mem_iff : ∀ p, .exit p ∈ calls ↔
    .enter p .descend ∈ calls ∧ ∀ q, .enter q .stop ∈ calls → ¬ p.Above q
  /-- After a node is left there is no call at it or below it. -/
  exit_below : calls.Pairwise fun c d => ∀ p, c = .exit p → d.place ≠ p ∧ ¬ p.Above d.place
  /-- Before a node is left there is no call on its right. -/
  exit_right : calls.Pairwise fun c d => ∀ p, d = .exit p → ¬ p.LeftOf c.place
  /-- The walk has stopped exactly when some node was entered with that answer. -/
  stopped_iff : outcome = .stopped ↔ ∃ p, .enter p .stop ∈ calls
  /-- That call is the last. -/
  stop_last : ∀ p, .enter p .stop ∈ calls → calls.getLast? = some (.enter p .stop)

/-- **The discipline of a walk.** For every tree and every visitor, the calls that a walk makes
can be placed in the tree so that they keep the discipline. -/
theorem Node.walk_disciplined {σ : Type u} (root : Node) (visitor : Visitor σ) (s : σ) :
    ∃ calls : List (Call Place),
      root.walk visitor.recording (s, []) =
        (((root.walk visitor s).1, calls.map (Call.map Place.toSite)), (root.walk visitor s).2) ∧
      Disciplined root.places calls (root.walk visitor s).2 := by
  obtain ⟨calls, hcalls, hvisits⟩ := root.walk_recording visitor s
  have hordered : root.places.Pairwise Place.Before := Value.pairwise_places _ _ _
  refine ⟨calls, hcalls, ?_⟩
  exact {
    entered_sublist := hvisits.entered_sublist
    entered_once := (hordered.sublist hvisits.entered_sublist).imp Place.Before.address_ne
    mem_entered_iff := hvisits.mem_entered_iff
    exit_mem_iff := hvisits.exit_mem_iff
    exit_below := hvisits.pairwise_exit_below
    exit_right := hvisits.pairwise_exit_right
    stopped_iff := hvisits.stopped_iff
    stop_last := fun p hp => hvisits.getLast?_of_stop hp }

end ContractQuery
