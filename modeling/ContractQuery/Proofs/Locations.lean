import ContractQuery.Proofs.Documents
import ContractQuery.Proofs.Equality

/-!
# The Grammar of Locations

What a JSON value denotes as a point and as a location is said here without a decoder
(`Json.DenotesPoint`, `Json.DenotesLocation`): a point has a count for a line and may have one for
a column, a location is a range if it has a start or an end and a point otherwise, and lines count
from one. Whatever else an object holds does not matter.

The decoders take the entries of an object in their order. As long as no name is used twice, the
order does not matter and a draft ends up with what look-up finds (`Decode.foldlM_eq_ok_iff`, for
points and for spans), so they decode exactly what is denoted. A list of locations is one by one
what its items denote, and the first item that denotes none is to blame for an error.

## Main results

* `Decode.point_eq_ok_iff`: **a point is decoded exactly from what denotes it**.
* `Location.ofJson_eq_ok_iff`: the same for a location.
* `Location.listOfJson_exact`: what lists of locations are accepted, as what, and what is wrong
  with the others.
-/

namespace ContractQuery

universe u v w

/-! ### Steps that may fail, one by one -/

section Traversal

/-- A step that only keeps its result succeeds with what it keeps. -/
theorem bind_pure_eq_ok_iff {ε : Type u} {α β : Type v} {x : Except ε α} {k : α → β} {b : β} :
    (x >>= fun a => pure (k a)) = .ok b ↔ ∃ a, x = .ok a ∧ b = k a := by
  rw [bind_eq_ok_iff]
  refine exists_congr fun a => and_congr_right fun _ => ?_
  exact ⟨fun h => (Except.ok.inj h).symm, fun h => h ▸ rfl⟩

variable {ε : Type u} {α : Type v} {β : Type w} {f : α → Except ε β} {l : List α}

/-- Partners for all members of a list exist exactly if each member has one. -/
theorem exists_forall₂_iff {R : α → β → Prop} :
    (∃ l', List.Forall₂ R l l') ↔ ∀ a ∈ l, ∃ b, R a b := by
  induction l with
  | nil => exact ⟨fun _ _ h => absurd h List.not_mem_nil, fun _ => ⟨[], .nil⟩⟩
  | cons a l ih =>
      rw [List.forall_mem_cons, ← ih]
      constructor
      · rintro ⟨_, _ | ⟨hab, hrest⟩⟩
        exact ⟨⟨_, hab⟩, _, hrest⟩
      · rintro ⟨⟨b, hab⟩, l', hrest⟩
        exact ⟨b :: l', .cons hab hrest⟩

/-- A traversal succeeds with what each member gives. -/
theorem mapM_eq_ok_iff {l' : List β} :
    l.mapM f = .ok l' ↔ List.Forall₂ (fun a b => f a = .ok b) l l' := by
  induction l generalizing l' with
  | nil =>
      rw [List.mapM_nil, List.forall₂_nil_left_iff]
      exact ⟨fun h => (Except.ok.inj h).symm, fun h => h ▸ rfl⟩
  | cons a l ih =>
      rw [List.mapM_cons, bind_eq_ok_iff, List.forall₂_cons_left_iff]
      constructor
      · rintro ⟨b, hb, h⟩
        obtain ⟨bs, hbs, rfl⟩ := bind_pure_eq_ok_iff.mp h
        exact ⟨b, bs, hb, ih.mp hbs, rfl⟩
      · rintro ⟨b, bs, hb, hbs, rfl⟩
        exact ⟨b, hb, bind_pure_eq_ok_iff.mpr ⟨bs, ih.mpr hbs, rfl⟩⟩

/-- A traversal fails with the error of the first member that gives none. -/
theorem mapM_eq_error_iff {e : ε} :
    l.mapM f = .error e ↔
      ∃ before a after, l = before ++ a :: after ∧ (∀ b ∈ before, ∃ c, f b = .ok c) ∧
        f a = .error e := by
  induction l with
  | nil =>
      rw [List.mapM_nil]
      refine ⟨nofun, ?_⟩
      rintro ⟨before, a, after, h, -, -⟩
      simp at h
  | cons x l ih =>
      rw [List.mapM_cons]
      -- If the first member fails, nothing can stand before the one that is to blame.
      cases hx : f x with
      | error e' =>
          constructor
          · intro h
            obtain rfl := Except.error.inj h
            exact ⟨[], x, l, rfl, by simp, hx⟩
          · rintro ⟨_ | ⟨b, before⟩, a, after, h, hbefore, ha⟩
            · obtain ⟨rfl, -⟩ := List.cons.inj h
              exact congrArg Except.error (Except.error.inj (hx.symm.trans ha))
            · obtain ⟨rfl, -⟩ := List.cons.inj h
              obtain ⟨c, hc⟩ := hbefore x List.mem_cons_self
              cases hx.symm.trans hc
      | ok y =>
          have hrest : (do let bs ← l.mapM f; pure (y :: bs)) = .error e ↔ l.mapM f = .error e := by
            cases l.mapM f <;> simp [bind, Except.bind, pure, Except.pure]
          refine hrest.trans (ih.trans ?_)
          constructor
          · rintro ⟨before, a, after, rfl, hbefore, ha⟩
            exact ⟨x :: before, a, after, rfl, List.forall_mem_cons.mpr ⟨⟨y, hx⟩, hbefore⟩, ha⟩
          · rintro ⟨_ | ⟨b, before⟩, a, after, h, hbefore, ha⟩
            · obtain ⟨rfl, -⟩ := List.cons.inj h
              cases hx.symm.trans ha
            · obtain ⟨rfl, rfl⟩ := List.cons.inj h
              exact ⟨before, a, after, rfl, (List.forall_mem_cons.mp hbefore).2, ha⟩

end Traversal

/-! ### What is denoted -/

namespace Json

/-- A whole number from zero to `2^64 - 1`. -/
def IsCount (j : Json) (n : Nat) : Prop := j = number (.int n) ∧ n < Nat.pow 2 64

/-- The value that stands for a column, if there is one; null stands for none. -/
inductive IsColumn : Option Json → Option Nat → Prop
  | absent : IsColumn none none
  | null : IsColumn (some null) none
  | count {j : Json} {n : Nat} (h : j.IsCount n) : IsColumn (some j) (some n)

/-- A point is an object with a line and maybe a column, or an array of these. -/
inductive DenotesPoint : Json → Point → Prop
  | object {entries : Record Json} {j : Json} {line : Nat} {column : Option Nat}
      (hget : Record.get? entries "line" = some j) (hline : j.IsCount line)
      (hcolumn : IsColumn (Record.get? entries "column") column) :
      DenotesPoint (object entries) ⟨line, column⟩
  | line {j : Json} {line : Nat} (hline : j.IsCount line) : DenotesPoint (array [j]) ⟨line, none⟩
  | pair {j k : Json} {line : Nat} {column : Option Nat} (hline : j.IsCount line)
      (hcolumn : IsColumn (some k) column) : DenotesPoint (array [j, k]) ⟨line, column⟩

/-- A location is an object: a range with both of `start` and `end`, or a point with neither. Its
lines count from one. -/
inductive DenotesLocation : Json → Location → Prop
  | range {entries : Record Json} {j k : Json} {start stop : Point}
      (hstart : Record.get? entries "start" = some j) (hstop : Record.get? entries "end" = some k)
      (hj : j.DenotesPoint start) (hk : k.DenotesPoint stop) (hline : 1 ≤ start.line)
      (hline' : 1 ≤ stop.line) : DenotesLocation (object entries) (.range ⟨start, stop⟩)
  | point {entries : Record Json} {p : Point} (hstart : Record.get? entries "start" = none)
      (hstop : Record.get? entries "end" = none) (hp : (object entries).DenotesPoint p)
      (hline : 1 ≤ p.line) : DenotesLocation (object entries) (.point p)

end Json

/-! ### Points -/

namespace Decode

/-- What is read as a count denotes one. -/
theorem count_eq_ok_iff {j : Json} {n : Nat} : count j = .ok n ↔ j.IsCount n := by
  constructor
  · intro h
    have hlt := lt_of_count h
    rw [count.eq_def] at h
    split at h
    · next m =>
        split at h
        · next hm =>
            obtain rfl := Except.ok.inj h
            exact ⟨by rw [Int.toNat_of_nonneg hm.1], hlt⟩
        · cases h
    · cases h
  · rintro ⟨rfl, hlt⟩
    exact count_natCast hlt

/-- What is read as a column denotes one. -/
theorem column_eq_ok_iff {j : Json} {c : Option Nat} :
    column j = .ok c ↔ Json.IsColumn (some j) c := by
  constructor
  · intro h
    rw [column.eq_def] at h
    split at h
    · obtain rfl := Except.ok.inj h
      exact .null
    · obtain ⟨n, hn, rfl⟩ := bind_pure_eq_ok_iff.mp h
      exact .count (count_eq_ok_iff.mp hn)
  · rintro (_ | _ | ⟨h⟩)
    · rfl
    · obtain ⟨rfl, hlt⟩ := h
      exact column_elim (c := some _) (by simpa using hlt)

/-- What a slot of a draft holds after an object: what the value of its name is read as, or else
what it held before. -/
def Filled {α : Type} (reads : Json → α → Prop) (found : Option Json) (a a' : α) : Prop :=
  found.elim (a' = a) fun j => reads j a'

/-- The first entry fills the slot, or else the others do; with distinct names it is not filled
twice. -/
theorem filled_cons_iff {α : Type} {reads : Json → α → Prop} {name : String} {e : String × Json}
    {rest : Record Json} (hdistinct : Record.Distinct (e :: rest)) {a a'' : α} :
    Filled reads (Record.get? (e :: rest) name) a a'' ↔
      ∃ a', Filled reads (Record.get? [e] name) a a' ∧
        Filled reads (Record.get? rest name) a' a'' := by
  obtain ⟨n, j⟩ := e
  obtain ⟨hn, -⟩ := Record.distinct_cons.mp hdistinct
  by_cases hname : n = name
  · subst hname
    simp [Filled, Record.get?_cons, (Record.get?_eq_none_iff rest n).mpr hn]
  · simp [Filled, Record.get?_cons, hname]

/-- **A draft ends up with what look-up finds.** The draft is made of two slots, and one entry
fills them by its name. -/
theorem foldlM_eq_ok_iff {δ α β : Type} {add : δ → String × Json → Except DecodeError δ}
    {mk : α → β → δ} {m n : String} {f : Json → α → Prop} {g : Json → β → Prop}
    (hstep : ∀ a b e d, add (mk a b) e = .ok d ↔
      ∃ a' b', Filled f (Record.get? [e] m) a a' ∧ Filled g (Record.get? [e] n) b b' ∧
        d = mk a' b')
    {entries : Record Json} (hdistinct : Record.Distinct entries) {a : α} {b : β} {d : δ} :
    entries.foldlM add (mk a b) = .ok d ↔
      ∃ a' b', Filled f (Record.get? entries m) a a' ∧ Filled g (Record.get? entries n) b b' ∧
        d = mk a' b' := by
  -- What the slots hold changes from entry to entry, so it is arbitrary in the induction.
  induction entries generalizing a b with
  | nil =>
      constructor
      · intro h
        obtain rfl := Except.ok.inj h
        exact ⟨a, b, rfl, rfl, rfl⟩
      · rintro ⟨a', b', rfl, rfl, rfl⟩
        rfl
  | cons e rest ih =>
      have hrest : Record.Distinct rest := (Record.distinct_cons.mp hdistinct).2
      rw [List.foldlM_cons, bind_eq_ok_iff]
      constructor
      · rintro ⟨d', hadd, h⟩
        obtain ⟨a', b', ha, hb, rfl⟩ := (hstep a b e d').mp hadd
        obtain ⟨a'', b'', ha', hb', rfl⟩ := (ih hrest).mp h
        exact ⟨a'', b'', (filled_cons_iff hdistinct).mpr ⟨a', ha, ha'⟩,
          (filled_cons_iff hdistinct).mpr ⟨b', hb, hb'⟩, rfl⟩
      · rintro ⟨a'', b'', ha, hb, rfl⟩
        obtain ⟨a', ha, ha'⟩ := (filled_cons_iff hdistinct).mp ha
        obtain ⟨b', hb, hb'⟩ := (filled_cons_iff hdistinct).mp hb
        exact ⟨mk a' b', (hstep a b e _).mpr ⟨a', b', ha, hb, rfl⟩,
          (ih hrest).mpr ⟨a'', b'', ha', hb', rfl⟩⟩

/-- A slot that was empty holds something exactly if there is a value for it. -/
theorem filled_some_iff {α : Type} {reads : Json → α → Prop} {found : Option Json} {a : α} :
    Filled (fun j a' => ∃ x, reads j x ∧ a' = some x) found none (some a) ↔
      ∃ j, found = some j ∧ reads j a := by
  cases found <;> simp [Filled]

/-- A column may be missing, and then none is known. -/
theorem filled_column_iff {found : Option Json} {c : Option Nat} :
    Filled (fun j c => Json.IsColumn (some j) c) found none c ↔ Json.IsColumn found c := by
  cases found with
  | some j => exact Iff.rfl
  | none =>
      constructor
      · rintro rfl
        exact .absent
      · rintro ⟨⟩
        rfl

/-- One entry of a point fills the line or the column, or is ignored. -/
theorem PointDraft.add_eq_ok_iff (line column : Option Nat) (e : String × Json) (d : PointDraft) :
    PointDraft.add ⟨line, column⟩ e = .ok d ↔
      ∃ line' column',
        Filled (fun j line' => ∃ n, j.IsCount n ∧ line' = some n) (Record.get? [e] "line") line
          line' ∧
        Filled (fun j column' => Json.IsColumn (some j) column') (Record.get? [e] "column") column
          column' ∧
        d = ⟨line', column'⟩ := by
  obtain ⟨name, j⟩ := e
  by_cases hline : name = "line"
  · subst hline
    refine bind_pure_eq_ok_iff.trans ?_
    simp [Filled, Record.get?_cons, count_eq_ok_iff]
  · by_cases hcolumn : name = "column"
    · subst hcolumn
      refine bind_pure_eq_ok_iff.trans ?_
      simp [Filled, Record.get?_cons, column_eq_ok_iff]
    · rw [PointDraft.add]
      · simp [Filled, Record.get?_cons, hline, hcolumn, eq_comm]
      · exact fun _ h => hline (congrArg Prod.fst h)
      · exact fun _ h => hcolumn (congrArg Prod.fst h)

/-- One entry of a span fills the start or the end, or is ignored. -/
theorem SpanDraft.add_eq_ok_iff (start stop : Option Point) (e : String × Json) (d : SpanDraft) :
    SpanDraft.add ⟨start, stop⟩ e = .ok d ↔
      ∃ start' stop',
        Filled (fun j start' => ∃ p, point j = .ok p ∧ start' = some p) (Record.get? [e] "start")
          start start' ∧
        Filled (fun j stop' => ∃ p, point j = .ok p ∧ stop' = some p) (Record.get? [e] "end")
          stop stop' ∧
        d = ⟨start', stop'⟩ := by
  obtain ⟨name, j⟩ := e
  by_cases hstart : name = "start"
  · subst hstart
    refine bind_pure_eq_ok_iff.trans ?_
    simp [Filled, Record.get?_cons]
  · by_cases hstop : name = "end"
    · subst hstop
      refine bind_pure_eq_ok_iff.trans ?_
      simp [Filled, Record.get?_cons]
    · rw [SpanDraft.add]
      · simp [Filled, Record.get?_cons, hstart, hstop, eq_comm]
      · exact fun _ h => hstart (congrArg Prod.fst h)
      · exact fun _ h => hstop (congrArg Prod.fst h)

/-- An object with distinct names is read as the point that it denotes. -/
theorem point_object_eq_ok_iff {entries : Record Json} (hdistinct : Record.Distinct entries)
    {p : Point} : point (.object entries) = .ok p ↔ (Json.object entries).DenotesPoint p := by
  rw [point, bind_eq_ok_iff]
  constructor
  · rintro ⟨d, hd, h⟩
    obtain ⟨line, column, hline, hcolumn, rfl⟩ :=
      (foldlM_eq_ok_iff PointDraft.add_eq_ok_iff hdistinct).mp hd
    cases line with
    | none => cases h
    | some n =>
        obtain rfl := Except.ok.inj h
        obtain ⟨j, hget, hcount⟩ := filled_some_iff.mp hline
        exact .object hget hcount (filled_column_iff.mp hcolumn)
  · rintro (⟨hget, hline, hcolumn⟩)
    refine ⟨_, (foldlM_eq_ok_iff PointDraft.add_eq_ok_iff hdistinct).mpr
      ⟨some _, _, ?_, ?_, rfl⟩, rfl⟩
    · exact filled_some_iff.mpr ⟨_, hget, hline⟩
    · exact filled_column_iff.mpr hcolumn

/-- An array is read as the point that it denotes. -/
theorem point_array_eq_ok_iff {items : List Json} {p : Point} :
    point (.array items) = .ok p ↔ (Json.array items).DenotesPoint p := by
  constructor
  · intro h
    match items, h with
    | [j], h =>
        obtain ⟨n, hn, rfl⟩ := bind_pure_eq_ok_iff.mp h
        exact .line (count_eq_ok_iff.mp hn)
    | j :: k :: rest, h =>
        obtain ⟨n, hn, h⟩ := bind_eq_ok_iff.mp h
        obtain ⟨c, hc, h⟩ := bind_eq_ok_iff.mp h
        cases rest with
        | nil =>
            obtain rfl := Except.ok.inj h
            exact .pair (count_eq_ok_iff.mp hn) (column_eq_ok_iff.mp hc)
        | cons x rest => cases h
  · rintro (_ | hline | ⟨hline, hcolumn⟩)
    · exact bind_pure_eq_ok_iff.mpr ⟨_, count_eq_ok_iff.mpr hline, rfl⟩
    · refine bind_eq_ok_iff.mpr ⟨_, count_eq_ok_iff.mpr hline, ?_⟩
      exact bind_eq_ok_iff.mpr ⟨_, column_eq_ok_iff.mpr hcolumn, rfl⟩

/-- **A point is decoded exactly from what denotes it.** -/
theorem point_eq_ok_iff {j : Json} (hdistinct : j.Distinct) {p : Point} :
    point j = .ok p ↔ j.DenotesPoint p := by
  cases j with
  | object entries => exact point_object_eq_ok_iff (Json.distinct_object.mp hdistinct).1
  | array items => exact point_array_eq_ok_iff
  | null | bool b | number n | text s => exact ⟨nofun, nofun⟩

/-- A span is decoded from an object exactly if it has a start and an end that denote points. -/
theorem span_object_eq_ok_iff {entries : Record Json} (hdistinct : (Json.object entries).Distinct)
    {s : Span} :
    span (.object entries) = .ok s ↔
      ∃ j k, Record.get? entries "start" = some j ∧ Record.get? entries "end" = some k ∧
        j.DenotesPoint s.start ∧ k.DenotesPoint s.stop := by
  obtain ⟨hnames, hinner⟩ := Json.distinct_object.mp hdistinct
  have hpoint {name : String} {j : Json} {p : Point} (hget : Record.get? entries name = some j) :
      point j = .ok p ↔ j.DenotesPoint p :=
    point_eq_ok_iff (hinner _ (Record.mem_of_get?_eq_some hget))
  rw [span, bind_eq_ok_iff]
  constructor
  · rintro ⟨d, hd, h⟩
    obtain ⟨start, stop, hstart, hstop, rfl⟩ :=
      (foldlM_eq_ok_iff SpanDraft.add_eq_ok_iff hnames).mp hd
    cases start with
    | none => cases h
    | some p =>
        cases stop with
        | none => cases h
        | some q =>
            obtain rfl := Except.ok.inj h
            obtain ⟨j, hj, hp⟩ := filled_some_iff.mp hstart
            obtain ⟨k, hk, hq⟩ := filled_some_iff.mp hstop
            exact ⟨j, k, hj, hk, (hpoint hj).mp hp, (hpoint hk).mp hq⟩
  · rintro ⟨j, k, hj, hk, hp, hq⟩
    refine ⟨⟨some s.start, some s.stop⟩, ?_, rfl⟩
    refine (foldlM_eq_ok_iff SpanDraft.add_eq_ok_iff hnames).mpr ⟨_, _, ?_, ?_, rfl⟩
    · exact filled_some_iff.mpr ⟨j, hj, (hpoint hj).mpr hp⟩
    · exact filled_some_iff.mpr ⟨k, hk, (hpoint hk).mpr hq⟩

end Decode

/-! ### Locations -/

namespace Location

/-- Lines are accepted if they count from one, and are not changed. -/
theorem checkLines_eq_ok_iff {l l' : Location} :
    checkLines l = .ok l' ↔ l' = l ∧ 1 ≤ l.toSpan.start.line ∧ 1 ≤ l.toSpan.stop.line := by
  rw [checkLines]
  split
  · next hzero =>
      refine ⟨nofun, ?_⟩
      rintro ⟨-, hstart, hstop⟩
      omega
  · next hlines =>
      constructor
      · intro h
        obtain rfl := Except.ok.inj h
        exact ⟨rfl, by omega, by omega⟩
      · rintro ⟨rfl, -⟩
        rfl

/-- An object with a start or an end is decoded as a range. -/
theorem ofJson_of_ends {entries : Record Json} {l : Location}
    (hends : ¬ (Record.get? entries "start" = none ∧ Record.get? entries "end" = none)) :
    ofJson (.object entries) = .ok l ↔
      ∃ s, Decode.span (.object entries) = .ok s ∧ checkLines (.range s) = .ok l := by
  have hif : (Record.has entries "start" || Record.has entries "end") = true := by
    simp only [Record.has, Bool.or_eq_true, Option.isSome_iff_ne_none, ne_eq]
    tauto
  rw [ofJson, if_pos hif]
  cases Decode.span (.object entries) with
  | error e => simp
  | ok s => simp

/-- An object with neither is decoded as a point. -/
theorem ofJson_of_no_ends {entries : Record Json} {l : Location}
    (hstart : Record.get? entries "start" = none) (hstop : Record.get? entries "end" = none) :
    ofJson (.object entries) = .ok l ↔
      ∃ p, Decode.point (.object entries) = .ok p ∧ checkLines (.point p) = .ok l := by
  have hif : ¬ (Record.has entries "start" || Record.has entries "end") = true := by
    simp [Record.has, hstart, hstop]
  rw [ofJson, if_neg hif]
  cases Decode.point (.object entries) with
  | error e => simp
  | ok p => simp

/-- **A location is decoded exactly from what denotes it.** -/
theorem ofJson_eq_ok_iff {j : Json} (hdistinct : j.Distinct) {l : Location} :
    ofJson j = .ok l ↔ j.DenotesLocation l := by
  cases j with
  | null | bool b | number n | text s | array items => exact ⟨nofun, nofun⟩
  | object entries =>
      have hspan (s : Span) := Decode.span_object_eq_ok_iff hdistinct (s := s)
      have hpoint (p : Point) := Decode.point_eq_ok_iff hdistinct (p := p)
      constructor
      · intro h
        by_cases hends : Record.get? entries "start" = none ∧ Record.get? entries "end" = none
        · obtain ⟨p, hp, h⟩ := (ofJson_of_no_ends hends.1 hends.2).mp h
          obtain ⟨rfl, hline, -⟩ := checkLines_eq_ok_iff.mp h
          exact .point hends.1 hends.2 ((hpoint p).mp hp) hline
        · obtain ⟨s, hs, h⟩ := (ofJson_of_ends hends).mp h
          obtain ⟨rfl, hline, hline'⟩ := checkLines_eq_ok_iff.mp h
          obtain ⟨j, k, hj, hk, hp, hq⟩ := (hspan s).mp hs
          exact .range hj hk hp hq hline hline'
      · rintro (⟨hj, hk, hp, hq, hline, hline'⟩ | ⟨hstart, hstop, hp, hline⟩)
        · refine (ofJson_of_ends (by simp [hj])).mpr
            ⟨⟨_, _⟩, (hspan _).mpr ⟨_, _, hj, hk, hp, hq⟩, ?_⟩
          exact checkLines_eq_ok_iff.mpr ⟨rfl, hline, hline'⟩
        · refine (ofJson_of_no_ends hstart hstop).mpr ⟨_, (hpoint _).mpr hp, ?_⟩
          exact checkLines_eq_ok_iff.mpr ⟨rfl, hline, hline⟩

/-- All lines of what is denoted count from one. -/
theorem lines_of_denotesLocation {j : Json} {l : Location} (h : j.DenotesLocation l) :
    1 ≤ l.toSpan.start.line ∧ 1 ≤ l.toSpan.stop.line := by
  rcases h with ⟨-, -, -, -, hline, hline'⟩ | ⟨-, -, -, hline⟩
  · exact ⟨hline, hline'⟩
  · exact ⟨hline, hline⟩

/-- Locations are read one after the other. -/
theorem ofItems_eq_mapM (items : List Json) : ofItems items = items.mapM ofJson := by
  induction items with
  | nil => rfl
  | cons j rest ih => rw [ofItems, List.mapM_cons, ih]

/-- An array is a list of locations if each item is a location. -/
theorem listOfJson_array_eq_ok_iff {items : List Json} {ls : List Location} :
    listOfJson (.array items) = .ok ls ↔ items.mapM ofJson = .ok ls := by
  rw [listOfJson, ofItems_eq_mapM]
  cases items.mapM ofJson <;> simp [Except.mapError]

/-- An array is refused for the first item that is refused. -/
theorem listOfJson_array_eq_error_iff {items : List Json} {e : LocationError} :
    listOfJson (.array items) = .error e ↔
      ∃ fault, items.mapM ofJson = .error fault ∧ e = .malformed fault := by
  rw [listOfJson, ofItems_eq_mapM]
  cases items.mapM ofJson <;> simp [Except.mapError, eq_comm]

/-- A list of locations is one by one what its items denote. -/
theorem listOfJson_eq_ok_iff {items : List Json} (hdistinct : ∀ j ∈ items, j.Distinct)
    {ls : List Location} :
    listOfJson (.array items) = .ok ls ↔ List.Forall₂ Json.DenotesLocation items ls := by
  rw [listOfJson_array_eq_ok_iff, mapM_eq_ok_iff]
  constructor
  · exact fun h => forall₂_imp_of_mem_left h fun j hj l => (ofJson_eq_ok_iff (hdistinct j hj)).mp
  · exact fun h => forall₂_imp_of_mem_left h fun j hj l => (ofJson_eq_ok_iff (hdistinct j hj)).mpr

/-- What is wrong with a list of locations is what is wrong with the first item that denotes
none. -/
theorem listOfJson_eq_error_iff {items : List Json} (hdistinct : ∀ j ∈ items, j.Distinct)
    {e : LocationError} :
    listOfJson (.array items) = .error e ↔
      ∃ before j after fault, items = before ++ j :: after ∧
        (∀ k ∈ before, ∃ l, k.DenotesLocation l) ∧ (¬ ∃ l, j.DenotesLocation l) ∧
        ofJson j = .error fault ∧ e = .malformed fault := by
  rw [listOfJson_array_eq_error_iff]
  constructor
  · rintro ⟨fault, hfault, rfl⟩
    obtain ⟨before, j, after, rfl, hbefore, hj⟩ := mapM_eq_error_iff.mp hfault
    refine ⟨before, j, after, fault, rfl, fun k hk => ?_, ?_, hj, rfl⟩
    · obtain ⟨l, hl⟩ := hbefore k hk
      exact ⟨l, (ofJson_eq_ok_iff (hdistinct k (by simp [hk]))).mp hl⟩
    · rintro ⟨l, hl⟩
      rw [(ofJson_eq_ok_iff (hdistinct j (by simp))).mpr hl] at hj
      cases hj
  · rintro ⟨before, j, after, fault, rfl, hbefore, -, hj, rfl⟩
    refine ⟨fault, mapM_eq_error_iff.mpr ⟨before, j, after, rfl, fun k hk => ?_, hj⟩, rfl⟩
    obtain ⟨l, hl⟩ := hbefore k hk
    exact ⟨l, (ofJson_eq_ok_iff (hdistinct k (by simp [hk]))).mpr hl⟩

/-- All but arrays are refused as such. -/
theorem listOfJson_eq_notArray_iff {j : Json} :
    listOfJson j = .error .notArray ↔ ∀ items, j ≠ .array items := by
  cases j with
  | array items =>
      rw [listOfJson_array_eq_error_iff]
      refine ⟨?_, fun h => absurd rfl (h items)⟩
      rintro ⟨fault, -, h⟩
      cases h
  | null | bool b | number n | text s | object entries => exact ⟨fun _ => nofun, fun _ => rfl⟩

/-- A text that is JSON lists what its document does, and this uses no name twice. -/
theorem parseAll_of_json {text : String} {j : Json} (h : Json.parse text = .ok j) :
    j.Distinct ∧ parseAll text = listOfJson j := by
  refine ⟨Json.distinct_of_parse h, ?_⟩
  rw [parseAll, h]

/-- **Lists of locations are accepted by their grammar, and the first offender is named.** Only
what is no array is refused as such. An array in which no name is used twice, which is so for all
that is read from a text, is accepted exactly if each item denotes a location; the result is what
they denote, in order, and its lines count from one. Otherwise the error is that of the first item
that denotes none. -/
theorem listOfJson_exact (j : Json) :
    (listOfJson j = .error .notArray ↔ ∀ items, j ≠ .array items) ∧
    (∀ items, j = .array items → j.Distinct →
      (∀ ls, listOfJson j = .ok ls ↔ List.Forall₂ Json.DenotesLocation items ls) ∧
      ((∃ ls, listOfJson j = .ok ls) ↔ ∀ k ∈ items, ∃ l, k.DenotesLocation l) ∧
      (∀ ls, listOfJson j = .ok ls →
        ∀ l ∈ ls, 1 ≤ l.toSpan.start.line ∧ 1 ≤ l.toSpan.stop.line) ∧
      ∀ e, listOfJson j = .error e ↔
        ∃ before k after fault, items = before ++ k :: after ∧
          (∀ i ∈ before, ∃ l, i.DenotesLocation l) ∧ (¬ ∃ l, k.DenotesLocation l) ∧
          ofJson k = .error fault ∧ e = .malformed fault) ∧
    ∀ text, Json.parse text = .ok j → j.Distinct ∧ parseAll text = listOfJson j := by
  refine ⟨listOfJson_eq_notArray_iff, ?_, fun text => parseAll_of_json⟩
  rintro items rfl hdistinct
  have hitems : ∀ k ∈ items, k.Distinct := Json.distinct_array.mp hdistinct
  refine ⟨fun ls => listOfJson_eq_ok_iff hitems, ?_, ?_, fun e => listOfJson_eq_error_iff hitems⟩
  · rw [← exists_forall₂_iff]
    exact exists_congr fun ls => listOfJson_eq_ok_iff hitems
  · intro ls hls l hl
    obtain ⟨k, -, hkl⟩ := exists_mem_of_forall₂ ((listOfJson_eq_ok_iff hitems).mp hls) hl
    exact lines_of_denotesLocation hkl

/-- Two ranges and a point, in several forms and with entries that do not matter. -/
def mixed : List Json :=
  [.object [
      ("line", .text "none"),
      ("end", .object [("column", .null), ("line", .number (.int 9))]),
      ("start", .array [.number (.int 4), .number (.int 2)])],
    .object [("start", .array [.number (.int 1)]), ("end", .array [.number (.int 1), .null])],
    .object [("line", .number (.int 7)), ("note", .object [("line", .null)])]]

/-- A point on a line that there is not. -/
def lineZero : Json := .object [("line", .number (.int 0))]

/-- The list is accepted. With a line zero behind it, the list is refused for that, whatever comes
later. -/
theorem listOfJson_exact_mixed :
    (Json.array mixed).Distinct ∧
    listOfJson (.array mixed) =
      .ok [.range ⟨⟨4, some 2⟩, ⟨9, none⟩⟩, .range ⟨⟨1, none⟩, ⟨1, none⟩⟩, .point ⟨7, none⟩] ∧
    List.Forall₂ Json.DenotesLocation mixed
      [.range ⟨⟨4, some 2⟩, ⟨9, none⟩⟩, .range ⟨⟨1, none⟩, ⟨1, none⟩⟩, .point ⟨7, none⟩] ∧
    listOfJson (.array (mixed ++ [lineZero, .null])) = .error (.malformed .lineZero) := by
  have hdistinct : (Json.array (mixed ++ [lineZero, .null])).Distinct := by
    simp [mixed, lineZero, Json.Distinct, Json.DistinctEntries, Json.DistinctItems,
      Record.Distinct, Record.names]
  have hitems := Json.distinct_array.mp hdistinct
  have hmixed : (Json.array mixed).Distinct :=
    Json.distinct_array.mpr fun j hj => hitems j (List.mem_append_left _ hj)
  have hlist : listOfJson (.array mixed) =
      .ok [.range ⟨⟨4, some 2⟩, ⟨9, none⟩⟩, .range ⟨⟨1, none⟩, ⟨1, none⟩⟩, .point ⟨7, none⟩] :=
    rfl
  have hzero : ofJson lineZero = .error .lineZero := rfl
  obtain ⟨hok, hexists, -, -⟩ := (listOfJson_exact (.array mixed)).2.1 mixed rfl hmixed
  obtain ⟨-, -, -, herror⟩ := (listOfJson_exact (.array (mixed ++ [lineZero, .null]))).2.1 _ rfl
    hdistinct
  refine ⟨hmixed, hlist, (hok _).mp hlist, (herror _).mpr ?_⟩
  refine ⟨mixed, lineZero, [.null], .lineZero, rfl, hexists.mp ⟨_, hlist⟩, ?_, hzero, rfl⟩
  rintro ⟨l, hl⟩
  have hok := (ofJson_eq_ok_iff (hitems lineZero (by simp))).mpr hl
  cases hzero.symm.trans hok

end Location

end ContractQuery
