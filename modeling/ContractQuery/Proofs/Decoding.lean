import ContractQuery.Span.Decode

/-!
# Points and Spans as JSON

A point is written as an object with its line and its column, which is null if there is none, and
a span as an object with its start and its end. Reading takes other forms as well, but what it
reads always fits: lines and columns are counts below `2^64`. So the spans that can be read are
exactly those that fit.

An object is read by a fold over its entries that may fail. What each entry keeps of a draft, the
whole object keeps (`foldlM_preserves`).

## Main results

* `Decode.span_toJson`: **a span that fits is read back as it was written**.
* `Decode.fits_of_span`: **what is read fits**.
-/

namespace ContractQuery

universe u v w

/-- A step that may fail is taken with its result. -/
theorem bind_eq_ok_iff {ε : Type u} {α β : Type v} {x : Except ε α} {f : α → Except ε β} {b : β} :
    (x >>= f) = .ok b ↔ ∃ a, x = .ok a ∧ f a = .ok b := by
  cases x <;> simp [bind, Except.bind]

/-- What each step of a fold keeps, the fold keeps. -/
theorem foldlM_preserves {ε : Type u} {α : Type v} {β : Type w} {f : α → β → Except ε α}
    {P : α → Prop} (hstep : ∀ a b a', P a → f a b = .ok a' → P a') {bs : List β} {a a' : α}
    (ha : P a) (h : bs.foldlM f a = .ok a') : P a' := by
  induction bs generalizing a with
  | nil =>
      obtain rfl : a = a' := by simpa [pure, Except.pure] using h
      exact ha
  | cons b bs ih =>
      rw [List.foldlM_cons, bind_eq_ok_iff] at h
      obtain ⟨c, hc, h⟩ := h
      exact ih (hstep a b c ha hc) h

/-! ### What fits -/

/-- Line and column are counts below `2^64`. -/
def Point.Fits (p : Point) : Prop :=
  p.line < Nat.pow 2 64 ∧ ∀ c ∈ p.column, c < Nat.pow 2 64

/-- Both ends of the span fit. -/
def Span.Fits (s : Span) : Prop := s.start.Fits ∧ s.stop.Fits

instance (p : Point) : Decidable p.Fits := inferInstanceAs (Decidable (_ ∧ _))

instance (s : Span) : Decidable s.Fits := inferInstanceAs (Decidable (_ ∧ _))

/-! ### Writing -/

/-- A point as JSON. -/
def Point.toJson (p : Point) : Json :=
  .object [
    ("line", .number (.int p.line)),
    ("column", p.column.elim .null fun c => .number (.int c))]

/-- A span as JSON. -/
def Span.toJson (s : Span) : Json :=
  .object [("start", s.start.toJson), ("end", s.stop.toJson)]

namespace Decode

/-- A count that fits is read back. -/
theorem count_natCast {n : Nat} (h : n < Nat.pow 2 64) : count (.number (.int n)) = .ok n := by
  rw [count, if_pos ⟨Int.natCast_nonneg n, Int.ofNat_lt.mpr h⟩, Int.toNat_natCast]

/-- A column that fits is read back. -/
theorem column_elim {c : Option Nat} (h : ∀ n ∈ c, n < Nat.pow 2 64) :
    Decode.column (c.elim .null fun n => .number (.int n)) = .ok c := by
  cases c with
  | none => rfl
  | some n =>
      rw [Option.elim_some, Decode.column, count_natCast (h n rfl)]
      · rfl
      · simp

/-- An object with a line and a column is a point. -/
theorem point_object {j k : Json} {n : Nat} {c : Option Nat} (hline : count j = .ok n)
    (hcolumn : Decode.column k = .ok c) :
    point (.object [("line", j), ("column", k)]) = .ok ⟨n, c⟩ := by
  have hadd : PointDraft.add ⟨none, none⟩ ("line", j) = .ok ⟨some n, none⟩ :=
    bind_eq_ok_iff.mpr ⟨n, hline, rfl⟩
  have hadd' : PointDraft.add ⟨some n, none⟩ ("column", k) = .ok ⟨some n, c⟩ :=
    bind_eq_ok_iff.mpr ⟨c, hcolumn, rfl⟩
  have hentries : [("line", j), ("column", k)].foldlM PointDraft.add ⟨none, none⟩ =
      .ok ⟨some n, c⟩ :=
    bind_eq_ok_iff.mpr ⟨_, hadd, bind_eq_ok_iff.mpr ⟨_, hadd', rfl⟩⟩
  exact bind_eq_ok_iff.mpr ⟨_, hentries, rfl⟩

/-- A point that fits is read back. -/
theorem point_toJson {p : Point} (h : p.Fits) : point p.toJson = .ok p :=
  point_object (count_natCast h.1) (column_elim h.2)

/-- An object with a start and an end is a span. -/
theorem span_object {j k : Json} {p q : Point} (hstart : point j = .ok p)
    (hend : point k = .ok q) : span (.object [("start", j), ("end", k)]) = .ok ⟨p, q⟩ := by
  have hadd : SpanDraft.add ⟨none, none⟩ ("start", j) = .ok ⟨some p, none⟩ :=
    bind_eq_ok_iff.mpr ⟨p, hstart, rfl⟩
  have hadd' : SpanDraft.add ⟨some p, none⟩ ("end", k) = .ok ⟨some p, some q⟩ :=
    bind_eq_ok_iff.mpr ⟨q, hend, rfl⟩
  have hentries : [("start", j), ("end", k)].foldlM SpanDraft.add ⟨none, none⟩ =
      .ok ⟨some p, some q⟩ :=
    bind_eq_ok_iff.mpr ⟨_, hadd, bind_eq_ok_iff.mpr ⟨_, hadd', rfl⟩⟩
  exact bind_eq_ok_iff.mpr ⟨_, hentries, rfl⟩

/-- **A span that fits is read back** as it was written. -/
theorem span_toJson {s : Span} (h : s.Fits) : span s.toJson = .ok s :=
  span_object (point_toJson h.1) (point_toJson h.2)

/-! ### Reading -/

/-- A count that was read fits. -/
theorem lt_of_count {j : Json} {n : Nat} (h : count j = .ok n) : n < Nat.pow 2 64 := by
  unfold count at h
  split at h
  · next m =>
      split at h
      · next hm =>
          obtain rfl := Except.ok.inj h
          -- The bound is no number to compute with.
          generalize Nat.pow 2 64 = bound at hm ⊢
          omega
      · cases h
  · cases h

/-- A column that was read fits. -/
theorem lt_of_column {j : Json} {c : Option Nat} (h : column j = .ok c) :
    ∀ n ∈ c, n < Nat.pow 2 64 := by
  unfold column at h
  split at h
  · obtain rfl := Except.ok.inj h
    simp
  · obtain ⟨n, hn, hc⟩ := bind_eq_ok_iff.mp h
    obtain rfl := Except.ok.inj hc
    simpa using lt_of_count hn

/-- What is known of a point fits. -/
def PointDraft.Fits (d : PointDraft) : Prop :=
  (∀ n ∈ d.line, n < Nat.pow 2 64) ∧ ∀ n ∈ d.column, n < Nat.pow 2 64

/-- An entry that is accepted keeps a draft of a point within bounds. -/
theorem PointDraft.Fits.add {d d' : PointDraft} {entry : String × Json} (hd : d.Fits)
    (h : d.add entry = .ok d') : d'.Fits := by
  unfold PointDraft.add at h
  split at h
  · obtain ⟨n, hn, hd'⟩ := bind_eq_ok_iff.mp h
    obtain rfl := Except.ok.inj hd'
    exact ⟨by simpa using lt_of_count hn, hd.2⟩
  · obtain ⟨c, hc, hd'⟩ := bind_eq_ok_iff.mp h
    obtain rfl := Except.ok.inj hd'
    exact ⟨hd.1, lt_of_column hc⟩
  · obtain rfl := Except.ok.inj h
    exact hd

/-- A point that was read fits. -/
theorem fits_of_point {j : Json} {p : Point} (h : point j = .ok p) : p.Fits := by
  unfold point at h
  split at h
  · next entries =>
      obtain ⟨d, hd, h⟩ := bind_eq_ok_iff.mp h
      have hstart : PointDraft.Fits ⟨none, none⟩ := ⟨by simp, by simp⟩
      have hfits : d.Fits := foldlM_preserves (fun _ _ _ hd h => hd.add h) hstart hd
      split at h
      · next line hline =>
          obtain rfl := Except.ok.inj h
          exact ⟨hfits.1 line hline, hfits.2⟩
      · cases h
  · cases h
  · obtain ⟨n, hn, h⟩ := bind_eq_ok_iff.mp h
    obtain rfl := Except.ok.inj h
    exact ⟨lt_of_count hn, by simp⟩
  · obtain ⟨n, hn, h⟩ := bind_eq_ok_iff.mp h
    obtain ⟨c, hc, h⟩ := bind_eq_ok_iff.mp h
    split at h
    · obtain rfl := Except.ok.inj h
      exact ⟨lt_of_count hn, lt_of_column hc⟩
    · cases h
  · cases h

/-- What is known of a span fits. -/
def SpanDraft.Fits (d : SpanDraft) : Prop :=
  (∀ p ∈ d.start, p.Fits) ∧ ∀ p ∈ d.stop, p.Fits

/-- An entry that is accepted keeps a draft of a span within bounds. -/
theorem SpanDraft.Fits.add {d d' : SpanDraft} {entry : String × Json} (hd : d.Fits)
    (h : d.add entry = .ok d') : d'.Fits := by
  unfold SpanDraft.add at h
  split at h
  · obtain ⟨p, hp, hd'⟩ := bind_eq_ok_iff.mp h
    obtain rfl := Except.ok.inj hd'
    exact ⟨by simpa using fits_of_point hp, hd.2⟩
  · obtain ⟨p, hp, hd'⟩ := bind_eq_ok_iff.mp h
    obtain rfl := Except.ok.inj hd'
    exact ⟨hd.1, by simpa using fits_of_point hp⟩
  · obtain rfl := Except.ok.inj h
    exact hd

/-- **What is read fits.** -/
theorem fits_of_span {j : Json} {s : Span} (h : span j = .ok s) : s.Fits := by
  unfold span at h
  split at h
  · next entries =>
      obtain ⟨d, hd, h⟩ := bind_eq_ok_iff.mp h
      have hstart : SpanDraft.Fits ⟨none, none⟩ := ⟨by simp, by simp⟩
      have hfits : d.Fits := foldlM_preserves (fun _ _ _ hd h => hd.add h) hstart hd
      split at h
      · next start stop hstart hstop =>
          obtain rfl := Except.ok.inj h
          exact ⟨hfits.1 start hstart, hfits.2 stop hstop⟩
      · cases h
      · cases h
  · cases h
  · obtain ⟨p, -, h⟩ := bind_eq_ok_iff.mp h
    cases h
  · obtain ⟨p, hp, h⟩ := bind_eq_ok_iff.mp h
    obtain ⟨q, hq, h⟩ := bind_eq_ok_iff.mp h
    split at h
    · obtain rfl := Except.ok.inj h
      exact ⟨fits_of_point hp, fits_of_point hq⟩
    · cases h
  · cases h

end Decode

end ContractQuery
