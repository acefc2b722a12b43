import ContractQuery.Proofs.Decoding
import ContractQuery.Proofs.Enclosure

/-!
# Spans with a Common Point

Spans intersect when one of them starts inside the other. This module compares the test with its
meaning, that some point with a column lies in both (`Span.Overlaps`). Spans with a common point
always intersect. For the converse the spans must not run backwards, and then there is a single
exception: a span from a whole line to a column of the same line intersects every span that starts
on that line, also one that starts behind the column (`Span.EndsBefore`). The start of the first
span agrees with all columns of its line, so it counts as lying in the second, although the first
span has ended there.

The exception needs a column at one end only. So it does not arise between spans that have columns
at both ends or at none, and functions at locations are affected only by such locations.

## Main results

* `Span.intersects_iff_overlaps_or`: when spans intersect.
* `Span.intersects_common_point`: **spans that intersect have a common point**.
* `Node.functionsAt_common_point`: **what a location has in common with the functions it touches**.
-/

namespace ContractQuery

namespace Point

instance (p q : Point) : Decidable (p.AtMost q) := inferInstanceAs (Decidable (_ ≠ _))

/-- A point is at most itself. -/
theorem AtMost.refl (p : Point) : p.AtMost p := (atMost_total p p).elim id id

/-- Points in order have lines in order. -/
theorem AtMost.line_le {p q : Point} (h : p.AtMost q) : p.line ≤ q.line := by
  rcases atMost_iff.mp h with h | ⟨h, -⟩ <;> omega

/-- A point without a column, or at the first column, is after no point of its line or of a later
one. -/
theorem atMost_of_line_le {p q : Point} (hline : p.line ≤ q.line)
    (hcolumn : ∀ c ∈ p.column, c = 0) : p.AtMost q := by
  rw [atMost_iff]
  rcases Nat.lt_or_eq_of_le hline with h | h
  · exact .inl h
  · refine .inr ⟨h, fun c hc d _ => ?_⟩
    have hzero := hcolumn c hc
    omega

end Point

namespace Span

variable {a b : Span}

/-- Some point with a column lies in both spans. -/
def Overlaps (a b : Span) : Prop :=
  ∃ p : Point, p.column.isSome ∧ a.contains p = true ∧ b.contains p = true

/-- The start is not after the end. -/
def Ordered (s : Span) : Prop := s.start.AtMost s.stop

/-- Both ends have a column, or neither has. -/
def Uniform (s : Span) : Prop := s.start.column.isSome = s.stop.column.isSome

/-- Both ends have a column. -/
def Exact (s : Span) : Prop := s.start.column.isSome ∧ s.stop.column.isSome

/-- The first span reaches from a whole line to a column of the line, and the second starts on
the line behind that column. -/
def EndsBefore (a b : Span) : Prop :=
  a.start.column = none ∧ a.start.line = a.stop.line ∧ b.start.line = a.stop.line ∧
    ∃ c ∈ a.stop.column, ∃ d ∈ b.start.column, c < d

instance (s : Span) : Decidable s.Ordered := inferInstanceAs (Decidable (Point.AtMost _ _))

instance (s : Span) : Decidable s.Uniform := inferInstanceAs (Decidable (_ = _))

instance (s : Span) : Decidable s.Exact := inferInstanceAs (Decidable (_ ∧ _))

/-! ### Spans with a common point intersect -/

/-- Overlap is symmetric. -/
theorem Overlaps.symm (h : a.Overlaps b) : b.Overlaps a := by
  obtain ⟨p, hp, ha, hb⟩ := h
  exact ⟨p, hp, hb, ha⟩

/-- **Spans with a common point intersect**, whatever their ends are: the later of the two starts
lies in both, since it is not after the common point. -/
theorem Overlaps.intersects (h : a.Overlaps b) : a.intersects b = true := by
  obtain ⟨p, hp, ha, hb⟩ := h
  rw [contains_iff] at ha hb
  rw [Span.intersects, Bool.or_eq_true, contains_iff, contains_iff]
  rcases Point.atMost_total b.start a.start with hlater | hlater
  · exact .inl ⟨hlater, ha.1.trans hb.2 hp⟩
  · exact .inr ⟨hlater, hb.1.trans ha.2 hp⟩

/-! ### Spans that intersect -/

/-- A start with a column that lies in the other span is a common point. -/
theorem overlaps_of_contains_start (ha : a.Ordered) (hcolumn : a.start.column.isSome)
    (h : b.contains a.start = true) : a.Overlaps b :=
  ⟨a.start, hcolumn, contains_iff.mpr ⟨.refl _, ha⟩, h⟩

/-- If a whole line lies in the other span and that span starts on it, the common point is this
start, unless the first span has ended before. -/
theorem overlaps_or_endsBefore_of_line_eq (ha : a.Ordered) (hb : b.Ordered)
    (hwhole : a.start.column = none) (hline : b.start.line = a.start.line)
    (hcolumn : b.start.column.isSome) : a.Overlaps b ∨ a.EndsBefore b := by
  have hstart : a.start.AtMost b.start := Point.atMost_of_line_le hline.ge (by simp [hwhole])
  by_cases hstop : b.start.AtMost a.stop
  · left
    exact (overlaps_of_contains_start hb hcolumn (contains_iff.mpr ⟨hstart, hstop⟩)).symm
  · right
    have hle := ha.line_le
    rw [Point.atMost_iff, not_or, not_and] at hstop
    have heq : b.start.line = a.stop.line := by omega
    have hbehind := hstop.2 heq
    simp only [not_forall, not_le, exists_prop] at hbehind
    obtain ⟨d, hd, c, hc, hlt⟩ := hbehind
    exact ⟨hwhole, by omega, heq, c, hc, d, hd, hlt⟩

/-- A whole line that lies in the other span gives a common point, unless the first span ends
before the other one starts. -/
theorem overlaps_or_endsBefore (ha : a.Ordered) (hb : b.Ordered) (hwhole : a.start.column = none)
    (h : b.contains a.start = true) : a.Overlaps b ∨ a.EndsBefore b := by
  obtain ⟨hafter, hbefore⟩ := contains_iff.mp h
  by_cases hfirst : b.start.line = a.start.line ∧ b.start.column.isSome
  · exact overlaps_or_endsBefore_of_line_eq ha hb hwhole hfirst.1 hfirst.2
  · -- The other span has begun before any column of the line.
    have hbegun : b.start.AtMost ⟨a.start.line, some 0⟩ := by
      cases hcolumn : b.start.column with
      | none => exact Point.atMost_of_line_le hafter.line_le (by simp [hcolumn])
      | some d =>
          have hne : b.start.line ≠ a.start.line := fun heq => hfirst ⟨heq, by simp [hcolumn]⟩
          have hle := hafter.line_le
          exact Point.atMost_iff.mpr (.inl (show b.start.line < a.start.line by omega))
    have hhere : a.start.AtMost ⟨a.start.line, some 0⟩ :=
      Point.atMost_of_line_le le_rfl (by simp [hwhole])
    have hstop : (⟨a.start.line, some 0⟩ : Point).AtMost a.stop :=
      Point.atMost_of_line_le ha.line_le (by simp)
    have hstop' : (⟨a.start.line, some 0⟩ : Point).AtMost b.stop :=
      Point.atMost_of_line_le hbefore.line_le (by simp)
    exact .inl ⟨⟨a.start.line, some 0⟩, rfl, contains_iff.mpr ⟨hhere, hstop⟩,
      contains_iff.mpr ⟨hbegun, hstop'⟩⟩

/-- If one span starts inside the other, they have a common point or the first ends before the
second starts. -/
theorem overlaps_or_endsBefore_of_contains (ha : a.Ordered) (hb : b.Ordered)
    (h : b.contains a.start = true) : a.Overlaps b ∨ a.EndsBefore b := by
  cases hcolumn : a.start.column with
  | none => exact overlaps_or_endsBefore ha hb hcolumn h
  | some c => exact .inl (overlaps_of_contains_start ha (by simp [hcolumn]) h)

/-- A span that ends before another one on the same line still intersects it. -/
theorem EndsBefore.intersects (h : a.EndsBefore b) (hb : b.Ordered) : a.intersects b = true := by
  obtain ⟨hwhole, hline, hline', -⟩ := h
  have hle := hb.line_le
  have hstart : b.start.AtMost a.start :=
    Point.atMost_iff.mpr (.inr ⟨by omega, by simp [hwhole]⟩)
  have hstop : a.start.AtMost b.stop := Point.atMost_of_line_le (by omega) (by simp [hwhole])
  rw [Span.intersects, contains_iff.mpr ⟨hstart, hstop⟩, Bool.true_or]

/-- A span that ends before another one has no point in common with it. -/
theorem EndsBefore.not_overlaps (h : a.EndsBefore b) : ¬ a.Overlaps b := by
  rintro ⟨p, hp, ha, hb⟩
  obtain ⟨-, -, hline, c, hc, d, hd, hlt⟩ := h
  -- Through the common point, the start of the second span is not after the end of the first.
  have hback : b.start.AtMost a.stop :=
    (contains_iff.mp hb).1.trans (contains_iff.mp ha).2 hp
  rcases Point.atMost_iff.mp hback with hback | ⟨-, hback⟩
  · omega
  · have hle := hback d hd c hc
    omega

/-- **When spans intersect** that do not run backwards: they have a common point, or one of them
starts at a whole line and ends on this line before the other one starts. -/
theorem intersects_iff_overlaps_or (ha : a.Ordered) (hb : b.Ordered) :
    a.intersects b = true ↔ a.Overlaps b ∨ a.EndsBefore b ∨ b.EndsBefore a := by
  constructor
  · intro h
    rw [Span.intersects, Bool.or_eq_true] at h
    rcases h with h | h
    · exact (overlaps_or_endsBefore_of_contains ha hb h).imp_right .inl
    · exact (overlaps_or_endsBefore_of_contains hb ha h).imp Overlaps.symm .inr
  · rintro (h | h | h)
    · exact h.intersects
    · exact h.intersects hb
    · rw [intersects_comm]
      exact h.intersects ha

/-- A span that ends at a column of the line with which it starts has a column at one end only. -/
theorem EndsBefore.not_uniform (h : a.EndsBefore b) : ¬ a.Uniform := by
  obtain ⟨hwhole, -, -, c, hc, -⟩ := h
  have hstop : a.stop.column = some c := hc
  simp [Uniform, hwhole, hstop]

/-- **Spans that intersect have a common point.** Spans with a common point intersect, whatever
their ends are. Conversely, spans that do not run backwards and have columns at both ends or at
none intersect only if they have a common point. -/
theorem intersects_common_point (a b : Span) :
    (a.Overlaps b → a.intersects b = true) ∧
      (a.Uniform → b.Uniform → a.Ordered → b.Ordered → a.intersects b = true → a.Overlaps b) := by
  refine ⟨Overlaps.intersects, ?_⟩
  intro ha hb haordered hbordered h
  rcases (intersects_iff_overlaps_or haordered hbordered).mp h with h | h | h
  · exact h
  · exact absurd ha h.not_uniform
  · exact absurd hb h.not_uniform

/-- The lines three to five have a point in common with a span that starts on line five; and a span
that ends with a whole line intersects one that starts with this line and ends at a column. -/
theorem intersects_common_point_lines :
    (Span.lines 3 5).intersects ⟨⟨5, some 7⟩, ⟨9, some 0⟩⟩ = true ∧
      (Span.lines 3 5).Overlaps ⟨⟨5, some 7⟩, ⟨9, some 0⟩⟩ ∧
      (⟨⟨1, some 9⟩, ⟨4, none⟩⟩ : Span).Overlaps ⟨⟨4, none⟩, ⟨4, some 3⟩⟩ ∧
      (⟨⟨1, some 9⟩, ⟨4, none⟩⟩ : Span).intersects ⟨⟨4, none⟩, ⟨4, some 3⟩⟩ = true := by
  have hcommon : (⟨⟨1, some 9⟩, ⟨4, none⟩⟩ : Span).Overlaps ⟨⟨4, none⟩, ⟨4, some 3⟩⟩ :=
    ⟨⟨4, some 2⟩, by decide, by decide, by decide⟩
  exact ⟨by decide,
    (intersects_common_point _ _).2 (by decide) (by decide) (by decide) (by decide) (by decide),
    hcommon, (intersects_common_point _ _).1 hcommon⟩

end Span

/-! ### Functions at locations -/

/-- A range that fits and has no line zero is accepted as a location. -/
theorem Location.ofJson_toJson {s : Span} (hfits : s.Fits) (hstart : s.start.line ≠ 0)
    (hstop : s.stop.line ≠ 0) : Location.ofJson s.toJson = .ok (.range s) := by
  have hlines : ¬ ((range s).toSpan.start.line = 0 ∨ (range s).toSpan.stop.line = 0) :=
    not_or.mpr ⟨hstart, hstop⟩
  have hspan := Decode.span_toJson hfits
  rw [Span.toJson] at hspan ⊢
  rw [ofJson, if_pos (by simp [Record.has, Record.get?_cons]), hspan]
  simp only [checkLines, if_neg hlines]

namespace Node

/-- **What a location has in common with the functions it touches.** For locations that do not run
backwards, a span with columns that does not run backwards is intersected by those that have a
point in common with it, and by those that start at a whole line and end on this line before the
span starts. So each function that is found has a point in common with some location, or starts on
the line of a location that ends there before it. -/
theorem functionsAt_common_point (root : Node) (locations : List Location)
    (hordered : ∀ l ∈ locations, l.toSpan.Ordered) :
    (∀ l ∈ locations, ∀ span : Span, span.Exact → span.Ordered →
      (l.toSpan.intersects span = true ↔ l.toSpan.Overlaps span ∨ l.toSpan.EndsBefore span)) ∧
    ∀ names, root.functionsAt locations = .ok names →
      ∃ found : List Occurrence, found.Sublist root.occurrences ∧
        found.map Occurrence.qualifiedName = names ∧
        ∀ o ∈ found, o.node.kind = .functionDefinition ∧ ∃ span, o.node.span = some span ∧
          (span.Exact → span.Ordered →
            ∃ l ∈ locations, l.toSpan.Overlaps span ∨ l.toSpan.EndsBefore span) := by
  have hmeets : ∀ l ∈ locations, ∀ span : Span, span.Exact → span.Ordered →
      (l.toSpan.intersects span = true ↔ l.toSpan.Overlaps span ∨ l.toSpan.EndsBefore span) := by
    intro l hl span hexact hspan
    have hnever : ¬ span.EndsBefore l.toSpan := fun h => by simpa [h.1] using hexact.1
    rw [Span.intersects_iff_overlaps_or (hordered l hl) hspan, or_iff_left hnever]
  refine ⟨hmeets, fun names hnames => ?_⟩
  rw [functionsAt_eq] at hnames
  split at hnames
  · cases hnames
  · refine ⟨_, List.filter_sublist, Except.ok.inj hnames, fun o ho => ?_⟩
    obtain ⟨hkind, -, span, hspan, l, hl, hintersects⟩ :=
      of_decide_eq_true (List.mem_filter.mp ho).2
    exact ⟨hkind, span, hspan, fun hexact hspan =>
      ⟨l, hl, (hmeets l hl span hexact hspan).mp hintersects⟩⟩

/-- A contract with a function that ends on line six and one that starts behind it on this line. -/
def payments : Node :=
  ⟨.sourceUnit, none, [
    ("children", .list [
      .node .contractDefinition (some ⟨⟨1, some 0⟩, ⟨20, some 0⟩⟩) [
        ("name", .text "Bank"),
        ("subNodes", .list [
          .node .functionDefinition (some ⟨⟨3, some 4⟩, ⟨6, some 5⟩⟩) [("name", .text "pay")],
          .node .functionDefinition (some ⟨⟨6, some 10⟩, ⟨9, some 5⟩⟩) [
            ("name", .text "refund")]])]])]⟩

/-- The range from a column of line four to all of line six. -/
def intoLine : Span := ⟨⟨4, some 2⟩, ⟨6, none⟩⟩

/-- It has points in common with both functions. -/
theorem functionsAt_intoLine :
    intoLine.Ordered ∧
      payments.functionsAt [.range intoLine] = .ok ["Bank.pay", "Bank.refund"] ∧
      ∃ found : List Occurrence,
        found.map Occurrence.qualifiedName = ["Bank.pay", "Bank.refund"] ∧
        ∀ o ∈ found, ∃ span, o.node.span = some span ∧
          (span.Exact → span.Ordered → intoLine.Overlaps span) := by
  have hordered : intoLine.Ordered := by decide
  have hfunctions : payments.functionsAt [.range intoLine] = .ok ["Bank.pay", "Bank.refund"] := rfl
  obtain ⟨-, hfound⟩ := functionsAt_common_point payments [.range intoLine]
    (by simpa [Location.toSpan] using hordered)
  obtain ⟨found, -, hnames, hcommon⟩ := hfound _ hfunctions
  refine ⟨hordered, hfunctions, found, hnames, fun o ho => ?_⟩
  obtain ⟨-, span, hspan, hshares⟩ := hcommon o ho
  refine ⟨span, hspan, fun hexact hspan => ?_⟩
  obtain ⟨l, hl, h⟩ := hshares hexact hspan
  obtain rfl := List.mem_singleton.mp hl
  rcases h with h | h
  · exact h
  · cases h.1

/-- The range from all of line six to column seven of this line. -/
def partOfLine : Span := ⟨⟨6, none⟩, ⟨6, some 7⟩⟩

/-- The range is accepted as a location and does not run backwards. It has no point in common with
the second function, which starts at column ten, but this function is found as well. -/
theorem functionsAt_partOfLine :
    Location.listOfJson (.array [partOfLine.toJson]) = .ok [.range partOfLine] ∧
      partOfLine.Ordered ∧ (⟨⟨6, some 10⟩, ⟨9, some 5⟩⟩ : Span).Exact ∧
      (⟨⟨6, some 10⟩, ⟨9, some 5⟩⟩ : Span).Ordered ∧
      partOfLine.intersects ⟨⟨6, some 10⟩, ⟨9, some 5⟩⟩ = true ∧
      ¬ partOfLine.Overlaps ⟨⟨6, some 10⟩, ⟨9, some 5⟩⟩ ∧
      payments.functionsAt [.range partOfLine] = .ok ["Bank.pay", "Bank.refund"] := by
  have hjson : Location.ofJson partOfLine.toJson = .ok (.range partOfLine) :=
    Location.ofJson_toJson (by decide) (by decide) (by decide)
  have hends : partOfLine.EndsBefore ⟨⟨6, some 10⟩, ⟨9, some 5⟩⟩ :=
    ⟨rfl, rfl, rfl, 7, rfl, 10, rfl, by decide⟩
  refine ⟨?_, by decide, by decide, by decide, hends.intersects (by decide), hends.not_overlaps,
    rfl⟩
  simp only [Location.listOfJson, Location.ofItems, hjson]
  rfl

end Node

end ContractQuery
