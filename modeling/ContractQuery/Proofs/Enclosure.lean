import ContractQuery.Proofs.Conversion
import ContractQuery.Proofs.Nesting

/-!
# Spans inside Spans

A location that meets a span also meets every span around it, also if the location is a whole
line, a range with a whole line at one end, or a range whose start lies after its end
(`Span.Within.intersects`). Comparison of points is not transitive, since a whole line agrees
with all of its columns; but it is transitive through a point that has a column
(`Point.AtMost.trans`), and the spans of a converted tree end in such points.

In a concrete tree whose nodes lie inside their parents, the span of a function lies inside that
of the contract around it. So a location that touches a function touches its contract, and going
past the contracts that no location touches loses nothing.

## Main results

* `Span.Within.intersects`: what meets a span meets the spans around it.
* `Concrete.Info.Encloses.within`: the last characters keep spans inside one another.
* `Concrete.functionsAt_eq_touched`: **a contract that is gone past hides no function**.
-/

namespace ContractQuery

/-! ### Points in order -/

namespace Point

/-- The first point is not after the second. -/
def AtMost (p q : Point) : Prop := p.compare q ≠ .gt

/-- Comparing the other way round gives the opposite answer. -/
theorem compare_swap (p q : Point) : (p.compare q).swap = q.compare p := by
  unfold compare
  rw [← Nat.compare_swap q.line p.line]
  cases Ord.compare q.line p.line <;> try rfl
  cases p.column <;> cases q.column <;> try rfl
  exact Nat.compare_swap _ _

/-- Not being after, by line and column: a missing column is after none. -/
theorem atMost_iff {p q : Point} : p.AtMost q ↔
    p.line < q.line ∨ p.line = q.line ∧ ∀ c ∈ p.column, ∀ d ∈ q.column, c ≤ d := by
  unfold AtMost compare
  rcases Nat.lt_trichotomy p.line q.line with h | h | h
  · simp [Nat.compare_eq_lt.mpr h, h]
  · rw [Nat.compare_eq_eq.mpr h]
    cases p.column <;> cases q.column <;> simp [h, Nat.compare_ne_gt]
  · simp [Nat.compare_eq_gt.mpr h, Nat.not_lt_of_gt h, Nat.ne_of_gt h]

/-- With columns, points are ordered by line and then by column. -/
theorem atMost_mk_some {l m c d : Nat} :
    (⟨l, some c⟩ : Point).AtMost ⟨m, some d⟩ ↔ l < m ∨ l = m ∧ c ≤ d := by
  simp [atMost_iff]

/-- One of two points is not after the other. -/
theorem atMost_total (p q : Point) : p.AtMost q ∨ q.AtMost p := by
  by_cases h : p.compare q = .gt
  · right
    rw [AtMost, ← compare_swap, h]
    decide
  · exact .inl h

/-- Not being after is transitive through a point with a column. -/
theorem AtMost.trans {p m q : Point} (hp : p.AtMost m) (hq : m.AtMost q)
    (hm : m.column.isSome) : p.AtMost q := by
  rw [atMost_iff] at hp hq ⊢
  rcases hp with hp | ⟨hpline, hpcolumn⟩
  · left
    omega
  · rcases hq with hq | ⟨hqline, hqcolumn⟩
    · left
      omega
    · right
      refine ⟨hpline.trans hqline, fun c hc d hd => ?_⟩
      obtain ⟨e, he⟩ := Option.isSome_iff_exists.mp hm
      exact (hpcolumn c hc e he).trans (hqcolumn e he d hd)

end Point

/-! ### Spans inside one another -/

namespace Span

/-- A span contains the points that are neither before its start nor after its end. -/
theorem contains_iff {s : Span} {p : Point} :
    s.contains p = true ↔ s.start.AtMost p ∧ p.AtMost s.stop := by
  have hstart : p.compare s.start ≠ .lt ↔ s.start.AtMost p := by
    rw [Point.AtMost, ← Point.compare_swap p s.start]
    cases p.compare s.start <;> decide
  rw [contains, Bool.and_eq_true, bne_iff_ne, bne_iff_ne, hstart]
  rfl

/-- The first span lies inside the second, and both of its ends have a column. -/
structure Within (inner outer : Span) : Prop where
  start_atMost : outer.start.AtMost inner.start
  atMost : inner.start.AtMost inner.stop
  stop_atMost : inner.stop.AtMost outer.stop
  start_column : inner.start.column.isSome
  stop_column : inner.stop.column.isSome

/-- **What meets a span meets the spans around it**, whatever its own ends are. -/
theorem Within.intersects {inner outer query : Span} (h : inner.Within outer)
    (hquery : query.intersects inner = true) : query.intersects outer = true := by
  rw [Span.intersects, Bool.or_eq_true, contains_iff, contains_iff] at hquery ⊢
  rcases hquery with ⟨hafter, hbefore⟩ | ⟨hafter, hbefore⟩
  · exact .inl ⟨h.start_atMost.trans hafter h.start_column,
      hbefore.trans h.stop_atMost h.stop_column⟩
  · -- The query has the inner start in it, so it reaches back to the outer start or begins
    -- between the two.
    rcases Point.atMost_total query.start outer.start with hback | hbetween
    · exact .inr ⟨hback, h.start_atMost.trans hbefore h.start_column⟩
    · have hstart : inner.start.AtMost outer.stop := h.atMost.trans h.stop_atMost h.stop_column
      exact .inl ⟨hbetween, hafter.trans hstart h.start_column⟩

end Span

/-- Some location meets a node if one meets a node inside it. -/
theorem Node.Touched.of_within {locations : List Location} {inner outer : Node}
    {s t : Span} (hinner : inner.span = some s) (houter : outer.span = some t)
    (hwithin : s.Within t) (h : inner.Touched locations) : outer.Touched locations := by
  obtain ⟨span, hspan, l, hl, hmeets⟩ := h
  obtain rfl : s = span := Option.some.inj (hinner.symm.trans hspan)
  exact ⟨t, houter, l, hl, hwithin.intersects hmeets⟩

/-! ### Concrete trees whose nodes lie inside their parents -/

/-- The first position is not after the second. -/
def Position.AtMost (p q : Position) : Prop :=
  p.row < q.row ∨ p.row = q.row ∧ p.column ≤ q.column

instance (p q : Position) : Decidable (p.AtMost q) := inferInstanceAs (Decidable (_ ∨ _ ∧ _))

/-- The order of positions is transitive. -/
theorem Position.AtMost.trans {p q r : Position} (h : p.AtMost q) (h' : q.AtMost r) :
    p.AtMost r := by
  unfold AtMost at *
  omega

namespace Concrete

namespace Info

/-- The range of the first node has the range of the second in it. -/
def Encloses (outer inner : Info) : Prop :=
  outer.start.AtMost inner.start ∧ inner.stop.AtMost outer.stop

instance (outer inner : Info) : Decidable (outer.Encloses inner) :=
  inferInstanceAs (Decidable (_ ∧ _))

/-- What is inside something inside is inside. -/
theorem Encloses.trans {a b c : Info} (h : a.Encloses b) (h' : b.Encloses c) : a.Encloses c :=
  ⟨h.1.trans h'.1, h'.2.trans h.2⟩

/-- The last characters keep spans inside one another, as long as both nodes cover some text. -/
theorem Encloses.within {outer inner : Info} (h : outer.Encloses inner)
    (houter : outer.isNonempty = true) (hinner : inner.isNonempty = true) :
    inner.span.Within outer.span := by
  obtain ⟨hstart, hstop⟩ := h
  have hcovers : inner.start.row < inner.stop.row ∨
      inner.start.row = inner.stop.row ∧ inner.start.column < inner.stop.column := by
    simpa [isNonempty] using hinner
  unfold Position.AtMost at hstart hstop
  constructor
  · rw [span, span, Point.atMost_mk_some]
    omega
  · simp only [span, hinner, if_true, Point.atMost_mk_some]
    omega
  · simp only [span, houter, hinner, if_true, Point.atMost_mk_some]
    omega
  · rfl
  · rfl

end Info

/-- The nodes above a subtree have it inside them if each node has its children inside. -/
theorem encloses_of_mem_subtreesBelow {c : Concrete} {above : List Info} {p : Subtree}
    (hnests : ∀ p ∈ c.subtreesBelow above, ∀ child ∈ p.node.children,
      p.node.info.Encloses child.info)
    (habove : ∀ a ∈ above, a.Encloses c.info) (hp : p ∈ c.subtreesBelow above) :
    ∀ a ∈ p.above, a.Encloses p.node.info := by
  induction c using inductionOn generalizing above with
  | mk info children ih =>
      rw [subtreesBelow, List.mem_cons] at hp
      rw [subtreesBelow, List.forall_mem_cons] at hnests
      rcases hp with rfl | hp
      · exact habove
      · obtain ⟨hhere, hbelow⟩ := hnests
        obtain ⟨c, hc, hp⟩ := mem_subtreesIn.mp hp
        refine ih c hc (fun q hq => hbelow q (mem_subtreesIn.mpr ⟨c, hc, hq⟩)) ?_ hp
        have hchild : info.Encloses c.info := hhere c hc
        exact List.forall_mem_cons.mpr ⟨hchild, fun a ha => (habove a ha).trans hchild⟩

/-- The nodes above a subtree are roots of subtrees themselves, or were above from the start. -/
theorem exists_subtree_of_mem_above {c : Concrete} {above : List Info} {p : Subtree}
    (hp : p ∈ c.subtreesBelow above) {i : Info} (hi : i ∈ p.above) :
    i ∈ above ∨ ∃ q ∈ c.subtreesBelow above, q.node.info = i := by
  induction c using inductionOn generalizing above with
  | mk info children ih =>
      rw [subtreesBelow, List.mem_cons] at hp
      rw [subtreesBelow]
      rcases hp with rfl | hp
      · exact .inl hi
      · obtain ⟨c, hc, hp⟩ := mem_subtreesIn.mp hp
        rcases ih c hc hp with habove | ⟨q, hq, hqi⟩
        · rcases List.mem_cons.mp habove with rfl | habove
          · exact .inr ⟨_, List.mem_cons_self, rfl⟩
          · exact .inl habove
        · exact .inr ⟨q, List.mem_cons_of_mem _ (mem_subtreesIn.mpr ⟨c, hc, hq⟩), hqi⟩

end Concrete

/-- A function that is in no other function. -/
def Occurrence.IsOutermost (o : Occurrence) : Prop :=
  o.node.kind = .functionDefinition ∧ ∀ a ∈ o.ancestors, a.kind ≠ .functionDefinition

instance : DecidablePred Occurrence.IsOutermost := fun o =>
  inferInstanceAs (Decidable (_ ∧ ∀ a ∈ o.ancestors, _))

namespace Concrete

variable {source : String} {root : Concrete} {locations : List Location}

/-- A location that touches a function touches the contracts around it. -/
theorem touched_of_mem_ancestors
    (hnests : ∀ p ∈ root.subtrees, ∀ child ∈ p.node.children, p.node.info.Encloses child.info)
    (hnonempty : ∀ p ∈ root.subtrees, p.node.info.kind ∈ contractKinds ++ functionKinds →
      p.node.info.isNonempty = true)
    {o : Occurrence} (ho : o ∈ (root.toNode source).occurrences)
    (hkind : o.node.kind = .functionDefinition) (htouched : o.node.Touched locations)
    {a : Node} (ha : a ∈ o.ancestors) (hcontract : a.kind = .contractDefinition) :
    a.Touched locations := by
  obtain ⟨p, hp, ⟨hpkind, hpspan⟩, habove⟩ := exists_subtree_of_mem_occurrences ho
  obtain ⟨i, hi, hikind, hispan⟩ := exists_mem_of_forall₂ habove ha
  obtain ⟨q, hq, hqinfo⟩ : ∃ q ∈ root.subtrees, q.node.info = i :=
    (exists_subtree_of_mem_above hp hi).resolve_left (by simp)
  have hcovers : i.isNonempty = true := by
    rw [← hqinfo]
    refine hnonempty q hq (List.mem_append_left _ ?_)
    rw [hqinfo]
    exact Info.treeKind_eq_contractDefinition_iff.mp (hikind.symm.trans hcontract)
  have hcovers' : p.node.info.isNonempty = true := by
    refine hnonempty p hp (List.mem_append_right _ ?_)
    exact Info.treeKind_eq_functionDefinition_iff.mp (hpkind.symm.trans hkind)
  have hencloses : i.Encloses p.node.info :=
    encloses_of_mem_subtreesBelow hnests (by simp) hp i hi
  exact htouched.of_within hpspan hispan (hencloses.within hcovers hcovers')

/-- **A contract that is gone past hides no function.** Let the nodes of an accepted concrete
tree lie inside their parents, let those of contracts and functions cover some text, and let
every function be in a contract and no contract in another. Then the functions that locations
touch are those, in no other function, whose own span meets a location: that the contract
around has to meet one as well makes no difference. -/
theorem functionsAt_eq_touched (source : String) (root : Concrete) (tree : Node)
    (locations : List Location) (htree : root.toTree source = .ok tree)
    (hnests : ∀ p ∈ root.subtrees, ∀ child ∈ p.node.children, p.node.info.Encloses child.info)
    (hnonempty : ∀ p ∈ root.subtrees, p.node.info.kind ∈ contractKinds ++ functionKinds →
      p.node.info.isNonempty = true)
    (hflat : ∀ p ∈ root.subtrees, p.node.info.kind ∈ contractKinds →
      ∀ a ∈ p.above, a.kind ∉ contractKinds)
    (hinside : ∀ p ∈ root.subtrees, p.node.info.kind ∈ functionKinds →
      ∃ a ∈ p.above, a.kind ∈ contractKinds) :
    tree.functionsAt locations =
      .ok ((tree.occurrences.filter fun o => o.IsOutermost ∧ o.node.Touched locations).map
        Occurrence.qualifiedName) := by
  obtain rfl := eq_toNode_of_toTree htree
  have hunnested : ∀ o ∈ (root.toNode source).occurrences, o.node.kind = .contractDefinition →
      ∀ a ∈ o.ancestors, a.kind ≠ .contractDefinition := by
    intro o ho hkind a ha
    obtain ⟨p, hp, ⟨hpkind, -⟩, habove⟩ := exists_subtree_of_mem_occurrences ho
    obtain ⟨i, hi, hikind, -⟩ := exists_mem_of_forall₂ habove ha
    rw [hpkind, Info.treeKind_eq_contractDefinition_iff] at hkind
    rw [hikind, ne_eq, Info.treeKind_eq_contractDefinition_iff]
    exact hflat p hp hkind i hi
  have hstray : ∀ o ∈ (root.toNode source).occurrences, ¬ o.IsStray := by
    rintro o ho ⟨hkind, hnone⟩
    obtain ⟨p, hp, ⟨hpkind, -⟩, habove⟩ := exists_subtree_of_mem_occurrences ho
    rw [hpkind, Info.treeKind_eq_functionDefinition_iff] at hkind
    obtain ⟨i, hi, hcontract⟩ := hinside p hp hkind
    obtain ⟨a, ha, hakind, -⟩ := exists_mem_of_forall₂ habove.flip hi
    refine (hnone a ha).1 ?_
    rw [hakind, Info.treeKind_eq_contractDefinition_iff]
    exact hcontract
  have hsettled : ∀ o ∈ (root.toNode source).occurrences, Coverage.Settled locations o.above :=
    ((root.toNode source).toValue.through [] [] []).settled hunnested ⟨rfl, .nil⟩
  have hlost : (root.toNode source).occurrences.find? (·.IsLost locations) = none := by
    refine List.find?_eq_none.mpr fun o ho => ?_
    rw [decide_eq_true_iff, Occurrence.isLost_iff_isStray (hsettled o ho)]
    exact hstray o ho
  rw [Node.functionsAt_eq, hlost]
  -- A function is listed if a walk comes to it, that is, if it also touches the contracts above.
  have hlisted : (root.toNode source).occurrences.filter (·.IsListed locations) =
      (root.toNode source).occurrences.filter
        fun o => o.IsOutermost ∧ o.node.Touched locations := by
    refine List.filter_congr fun o ho => decide_eq_decide.mpr ⟨?_, ?_⟩
    · rintro ⟨hkind, hreached, htouched⟩
      exact ⟨⟨hkind, fun a ha => (hreached a ha).1⟩, htouched⟩
    · rintro ⟨⟨hkind, houtermost⟩, htouched⟩
      refine ⟨hkind, fun a ha => ⟨houtermost a ha, fun hcontract => ?_⟩, htouched⟩
      exact touched_of_mem_ancestors hnests hnonempty ho hkind htouched ha hcontract
  simp only [hlisted]

/-- A function without parameters and statements. -/
def emptyFunction (row byte : Nat) : Concrete :=
  .mk (.inRow none "function_definition" true row 2 byte 22) [
    .mk (.inRow none "function" false row 2 byte 8) [],
    .mk (.inRow (some "name") "identifier" true row 11 (byte + 9) 1) [],
    .mk (.inRow none "(" false row 12 (byte + 10) 1) [],
    .mk (.inRow none ")" false row 13 (byte + 11) 1) [],
    .mk (.inRow none "visibility" true row 15 (byte + 13) 6) [
      .mk (.inRow none "public" false row 15 (byte + 13) 6) []],
    .mk (.inRow (some "body") "function_body" true row 22 (byte + 20) 2) [
      .mk (.inRow none "\x7b" false row 22 (byte + 20) 1) [],
      .mk (.inRow none "\x7d" false row 23 (byte + 21) 1) []]]

/-- A contract with a function in each of two rows. -/
def twoFunctions : Concrete :=
  .mk ⟨none, "source_file", true, false, false, false, 0, 64, ⟨0, 0⟩, ⟨3, 1⟩⟩ [
    .mk ⟨none, "contract_declaration", true, false, false, false, 0, 64, ⟨0, 0⟩, ⟨3, 1⟩⟩ [
      .mk (.inRow none "contract" false 0 0 0 8) [],
      .mk (.inRow (some "name") "identifier" true 0 9 9 1) [],
      .mk ⟨some "body", "contract_body", true, false, false, false, 11, 64, ⟨0, 11⟩, ⟨3, 1⟩⟩ [
        .mk (.inRow none "\x7b" false 0 11 11 1) [],
        emptyFunction 1 15,
        emptyFunction 2 40,
        .mk (.inRow none "\x7d" false 3 0 63 1) []]]]

/-- The source of that contract. -/
def twoFunctionsText : String :=
  "contract A \x7b\n" ++ "  function f() public \x7b\x7d\n" ++
    "  function g() public \x7b\x7d\n" ++ "\x7d"

/-- A range from a whole line back to an earlier point touches the function in that line. -/
theorem functionsAt_twoFunctions :
    ∃ tree, twoFunctions.toTree twoFunctionsText = .ok tree ∧
      tree.functionsAt [.range ⟨⟨2, none⟩, ⟨1, some 5⟩⟩] = .ok ["A.f"] := by
  refine ⟨_, rfl, ?_⟩
  rw [functionsAt_eq_touched _ twoFunctions _ _ rfl (by decide) (by decide) (by decide) (by decide)]
  rfl

end Concrete

end ContractQuery
