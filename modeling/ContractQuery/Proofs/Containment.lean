import ContractQuery.Proofs.Enclosure
import ContractQuery.Proofs.Overlap
import ContractQuery.Proofs.Removal

/-!
# Points in Converted Spans

A node of a concrete tree covers the positions from its start up to, and without, its stop. Its
span is made of points: lines count from one, and both ends are included. So the last column is one
less than that of the stop, unless the node covers nothing, or stops at the start of a row, where
there is no column before. In these cases the stop itself is in the span.

That a stop is sometimes left out and sometimes not does not get in the way of nesting. If the
range of a node that covers some text lies in the range of another, the other covers text as well,
and the end of its span is not earlier, whichever of the two stops at the start of a row. So a point
in the span of a node is in the span of every node around it, also if the point is a whole line.

## Main results

* `Concrete.Info.contains_span_iff_before`, `Concrete.Info.contains_span_iff_atMost`: which points
  are in the span of a node.
* `Concrete.exists_subtree_of_holds`: where the nodes of a converted tree come from.
* `Concrete.spans_nest`: **converted spans denote ranges and nest**.
-/

namespace ContractQuery

/-- The first position is before the second. -/
def Position.Before (p q : Position) : Prop :=
  p.row < q.row ∨ p.row = q.row ∧ p.column < q.column

instance (p q : Position) : Decidable (p.Before q) := inferInstanceAs (Decidable (_ ∨ _ ∧ _))

/-- **What is in a span is in the spans around it**, whole lines included. -/
theorem Span.Within.contains {inner outer : Span} (h : inner.Within outer) {p : Point}
    (hp : inner.contains p = true) : outer.contains p = true := by
  rw [contains_iff] at hp ⊢
  obtain ⟨hstart, hstop⟩ := hp
  exact ⟨h.start_atMost.trans hstart h.start_column, hstop.trans h.stop_atMost h.stop_column⟩

namespace Concrete

namespace Info

variable {i : Info} {line column : Nat}

/-! ### Which points are in the span of a node -/

/-- A node is not empty if it starts before it stops. -/
theorem isNonempty_iff : i.isNonempty = true ↔ i.start.Before i.stop := by
  simp [isNonempty, Position.Before]

/-- Both ends of the span have a column. -/
theorem exact_span (i : Info) : i.span.Exact := ⟨rfl, rfl⟩

/-- The span of a node that does not stop before it starts does not end before it starts. -/
theorem ordered_span (h : i.start.AtMost i.stop) : i.span.Ordered := by
  rw [Position.AtMost] at h
  rw [Span.Ordered, span, Point.atMost_mk_some]
  split
  · next hnonempty =>
      rw [isNonempty_iff, Position.Before] at hnonempty
      omega
  · omega

/-- A point is not before the span if its position is not before the start. -/
theorem span_start_atMost_iff (hline : 1 ≤ line) :
    i.span.start.AtMost ⟨line, some column⟩ ↔ i.start.AtMost ⟨line - 1, column⟩ := by
  simp only [span, Point.atMost_mk_some, Position.AtMost]
  omega

/-- Where a node covers some text and does not stop at the start of a row, a point is not after the
span if its position is before the stop. -/
theorem atMost_span_stop_iff_before (hnonempty : i.start.Before i.stop)
    (hcolumn : 0 < i.stop.column) (hline : 1 ≤ line) :
    (⟨line, some column⟩ : Point).AtMost i.span.stop ↔
      Position.Before ⟨line - 1, column⟩ i.stop := by
  simp only [span, isNonempty_iff.mpr hnonempty, if_true, Point.atMost_mk_some, Position.Before]
  omega

/-- Otherwise a point is not after the span if its position is not after the stop. -/
theorem atMost_span_stop_iff_atMost (h : ¬ (i.start.Before i.stop ∧ 0 < i.stop.column))
    (hline : 1 ≤ line) :
    (⟨line, some column⟩ : Point).AtMost i.span.stop ↔
      Position.AtMost ⟨line - 1, column⟩ i.stop := by
  simp only [span, Point.atMost_mk_some, Position.AtMost]
  split
  · next hnonempty =>
      -- There is no column before the stop, so nothing is taken away from it.
      have hcolumn : ¬ 0 < i.stop.column := fun hpos => h ⟨isNonempty_iff.mp hnonempty, hpos⟩
      omega
  · omega

/-- **The span of a node holds its range**: the points whose positions are not before the start
and before the stop. -/
theorem contains_span_iff_before (hnonempty : i.start.Before i.stop)
    (hcolumn : 0 < i.stop.column) (hline : 1 ≤ line) :
    i.span.contains ⟨line, some column⟩ = true ↔
      i.start.AtMost ⟨line - 1, column⟩ ∧ Position.Before ⟨line - 1, column⟩ i.stop := by
  rw [Span.contains_iff, span_start_atMost_iff hline,
    atMost_span_stop_iff_before hnonempty hcolumn hline]

/-- The span of a node that covers nothing or stops at the start of a row holds the stop as well. -/
theorem contains_span_iff_atMost (h : ¬ (i.start.Before i.stop ∧ 0 < i.stop.column))
    (hline : 1 ≤ line) :
    i.span.contains ⟨line, some column⟩ = true ↔
      i.start.AtMost ⟨line - 1, column⟩ ∧ Position.AtMost ⟨line - 1, column⟩ i.stop := by
  rw [Span.contains_iff, span_start_atMost_iff hline, atMost_span_stop_iff_atMost h hline]

/-! ### Nesting -/

/-- A range around one that covers some text covers text as well. -/
theorem Encloses.before {outer inner : Info} (h : outer.Encloses inner)
    (hinner : inner.start.Before inner.stop) : outer.start.Before outer.stop := by
  obtain ⟨hstart, hstop⟩ := h
  rw [Position.AtMost] at hstart hstop
  rw [Position.Before] at hinner ⊢
  omega

/-- The points in the span of a node that covers some text are in the spans of the nodes around. -/
theorem Encloses.contains {outer inner : Info} (h : outer.Encloses inner)
    (hinner : inner.start.Before inner.stop) {p : Point} (hp : inner.span.contains p = true) :
    outer.span.contains p = true := by
  have hwithin : inner.span.Within outer.span :=
    h.within (isNonempty_iff.mpr (h.before hinner)) (isNonempty_iff.mpr hinner)
  exact hwithin.contains hp

end Info

/-! ### Where the nodes come from -/

/-- The node of a concrete tree becomes the node `n` of a tree, and the nodes above become, one by
one, the nodes `above`. -/
def Subtree.Becomes (source : String) (p : Subtree) (above : List Node) (n : Node) : Prop :=
  n = p.node.toNode source ∧ List.Forall₂ (Info.Describes source) p.above above

/-- The nodes in a field of a converted node are nodes of its converted children. -/
theorem exists_child_of_holds {source : String} {info : Info} {children : List Concrete}
    {e : String × Value} (he : e ∈ (toNode source (mk info children)).fields) :
    ∀ above n, e.2.Holds above n → ∃ c ∈ children, (c.toNode source).toValue.Holds above n := by
  refine forall_mem_fields_toNode (P := fun v => ∀ above n, v.Holds above n →
    ∃ c ∈ children, (c.toNode source).toValue.Holds above n) ?_ ?_ ?_ e he
  · intro s above n h
    cases h
  · intro items
    constructor
    · exact fun h v hv above n hn => h above n (.inItem hv hn)
    · intro h above n hn
      cases hn with
      | inItem hv hn => exact h _ hv above n hn
  · exact fun c hc above n hn => ⟨c, hc, hn⟩

/-- The nodes of the tree of a concrete tree that lies below `infos`. -/
theorem exists_subtree_of_holds_toNode {source : String} (c : Concrete) (infos : List Info)
    {above : List Node} {n : Node} (h : (c.toNode source).toValue.Holds above n) :
    ∃ p ∈ c.subtreesBelow infos, n = p.node.toNode source ∧
      ∃ inner, p.above = inner ++ infos ∧ List.Forall₂ (Info.Describes source) inner above := by
  induction c using inductionOn generalizing infos above n with
  | mk info children ih =>
      generalize hvalue : (toNode source (mk info children)).toValue = v at h
      rw [subtreesBelow]
      cases h with
      | here =>
          refine ⟨_, List.mem_cons_self, ?_, [], rfl, .nil⟩
          exact Node.toValue_injective hvalue.symm
      | @inField kind span fields name w above n hw hn =>
          have hfields : fields = (toNode source (mk info children)).fields :=
            (Value.node.inj hvalue).2.2.symm
          obtain ⟨c, hc, hn⟩ := exists_child_of_holds (hfields ▸ hw) above n hn
          obtain ⟨p, hp, hnode, inner, habove, hinner⟩ := ih c hc (info :: infos) hn
          refine ⟨p, List.mem_cons_of_mem _ (mem_subtreesIn.mpr ⟨c, hc, hp⟩), hnode,
            inner ++ [info], by simpa using habove, ?_⟩
          refine List.rel_append hinner (.cons ?_ .nil)
          have hself : (⟨kind, span, fields⟩ : Node) = toNode source (mk info children) :=
            Node.toValue_injective hvalue.symm
          rw [hself]
          exact describes_toNode source (mk info children)
      | inItem => cases hvalue
      | inEntry => cases hvalue

/-- **Where the nodes of a converted tree come from**, wherever in the tree they are. -/
theorem exists_subtree_of_holds {source : String} {root : Concrete} {above : List Node} {n : Node}
    (h : (root.toNode source).toValue.Holds above n) :
    ∃ p ∈ root.subtrees, p.Becomes source above n := by
  obtain ⟨p, hp, hnode, inner, habove, hinner⟩ := exists_subtree_of_holds_toNode root [] h
  rw [List.append_nil] at habove
  exact ⟨p, hp, hnode, habove ▸ hinner⟩

/-! ### Converted spans -/

/-- **Converted spans denote ranges and nest.** The span of a node that does not stop before it
starts has columns at both ends and does not run backwards. In it are the points whose positions
are not before the start and before the stop; the stop itself is in it exactly if the node covers
nothing or stops at the start of a row.

Every node of a converted tree has a span and comes from a node of the concrete tree. If in that
tree children lie inside their parents, and the node covers some text, then every point in its span
is in the span of every node above it. -/
theorem spans_nest :
    (∀ i : Info, i.start.AtMost i.stop →
      i.span.Exact ∧ i.span.Ordered ∧
      ∀ line column, 1 ≤ line →
        (i.start.Before i.stop ∧ 0 < i.stop.column →
          (i.span.contains ⟨line, some column⟩ = true ↔
            i.start.AtMost ⟨line - 1, column⟩ ∧ Position.Before ⟨line - 1, column⟩ i.stop)) ∧
        (¬ (i.start.Before i.stop ∧ 0 < i.stop.column) →
          (i.span.contains ⟨line, some column⟩ = true ↔
            i.start.AtMost ⟨line - 1, column⟩ ∧ Position.AtMost ⟨line - 1, column⟩ i.stop))) ∧
    ∀ (source : String) (root : Concrete) (above : List Node) (n : Node),
      (root.toNode source).toValue.Holds above n →
        n.span.isSome ∧ (∃ p ∈ root.subtrees, p.Becomes source above n) ∧
        ((∀ p ∈ root.subtrees, ∀ child ∈ p.node.children, p.node.info.Encloses child.info) →
          ∀ p ∈ root.subtrees, p.Becomes source above n →
            p.node.info.start.Before p.node.info.stop →
            ∀ a ∈ above, ∃ s t, n.span = some s ∧ a.span = some t ∧
              ∀ point, s.contains point = true → t.contains point = true) := by
  refine ⟨fun i hi => ?_, fun source root above n hn => ?_⟩
  · refine ⟨i.exact_span, Info.ordered_span hi, fun line column hline => ⟨?_, ?_⟩⟩
    · rintro ⟨hnonempty, hcolumn⟩
      exact Info.contains_span_iff_before hnonempty hcolumn hline
    · exact fun h => Info.contains_span_iff_atMost h hline
  · obtain ⟨q, hq, hbecomes⟩ := exists_subtree_of_holds hn
    have hspan : n.span.isSome := by
      rw [hbecomes.1, span_toNode]
      rfl
    refine ⟨hspan, ⟨q, hq, hbecomes⟩, ?_⟩
    rintro hnests p hp ⟨hnode, habove⟩ hnonempty a ha
    obtain ⟨i, hi, -, haspan⟩ := exists_mem_of_forall₂ habove ha
    have hencloses : i.Encloses p.node.info :=
      encloses_of_mem_subtreesBelow hnests (by simp) hp i hi
    refine ⟨p.node.info.span, i.span, by rw [hnode, span_toNode], haspan, fun point hpoint => ?_⟩
    exact hencloses.contains hnonempty hpoint

/-- The body of a contract without members, which ends in the next row. -/
def bareBody : Concrete :=
  .mk ⟨some "body", "contract_body", true, false, false, false, 11, 14, ⟨0, 11⟩, ⟨1, 1⟩⟩ [
    .mk (.inRow none "\x7b" false 0 11 11 1) [],
    .mk (.inRow none "\x7d" false 1 0 13 1) []]

/-- The contract of that body. -/
def bareContract : Concrete :=
  .mk ⟨none, "contract_declaration", true, false, false, false, 0, 14, ⟨0, 0⟩, ⟨1, 1⟩⟩ [
    .mk (.inRow none "contract" false 0 0 0 8) [],
    .mk (.inRow (some "name") "identifier" true 0 9 9 1) [],
    bareBody]

/-- A file with that contract, which stops at the start of a row. -/
def bareFile : Concrete :=
  .mk ⟨none, "source_file", true, false, false, false, 0, 15, ⟨0, 0⟩, ⟨2, 0⟩⟩ [bareContract]

/-- The source of that file. -/
def bareFileText : String := "contract A \x7b\n\x7d\n"

/-- The body of that contract ends in the second line. So this line meets its span, and with it
those of the contract and of the file; the file also has its stop in its span, in the third line. -/
theorem spans_nest_bareFile :
    (∀ p ∈ bareFile.subtrees, ∀ child ∈ p.node.children, p.node.info.Encloses child.info) ∧
    (bareFile.toNode bareFileText).toValue.Holds
      [bareContract.toNode bareFileText, bareFile.toNode bareFileText]
      (bareBody.toNode bareFileText) ∧
    (∀ a ∈ [bareContract.toNode bareFileText, bareFile.toNode bareFileText],
      ∃ t, a.span = some t ∧ t.contains (.wholeLine 2) = true) ∧
    bareFile.info.span.contains ⟨3, some 0⟩ = true := by
  have hnests : ∀ p ∈ bareFile.subtrees, ∀ child ∈ p.node.children,
      p.node.info.Encloses child.info := by decide
  have hholds : (bareFile.toNode bareFileText).toValue.Holds
      [bareContract.toNode bareFileText, bareFile.toNode bareFileText]
      (bareBody.toNode bareFileText) :=
    .inField (List.mem_singleton_self _) (.inItem (List.mem_singleton_self _)
      (.inField (List.mem_cons_of_mem _ List.mem_cons_self) .here))
  have hplace : ⟨[bareContract.info, bareFile.info], bareBody⟩ ∈ bareFile.subtrees := by
    simp [subtrees, bareFile, bareContract, bareBody, subtreesBelow, subtreesIn, Concrete.info]
  have hbecomes : Subtree.Becomes bareFileText ⟨[bareContract.info, bareFile.info], bareBody⟩
      [bareContract.toNode bareFileText, bareFile.toNode bareFileText]
      (bareBody.toNode bareFileText) :=
    ⟨rfl, .cons (describes_toNode _ _) (.cons (describes_toNode _ _) .nil)⟩
  obtain ⟨hrange, hnested⟩ := spans_nest
  obtain ⟨-, -, hcontained⟩ := hnested _ _ _ _ hholds
  refine ⟨hnests, hholds, fun a ha => ?_, ?_⟩
  · obtain ⟨s, t, hs, ht, hpoints⟩ := hcontained hnests _ hplace hbecomes (by decide) a ha
    rw [span_toNode] at hs
    obtain rfl := Option.some.inj hs
    exact ⟨t, ht, hpoints _ (by decide)⟩
  · exact (((hrange bareFile.info (by decide)).2.2 3 0 (by decide)).2 (by decide)).mpr (by decide)

end Concrete

end ContractQuery
