import ContractQuery.Proofs.Canonical
import ContractQuery.Proofs.Conversion
import ContractQuery.Proofs.Pruning

/-!
# Histories of a Tree

A tree comes from a text, from a concrete tree, or is put together from values that came about in
such ways, and is then worked on in place. An operation may be refused; what it leaves of the tree
is part of the history all the same (`Operation.attempt`).

Nothing in such a history gives a node or a map two entries of one name. Each operation keeps this
at every depth, whether it succeeds or not, and so a whole run keeps it.

## Main results

* `Operation.distinct_attempt`: **an operation keeps names distinct**, refused or not.
* `Value.Obtained.distinct`: every value that can be obtained has distinct names.
* `Node.distinct_run`: the same for the tree that any sequence of operations leaves.
-/

namespace ContractQuery

/-! ### What the steps of an operation keep -/

namespace Value

/-- Spans are taken from items one by one. -/
theorem stripItems_eq_map (items : List Value) : stripItems items = items.map stripSpans := by
  induction items with
  | nil => rfl
  | cons v rest ih => rw [stripItems, ih, List.map_cons]

/-- Spans are taken from fields one by one. -/
theorem stripFields_eq_map (fields : Record Value) :
    stripFields fields = fields.map fun e => (e.1, e.2.stripSpans) := by
  induction fields with
  | nil => rfl
  | cons e rest ih =>
      obtain ⟨name, v⟩ := e
      rw [stripFields, ih, List.map_cons]

/-- Fields keep their names without spans. -/
theorem names_stripFields (fields : Record Value) :
    Record.names (stripFields fields) = Record.names fields := by
  rw [stripFields_eq_map, Record.names, Record.names, List.map_map]
  rfl

/-- Named values without spans have distinct names if the values have. -/
theorem distinctFields_stripFields {fields : Record Value}
    (h : ∀ e ∈ fields, e.2.stripSpans.Distinct) : DistinctFields (stripFields fields) := by
  rw [stripFields_eq_map, distinctFields_iff]
  intro e he
  obtain ⟨e', he', rfl⟩ := List.mem_map.mp he
  exact h e' he'

/-- Spans are no names. -/
theorem Distinct.stripSpans {v : Value} (hv : v.Distinct) : v.stripSpans.Distinct := by
  induction v using inductionOn with
  | node kind span fields ih =>
      obtain ⟨hnames, hfields⟩ := distinct_node.mp hv
      rw [Value.stripSpans, distinct_node, Record.Distinct, names_stripFields]
      exact ⟨hnames, distinctFields_stripFields fun e he =>
        ih e he (distinctFields_iff.mp hfields e he)⟩
  | list items ih =>
      have hitems := distinctItems_iff.mp (distinct_list.mp hv)
      rw [Value.stripSpans, distinct_list, stripItems_eq_map, distinctItems_iff]
      intro w hw
      obtain ⟨v, hv, rfl⟩ := List.mem_map.mp hw
      exact ih v hv (hitems v hv)
  | map entries ih =>
      obtain ⟨hnames, hentries⟩ := distinct_map.mp hv
      rw [Value.stripSpans, distinct_map, Record.Distinct, names_stripFields]
      exact ⟨hnames, distinctFields_stripFields fun e he =>
        ih e he (distinctFields_iff.mp hentries e he)⟩
  | scalar s => rwa [Value.stripSpans]

/-- What a removal leaves has distinct names, at every level that it goes through. -/
theorem Distinct.removeBelow {v r left : Value} (hv : v.Distinct) {walked : Path} {s : Segment}
    {rest : Path} (h : v.removeBelow walked s rest = .ok (r, left)) : left.Distinct := by
  induction rest generalizing v r left walked s with
  | nil =>
      rw [Value.removeBelow] at h
      split at h
      · cases h
      · obtain ⟨-, rfl⟩ := Prod.mk.inj (Except.ok.inj h)
        exact hv.eraseChild s
  | cons next rest ih =>
      rw [Value.removeBelow] at h
      split at h
      · cases h
      · cases h
      · cases h
      · next hc =>
          obtain ⟨⟨r', below⟩, hbelow, h⟩ := bind_eq_ok_iff.mp h
          obtain ⟨-, rfl⟩ := Prod.mk.inj (Except.ok.inj h)
          exact hv.setChild s (ih (hv.child hc) hbelow)

/-- What a path leads to has distinct names. -/
theorem Distinct.get? {v w : Value} (hv : v.Distinct) {path : Path}
    (h : v.get? path = some w) : w.Distinct := by
  induction path generalizing v with
  | nil =>
      obtain rfl := Option.some.inj h
      exact hv
  | cons s rest ih =>
      obtain ⟨c, hc, hrest⟩ := Option.bind_eq_some_iff.mp h
      exact ih (hv.child hc) hrest

end Value

namespace Node

/-- Setting a field keeps names distinct. -/
theorem Distinct.withField {n : Node} (hn : n.Distinct) (name : String) {v : Value}
    (hv : v.Distinct) : (n.withField name v).Distinct :=
  Value.Distinct.setChild hn (.field name) hv

/-- Dropping a field keeps names distinct. -/
theorem Distinct.withoutField {n : Node} (hn : n.Distinct) (name : String) :
    (n.withoutField name).Distinct :=
  Value.Distinct.eraseChild hn (.field name)

/-- Taking away spans keeps names distinct. -/
theorem Distinct.stripSpans {n : Node} (hn : n.Distinct) : n.stripSpans.Distinct := by
  rw [Node.Distinct, ← stripSpans_toValue]
  exact Value.Distinct.stripSpans hn

/-- Removing what a path leads to keeps names distinct. -/
theorem Distinct.removeAt {n left : Node} (hn : n.Distinct) {path : Path} {r : Value}
    (h : n.removeAt path = .ok (r, left)) : left.Distinct := by
  cases path with
  | nil => cases h
  | cons s rest =>
      obtain ⟨⟨r', below⟩, hbelow, h⟩ := bind_eq_ok_iff.mp h
      obtain ⟨-, rfl⟩ := Prod.mk.inj (Except.ok.inj h)
      cases below with
      | node kind span fields => exact Value.Distinct.removeBelow hn hbelow
      | _ => exact hn

/-- Names stay distinct also when only some of the paths are removed. -/
theorem Distinct.removeAll {n : Node} (hn : n.Distinct) (paths : List Path) :
    (n.removeAll paths).2.Distinct := by
  induction paths generalizing n with
  | nil => exact hn
  | cons path rest ih =>
      rw [Node.removeAll]
      split
      · next r left h => exact ih (hn.removeAt h)
      · exact hn

/-- Pruning keeps names distinct, whether it succeeds or not. -/
theorem Distinct.pruneInPlace {n : Node} (hn : n.Distinct) (kinds : List Kind) :
    (n.pruneInPlace kinds).2.Distinct := by
  have hleft := hn.removeAll (Path.descending (n.collectPaths kinds))
  rw [Node.pruneInPlace]
  split
  · exact hn
  · split
    · next left hall =>
        rw [hall] at hleft
        exact hleft
    · next cause left hall =>
        rw [hall] at hleft
        exact hleft

end Node

/-! ### Operations -/

/-- What can be done to a tree in place. -/
inductive Operation where
  | insert (name : String) (v : Value)
  | remove (name : String)
  | removeAt (path : Path)
  | prune (kinds : List Kind)
  | stripSpans

namespace Operation

/-- Whether an operation succeeds, and the tree that it leaves. -/
def attempt : Operation → Node → Except RemovalError Unit × Node
  | insert name v, n => (.ok (), n.withField name v)
  | remove name, n => (.ok (), n.withoutField name)
  | removeAt path, n =>
    match n.removeAt path with
    | .ok (_, left) => (.ok (), left)
    | .error cause => (.error cause, n)
  | prune kinds, n => ((n.pruneInPlace kinds).1.map fun _ => (), (n.pruneInPlace kinds).2)
  | stripSpans, n => (.ok (), n.stripSpans)

/-- The value that an operation puts into the tree. -/
def inserted? : Operation → Option Value
  | insert _ v => some v
  | remove _ | removeAt _ | prune _ | stripSpans => none

/-- **An operation keeps names distinct**, whether it succeeds or is refused. -/
theorem distinct_attempt (op : Operation) {n : Node} (hn : n.Distinct)
    (hop : ∀ v ∈ op.inserted?, v.Distinct) : (op.attempt n).2.Distinct := by
  cases op with
  | insert name v => exact hn.withField name (hop v rfl)
  | remove name => exact hn.withoutField name
  | removeAt path =>
      rw [attempt]
      split
      · next r left h => exact hn.removeAt h
      · exact hn
  | prune kinds => exact hn.pruneInPlace kinds
  | stripSpans => exact hn.stripSpans

end Operation

/-- The tree that operations leave, one after the other and each whether or not it succeeds. -/
def Node.run (n : Node) (ops : List Operation) : Node :=
  ops.foldl (fun n op => (op.attempt n).2) n

/-! ### Where values come from -/

/-- The values that loading, converting, building and working on trees give, in any order. -/
inductive Value.Obtained : Value → Prop where
  | parsed {text : String} {n : Node} : Node.parse text = .ok n → Obtained n
  | converted {source : String} {root : Concrete} {n : Node} :
      root.toTree source = .ok n → Obtained n
  | scalar (s : Scalar) : Obtained (.scalar s)
  | list {items : List Value} : (∀ v ∈ items, Obtained v) → Obtained (.list items)
  | map {entries : List (String × Value)} : (∀ e ∈ entries, Obtained e.2) →
      Obtained (.map (Record.ofList entries))
  | ofKind (kind : Kind) : Obtained (Node.ofKind kind)
  | withSpan {n : Node} (s : Span) : Obtained n → Obtained (n.withSpan s)
  | withField {n : Node} (name : String) {v : Value} : Obtained n → Obtained v →
      Obtained (n.withField name v)
  | addressed {v w : Value} {path : Path} : Obtained v → v.get? path = some w → Obtained w
  | entry {entries : Record Value} {e : String × Value} : Obtained (.map entries) →
      e ∈ entries → Obtained e.2
  | attempt {n : Node} (op : Operation) : Obtained n → (∀ v ∈ op.inserted?, Obtained v) →
      Obtained (op.attempt n).2

/-- **Every value that can be obtained has distinct names**, at any depth. -/
theorem Value.Obtained.distinct {v : Value} (h : v.Obtained) : v.Distinct := by
  induction h with
  | parsed h => exact (Node.canonical_of_parse h).1.distinct
  | converted h =>
      rw [Concrete.eq_toNode_of_toTree h]
      exact Concrete.distinct_toNode _ _
  | scalar s => exact distinct_scalar s
  | list _ ih => exact distinct_list.mpr (distinctItems_iff.mpr ih)
  | map _ ih =>
      refine distinct_map.mpr ⟨Record.distinct_ofList _, distinctFields_iff.mpr fun e he => ?_⟩
      exact ih e (Record.mem_of_mem_ofList he)
  | ofKind kind => exact distinct_node.mpr ⟨List.nodup_nil, trivial⟩
  | withSpan s _ ih => exact distinct_node.mpr (distinct_node.mp ih)
  | withField name _ _ ihn ihv => exact Node.Distinct.withField ihn name ihv
  | addressed _ hget ih => exact ih.get? hget
  | entry _ he ih => exact distinctFields_iff.mp (distinct_map.mp ih).2 _ he
  | attempt op _ _ ihn ihv => exact op.distinct_attempt ihn ihv

namespace Node

/-- What operations leave of a tree that can be obtained can be obtained. -/
theorem obtained_run {n : Node} {ops : List Operation} (hn : n.toValue.Obtained)
    (hops : ∀ op ∈ ops, ∀ v ∈ op.inserted?, v.Obtained) : (n.run ops).toValue.Obtained := by
  induction ops generalizing n with
  | nil => exact hn
  | cons op rest ih =>
      obtain ⟨hop, hrest⟩ := List.forall_mem_cons.mp hops
      exact ih (.attempt op hn hop) hrest

/-- **Names stay distinct at every depth** of a tree, wherever it came from and whatever was done
to it, refused operations included. -/
theorem distinct_run {n : Node} {ops : List Operation} (hn : n.toValue.Obtained)
    (hops : ∀ op ∈ ops, ∀ v ∈ op.inserted?, v.Obtained) : (n.run ops).Distinct :=
  (obtained_run hn hops).distinct

/-- The tree of an empty source. -/
def blank : Node := ⟨.sourceUnit, some ⟨⟨1, some 0⟩, ⟨1, some 0⟩⟩, [("text", .text "")]⟩

/-- The tree of an empty source with a comment for its text, and with notes. -/
def noted : Node :=
  ⟨.sourceUnit, some ⟨⟨1, some 0⟩, ⟨1, some 0⟩⟩,
    [("text", .node .comment none []), ("notes", .map [("by", .text "me")])]⟩

/-- Operations of all sorts. The three after the insertions are refused. -/
def reworking : List Operation :=
  [.insert "notes" (.map (Record.ofList [("by", .null), ("by", .text "me")])),
    .insert "text" (.node .comment none []),
    .removeAt [],
    .removeAt [.field "notes", .field "by"],
    .prune [.sourceUnit],
    .prune Kind.comments,
    .remove "gone",
    .stripSpans]

/-- A tree that was built up, pruned in vain, stripped and cut down has distinct names. -/
theorem distinct_run_reworking :
    blank.toValue.Obtained ∧
    (∀ op ∈ reworking, ∀ v ∈ op.inserted?, v.Obtained) ∧
    ((Operation.prune [.sourceUnit]).attempt noted).1 = .error .root ∧
    blank.run reworking = ⟨.sourceUnit, none, [("notes", .map [("by", .text "me")])]⟩ ∧
    (blank.run reworking).Distinct := by
  have hblank : blank.toValue.Obtained := by
    have htree : Concrete.toTree "" (.mk ⟨none, "source_file", true, false, false, false,
        0, 0, ⟨0, 0⟩, ⟨0, 0⟩⟩ []) = .ok blank := rfl
    exact .converted htree
  have hreworking : ∀ op ∈ reworking, ∀ v ∈ op.inserted?, v.Obtained := by
    simp only [reworking, List.forall_mem_cons, Operation.inserted?, Option.mem_def]
    refine ⟨?_, ?_, ?_⟩
    · rintro _ ⟨⟩
      exact .map (by simp [Value.null, Value.text, Value.Obtained.scalar])
    · rintro _ ⟨⟩
      exact .ofKind .comment
    · simp
  have hrun : blank.run reworking =
      ⟨.sourceUnit, none, [("notes", .map [("by", .text "me")])]⟩ := by
    -- Sorting the paths does not compute, so what pruning leaves comes from its theorem.
    show Node.run ((Operation.prune Kind.comments).attempt noted).2
      [.remove "gone", .stripSpans] = _
    rw [Operation.attempt, pruneInPlace_of_not_mem (by decide) (by decide)]
    rfl
  exact ⟨hblank, hreworking, rfl, hrun, distinct_run hblank hreworking⟩

end Node

end ContractQuery
