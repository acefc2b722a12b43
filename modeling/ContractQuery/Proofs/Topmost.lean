import ContractQuery.Proofs.Pruning
import ContractQuery.Proofs.Resolution

/-!
# The Paths of the Topmost Matches

Pruning starts from the paths that one walk collects, and the walk does not look below a node
that it collects. Which paths these are can be said without a walk: those that lead to a matching
node while no shorter part of them does. Look-up alone decides that, one path at a time.

The order of the collected paths is that of the tree. Names do not show it, so a path is compared
by its address, which counts the fields and items on its way (`Value.address?`). Where names are
distinct this is the address of the place that the walk is at (`Value.address?_of_mem_places`).

## Main results

* `Value.mem_topmost_iff`: which paths are collected, by look-up.
* `Value.sublist_topmost`: the collected paths stand in the order of the places.
* `Node.collectPaths_exact`: **exactly the topmost matches are collected**, in pre-order.
-/

namespace ContractQuery

namespace Value

/-! ### Which paths are collected -/

/-- The path leads to a node of one of some kinds. -/
def Matches (kinds : List Kind) (v : Value) (p : Path) : Prop :=
  ∃ c, v.get? p = some c ∧ c.isOf kinds = true

/-- A longer path leads on from the value one step below. -/
theorem matches_cons {kinds : List Kind} {v : Value} {s : Segment} {p : Path} :
    v.Matches kinds (s :: p) ↔ ∃ c, v.child? s = some c ∧ c.Matches kinds p := by
  rw [Matches]
  simp only [get?_cons, Option.bind_eq_some_iff]
  constructor
  · rintro ⟨d, ⟨c, hc, hd⟩, hof⟩
    exact ⟨c, hc, d, hd, hof⟩
  · rintro ⟨c, hc, d, hd, hof⟩
    exact ⟨d, ⟨c, hc, hd⟩, hof⟩

/-- The empty path leads to the value itself. -/
theorem matches_nil {kinds : List Kind} {v : Value} :
    v.Matches kinds [] ↔ v.isOf kinds = true := by
  simp [Matches]

/-- Below a matching node nothing is collected. -/
theorem topmost_of_isOf {kinds : List Kind} {v : Value} (h : v.isOf kinds = true) :
    v.topmost kinds = [[]] := by
  cases v with
  | node kind span fields =>
      have hkind : kind ∈ kinds := by simpa [isOf] using h
      rw [topmost, if_pos hkind]
  | list items => simp [isOf] at h
  | map entries => simp [isOf] at h
  | scalar leaf => simp [isOf] at h

/-- **Which paths are collected**: those that lead to a matching node while none of their proper
prefixes does. -/
theorem mem_topmost_iff {kinds : List Kind} {v : Value} (hv : v.Distinct) {p : Path} :
    p ∈ v.topmost kinds ↔
      v.Matches kinds p ∧ ∀ q, q <+: p → q ≠ p → ¬ v.Matches kinds q := by
  induction p generalizing v with
  | nil =>
      rw [nil_mem_topmost, matches_nil]
      refine ⟨fun h => ⟨h, fun q hq hne => absurd (List.prefix_nil.mp hq) hne⟩, fun h => h.1⟩
  | cons s p ih =>
      cases hof : v.isOf kinds with
      | true =>
          -- The value itself is collected, and it is a match at a proper prefix.
          rw [topmost_of_isOf hof]
          refine iff_of_false (by simp) fun h => ?_
          exact h.2 [] List.nil_prefix (by simp) (matches_nil.mpr hof)
      | false =>
          rw [cons_mem_topmost hv hof, matches_cons]
          constructor
          · rintro ⟨c, hc, hp⟩
            obtain ⟨hmatch, hfirst⟩ := (ih (hv.child hc)).mp hp
            refine ⟨⟨c, hc, hmatch⟩, fun q hq hne hq' => ?_⟩
            cases q with
            | nil => simp [matches_nil, hof] at hq'
            | cons t q =>
                obtain ⟨rfl, hpre⟩ := List.cons_prefix_cons.mp hq
                obtain ⟨d, hd, hmatch'⟩ := matches_cons.mp hq'
                obtain rfl : c = d := Option.some.inj (hc.symm.trans hd)
                exact hfirst q hpre (fun heq => hne (by rw [heq])) hmatch'
          · rintro ⟨⟨c, hc, hmatch⟩, hfirst⟩
            refine ⟨c, hc, (ih (hv.child hc)).mpr ⟨hmatch, fun q hq hne hq' => ?_⟩⟩
            refine hfirst (s :: q) (List.cons_prefix_cons.mpr ⟨rfl, hq⟩) ?_
              (matches_cons.mpr ⟨c, hc, hq'⟩)
            exact fun heq => hne (List.cons.inj heq).2

/-! ### In which order -/

mutual

/-- The collected paths are, in order, paths of places. -/
theorem sublist_topmost (kinds : List Kind) : ∀ (v : Value) (path : Path) (address : List Nat),
    ((v.topmost kinds).map (path ++ ·)).Sublist ((v.places path address).map fun p => p.path)
  | node kind span fields, path, address => by
      rw [topmost, places, List.map_cons]
      split
      · simp
      · exact (sublist_topmostFields kinds fields path address 0).cons _
  | list items, path, address => by
      rw [topmost, places]
      exact sublist_topmostItems kinds items path address 0
  | map entries, path, address => by simp [topmost]
  | scalar leaf, path, address => by simp [topmost]

/-- The paths collected in items are, in order, paths of places. -/
theorem sublist_topmostItems (kinds : List Kind) : ∀ (items : List Value) (path : Path)
    (address : List Nat) (i : Nat), ((topmostItems kinds items i).map (path ++ ·)).Sublist
      ((placesItems items path address i).map fun p => p.path)
  | [], path, address, i => by simp [topmostItems]
  | v :: rest, path, address, i => by
      have hv := sublist_topmost kinds v (path ++ [.index i]) (address ++ [i])
      have hrest := sublist_topmostItems kinds rest path address (i + 1)
      rw [topmostItems, placesItems, List.map_append, List.map_append, List.map_map]
      refine List.Sublist.append ?_ hrest
      simpa [Function.comp_def] using hv

/-- The paths collected in fields are, in order, paths of places. -/
theorem sublist_topmostFields (kinds : List Kind) : ∀ (fields : List (String × Value))
    (path : Path) (address : List Nat) (i : Nat),
    ((topmostFields kinds fields).map (path ++ ·)).Sublist
      ((placesFields fields path address i).map fun p => p.path)
  | [], path, address, i => by simp [topmostFields]
  | (name, v) :: rest, path, address, i => by
      have hv := sublist_topmost kinds v (path ++ [.field name]) (address ++ [i])
      have hrest := sublist_topmostFields kinds rest path address (i + 1)
      rw [topmostFields, placesFields, List.map_append, List.map_append, List.map_map]
      refine List.Sublist.append ?_ hrest
      simpa [Function.comp_def] using hv

end

/-- Which field of a node, or which item of a list, a step leads to. -/
def rank? : Value → Segment → Option Nat
  | node _ _ fields, .field name => (Record.names fields).idxOf? name
  | list _, .index i => some i
  | _, _ => none

/-- Which fields and items a path leads through, counted in the order of the tree. -/
def address? (v : Value) : Path → Option (List Nat)
  | [] => some []
  | s :: rest => do
    let c ← v.child? s
    return (← v.rank? s) :: (← c.address? rest)

/-- The address of a path starts with the rank of its first step. -/
theorem address?_cons {v c : Value} {s : Segment} {i : Nat} {rest : Path} {address : List Nat}
    (hc : v.child? s = some c) (hi : v.rank? s = some i) (hrest : c.address? rest = some address) :
    v.address? (s :: rest) = some (i :: address) := by
  rw [address?, hc, hi, Option.bind_eq_bind, Option.bind_some, hrest]
  rfl

/-- Where names are distinct, a name has the rank of its entry. -/
theorem idxOf?_names {fields : Record Value} (hfields : Record.Distinct fields) {j : Nat}
    {e : String × Value} (he : fields[j]? = some e) :
    (Record.names fields).idxOf? e.1 = some j := by
  have hget : (Record.names fields)[j]? = some e.1 := by simp [Record.names, he]
  obtain ⟨hj, hname⟩ := List.getElem?_eq_some_iff.mp hget
  refine List.idxOf?_eq_some_iff.mpr ⟨hj, hname, fun k hk heq => ?_⟩
  have hkj : k = j := hfields.getElem_inj_iff.mp (heq.trans hname.symm)
  omega

/-- The address of a place is that of its path. -/
theorem address?_of_mem_places {v : Value} (hv : ∀ n ∈ v.nodes, Record.Distinct n.fields)
    {path : Path} {address : List Nat} {p : Place} (hp : p ∈ v.places path address) :
    ∃ q below, p.path = path ++ q ∧ p.address = address ++ below ∧ v.address? q = some below := by
  induction v using inductionOn generalizing path address with
  | node kind span fields ih =>
      rw [places, List.mem_cons] at hp
      rcases hp with rfl | hp
      · exact ⟨[], [], by simp, by simp, rfl⟩
      · obtain ⟨j, e, he, hp⟩ := mem_placesFields.mp hp
        have hmem : e ∈ fields := List.mem_of_getElem? he
        have hnames : Record.Distinct fields := hv ⟨kind, span, fields⟩ List.mem_cons_self
        rw [Nat.zero_add] at hp
        obtain ⟨q, below, hpath, haddress, hbelow⟩ := ih e hmem
          (fun n hn => hv n (List.mem_cons_of_mem _ (mem_nodesFields.mpr ⟨e, hmem, hn⟩))) hp
        refine ⟨.field e.1 :: q, j :: below, by simp [hpath], by simp [haddress], ?_⟩
        exact address?_cons (Record.get?_eq_some_of_mem hnames hmem) (idxOf?_names hnames he) hbelow
  | list items ih =>
      rw [places] at hp
      obtain ⟨j, w, hw, hp⟩ := mem_placesItems.mp hp
      have hmem : w ∈ items := List.mem_of_getElem? hw
      rw [Nat.zero_add] at hp
      obtain ⟨q, below, hpath, haddress, hbelow⟩ :=
        ih w hmem (fun n hn => hv n (mem_nodesItems.mpr ⟨w, hmem, hn⟩)) hp
      refine ⟨.index j :: q, j :: below, by simp [hpath], by simp [haddress], ?_⟩
      exact address?_cons hw rfl hbelow
  | map entries ih => simp [places] at hp
  | scalar leaf => simp [places] at hp

end Value

/-! ### Collected paths -/

namespace Node

/-- The path leads to a node of one of some kinds. -/
def Matches (root : Node) (kinds : List Kind) (p : Path) : Prop :=
  ∃ n, root.at? p = some n ∧ n.kind ∈ kinds

/-- The path `p` comes before the path `q` in pre-order: fields are counted in their order, items
by position, and a node comes before what is below it. -/
def Precedes (root : Node) (p q : Path) : Prop :=
  ∃ a ∈ root.toValue.address? p, ∃ b ∈ root.toValue.address? q, List.Lex (· < ·) a b

/-- A value is a node of one of some kinds exactly if look-up finds such a node. -/
theorem matches_iff {root : Node} {kinds : List Kind} {p : Path} :
    root.Matches kinds p ↔ root.toValue.Matches kinds p := by
  simp only [Matches, at?_eq_some_iff_get?]
  constructor
  · rintro ⟨n, hn, hkind⟩
    exact ⟨n.toValue, hn, by simpa [isOf_toValue] using hkind⟩
  · rintro ⟨c, hc, hof⟩
    cases c with
    | node kind span fields => exact ⟨⟨kind, span, fields⟩, hc, by simpa [Value.isOf] using hof⟩
    | list items => simp [Value.isOf] at hof
    | map entries => simp [Value.isOf] at hof
    | scalar leaf => simp [Value.isOf] at hof

/-- The paths of places stand in pre-order. -/
theorem pairwise_precedes {root : Node} (hroot : root.Distinct) :
    (root.places.map fun p => p.path).Pairwise root.Precedes := by
  have hnodes : ∀ n ∈ root.toValue.nodes, Record.Distinct n.fields := fun n hn =>
    (Value.distinct_node.mp (hroot.of_mem_nodes hn)).1
  have haddress : ∀ p ∈ root.places, root.toValue.address? p.path = some p.address := by
    intro p hp
    obtain ⟨q, below, hpath, haddress, hbelow⟩ := Value.address?_of_mem_places hnodes hp
    rw [hpath, haddress, List.nil_append, List.nil_append, hbelow]
  rw [List.pairwise_map]
  refine (Value.pairwise_places root.toValue [] []).imp_of_mem fun {p q} hp hq hbefore => ?_
  exact ⟨p.address, haddress p hp, q.address, haddress q hq, hbefore⟩

/-- **Exactly the topmost matches are collected.** In a tree with distinct names a path is
collected if and only if it leads to a node of one of the kinds and no proper prefix of it does.
Each such path is collected once, none is a prefix of another, and they stand in the pre-order of
the tree. -/
theorem collectPaths_exact (root : Node) (kinds : List Kind) (hroot : root.Distinct) :
    (∀ p, p ∈ root.collectPaths kinds ↔
      root.Matches kinds p ∧ ∀ q, q <+: p → q ≠ p → ¬ root.Matches kinds q) ∧
    (root.collectPaths kinds).Nodup ∧
    (∀ p ∈ root.collectPaths kinds, ∀ q ∈ root.collectPaths kinds, q <+: p → q = p) ∧
    (root.collectPaths kinds).Pairwise root.Precedes := by
  have hmem : ∀ p, p ∈ root.collectPaths kinds ↔
      root.Matches kinds p ∧ ∀ q, q <+: p → q ≠ p → ¬ root.Matches kinds q := by
    intro p
    simp only [collectPaths_eq_topmost, matches_iff]
    exact Value.mem_topmost_iff hroot
  have hnodup : (root.collectPaths kinds).Nodup := by
    rw [collectPaths_eq_topmost]
    exact Value.nodup_topmost kinds root.toValue hroot
  refine ⟨hmem, hnodup, fun p hp q hq hpre => ?_, ?_⟩
  · by_contra hne
    exact ((hmem p).mp hp).2 q hpre hne ((hmem q).mp hq).1
  · have hsublist := Value.sublist_topmost kinds root.toValue [] []
    simp only [List.nil_append, List.map_id'] at hsublist
    rw [collectPaths_eq_topmost]
    exact (pairwise_precedes hroot).sublist hsublist

/-- A tree whose fields do not stand in the order of their names, with comments in a list of lists,
below another comment and in a map. -/
def glossed : Node :=
  ⟨.sourceUnit, none, [
    ("title", .node .lineComment none []),
    ("body", .list [
      .list [.scalar .null, .node .blockComment none [("inner", .node .comment none [])]],
      .node .contractDefinition none [("doc", .node .comment none [])]]),
    ("meta", .map [("note", .node .comment none [])])]⟩

/-- In that tree the comment below another one and the one in the map are not collected, and the
title comes first. -/
theorem collectPaths_glossed :
    glossed.Distinct ∧
    glossed.collectPaths Kind.comments = [
      [.field "title"], [.field "body", .index 0, .index 1],
      [.field "body", .index 1, .field "doc"]] ∧
    (∀ p, p ∈ glossed.collectPaths Kind.comments ↔
      glossed.Matches Kind.comments p ∧
        ∀ q, q <+: p → q ≠ p → ¬ glossed.Matches Kind.comments q) ∧
    (glossed.collectPaths Kind.comments).Pairwise glossed.Precedes := by
  have hdistinct : glossed.Distinct := by decide
  obtain ⟨hmem, -, -, horder⟩ := collectPaths_exact glossed Kind.comments hdistinct
  exact ⟨hdistinct, rfl, hmem, horder⟩

end Node

end ContractQuery
