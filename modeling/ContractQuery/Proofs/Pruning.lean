import Mathlib.Data.List.Nodup
import ContractQuery.Proofs.Removal
import ContractQuery.Proofs.Route

/-!
# Pruning is a Recursive Filter

Pruning notes the paths of the matching nodes in one walk and removes them one by one from a
tree that changes under it. `Value.without` says what it amounts to: a single pass that drops
every field and every item that is a matching node, keeps maps and scalars as they are, and
goes on inside all else.

The two meet in the set of noted paths. `Value.topmost` is that set by recursion, with paths
from the value itself; a walk notes exactly these (`Through.walk_collector`), a step of a path
in it is a step of the tree (`Value.cons_mem_topmost`), and dropping all of them in one pass
is the filter (`Value.dropAll_topmost`).

## Main results

* `Node.pruneInPlace_of_not_mem`, `Node.pruneInPlace_of_mem`: the two outcomes of pruning.
* `Node.pruneInPlace_eq_filter`: **pruning is the recursive filter**, and it counts the
  topmost matching nodes.
-/

namespace ContractQuery

/-- A matching node with no matching node above it. -/
def Occurrence.IsTopmost (kinds : List Kind) (o : Occurrence) : Prop :=
  o.node.kind ∈ kinds ∧ ∀ a ∈ o.ancestors, a.kind ∉ kinds

instance (kinds : List Kind) : DecidablePred (Occurrence.IsTopmost kinds) := fun o =>
  inferInstanceAs (Decidable (o.node.kind ∈ kinds ∧ ∀ a ∈ o.ancestors, a.kind ∉ kinds))

namespace Value

/-! ### The filter -/

/-- Whether the value is a node of one of some kinds. -/
def isOf (kinds : List Kind) : Value → Bool
  | node kind _ _ => kind ∈ kinds
  | _ => false

mutual

/-- The value with all nodes of some kinds filtered out below it. -/
def without (kinds : List Kind) : Value → Value
  | node kind span fields => node kind span (withoutFields kinds fields)
  | list items => list (withoutItems kinds items)
  | map entries => map entries
  | scalar leaf => scalar leaf

/-- The items that are not nodes of some kinds, filtered. -/
def withoutItems (kinds : List Kind) : List Value → List Value
  | [] => []
  | v :: rest =>
    if v.isOf kinds then withoutItems kinds rest
    else v.without kinds :: withoutItems kinds rest

/-- The fields whose values are not nodes of some kinds, filtered. -/
def withoutFields (kinds : List Kind) : List (String × Value) → List (String × Value)
  | [] => []
  | (name, v) :: rest =>
    if v.isOf kinds then withoutFields kinds rest
    else (name, v.without kinds) :: withoutFields kinds rest

end

/-- Items are filtered one by one. -/
theorem withoutItems_eq_filterMap (kinds : List Kind) (items : List Value) :
    withoutItems kinds items =
      items.filterMap fun v => if v.isOf kinds then none else some (v.without kinds) := by
  induction items with
  | nil => simp [withoutItems]
  | cons v rest ih => by_cases h : v.isOf kinds <;> simp [withoutItems, h, ih]

/-- Fields are filtered one by one. -/
theorem withoutFields_eq_filterMap (kinds : List Kind) (fields : Record Value) :
    withoutFields kinds fields = fields.filterMap fun e =>
      if e.2.isOf kinds then none else some (e.1, e.2.without kinds) := by
  induction fields with
  | nil => simp [withoutFields]
  | cons e rest ih =>
      obtain ⟨name, v⟩ := e
      by_cases h : v.isOf kinds <;> simp [withoutFields, h, ih]

/-- The values of filtered fields are the values of the fields, filtered. -/
theorem map_snd_withoutFields (kinds : List Kind) (fields : Record Value) :
    (withoutFields kinds fields).map Prod.snd = withoutItems kinds (fields.map Prod.snd) := by
  induction fields with
  | nil => simp [withoutFields, withoutItems]
  | cons e rest ih =>
      obtain ⟨name, v⟩ := e
      by_cases h : v.isOf kinds <;> simp [withoutFields, withoutItems, h, ih]

/-! ### The noted paths -/

mutual

/-- The paths, from the value, of its topmost nodes of some kinds, in pre-order. -/
def topmost (kinds : List Kind) : Value → List Path
  | node kind _ fields => if kind ∈ kinds then [[]] else topmostFields kinds fields
  | list items => topmostItems kinds items 0
  | map _ => []
  | scalar _ => []

/-- The topmost paths through items, the first of which has position `i`. -/
def topmostItems (kinds : List Kind) : List Value → Nat → List Path
  | [], _ => []
  | v :: rest, i =>
    (v.topmost kinds).map (.index i :: ·) ++ topmostItems kinds rest (i + 1)

/-- The topmost paths through fields. -/
def topmostFields (kinds : List Kind) : List (String × Value) → List Path
  | [] => []
  | (name, v) :: rest =>
    (v.topmost kinds).map (.field name :: ·) ++ topmostFields kinds rest

end

/-- The paths through items, by position. -/
theorem cons_mem_topmostItems {kinds : List Kind} {items : List Value} {k : Nat} {t : Segment}
    {q : Path} : t :: q ∈ topmostItems kinds items k ↔
      ∃ i c, t = .index (k + i) ∧ items[i]? = some c ∧ q ∈ c.topmost kinds := by
  induction items generalizing k with
  | nil => simp [topmostItems]
  | cons v rest ih =>
      rw [topmostItems, List.mem_append, ih]
      constructor
      · rintro (h | ⟨i, c, rfl, hc, hq⟩)
        · obtain ⟨q', hq', heq⟩ := List.mem_map.1 h
          obtain ⟨rfl, rfl⟩ := List.cons.inj heq
          exact ⟨0, v, rfl, rfl, hq'⟩
        · exact ⟨i + 1, c, by congr 1; omega, hc, hq⟩
      · rintro ⟨i, c, rfl, hc, hq⟩
        cases i with
        | zero =>
            obtain rfl : v = c := by simpa using hc
            exact .inl (List.mem_map.2 ⟨q, hq, rfl⟩)
        | succ i => exact .inr ⟨i, c, by congr 1; omega, by simpa using hc, hq⟩

/-- The paths through fields, by name. -/
theorem cons_mem_topmostFields {kinds : List Kind} {fields : Record Value} {t : Segment}
    {q : Path} : t :: q ∈ topmostFields kinds fields ↔
      ∃ name c, t = .field name ∧ (name, c) ∈ fields ∧ q ∈ c.topmost kinds := by
  induction fields with
  | nil => simp [topmostFields]
  | cons e rest ih =>
      obtain ⟨n, v⟩ := e
      rw [topmostFields, List.mem_append, ih]
      constructor
      · rintro (h | ⟨name, c, rfl, hc, hq⟩)
        · obtain ⟨q', hq', heq⟩ := List.mem_map.1 h
          obtain ⟨rfl, rfl⟩ := List.cons.inj heq
          exact ⟨n, v, rfl, List.mem_cons_self, hq'⟩
        · exact ⟨name, c, rfl, List.mem_cons_of_mem _ hc, hq⟩
      · rintro ⟨name, c, rfl, hc, hq⟩
        rcases List.mem_cons.1 hc with hc | hc
        · obtain ⟨rfl, rfl⟩ := Prod.mk.inj hc
          exact .inl (List.mem_map.2 ⟨q, hq, rfl⟩)
        · exact .inr ⟨name, c, rfl, hc, hq⟩

/-- All paths through items have a first step. -/
theorem nil_not_mem_topmostItems (kinds : List Kind) (items : List Value) (k : Nat) :
    [] ∉ topmostItems kinds items k := by
  induction items generalizing k with
  | nil => simp [topmostItems]
  | cons v rest ih => simp [topmostItems, ih]

/-- All paths through fields have a first step. -/
theorem nil_not_mem_topmostFields (kinds : List Kind) (fields : Record Value) :
    [] ∉ topmostFields kinds fields := by
  induction fields with
  | nil => simp [topmostFields]
  | cons e rest ih => simp [topmostFields, ih]

/-- The value itself is noted exactly when it is a matching node. -/
theorem nil_mem_topmost {kinds : List Kind} {v : Value} :
    [] ∈ v.topmost kinds ↔ v.isOf kinds = true := by
  cases v with
  | node kind span fields =>
      by_cases h : kind ∈ kinds
      · simp [topmost, isOf, h]
      · simp [topmost, isOf, h, nil_not_mem_topmostFields]
  | list items => simp [topmost, isOf, nil_not_mem_topmostItems]
  | map entries => simp [topmost, isOf]
  | scalar leaf => simp [topmost, isOf]

/-- **A step of a noted path is a step of the tree**: below a value that is no matching node,
the paths are those of the values one step below. -/
theorem cons_mem_topmost {kinds : List Kind} {v : Value} (hv : v.Distinct)
    (hof : v.isOf kinds = false) {t : Segment} {q : Path} :
    t :: q ∈ v.topmost kinds ↔ ∃ c, v.child? t = some c ∧ q ∈ c.topmost kinds := by
  cases v with
  | node kind span fields =>
      have hkind : kind ∉ kinds := by simpa [isOf] using hof
      have hnames := (distinct_node.1 hv).1
      rw [topmost, if_neg hkind, cons_mem_topmostFields]
      constructor
      · rintro ⟨name, c, rfl, hc, hq⟩
        exact ⟨c, Record.get?_eq_some_of_mem hnames hc, hq⟩
      · rintro ⟨c, hc, hq⟩
        cases t with
        | field name => exact ⟨name, c, rfl, Record.mem_of_get?_eq_some hc, hq⟩
        | index i => simp [child?] at hc
  | list items =>
      rw [topmost, cons_mem_topmostItems]
      constructor
      · rintro ⟨i, c, rfl, hc, hq⟩
        exact ⟨c, by rw [child?, Nat.zero_add]; exact hc, hq⟩
      · rintro ⟨c, hc, hq⟩
        cases t with
        | field name => simp [child?] at hc
        | index i => exact ⟨i, c, by rw [Nat.zero_add], hc, hq⟩
  | map entries => simp [topmost, child?]
  | scalar leaf => simp [topmost, child?]

/-- Every noted path leads to a value. -/
theorem get?_isSome_of_mem_topmost {kinds : List Kind} {v : Value} (hv : v.Distinct) {p : Path}
    (hp : p ∈ v.topmost kinds) : (v.get? p).isSome := by
  induction p generalizing v with
  | nil => rfl
  | cons t q ih =>
      cases hof : v.isOf kinds with
      | true =>
          -- A matching node is noted itself, and nothing below it.
          cases v with
          | node kind span fields =>
              have hkind : kind ∈ kinds := by simpa [isOf] using hof
              simp [topmost, hkind] at hp
          | list items => simp [isOf] at hof
          | map entries => simp [isOf] at hof
          | scalar leaf => simp [isOf] at hof
      | false =>
          obtain ⟨c, hc, hq⟩ := (cons_mem_topmost hv hof).1 hp
          rw [get?_cons, hc, Option.bind_some]
          exact ih (hv.child hc) hq

mutual

/-- No path is noted twice. -/
theorem nodup_topmost (kinds : List Kind) : ∀ v : Value, v.Distinct → (v.topmost kinds).Nodup
  | node kind span fields, hv => by
      obtain ⟨hnames, hfields⟩ := distinct_node.1 hv
      rw [topmost]
      by_cases h : kind ∈ kinds
      · simp [h]
      · rw [if_neg h]
        exact nodup_topmostFields kinds fields hnames hfields
  | list items, hv => by
      rw [topmost]
      exact nodup_topmostItems kinds items 0 (distinct_list.1 hv)
  | map entries, _ => by simp [topmost]
  | scalar leaf, _ => by simp [topmost]

/-- No path through items is noted twice. -/
theorem nodup_topmostItems (kinds : List Kind) : ∀ (items : List Value) (k : Nat),
    DistinctItems items → (topmostItems kinds items k).Nodup
  | [], k, _ => by simp [topmostItems]
  | v :: rest, k, h => by
      rw [DistinctItems] at h
      have hv := (nodup_topmost kinds v h.1).map (List.cons_injective (a := Segment.index k))
      have hrest := nodup_topmostItems kinds rest (k + 1) h.2
      rw [topmostItems, List.nodup_append']
      refine ⟨hv, hrest, ?_⟩
      -- The later paths go through later positions.
      intro p hp hp'
      obtain ⟨q, -, rfl⟩ := List.mem_map.1 hp
      obtain ⟨i, c, hi, -, -⟩ := cons_mem_topmostItems.1 hp'
      have hk : k = k + 1 + i := Segment.index.inj hi
      omega

/-- No path through fields is noted twice. -/
theorem nodup_topmostFields (kinds : List Kind) : ∀ fields : Record Value,
    Record.Distinct fields → DistinctFields fields → (topmostFields kinds fields).Nodup
  | [], _, _ => by simp [topmostFields]
  | (name, v) :: rest, hnames, h => by
      obtain ⟨hname, hnames'⟩ := Record.distinct_cons.1 hnames
      rw [DistinctFields] at h
      have hv := (nodup_topmost kinds v h.1).map (List.cons_injective (a := Segment.field name))
      have hrest := nodup_topmostFields kinds rest hnames' h.2
      rw [topmostFields, List.nodup_append']
      refine ⟨hv, hrest, ?_⟩
      -- The later paths go through other names.
      intro p hp hp'
      obtain ⟨q, -, rfl⟩ := List.mem_map.1 hp
      obtain ⟨n, c, hn, hc, -⟩ := cons_mem_topmostFields.1 hp'
      obtain rfl : name = n := Segment.field.inj hn
      exact hname (Record.mem_names_of_mem hc)

end

/-- Items are dropped and filtered alike if this holds of each of them. -/
theorem dropItems_eq_withoutItems {kinds : List Kind} {items : List Value} {k : Nat}
    {s : Path → Bool} (h : ∀ i c, items[i]? = some c → s [.index (k + i)] = c.isOf kinds ∧
      (c.isOf kinds = false → c.dropAll (fun q => s (.index (k + i) :: q)) = c.without kinds)) :
    dropItems items k s = withoutItems kinds items := by
  induction items generalizing k with
  | nil => simp [dropItems, withoutItems]
  | cons v rest ih =>
      obtain ⟨hhere, hbelow⟩ := h 0 v rfl
      rw [Nat.add_zero] at hhere hbelow
      have hrest := ih (k := k + 1) fun i c hc => by
        have hnext := h (i + 1) c (by simpa using hc)
        rwa [show k + (i + 1) = k + 1 + i by omega] at hnext
      cases hof : v.isOf kinds with
      | true => simp [dropItems, withoutItems, hhere, hof, hrest]
      | false => simp [dropItems, withoutItems, hhere, hof, hrest, hbelow hof]

/-- **Dropping the noted paths is the filter.** -/
theorem dropAll_topmost {kinds : List Kind} {v : Value} (hv : v.Distinct)
    (hof : v.isOf kinds = false) :
    v.dropAll (fun p => decide (p ∈ v.topmost kinds)) = v.without kinds := by
  -- What is dropped one step below: the value itself, or the paths noted in it.
  have hstep : ∀ {w : Value}, w.Distinct → w.isOf kinds = false → ∀ {t c}, w.child? t = some c →
      ∀ q, decide (t :: q ∈ w.topmost kinds) = decide (q ∈ c.topmost kinds) := by
    intro w hw hwof t c hc q
    simp [cons_mem_topmost hw hwof, hc]
  have hself : ∀ c : Value, decide ([] ∈ c.topmost kinds) = c.isOf kinds := by
    intro c
    rw [Bool.eq_iff_iff, decide_eq_true_iff]
    exact nil_mem_topmost
  induction v using inductionOn with
  | node kind span fields ih =>
      obtain ⟨hnames, hfields⟩ := distinct_node.1 hv
      rw [dropAll, without, dropFields_eq_filterMap, withoutFields_eq_filterMap]
      congr 1
      refine List.filterMap_congr ?_
      rintro ⟨name, c⟩ hc
      have hchild : (node kind span fields).child? (.field name) = some c :=
        Record.get?_eq_some_of_mem hnames hc
      simp only [hstep hv hof hchild, hself]
      cases hcof : c.isOf kinds with
      | true => rfl
      | false => simp [ih _ hc (distinctFields_iff.1 hfields _ hc) hcof]
  | list items ih =>
      rw [dropAll, without]
      congr 1
      refine dropItems_eq_withoutItems fun i c hc => ?_
      have hmem : c ∈ items := List.mem_of_getElem? hc
      have hchild : (list items).child? (.index (0 + i)) = some c := by
        rw [Nat.zero_add]
        exact hc
      simp only [hstep hv hof hchild, hself, true_and]
      intro hcof
      exact ih c hmem (distinctItems_iff.1 (distinct_list.1 hv) c hmem) hcof
  | map entries ih => simp [dropAll, without]
  | scalar leaf => simp [dropAll, without]

end Value

/-! ### The noted paths are the paths of the topmost matching nodes -/

namespace Through

variable {above : List Frame} {vs : List Value} {route : Route} {os : List Occurrence}
  {ps : List Place}

/-- Everything below a matching node has that node above it. -/
theorem filter_isTopmost_of_mem {kinds : List Kind} {n : Node}
    (h : Through (⟨n, []⟩ :: above) vs route os ps) (hn : n.kind ∈ kinds) :
    os.filter (Occurrence.IsTopmost kinds) = [] := by
  rw [List.filter_eq_nil_iff]
  intro o ho htop
  have hmem : n ∈ o.ancestors := (h.suffix_of_mem o ho).subset List.mem_cons_self
  exact (of_decide_eq_true htop).2 n hmem hn

/-- **A walk notes the paths of the topmost matching nodes**, if no node above matches. -/
theorem walk_collector (h : Through above vs route os ps) (kinds : List Kind)
    (habove : ∀ a ∈ above.map Frame.node, a.kind ∉ kinds) (noted : List Path) :
    route.walk (Node.collector kinds) noted =
      (noted ++ (os.filter (Occurrence.IsTopmost kinds)).map Occurrence.path, .completed) := by
  induction h generalizing noted with
  | nil | map | scalar => simp
  | list h ih => exact ih habove noted
  | @node above n path address below os ps hbelow h ih =>
      by_cases hn : n.kind ∈ kinds
      · have henter : (Node.collector kinds).enter noted n path = (noted ++ [path], .skip) := by
          simp [Node.collector, Visitor.entering, hn]
        have hself : Occurrence.IsTopmost kinds ⟨path, above, n⟩ := ⟨hn, habove⟩
        rw [Route.walk_visit_of_skip henter, List.filter_cons_of_pos (by simpa using hself),
          h.filter_isTopmost_of_mem hn]
        rfl
      · have henter : (Node.collector kinds).enter noted n path = (noted, .descend) := by
          simp [Node.collector, Visitor.entering, hn]
        have hself : ¬ Occurrence.IsTopmost kinds ⟨path, above, n⟩ := fun htop => hn htop.1
        rw [List.filter_cons_of_neg (by simpa using hself)]
        exact Route.walk_visit_of_completed henter
          (ih (List.forall_mem_cons.mpr ⟨hn, habove⟩) noted)
  | cons hright h h' ih ih' =>
      rw [Frame.map_node_pass] at ih'
      rw [Route.walk_onward_of_completed (ih habove noted), ih' habove, List.filter_append,
        List.map_append, List.append_assoc]

end Through

namespace Value

mutual

/-- Below nodes that do not match, the noted paths are those of the topmost matching nodes. -/
theorem map_path_filter_occurrences (kinds : List Kind) : ∀ (v : Value) (path : Path)
    (above : List Frame), (∀ a ∈ above.map Frame.node, a.kind ∉ kinds) →
    ((v.occurrences path above).filter (Occurrence.IsTopmost kinds)).map Occurrence.path =
      (v.topmost kinds).map (path ++ ·)
  | node kind span fields, path, above, habove => by
      by_cases h : kind ∈ kinds
      · have hnone := (throughFields fields path [] 0
          (⟨⟨kind, span, fields⟩, []⟩ :: above)).filter_isTopmost_of_mem h
        have hself : Occurrence.IsTopmost kinds ⟨path, above, ⟨kind, span, fields⟩⟩ :=
          ⟨h, habove⟩
        simp [occurrences, topmost, h, hself, hnone]
      · have hself : ¬ Occurrence.IsTopmost kinds ⟨path, above, ⟨kind, span, fields⟩⟩ :=
          fun htop => h htop.1
        have hbelow := map_path_filter_occurrencesFields kinds fields path
          (⟨⟨kind, span, fields⟩, []⟩ :: above) (by simpa [h] using habove)
        simp [occurrences, topmost, h, hself, hbelow]
  | list items, path, above, habove => by
      rw [occurrences, topmost]
      exact map_path_filter_occurrencesItems kinds items path 0 above habove
  | map entries, path, above, _ => by simp [occurrences, topmost]
  | scalar leaf, path, above, _ => by simp [occurrences, topmost]

/-- The same for the items of a list. -/
theorem map_path_filter_occurrencesItems (kinds : List Kind) : ∀ (items : List Value)
    (path : Path) (i : Nat) (above : List Frame), (∀ a ∈ above.map Frame.node, a.kind ∉ kinds) →
    ((occurrencesItems items path i above).filter (Occurrence.IsTopmost kinds)).map
      Occurrence.path = (topmostItems kinds items i).map (path ++ ·)
  | [], path, i, above, _ => by simp [occurrencesItems, topmostItems]
  | v :: rest, path, i, above, habove => by
      have hv := map_path_filter_occurrences kinds v (path ++ [Segment.index i]) above habove
      have hrest := map_path_filter_occurrencesItems kinds rest path (i + 1)
        (Frame.pass v above) (by rwa [Frame.map_node_pass])
      rw [occurrencesItems, topmostItems, List.filter_append, List.map_append, hv, hrest]
      simp [Function.comp_def]

/-- The same for the fields of a node. -/
theorem map_path_filter_occurrencesFields (kinds : List Kind) : ∀ (fields : Record Value)
    (path : Path) (above : List Frame), (∀ a ∈ above.map Frame.node, a.kind ∉ kinds) →
    ((occurrencesFields fields path above).filter (Occurrence.IsTopmost kinds)).map
      Occurrence.path = (topmostFields kinds fields).map (path ++ ·)
  | [], path, above, _ => by simp [occurrencesFields, topmostFields]
  | (name, v) :: rest, path, above, habove => by
      have hv := map_path_filter_occurrences kinds v (path ++ [Segment.field name]) above habove
      have hrest := map_path_filter_occurrencesFields kinds rest path
        (Frame.pass v above) (by rwa [Frame.map_node_pass])
      rw [occurrencesFields, topmostFields, List.filter_append, List.map_append, hv, hrest]
      simp [Function.comp_def]

end

end Value

/-! ### Pruning -/

namespace Node

/-- The tree with all nodes of some kinds filtered out below the root. -/
def without (root : Node) (kinds : List Kind) : Node :=
  ⟨root.kind, root.span, Value.withoutFields kinds root.fields⟩

/-- The filtered tree is the filtered value of the tree. -/
theorem toValue_without (root : Node) (kinds : List Kind) :
    (root.without kinds).toValue = root.toValue.without kinds := by
  simp [toValue, without, Value.without]

/-- Whether the root matches is a matter of its kind. -/
theorem isOf_toValue (root : Node) (kinds : List Kind) :
    root.toValue.isOf kinds = decide (root.kind ∈ kinds) := rfl

/-- The paths that pruning starts from. -/
theorem collectPaths_eq_topmost (root : Node) (kinds : List Kind) :
    root.collectPaths kinds = root.toValue.topmost kinds := by
  have hwalk := (root.toValue.through [] [] []).walk_collector kinds (by simp) []
  rw [collectPaths, walk, Value.walk_eq_route, hwalk,
    Value.map_path_filter_occurrences kinds root.toValue [] [] (by simp)]
  simp

/-- As many paths are noted as there are topmost matching nodes. -/
theorem length_topmost (root : Node) (kinds : List Kind) :
    (root.toValue.topmost kinds).length =
      (root.occurrences.filter (Occurrence.IsTopmost kinds)).length := by
  have hpaths := Value.map_path_filter_occurrences kinds root.toValue [] [] (by simp)
  simpa [occurrences] using (congrArg List.length hpaths).symm

/-- A root that does not match keeps its place, and all topmost matching nodes are removed. -/
theorem pruneInPlace_of_not_mem {root : Node} {kinds : List Kind} (hroot : root.Distinct)
    (hkind : root.kind ∉ kinds) :
    root.pruneInPlace kinds =
      (.ok (root.occurrences.filter (Occurrence.IsTopmost kinds)).length, root.without kinds) := by
  have hof : root.toValue.isOf kinds = false := by simpa [isOf_toValue] using hkind
  have hnil : [] ∉ root.toValue.topmost kinds := by simp [Value.nil_mem_topmost, hof]
  have haddr : ∀ p ∈ root.toValue.topmost kinds, p ≠ [] ∧ (root.get? p).isSome := by
    intro p hp
    exact ⟨fun h => hnil (h ▸ hp), Value.get?_isSome_of_mem_topmost hroot hp⟩
  have hdrop : root.dropAll (fun p => decide (p ∈ root.toValue.topmost kinds)) =
      root.without kinds := by
    refine toValue_injective ?_
    rw [toValue_dropAll, toValue_without, Value.dropAll_topmost hroot hof]
  have hremove := removeAll_descending hroot (Value.nodup_topmost kinds _ hroot) haddr
  rw [hdrop] at hremove
  simp only [pruneInPlace, collectPaths_eq_topmost, if_neg hnil, hremove, length_topmost]

/-- A matching root is refused, and the tree stays as it is. -/
theorem pruneInPlace_of_mem {root : Node} {kinds : List Kind} (hkind : root.kind ∈ kinds) :
    root.pruneInPlace kinds = (.error .root, root) := by
  have hof : root.toValue.isOf kinds = true := by simpa [isOf_toValue] using hkind
  have hnil : [] ∈ root.toValue.topmost kinds := Value.nil_mem_topmost.2 hof
  simp only [pruneInPlace, collectPaths_eq_topmost, if_pos hnil]

/-- Pruning a root that does not match gives the filtered tree. -/
theorem prune_of_not_mem {root : Node} {kinds : List Kind} (hroot : root.Distinct)
    (hkind : root.kind ∉ kinds) :
    root.prune kinds =
      .ok ((root.occurrences.filter (Occurrence.IsTopmost kinds)).length, root.without kinds) := by
  rw [prune, pruneInPlace_of_not_mem hroot hkind]

/-- Pruning a matching root fails. -/
theorem prune_of_mem {root : Node} {kinds : List Kind} (hkind : root.kind ∈ kinds) :
    root.prune kinds = .error .root := by
  rw [prune, pruneInPlace_of_mem hkind]

/-- **Pruning is the recursive filter.** On a tree with distinct names whose root does not
match, pruning succeeds, counts the topmost matching nodes, and leaves the filtered tree. A
matching root is refused, and the tree stays as it is. -/
theorem pruneInPlace_eq_filter (root : Node) (kinds : List Kind) (hroot : root.Distinct) :
    (root.kind ∉ kinds → root.pruneInPlace kinds =
      (.ok (root.occurrences.filter (Occurrence.IsTopmost kinds)).length, root.without kinds)) ∧
    (root.kind ∈ kinds → root.pruneInPlace kinds = (.error .root, root)) :=
  ⟨pruneInPlace_of_not_mem hroot, pruneInPlace_of_mem⟩

/-- A tree with comments side by side, in a list of lists, in a field, inside another comment,
and in a map. -/
def commented : Node :=
  ⟨.sourceUnit, none, [
    ("children", .list [
      .node .lineComment none [],
      .list [.node .blockComment none [("inner", .node .comment none [])], .scalar .null],
      .node .lineComment none [],
      .node .contractDefinition none [("doc", .node .comment none []), ("name", .text "A")]]),
    ("meta", .map [("note", .node .comment none [])])]⟩

/-- Pruning the comments of that tree removes four of them; the one inside another comment
goes with it, and the one in the map stays. -/
theorem pruneInPlace_commented :
    commented.Distinct ∧ commented.kind ∉ Kind.comments ∧
      commented.pruneInPlace Kind.comments = (.ok 4,
        ⟨.sourceUnit, none, [
          ("children", .list [
            .list [.scalar .null],
            .node .contractDefinition none [("name", .text "A")]]),
          ("meta", .map [("note", .node .comment none [])])]⟩) := by
  have hdistinct : commented.Distinct := by decide
  have hkind : commented.kind ∉ Kind.comments := by decide
  refine ⟨hdistinct, hkind, ?_⟩
  rw [(pruneInPlace_eq_filter commented Kind.comments hdistinct).1 hkind]
  rfl

end Node

end ContractQuery
