import Mathlib.Data.List.Basic
import ContractQuery.Proofs.Calls
import ContractQuery.Proofs.Removal
import ContractQuery.Proofs.Search

/-!
# The Paths of a Walk Lead to its Nodes

A walk builds its paths as it goes down, one segment a step; look-up takes a path apart and asks
for each name and each position. In a tree in which no node uses a name twice the two agree:
each call of a walk shows the node that its path leads to, and a walk that goes everywhere comes
to every path that leads to a node, once. Only the nodes that a walk reaches matter, so maps may
use names twice.

Both sides are compared with `Value.places`. Its paths are resolved one step at a time
(`Value.get?_of_mem_places`, `Value.exists_place_of_get?`), and distinct names make them tell
places apart (`Value.address_eq_of_path_eq`).

## Main results

* `Visits.entered_eq`: a walk that always descends enters every place.
* `Node.calls_resolve`: **paths and look-up agree**.
-/

namespace ContractQuery

universe u

namespace Value

/-! ### Places and look-up -/

/-- The path of a place leads to its node. -/
theorem get?_of_mem_places {v : Value} (hv : ∀ n ∈ v.nodes, Record.Distinct n.fields)
    {path : Path} {address : List Nat} {p : Place} (hp : p ∈ v.places path address) :
    ∃ q, p.path = path ++ q ∧ v.get? q = some p.node.toValue := by
  induction v using inductionOn generalizing path address with
  | node kind span fields ih =>
      rw [places, List.mem_cons] at hp
      rcases hp with rfl | hp
      · exact ⟨[], (List.append_nil path).symm, rfl⟩
      · obtain ⟨j, e, he, hp⟩ := mem_placesFields.mp hp
        have hmem : e ∈ fields := List.mem_of_getElem? he
        have hnames : Record.Distinct fields := hv ⟨kind, span, fields⟩ List.mem_cons_self
        obtain ⟨q, hpath, hget⟩ := ih e hmem
          (fun n hn => hv n (List.mem_cons_of_mem _ (mem_nodesFields.mpr ⟨e, hmem, hn⟩))) hp
        refine ⟨.field e.1 :: q, by simp [hpath], ?_⟩
        rw [get?_cons, child?, Record.get?_eq_some_of_mem hnames hmem, Option.bind_some, hget]
  | list items ih =>
      rw [places] at hp
      obtain ⟨j, w, hw, hp⟩ := mem_placesItems.mp hp
      have hmem : w ∈ items := List.mem_of_getElem? hw
      rw [Nat.zero_add] at hp
      obtain ⟨q, hpath, hget⟩ :=
        ih w hmem (fun n hn => hv n (mem_nodesItems.mpr ⟨w, hmem, hn⟩)) hp
      refine ⟨.index j :: q, by simp [hpath], ?_⟩
      rw [get?_cons, child?, hw, Option.bind_some, hget]
  | map entries ih => simp [places] at hp
  | scalar leaf => simp [places] at hp

/-- A path that leads to a node is the path of a place. -/
theorem exists_place_of_get? {v : Value} {q : Path} {n : Node} (h : v.get? q = some n.toValue)
    (path : Path) (address : List Nat) :
    ∃ p ∈ v.places path address, p.path = path ++ q ∧ p.node = n := by
  induction q generalizing v path address with
  | nil =>
      obtain rfl : v = n.toValue := Option.some.inj h
      exact ⟨⟨⟨n, path⟩, address⟩, List.mem_cons_self, (List.append_nil path).symm, rfl⟩
  | cons s q ih =>
      rw [get?_cons, Option.bind_eq_some_iff] at h
      obtain ⟨c, hc, hq⟩ := h
      fun_cases child? v s with
      | case1 kind span fields name =>
          obtain ⟨j, hj⟩ := List.getElem?_of_mem (Record.mem_of_get?_eq_some hc)
          obtain ⟨p, hp, hpath, hnode⟩ := ih hq (path ++ [.field name]) (address ++ [0 + j])
          refine ⟨p, ?_, by simp [hpath], hnode⟩
          exact List.mem_cons_of_mem _ (mem_placesFields.mpr ⟨j, (name, c), hj, hp⟩)
      | case2 items i =>
          obtain ⟨p, hp, hpath, hnode⟩ := ih hq (path ++ [.index (0 + i)]) (address ++ [0 + i])
          refine ⟨p, ?_, by simp [hpath], hnode⟩
          rw [places]
          exact mem_placesItems.mpr ⟨i, c, hc, hp⟩
      | case3 v s hnode hlist => simp_all [child?]

/-- The path of a value leads to all places in it. -/
theorem path_prefix_of_mem_places {v : Value} (hv : ∀ n ∈ v.nodes, Record.Distinct n.fields)
    {path : Path} {address : List Nat} {p : Place} (hp : p ∈ v.places path address) :
    path <+: p.path := by
  obtain ⟨q, hpath, -⟩ := get?_of_mem_places hv hp
  exact ⟨q, hpath.symm⟩

/-- Two ways down that come to one path take the same first step. -/
theorem segment_eq_of_isPrefix {path p : Path} {s t : Segment} (hs : path ++ [s] <+: p)
    (ht : path ++ [t] <+: p) : s = t := by
  have hpre := List.prefix_of_prefix_length_le hs ht (by simp)
  simpa using hpre

/-- Where names are distinct, a path tells places apart. -/
theorem address_eq_of_path_eq {v : Value} (hv : ∀ n ∈ v.nodes, Record.Distinct n.fields)
    {path : Path} {address : List Nat} {p q : Place} (hp : p ∈ v.places path address)
    (hq : q ∈ v.places path address) (h : p.path = q.path) : p.address = q.address := by
  induction v using inductionOn generalizing path address with
  | node kind span fields ih =>
      have hfields : ∀ e ∈ fields, ∀ n ∈ e.2.nodes, Record.Distinct n.fields := fun e he n hn =>
        hv n (List.mem_cons_of_mem _ (mem_nodesFields.mpr ⟨e, he, hn⟩))
      -- The path of a place below the node is longer than that of the node.
      have hlonger : ∀ r ∈ placesFields fields path address 0, r.path ≠ path := by
        intro r hr hpath
        obtain ⟨j, e, he, hr⟩ := mem_placesFields.mp hr
        have hpre := path_prefix_of_mem_places (hfields e (List.mem_of_getElem? he)) hr
        have hlength := hpre.length_le
        rw [hpath, List.length_append, List.length_singleton] at hlength
        omega
      rw [places, List.mem_cons] at hp hq
      rcases hp with rfl | hp <;> rcases hq with rfl | hq
      · rfl
      · exact absurd h.symm (hlonger q hq)
      · exact absurd h (hlonger p hp)
      · obtain ⟨i, e, he, hp⟩ := mem_placesFields.mp hp
        obtain ⟨j, f, hf, hq⟩ := mem_placesFields.mp hq
        have hmem : e ∈ fields := List.mem_of_getElem? he
        have hname : e.1 = f.1 := by
          have hpre := path_prefix_of_mem_places (hfields e hmem) hp
          have hpre' := path_prefix_of_mem_places (hfields f (List.mem_of_getElem? hf)) hq
          rw [← h] at hpre'
          exact Segment.field.inj (segment_eq_of_isPrefix hpre hpre')
        have hnames : Record.Distinct fields := hv ⟨kind, span, fields⟩ List.mem_cons_self
        have hi : i < (Record.names fields).length := by
          simpa [Record.names] using (List.getElem?_eq_some_iff.mp he).1
        obtain rfl : i = j := by
          refine (List.getElem?_inj hi hnames).mp ?_
          simp [Record.names, he, hf, hname]
        obtain rfl : e = f := Option.some.inj (he.symm.trans hf)
        exact ih e hmem (hfields e hmem) hp hq
  | list items ih =>
      have hitems : ∀ w ∈ items, ∀ n ∈ w.nodes, Record.Distinct n.fields := fun w hw n hn =>
        hv n (mem_nodesItems.mpr ⟨w, hw, hn⟩)
      rw [places] at hp hq
      obtain ⟨i, w, hw, hp⟩ := mem_placesItems.mp hp
      obtain ⟨j, x, hx, hq⟩ := mem_placesItems.mp hq
      have hmem : w ∈ items := List.mem_of_getElem? hw
      have hindex : 0 + i = 0 + j := by
        have hpre := path_prefix_of_mem_places (hitems w hmem) hp
        have hpre' := path_prefix_of_mem_places (hitems x (List.mem_of_getElem? hx)) hq
        rw [← h] at hpre'
        exact Segment.index.inj (segment_eq_of_isPrefix hpre hpre')
      obtain rfl : i = j := by omega
      obtain rfl : w = x := Option.some.inj (hw.symm.trans hx)
      exact ih w hmem (hitems w hmem) hp hq
  | map entries ih => simp [places] at hp
  | scalar leaf => simp [places] at hp

end Value

/-! ### Walks that always descend -/

/-- A walk that always descends enters every place. -/
theorem Visits.entered_eq {places : List Place} {calls : List (Call Place)} {outcome : Outcome}
    (h : Visits places calls outcome) (hflow : ∀ p flow, .enter p flow ∈ calls → flow = .descend) :
    Call.entered calls = places := by
  induction h with
  | nil => rfl
  | stop hbelow => exact absurd (hflow _ _ List.mem_cons_self) (by simp)
  | skip hbelow => exact absurd (hflow _ _ List.mem_cons_self) (by simp)
  | descend hbelow h ih =>
      simpa using ih fun p flow hp => hflow p flow (by simp [hp])
  | append hright h h' ih ih' =>
      rw [Call.entered_append, ih fun p flow hp => hflow p flow (List.mem_append_left _ hp),
        ih' fun p flow hp => hflow p flow (List.mem_append_right _ hp)]
  | cut hright h ih =>
      obtain ⟨p, hp⟩ := h.stopped_iff.mp rfl
      exact absurd (hflow p _ hp) (by simp)

namespace Node

variable {σ : Type u}

/-- The calls that a walk makes, in order and with the answers. -/
def calls (root : Node) (visitor : Visitor σ) (s : σ) : List (Call Site) :=
  (root.walk visitor.recording (s, [])).1.2

/-- The calls of a walk, each at its place. -/
theorem exists_visits (root : Node) (visitor : Visitor σ) (s : σ) :
    ∃ calls, root.calls visitor s = calls.map (Call.map Place.toSite) ∧
      Visits root.places calls (root.walk visitor s).2 := by
  obtain ⟨calls, hcalls, hvisits⟩ := root.walk_recording visitor s
  exact ⟨calls, congrArg (fun result => result.1.2) hcalls, hvisits⟩

/-- A visitor that always descends is recorded with no other answer. -/
theorem keeps_recording {visitor : Visitor σ}
    (hdescend : ∀ s n path, (visitor.enter s n path).2 = .descend) :
    visitor.recording.Keeps fun state =>
      ∀ site flow, .enter site flow ∈ state.2 → flow = .descend := by
  constructor
  · intro state n path hstate site flow hmem
    rcases List.mem_append.mp hmem with hmem | hmem
    · exact hstate site flow hmem
    · obtain ⟨-, rfl⟩ : site = ⟨n, path⟩ ∧ flow = (visitor.enter state.1 n path).2 := by
        simpa using hmem
      exact hdescend state.1 n path
  · intro state n path hstate site flow hmem
    rcases List.mem_append.mp hmem with hmem | hmem
    · exact hstate site flow hmem
    · simp at hmem

/-- A walk that always descends enters all places. -/
theorem entered_calls {visitor : Visitor σ}
    (hdescend : ∀ s n path, (visitor.enter s n path).2 = .descend) (root : Node) (s : σ) :
    Call.entered (root.calls visitor s) = root.places.map Place.toSite := by
  obtain ⟨calls, hcalls, hvisits⟩ := root.exists_visits visitor s
  have hflow : ∀ site flow, .enter site flow ∈ root.calls visitor s → flow = .descend := by
    rw [Node.calls, walk, Value.walk_eq_route]
    exact Route.walk_keeps (keeps_recording hdescend) (by simp)
  rw [hcalls, Call.entered_map, hvisits.entered_eq]
  intro p flow hp
  refine hflow p.toSite flow ?_
  rw [hcalls]
  exact List.mem_map.mpr ⟨.enter p flow, hp, rfl⟩

/-- Look-up finds a node at a path exactly when a place of the node has that path. -/
theorem at?_eq_some_iff {root : Node}
    (hroot : ∀ n ∈ root.toValue.nodes, Record.Distinct n.fields) {path : Path} {n : Node} :
    root.at? path = some n ↔ ∃ p ∈ root.places, p.path = path ∧ p.node = n := by
  rw [at?_eq_some_iff_get?]
  constructor
  · intro h
    exact Value.exists_place_of_get? h [] []
  · rintro ⟨p, hp, rfl, rfl⟩
    obtain ⟨q, hpath, hget⟩ := Value.get?_of_mem_places hroot hp
    rw [List.nil_append] at hpath
    exact hpath ▸ hget

/-- Where names are distinct, no two places have one path. -/
theorem nodup_path_places {root : Node}
    (hroot : ∀ n ∈ root.toValue.nodes, Record.Distinct n.fields) :
    (root.places.map fun p => p.path).Nodup := by
  rw [List.Nodup, List.pairwise_map]
  refine (Value.pairwise_places root.toValue [] []).imp_of_mem ?_
  intro p q hp hq hbefore heq
  exact hbefore.address_ne (Value.address_eq_of_path_eq hroot hp hq heq)

/-- **Paths and look-up agree.** In a tree in which no node that a walk reaches uses a name
twice, every call of every walk shows the node that its path leads to; and if the visitor always
descends, nodes are entered at exactly the paths that lead to a node, at each of them once. -/
theorem calls_resolve (root : Node)
    (hroot : ∀ n ∈ root.toValue.nodes, Record.Distinct n.fields) (visitor : Visitor σ) (s : σ) :
    (∀ call ∈ root.calls visitor s, root.at? call.place.path = some call.place.node) ∧
    ((∀ s n path, (visitor.enter s n path).2 = .descend) →
      ((Call.entered (root.calls visitor s)).map Site.path).Nodup ∧
      ∀ path, path ∈ (Call.entered (root.calls visitor s)).map Site.path ↔
        (root.at? path).isSome) := by
  constructor
  · intro call hcall
    obtain ⟨calls, hcalls, hvisits⟩ := root.exists_visits visitor s
    rw [hcalls] at hcall
    obtain ⟨placed, hplaced, rfl⟩ := List.mem_map.mp hcall
    rw [Call.place_map]
    exact (at?_eq_some_iff hroot).mpr ⟨placed.place, hvisits.place_mem placed hplaced, rfl, rfl⟩
  · intro hdescend
    rw [entered_calls hdescend, List.map_map]
    refine ⟨nodup_path_places hroot, fun path => ?_⟩
    rw [Option.isSome_iff_exists, List.mem_map]
    simp only [at?_eq_some_iff hroot]
    constructor
    · rintro ⟨p, hp, rfl⟩
      exact ⟨p.node, p, hp, rfl, rfl⟩
    · rintro ⟨n, p, hp, hpath, -⟩
      exact ⟨p, hp, hpath⟩

/-- A tree with a list inside a list, a node inside a node, and a map that uses a name twice. -/
def layered : Node :=
  ⟨.sourceUnit, none, [
    ("children", .list [
      .scalar .null,
      .list [.node (.other "Pragma") (some (.lines 1 1)) []],
      .node .contractDefinition none [("doc", .node .comment none [])]]),
    ("meta", .map [("note", .node .comment none []), ("note", .scalar .null)])]⟩

/-- A visitor that counts the nodes it enters and always descends. -/
def counter : Visitor Nat := .entering fun count _ _ => (count + 1, .descend)

/-- In that tree a walk enters four nodes, and look-up finds a node at their paths alone. -/
theorem calls_resolve_layered :
    (∀ n ∈ layered.toValue.nodes, Record.Distinct n.fields) ∧
    (∀ s n path, (counter.enter s n path).2 = .descend) ∧
    (Call.entered (layered.calls counter 0)).map Site.path = [
      [], [.field "children", .index 1, .index 0], [.field "children", .index 2],
      [.field "children", .index 2, .field "doc"]] ∧
    (∀ call ∈ layered.calls counter 0, layered.at? call.place.path = some call.place.node) ∧
    ((Call.entered (layered.calls counter 0)).map Site.path).Nodup ∧
    ∀ path, path ∈ (Call.entered (layered.calls counter 0)).map Site.path ↔
      (layered.at? path).isSome := by
  have hdistinct : ∀ n ∈ layered.toValue.nodes, Record.Distinct n.fields := by
    simp [layered, toValue, Value.nodes, Value.nodesFields, Value.nodesItems, Record.Distinct]
  have hdescend : ∀ s n path, (counter.enter s n path).2 = .descend := fun _ _ _ => rfl
  obtain ⟨hresolve, hall⟩ := calls_resolve layered hdistinct counter 0
  exact ⟨hdistinct, hdescend, rfl, hresolve, hall hdescend⟩

end Node

end ContractQuery
