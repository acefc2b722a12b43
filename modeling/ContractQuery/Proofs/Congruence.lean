import ContractQuery.Proofs.Extraction
import ContractQuery.Proofs.History
import ContractQuery.Proofs.Listing

/-!
# Equal Trees Are Treated Alike

A walk goes through equal trees in different orders, as the order of fields is free, and comes to
a place in another state than in the other tree. Pruning and the queries do not depend on this:
all that they see of a place is its path, and the kinds and the names of the node there and of the
nodes above it (`Occurrence.sight`). Equal trees show the same sights up to order
(`Node.perm_sights`), and trees that differ in spans only show the same sights in the same order
(`Node.sights_stripSpans`).

What a query returns is a selection from the sights (`exists_filterMap_of_factors`). So the answers
for equal trees are the same up to order, and the same if only spans differ.

## Main results

* `Value.looksLike_of_same`: equal values show the same sights, wherever they lie.
* `Node.same_without_of_same`: pruning keeps equal trees equal.
* `Node.queries_of_same`: **equal trees are pruned alike and give the same answers**.
-/

namespace ContractQuery

/-! ### Selections from what is seen -/

/-- If it depends on the view `g` which members are selected and what is made of them, the result
is a selection from the views. -/
theorem exists_filterMap_of_factors {α β γ : Type} {g : α → β} {p : α → Bool} {f : α → γ}
    (hp : Function.FactorsThrough p g) (hf : Function.FactorsThrough f g) :
    ∃ select : β → Option γ, ∀ l : List α, (l.filter p).map f = (l.map g).filterMap select := by
  have hselect : Function.FactorsThrough (fun a => if p a then some (f a) else none) g := by
    intro a b h
    simp only [hp h, hf h]
  -- What is no view of anything is not selected.
  refine ⟨Function.extend g (fun a => if p a then some (f a) else none) fun _ => none, fun l => ?_⟩
  rw [List.filterMap_map, ← List.filterMap_eq_map, List.filterMap_filter]
  exact List.filterMap_congr fun a _ => (hselect.extend_apply _ a).symm

/-! ### Sights -/

/-- The kind and the name of a node. -/
def Node.heading (n : Node) : Kind × Option String := (n.kind, n.name?)

/-- The kinds and names of the nodes above a place, nearest first. -/
def Frame.headings (above : List Frame) : List (Kind × Option String) :=
  above.map (·.node.heading)

/-- Going through a value does not change which headings are above. -/
@[simp] theorem Frame.headings_pass (v : Value) (above : List Frame) :
    headings (pass v above) = headings above := by
  cases above <;> rfl

namespace Occurrence

/-- What is seen of a place: its path, and the kinds and names of the node there and of the nodes
above it. -/
def sight (o : Occurrence) : Path × List (Kind × Option String) :=
  (o.path, o.node.heading :: Frame.headings o.above)

/-- Occurrences look the same if path, heading and the headings above agree. -/
theorem sight_eq_iff {o o' : Occurrence} : o.sight = o'.sight ↔
    o.path = o'.path ∧ o.node.heading = o'.node.heading ∧
      Frame.headings o.above = Frame.headings o'.above := by
  simp [sight]

/-- Which nodes are topmost is told by headings. -/
theorem isTopmost_iff_headings {kinds : List Kind} {o : Occurrence} :
    o.IsTopmost kinds ↔
      o.node.heading.1 ∈ kinds ∧ ∀ h ∈ Frame.headings o.above, h.1 ∉ kinds := by
  simp [IsTopmost, ancestors, Frame.headings, Node.heading]

/-- Which functions are listed is told by headings. -/
theorem isMember_iff_headings {contract : String} {o : Occurrence} :
    o.IsMember contract ↔ o.node.heading.1 = .functionDefinition ∧
      (∀ h ∈ Frame.headings o.above, h.1 ≠ .functionDefinition ∧
        (h.1 = .contractDefinition → h.2 = some contract)) ∧
      ∃ h ∈ Frame.headings o.above, h.1 = .contractDefinition := by
  simp [IsMember, Listing.Passable, ancestors, Frame.headings, Node.heading]

/-- Occurrences that look the same are both topmost or both not. -/
theorem isTopmost_factors (kinds : List Kind) :
    Function.FactorsThrough (fun o => decide (IsTopmost kinds o)) sight := by
  intro o o' h
  obtain ⟨-, hnode, habove⟩ := sight_eq_iff.mp h
  simp only [isTopmost_iff_headings, hnode, habove]

/-- Occurrences that look the same are both listed or both not. -/
theorem isMember_factors (contract : String) :
    Function.FactorsThrough (fun o => decide (IsMember contract o)) sight := by
  intro o o' h
  obtain ⟨-, hnode, habove⟩ := sight_eq_iff.mp h
  simp only [isMember_iff_headings, hnode, habove]

/-- Of occurrences that look the same, both are contracts of a name or neither is. -/
theorem isContract_eq_of_sight_eq {o o' : Occurrence} (h : o.sight = o'.sight) (name : String) :
    o.node.isContract name = o'.node.isContract name := by
  obtain ⟨hkind, hname⟩ := Prod.mk.inj (sight_eq_iff.mp h).2.1
  rw [Node.isContract, Node.isContract, hkind, hname]

end Occurrence

/-! ### Trees that differ in spans only -/

namespace Value

/-- Look-up in fields without spans finds the value without spans. -/
theorem get?_stripFields (fields : Record Value) (name : String) :
    Record.get? (stripFields fields) name = (Record.get? fields name).map stripSpans := by
  rw [stripFields_eq_map, Record.get?_map]

/-- A value is the same text without spans. -/
@[simp] theorem text?_stripSpans (v : Value) : v.stripSpans.text? = v.text? := by
  cases v <;> simp [stripSpans, text?]

end Value

/-- A node has the same name without spans. -/
theorem Node.name?_stripSpans (n : Node) : n.stripSpans.name? = n.name? := by
  rw [name?, name?, field?, field?, stripSpans, Value.get?_stripFields]
  cases Record.get? n.fields "name" <;> simp

/-- A node has the same heading without spans. -/
@[simp] theorem Node.heading_stripSpans (n : Node) : n.stripSpans.heading = n.heading := by
  rw [heading, heading, name?_stripSpans]
  rfl

namespace Value

open Occurrence

mutual

/-- The nodes of a value without spans. -/
theorem nodes_stripSpans : ∀ v : Value, v.stripSpans.nodes = v.nodes.map Node.stripSpans
  | node kind span fields => by
      rw [stripSpans, nodes, nodes, List.map_cons, nodesFields_stripFields fields]
      rfl
  | list items => by rw [stripSpans, nodes, nodes, nodesItems_stripItems items]
  | map entries => by simp [stripSpans, nodes]
  | scalar leaf => by simp [stripSpans, nodes]

/-- The nodes of items without spans. -/
theorem nodesItems_stripItems : ∀ items : List Value,
    nodesItems (stripItems items) = (nodesItems items).map Node.stripSpans
  | [] => rfl
  | v :: rest => by
      rw [stripItems, nodesItems, nodesItems, List.map_append, nodes_stripSpans v,
        nodesItems_stripItems rest]

/-- The nodes of fields without spans. -/
theorem nodesFields_stripFields : ∀ fields : List (String × Value),
    nodesFields (stripFields fields) = (nodesFields fields).map Node.stripSpans
  | [] => rfl
  | (name, v) :: rest => by
      rw [stripFields, nodesFields, nodesFields, List.map_append, nodes_stripSpans v,
        nodesFields_stripFields rest]

end

mutual

/-- Without spans, a value shows the same sights, below nodes of the same kinds and names. -/
theorem map_sight_stripSpans : ∀ (v : Value) (path : Path) (above above' : List Frame),
    Frame.headings above' = Frame.headings above →
    (v.stripSpans.occurrences path above').map sight = (v.occurrences path above).map sight
  | node kind span fields, path, above, above', h => by
      have hheading := Node.heading_stripSpans ⟨kind, span, fields⟩
      have hself : sight ⟨path, above', ⟨kind, none, stripFields fields⟩⟩ =
          sight ⟨path, above, ⟨kind, span, fields⟩⟩ := sight_eq_iff.mpr ⟨rfl, hheading, h⟩
      have hbelow : Frame.headings (⟨⟨kind, none, stripFields fields⟩, []⟩ :: above') =
          Frame.headings (⟨⟨kind, span, fields⟩, []⟩ :: above) := congrArg₂ List.cons hheading h
      rw [stripSpans, occurrences, occurrences, List.map_cons, List.map_cons, hself,
        map_sight_stripFields fields path _ _ hbelow]
  | list items, path, above, above', h => by
      rw [stripSpans, occurrences, occurrences, map_sight_stripItems items path 0 above above' h]
  | map entries, path, above, above', _ => by simp [stripSpans, occurrences]
  | scalar leaf, path, above, above', _ => by simp [stripSpans, occurrences]

/-- Without spans, items show the same sights. -/
theorem map_sight_stripItems : ∀ (items : List Value) (path : Path) (i : Nat)
    (above above' : List Frame), Frame.headings above' = Frame.headings above →
    (occurrencesItems (stripItems items) path i above').map sight =
      (occurrencesItems items path i above).map sight
  | [], path, i, above, above', _ => by simp [stripItems, occurrencesItems]
  | v :: rest, path, i, above, above', h => by
      have hrest := map_sight_stripItems rest path (i + 1) (Frame.pass v above)
        (Frame.pass v.stripSpans above') (by simpa using h)
      rw [stripItems, occurrencesItems, occurrencesItems, List.map_append, List.map_append,
        map_sight_stripSpans v _ above above' h, hrest]

/-- Without spans, fields show the same sights. -/
theorem map_sight_stripFields : ∀ (fields : List (String × Value)) (path : Path)
    (above above' : List Frame), Frame.headings above' = Frame.headings above →
    (occurrencesFields (stripFields fields) path above').map sight =
      (occurrencesFields fields path above).map sight
  | [], path, above, above', _ => by simp [stripFields, occurrencesFields]
  | (name, v) :: rest, path, above, above', h => by
      have hrest := map_sight_stripFields rest path (Frame.pass v above)
        (Frame.pass v.stripSpans above') (by simpa using h)
      rw [stripFields, occurrencesFields, occurrencesFields, List.map_append, List.map_append,
        map_sight_stripSpans v _ above above' h, hrest]

end

/-- The sights of a value depend on the kinds and names above it only. -/
theorem map_sight_congr (v : Value) (path : Path) {above above' : List Frame}
    (h : Frame.headings above = Frame.headings above') :
    (v.occurrences path above).map sight = (v.occurrences path above').map sight :=
  (map_sight_stripSpans v path above above' h.symm).symm.trans
    (map_sight_stripSpans v path above' above' rfl)

/-- Fields show their sights one after the other. -/
theorem map_sight_occurrencesFields (fields : Record Value) (path : Path) (above : List Frame) :
    (occurrencesFields fields path above).map sight =
      fields.flatMap fun e => (e.2.occurrences (path ++ [.field e.1]) above).map sight := by
  induction fields generalizing above with
  | nil => rfl
  | cons e rest ih =>
      obtain ⟨name, v⟩ := e
      rw [occurrencesFields, List.map_append, ih, List.flatMap_cons]
      congr 1
      refine List.flatMap_congr fun e _ => ?_
      exact map_sight_congr e.2 _ (Frame.headings_pass v above)

/-! ### Equal trees -/

/-- Wherever the two values lie below nodes of the same kinds and names, they show the same sights
up to order. -/
def LooksLike (v w : Value) : Prop :=
  ∀ (path : Path) (above above' : List Frame), Frame.headings above = Frame.headings above' →
    ((v.occurrences path above).map sight).Perm ((w.occurrences path above').map sight)

/-- Nodes of one kind and name look alike if their fields do, in any order. -/
theorem LooksLike.node {kind kind' : Kind} {span span' : Option Span}
    {fields fields' arranged : Record Value}
    (hheading : (⟨kind, span, fields⟩ : Node).heading = (⟨kind', span', fields'⟩ : Node).heading)
    (hfields : List.Forall₂ (fun e e' => e.1 = e'.1 ∧ e.2.LooksLike e'.2) fields arranged)
    (hperm : arranged.Perm fields') :
    (node kind span fields).LooksLike (node kind' span' fields') := by
  intro path above above' h
  have hself : sight ⟨path, above, ⟨kind, span, fields⟩⟩ =
      sight ⟨path, above', ⟨kind', span', fields'⟩⟩ := sight_eq_iff.mpr ⟨rfl, hheading, h⟩
  rw [occurrences, occurrences, List.map_cons, List.map_cons, hself, map_sight_occurrencesFields,
    map_sight_occurrencesFields]
  -- The fields are first compared one by one, and then rearranged.
  refine .cons _ ((perm_flatMap_of_forall₂ ?_).trans (hperm.flatMap_right _))
  refine hfields.imp fun e e' he => ?_
  rw [he.1]
  exact he.2 _ _ _ (congrArg₂ List.cons hheading h)

/-- Lists look alike if their items do, one by one. -/
theorem LooksLike.list {items items' : List Value} (h : List.Forall₂ LooksLike items items') :
    (list items).LooksLike (list items') := by
  intro path above above' habove
  rw [occurrences, occurrences]
  generalize 0 = i
  induction h generalizing i above above' with
  | nil => exact .refl _
  | @cons v w rest rest' hvw _ ih =>
      rw [occurrencesItems, occurrencesItems, List.map_append, List.map_append]
      exact (hvw _ _ _ habove).append (ih _ _ (by simpa using habove) (i + 1))

/-- **Equal values show the same sights**, wherever they lie. -/
theorem looksLike_of_same {v w : Value} (hv : v.Distinct) (hw : w.Distinct)
    (h : v.same w = true) : v.LooksLike w := by
  induction v using inductionOn generalizing w with
  | node kind span r ih =>
      cases w with
      | node kind' span' r' =>
          obtain ⟨hnames, hr⟩ := distinct_node.mp hv
          obtain ⟨hnames', hr'⟩ := distinct_node.mp hw
          have hnode : (⟨kind, span, r⟩ : Node).same ⟨kind', span', r'⟩ = true := by
            rw [← Node.same_toValue]
            exact h
          have hheading : (⟨kind, span, r⟩ : Node).heading = (⟨kind', span', r'⟩ : Node).heading :=
            Prod.ext (Node.kind_of_same hnode) (Node.name?_of_same hv hw hnode)
          obtain ⟨-, arranged, hforall, hperm⟩ := (same_node_iff hnames hnames').mp h
          refine .node hheading (forall₂_imp_of_mem hforall ?_) hperm
          rintro e he e' he' ⟨hname, hsame⟩
          exact ⟨hname, ih e he (distinctFields_iff.mp hr e he)
            (distinctFields_iff.mp hr' e' (hperm.subset he')) hsame⟩
      | _ => simp [same] at h
  | list items ih =>
      cases w with
      | list items' =>
          have hitems := distinctItems_iff.mp (distinct_list.mp hv)
          have hitems' := distinctItems_iff.mp (distinct_list.mp hw)
          refine .list (forall₂_imp_of_mem (same_list_iff.mp h) ?_)
          intro a ha b hb hsame
          exact ih a ha (hitems a ha) (hitems' b hb) hsame
      | _ => simp [same] at h
  | map entries ih =>
      cases w with
      | map entries' =>
          -- The entries of equal maps may stand in another order, but no place is inside a map.
          exact fun path above above' _ => .refl _
      | _ => simp [same] at h
  | scalar leaf =>
      cases w with
      | scalar leaf' => exact fun path above above' _ => .refl _
      | _ => simp [same] at h

end Value

namespace Node

variable {a b : Node}

/-- The sights of a tree, in pre-order. -/
def sights (root : Node) : List (Path × List (Kind × Option String)) :=
  root.occurrences.map Occurrence.sight

/-- A tree looks the same without spans. -/
theorem sights_stripSpans (root : Node) : root.stripSpans.sights = root.sights := by
  rw [sights, occurrences, ← stripSpans_toValue]
  exact Value.map_sight_stripSpans root.toValue [] [] [] rfl

/-- Equal trees look the same but for the order. -/
theorem perm_sights (ha : a.Distinct) (hb : b.Distinct) (h : a.same b = true) :
    a.sights.Perm b.sights := by
  rw [← same_toValue] at h
  exact Value.looksLike_of_same ha hb h [] [] [] rfl

/-! ### Answers as selections -/

/-- The noted paths are a selection from the sights. -/
theorem exists_collectPaths_eq (kinds : List Kind) :
    ∃ select, ∀ root : Node, root.collectPaths kinds = root.sights.filterMap select := by
  have hpath : Function.FactorsThrough Occurrence.path Occurrence.sight :=
    fun o o' h => (Occurrence.sight_eq_iff.mp h).1
  obtain ⟨select, hselect⟩ :=
    exists_filterMap_of_factors (Occurrence.isTopmost_factors kinds) hpath
  refine ⟨select, fun root => ?_⟩
  have hpaths := Value.map_path_filter_occurrences kinds root.toValue [] [] (by simp)
  rw [sights, ← hselect, collectPaths_eq_topmost]
  simpa [occurrences] using hpaths.symm

/-- The functions of a contract are a selection from the sights. -/
theorem exists_listFunctions_eq (contract : String) :
    ∃ select, ∀ root : Node, root.listFunctions contract = root.sights.filterMap select := by
  have hname : Function.FactorsThrough (fun o : Occurrence => o.node.name?) Occurrence.sight :=
    fun o o' h => (Prod.mk.inj (Occurrence.sight_eq_iff.mp h).2.1).2
  obtain ⟨select, hselect⟩ :=
    exists_filterMap_of_factors (Occurrence.isMember_factors contract) hname
  refine ⟨select, fun root => ?_⟩
  rw [sights, ← hselect, listFunctions_eq]

/-- Trees with the same sights declare the same contracts. -/
theorem declares_of_perm_sights (h : a.sights.Perm b.sights) {name : String}
    (hdeclares : a.Declares name) : b.Declares name := by
  obtain ⟨o, ho, hcontract⟩ := hdeclares
  obtain ⟨o', ho', hsight⟩ := List.mem_map.mp (h.subset (List.mem_map_of_mem ho))
  exact ⟨o', ho', by rw [Occurrence.isContract_eq_of_sight_eq hsight, hcontract]⟩

/-- The search in a tree without spans finds what it finds in the tree, without spans. -/
theorem findContract_stripSpans (root : Node) (name : String) :
    root.stripSpans.findContract name = (root.findContract name).map stripSpans := by
  have hcontract : (fun n => isContract n name) ∘ stripSpans = fun n => n.isContract name := by
    funext n
    rw [Function.comp_apply, isContract, isContract, name?_stripSpans]
    rfl
  rw [findContract_eq_find?, findContract_eq_find?, ← stripSpans_toValue, Value.nodes_stripSpans,
    List.find?_map, hcontract]

/-! ### Pruning equal trees -/

/-- Pruning keeps equal trees equal. -/
theorem same_without_of_same (ha : a.Distinct) (hb : b.Distinct) (h : a.same b = true)
    (kinds : List Kind) : (a.without kinds).same (b.without kinds) = true := by
  rw [← same_toValue] at h
  have hedits : Value.Edits kinds true a.toValue b.toValue := Value.edits_of_same ha hb h true
  rw [← same_toValue, toValue_without, toValue_without]
  exact (Value.same_without_of_edits hedits ha).2

/-- Equal trees are pruned alike: of both, as many nodes are removed and equal trees are left, or
both are refused. -/
theorem prune_of_same (ha : a.Distinct) (hb : b.Distinct) (h : a.same b = true)
    (kinds : List Kind) :
    (∃ count a' b', a.prune kinds = .ok (count, a') ∧ b.prune kinds = .ok (count, b') ∧
        a'.same b' = true) ∨
      (a.prune kinds = .error .root ∧ b.prune kinds = .error .root) := by
  have hkind := kind_of_same h
  by_cases hmem : a.kind ∈ kinds
  · exact .inr ⟨prune_of_mem hmem, prune_of_mem (hkind ▸ hmem)⟩
  · left
    -- As many nodes are removed as paths are noted.
    obtain ⟨select, hselect⟩ := exists_collectPaths_eq kinds
    have hcount : (a.collectPaths kinds).length = (b.collectPaths kinds).length := by
      rw [hselect, hselect]
      exact ((perm_sights ha hb h).filterMap select).length_eq
    rw [collectPaths_eq_topmost, collectPaths_eq_topmost, length_topmost, length_topmost] at hcount
    have hb' := prune_of_not_mem hb (hkind ▸ hmem)
    rw [← hcount] at hb'
    exact ⟨_, _, _, prune_of_not_mem ha hmem, hb', same_without_of_same ha hb h kinds⟩

/-- **Equal trees are pruned alike and give the same answers.** For equal trees with distinct
names, pruning removes as many nodes and leaves equal trees, or is refused for both; the noted
paths and the functions of a contract are the same up to order; and both have a contract of a name
or neither has. If the trees differ in spans only, paths and functions come in the same order, and
the contracts that are found differ in spans only. -/
theorem queries_of_same (a b : Node) (kinds : List Kind) (name : String) (ha : a.Distinct)
    (hb : b.Distinct) (h : a.same b = true) :
    ((∃ count a' b', a.prune kinds = .ok (count, a') ∧ b.prune kinds = .ok (count, b') ∧
        a'.same b' = true) ∨
      (a.prune kinds = .error .root ∧ b.prune kinds = .error .root)) ∧
    (a.collectPaths kinds).Perm (b.collectPaths kinds) ∧
    (a.listFunctions name).Perm (b.listFunctions name) ∧
    ((a.findContract name).isSome ↔ (b.findContract name).isSome) ∧
    (a.stripSpans = b.stripSpans →
      a.collectPaths kinds = b.collectPaths kinds ∧
      a.listFunctions name = b.listFunctions name ∧
      (a.findContract name).map stripSpans = (b.findContract name).map stripSpans) := by
  have hsights := perm_sights ha hb h
  obtain ⟨selectPaths, hpaths⟩ := exists_collectPaths_eq kinds
  obtain ⟨selectNames, hnames⟩ := exists_listFunctions_eq name
  refine ⟨prune_of_same ha hb h kinds, ?_, ?_, ?_, ?_⟩
  · rw [hpaths, hpaths]
    exact hsights.filterMap selectPaths
  · rw [hnames, hnames]
    exact hsights.filterMap selectNames
  · rw [isSome_findContract_iff, isSome_findContract_iff]
    exact ⟨declares_of_perm_sights hsights, declares_of_perm_sights hsights.symm⟩
  · intro hspans
    have hordered : a.sights = b.sights := by
      rw [← sights_stripSpans a, hspans, sights_stripSpans]
    refine ⟨?_, ?_, ?_⟩
    · rw [hpaths, hpaths, hordered]
    · rw [hnames, hnames, hordered]
    · rw [← findContract_stripSpans, ← findContract_stripSpans, hspans]

/-- A contract with given fields, behind a comment in a list and with a map beside it. -/
def registry (span : Option Span) (members : List (String × Value)) : Node :=
  ⟨.sourceUnit, span, [
    ("children", .list [.node .lineComment span []]),
    ("main", .node .contractDefinition span (("name", .text "Bank") :: members)),
    ("meta", .map [("version", .text "1")])]⟩

/-- Two functions and a comment between them. -/
def opening : List (String × Value) :=
  [("open", .node .functionDefinition none [("name", .text "open")]),
    ("doc", .node .blockComment none []),
    ("close", .node .functionDefinition none [("name", .text "close")])]

/-- The contract with its functions in the opposite order. -/
def closing : Node := registry none opening.reverse

/-- In the opposite order, as many nodes are pruned, and the same functions are listed, but not in
the same order; with other spans they are listed in the same order. -/
theorem queries_of_same_registry :
    (registry none opening).Distinct ∧ closing.Distinct ∧
      (registry none opening).same closing = true ∧
      (∃ count a' b', (registry none opening).prune Kind.comments = .ok (count, a') ∧
        closing.prune Kind.comments = .ok (count, b') ∧ a'.same b' = true) ∧
      ((registry none opening).collectPaths Kind.comments).Perm
        (closing.collectPaths Kind.comments) ∧
      ((registry none opening).listFunctions "Bank").Perm (closing.listFunctions "Bank") ∧
      (registry none opening).listFunctions "Bank" ≠ closing.listFunctions "Bank" ∧
      (registry none opening).listFunctions "Bank" =
        (registry (some (.lines 1 9)) opening).listFunctions "Bank" := by
  have ha : (registry none opening).Distinct := by decide
  have hb : closing.Distinct := by decide
  have hc : (registry (some (.lines 1 9)) opening).Distinct := by decide
  have hsame : (registry none opening).same closing = true := rfl
  obtain ⟨hprune, hpaths, hnames, -, -⟩ := queries_of_same _ _ Kind.comments "Bank" ha hb hsame
  obtain ⟨-, -, -, -, hspans⟩ := queries_of_same _ _ Kind.comments "Bank" ha hc rfl
  refine ⟨ha, hb, hsame, ?_, hpaths, hnames, by decide, (hspans rfl).2.1⟩
  rcases hprune with hprune | ⟨hrefused, -⟩
  · exact hprune
  · rw [prune_of_not_mem ha (by decide)] at hrefused
    cases hrefused

end Node

end ContractQuery
