import ContractQuery.Proofs.Extraction
import ContractQuery.Query.Coverage
import ContractQuery.Query.Functions

/-!
# Queries on a Pruned Tree

The queries are about contracts and functions. A visitor reads declarations if it goes through
all other nodes with its state unchanged, and if all that it looks at in a contract or a function
is the kind, the name and the span (`Visitor.ReadsDeclarations`). Pruning changes none of the
three, so a node that it keeps is entered and left as before, wherever it has moved.

A value without declarations is gone through without a change (`Through.walk_of_no_declaration`).
If no pruned node has a declaration inside, a walk through the pruned tree therefore ends in the
state in which a walk through the tree ends (`Through.walk_without`).

## Main results

* `Node.walk_without`: a visitor that reads declarations sees no difference.
* `Node.queries_prune`: **pruning does not change what the queries see**.
-/

namespace ContractQuery

universe u

/-- The kinds of contracts and of functions. -/
def Kind.IsDeclaration (kind : Kind) : Prop :=
  kind = .contractDefinition ∨ kind = .functionDefinition

instance : DecidablePred Kind.IsDeclaration := fun kind =>
  inferInstanceAs (Decidable (kind = .contractDefinition ∨ kind = .functionDefinition))

/-- The visitor takes notice of contracts and functions only, and of these only through their
kind, name and span. -/
structure Visitor.ReadsDeclarations {σ : Type u} (visitor : Visitor σ) : Prop where
  enter_other : ∀ s n path, ¬ n.kind.IsDeclaration → visitor.enter s n path = (s, .descend)
  exit_other : ∀ s n path, ¬ n.kind.IsDeclaration → visitor.exit s n path = s
  enter_congr : ∀ s m n path path', m.kind = n.kind → m.name? = n.name? → m.span = n.span →
    visitor.enter s m path = visitor.enter s n path'
  exit_congr : ∀ s m n path path', m.kind = n.kind → m.name? = n.name? → m.span = n.span →
    visitor.exit s m path = visitor.exit s n path'

/-! ### Values without declarations -/

namespace Through

variable {σ : Type u} {visitor : Visitor σ} {above : List Frame} {vs : List Value} {route : Route}
  {os : List Occurrence} {ps : List Place}

/-- A walk along a route without declarations changes nothing. -/
theorem walk_of_no_declaration (h : Through above vs route os ps)
    (hvisitor : visitor.ReadsDeclarations) (hnone : ∀ o ∈ os, ¬ o.node.kind.IsDeclaration) (s : σ) :
    route.walk visitor s = (s, .completed) := by
  induction h with
  | nil | map | scalar => rfl
  | list h ih => exact ih hnone
  | @node above n path address below os ps hbelow h ih =>
      obtain ⟨hn, hos⟩ := List.forall_mem_cons.mp hnone
      rw [Route.walk_visit_of_completed (hvisitor.enter_other s n path hn) (ih hos),
        hvisitor.exit_other s n path hn]
  | cons hright h h' ih ih' =>
      obtain ⟨hos, hos'⟩ := List.forall_mem_append.mp hnone
      exact (Route.walk_onward_of_completed (ih hos)).trans (ih' hos')

/-- A pruned node is no declaration and has none inside. -/
theorem no_declaration_of_mem {kinds : List Kind} {n : Node} {path : Path}
    (h : Through (⟨n, []⟩ :: above) vs route os ps) (hn : n.kind ∈ kinds)
    (hkinds : ∀ kind ∈ kinds, ¬ kind.IsDeclaration)
    (houtside : ∀ o ∈ os, o.node.kind.IsDeclaration → ∀ a ∈ o.ancestors, a.kind ∉ kinds) :
    ∀ o ∈ (⟨path, above, n⟩ :: os : List Occurrence), ¬ o.node.kind.IsDeclaration := by
  refine List.forall_mem_cons.mpr ⟨hkinds n.kind hn, fun o ho hdeclaration => ?_⟩
  have hmem : n ∈ o.ancestors := (h.suffix_of_mem o ho).subset List.mem_cons_self
  exact houtside o ho hdeclaration n hmem hn

end Through

/-! ### Walking a pruned value -/

namespace Route

variable {σ : Type u} {visitor : Visitor σ} {kinds : List Kind}

/-- The route through values one after the other, each at a path of its own. -/
def along : List (Path × Value) → Route
  | [] => .nowhere
  | (path, v) :: rest => .onward (v.route path) (along rest)

/-- The route through one value. -/
theorem walk_along_singleton (visitor : Visitor σ) (path : Path) (v : Value) (s : σ) :
    (along [(path, v)]).walk visitor s = (v.route path).walk visitor s := by
  rcases walk_onward_cases visitor (v.route path) nowhere s with ⟨s', hfirst, hwalk⟩ |
    ⟨s', hfirst, hwalk⟩ <;> rw [along, along, hwalk, hfirst]
  rfl

/-- The route through some values and then through some more. -/
theorem walk_along_append (visitor : Visitor σ) (placed placed' : List (Path × Value)) (s : σ) :
    (along (placed ++ placed')).walk visitor s =
      (onward (along placed) (along placed')).walk visitor s := by
  induction placed generalizing s with
  | nil => rfl
  | cons e rest ih =>
      rw [List.cons_append, along, along]
      rcases walk_onward_cases visitor (e.2.route e.1) (along (rest ++ placed')) s with
        ⟨s', hfirst, hwalk⟩ | ⟨s', hfirst, hwalk⟩ <;> rw [hwalk]
      · rw [walk_onward_of_stopped (walk_onward_of_stopped hfirst)]
      · rw [ih, walk, walk, walk, hfirst]

/-- The items of a list are gone through one after the other. -/
theorem exists_routeItems_eq_along (items : List Value) (path : Path) (i : Nat) :
    ∃ placed, placed.map Prod.snd = items ∧ Value.routeItems items path i = along placed := by
  induction items generalizing i with
  | nil => exact ⟨[], rfl, rfl⟩
  | cons v rest ih =>
      obtain ⟨placed, rfl, hroute⟩ := ih (i + 1)
      exact ⟨(path ++ [.index i], v) :: placed, rfl, by rw [Value.routeItems, hroute, along]⟩

/-- The fields of a node are gone through one after the other. -/
theorem exists_routeFields_eq_along (fields : Record Value) (path : Path) :
    ∃ placed, placed.map Prod.snd = fields.map Prod.snd ∧
      Value.routeFields fields path = along placed := by
  induction fields with
  | nil => exact ⟨[], rfl, rfl⟩
  | cons e rest ih =>
      obtain ⟨placed, hvalues, hroute⟩ := ih
      refine ⟨(path ++ [.field e.1], e.2) :: placed, by simp [hvalues], ?_⟩
      rw [Value.routeFields, hroute, along]

/-- A walk through a pruned node ends as a walk through the node, if this holds of what is below. -/
theorem walk_visit_without (hvisitor : visitor.ReadsDeclarations) {n : Node} (hn : n.Distinct)
    {path path' : Path} {below below' : Route}
    (hbelow : ∀ s, below'.walk visitor s = below.walk visitor s) (s : σ) :
    (visit ⟨n.without kinds, path'⟩ below').walk visitor s =
      (visit ⟨n, path⟩ below).walk visitor s := by
  have hname := Node.name?_without hn kinds
  have hpruned := hvisitor.enter_congr s (n.without kinds) n path' path rfl hname rfl
  rcases walk_visit_cases visitor ⟨n, path⟩ below s with ⟨s', henter, hwalk⟩ |
    ⟨s', henter, hwalk⟩ | ⟨s', s'', henter, hinside, hwalk⟩ | ⟨s', s'', henter, hinside, hwalk⟩ <;>
    rw [henter] at hpruned <;> rw [hwalk]
  · exact walk_visit_of_stop hpruned
  · exact walk_visit_of_skip hpruned
  · exact walk_visit_of_stopped hpruned ((hbelow s').trans hinside)
  · rw [walk_visit_of_completed hpruned ((hbelow s').trans hinside),
      hvisitor.exit_congr s'' (n.without kinds) n path' path rfl hname rfl]

end Route

/-- **A walk through pruned values** ends as a walk through the values, wherever the two lie. -/
theorem Through.walk_without {σ : Type u} {visitor : Visitor σ} {kinds : List Kind}
    {above : List Frame} {vs : List Value} {route : Route} {os : List Occurrence} {ps : List Place}
    (h : Through above vs route os ps) (hvisitor : visitor.ReadsDeclarations)
    (hkinds : ∀ kind ∈ kinds, ¬ kind.IsDeclaration) (hvs : ∀ v ∈ vs, v.Distinct)
    (houtside : ∀ o ∈ os, o.node.kind.IsDeclaration → ∀ a ∈ o.ancestors, a.kind ∉ kinds)
    {placed : List (Path × Value)} (hplaced : placed.map Prod.snd = Value.withoutItems kinds vs)
    (s : σ) : (Route.along placed).walk visitor s = route.walk visitor s := by
  induction h generalizing placed s with
  | nil =>
      obtain rfl := List.map_eq_nil_iff.mp hplaced
      rfl
  | map | scalar =>
      obtain ⟨⟨path, v⟩, rfl, rfl⟩ := List.map_eq_singleton_iff.mp hplaced
      rfl
  | @list above items route os ps h ih =>
      obtain ⟨⟨path, v⟩, rfl, rfl⟩ := List.map_eq_singleton_iff.mp hplaced
      obtain ⟨placed, hitems, hroute⟩ :=
        Route.exists_routeItems_eq_along (Value.withoutItems kinds items) path 0
      rw [Route.walk_along_singleton, Value.without, Value.route, hroute]
      exact ih (Value.distinctItems_iff.mp (Value.distinct_list.mp (hvs _ List.mem_cons_self)))
        houtside hitems s
  | @node above n path address below os ps hbelow h ih =>
      obtain ⟨-, hos⟩ := List.forall_mem_cons.mp houtside
      have hn : n.Distinct := hvs _ List.mem_cons_self
      by_cases hkind : n.kind ∈ kinds
      · -- The walk goes through the node that is pruned and comes out as it went in.
        rw [Value.withoutItems, if_pos (by simpa [Node.isOf_toValue] using hkind)] at hplaced
        obtain rfl := List.map_eq_nil_iff.mp hplaced
        exact ((Through.node hbelow h).walk_of_no_declaration hvisitor
          (h.no_declaration_of_mem hkind hkinds hos) s).symm
      · rw [Value.withoutItems, if_neg (by simpa [Node.isOf_toValue] using hkind)] at hplaced
        obtain ⟨⟨path', v⟩, rfl, rfl⟩ := List.map_eq_singleton_iff.mp hplaced
        obtain ⟨placed, hfields, hroute⟩ :=
          Route.exists_routeFields_eq_along (Value.withoutFields kinds n.fields) path'
        rw [Route.walk_along_singleton]
        refine Route.walk_visit_without hvisitor hn (fun s => ?_) s
        rw [hroute]
        exact ih (List.forall_mem_map.mpr hn.of_mem_fields) hos
          (hfields.trans (Value.map_snd_withoutFields kinds n.fields)) s
  | @cons above v rest first next os os' ps ps' hright h h' ih ih' =>
      obtain ⟨hv, hrest⟩ := List.forall_mem_cons.mp hvs
      obtain ⟨hos, hos'⟩ := List.forall_mem_append.mp houtside
      rw [← List.singleton_append, Value.withoutItems_append] at hplaced
      obtain ⟨placed, placed', rfl, hfirst, hnext⟩ := List.map_eq_append_iff.mp hplaced
      rw [Route.walk_along_append, Route.walk, Route.walk,
        ih (List.forall_mem_singleton.mpr hv) hos hfirst,
        funext (ih' hrest hos' hnext)]

/-! ### The visitors of the queries -/

/-- The visitor that lists functions reads declarations. -/
theorem Listing.readsDeclarations (contract : String) :
    (Listing.visitor contract).ReadsDeclarations where
  enter_other s n path h := by
    simp only [Kind.IsDeclaration, not_or] at h
    simp only [visitor]
    split
    · next hkind => exact absurd hkind h.1
    · next hkind => exact absurd hkind h.2
    · rfl
  exit_other s n path h := by
    simp only [Kind.IsDeclaration, not_or] at h
    exact if_neg h.1
  enter_congr s m n path path' hkind hname _ := by simp only [visitor, hkind, hname]
  exit_congr s m n path path' hkind _ _ := by simp only [visitor, hkind]

/-- The visitor that looks up functions at locations reads declarations. -/
theorem Coverage.readsDeclarations (ranges : List Span) :
    (Coverage.visitor ranges).ReadsDeclarations where
  enter_other s n path h := by
    simp only [Kind.IsDeclaration, not_or] at h
    simp only [visitor]
    split
    · next hkind => exact absurd hkind h.1
    · next hkind => exact absurd hkind h.2
    · rfl
  exit_other s n path h := by
    simp only [Kind.IsDeclaration, not_or] at h
    exact if_neg h.1
  enter_congr s m n path path' hkind hname hspan := by
    have hscope : inScope ranges m = inScope ranges n := by simp only [inScope, hspan]
    have hlabel : label m = label n := by simp only [label, hname]
    simp only [visitor, hkind, hscope, hlabel]
  exit_congr s m n path path' hkind _ _ := by simp only [visitor, hkind]

namespace Node

/-- **A visitor that reads declarations sees no difference** between a tree and the tree pruned,
if no pruned node has a declaration inside. -/
theorem walk_without {σ : Type u} {visitor : Visitor σ} (hvisitor : visitor.ReadsDeclarations)
    {root : Node} {kinds : List Kind} (hroot : root.Distinct)
    (hkinds : ∀ kind ∈ kinds, ¬ kind.IsDeclaration)
    (houtside : ∀ o ∈ root.occurrences, o.node.kind.IsDeclaration →
      ∀ a ∈ o.ancestors, a.kind ∉ kinds) (s : σ) :
    (root.without kinds).walk visitor s = root.walk visitor s := by
  obtain ⟨-, hbelow⟩ := List.forall_mem_cons.mp houtside
  obtain ⟨placed, hfields, hroute⟩ :=
    Route.exists_routeFields_eq_along (Value.withoutFields kinds root.fields) []
  rw [walk, walk, Value.walk_eq_route, Value.walk_eq_route]
  refine Route.walk_visit_without hvisitor hroot (fun s => ?_) s
  rw [fields_without, hroute]
  exact (Value.throughFields root.fields [] [] 0 _).walk_without hvisitor hkinds
    (List.forall_mem_map.mpr hroot.of_mem_fields) hbelow
    (hfields.trans (Value.map_snd_withoutFields kinds root.fields)) s

/-- **Pruning does not change what the queries see.** Let the pruned kinds include neither the
kind of the root nor contracts nor functions, and let no contract and no function be inside a node
of these kinds. Then pruning succeeds, and in the pruned tree each contract has the functions that
it has in the tree, the search for a contract finds the pruned copy of what it finds in the tree,
and locations touch the functions that they touch in the tree, or fail as they fail there. -/
theorem queries_prune (root : Node) (kinds : List Kind) (hroot : root.Distinct)
    (hkind : root.kind ∉ kinds) (hcontract : .contractDefinition ∉ kinds)
    (hfunction : .functionDefinition ∉ kinds)
    (houtside : ∀ o ∈ root.occurrences,
      o.node.kind = .contractDefinition ∨ o.node.kind = .functionDefinition →
        ∀ a ∈ o.ancestors, a.kind ∉ kinds) :
    ∃ count pruned, root.prune kinds = .ok (count, pruned) ∧
      (∀ name, pruned.listFunctions name = root.listFunctions name) ∧
      (∀ name, Option.Rel (fun c c' => ∃ count, c.prune kinds = .ok (count, c'))
        (root.findContract name) (pruned.findContract name)) ∧
      ∀ locations, pruned.functionsAt locations = root.functionsAt locations := by
  have hkinds : ∀ kind ∈ kinds, ¬ kind.IsDeclaration := by
    rintro kind hmem (rfl | rfl)
    · exact hcontract hmem
    · exact hfunction hmem
  refine ⟨_, _, prune_of_not_mem hroot hkind, ?_, ?_, ?_⟩
  · intro name
    rw [listFunctions, listFunctions,
      walk_without (Listing.readsDeclarations name) hroot hkinds houtside]
  · intro name
    have hkept : ∀ o ∈ root.occurrences, o.node.isContract name = true → o.IsKept kinds := by
      intro o ho hname
      have hdeclared := kind_of_isContract hname
      exact ⟨hdeclared ▸ hcontract, houtside o ho (.inl hdeclared)⟩
    rw [findContract_without hroot hkind hkept]
    cases hfound : root.findContract name with
    | none => exact .none
    | some c =>
        obtain ⟨hmem, hdeclared⟩ := mem_nodes_of_findContract hfound
        exact .some ⟨_, prune_of_not_mem (hroot.of_mem_nodes hmem) (hdeclared ▸ hcontract)⟩
  · intro locations
    rw [functionsAt, functionsAt,
      walk_without (Coverage.readsDeclarations _) hroot hkinds houtside]

/-- A file with comments before a contract, as a field of it and of a function, and between its
functions; one of the comments has a node inside. -/
def documented : Node :=
  ⟨.sourceUnit, none, [
    ("children", .list [
      .node .lineComment none [],
      .node .contractDefinition (some (.lines 2 20)) [
        ("doc", .node .blockComment none [("tag", .node (.other "Tag") none [])]),
        ("name", .text "Bank"),
        ("subNodes", .list [
          .node .comment none [],
          .node .functionDefinition (some (.lines 3 6)) [
            ("note", .node .lineComment none []), ("name", .text "pay")],
          .node .lineComment none [],
          .node .functionDefinition (some (.lines 8 9)) []])]])]⟩

/-- Without its comments, that file has the same contract with the same functions. -/
theorem queries_prune_documented :
    documented.Distinct ∧ documented.kind ∉ Kind.comments ∧
      ∃ count pruned, documented.prune Kind.comments = .ok (count, pruned) ∧
        pruned.listFunctions "Bank" = [some "pay", none] ∧
        (pruned.findContract "Bank").isSome ∧ pruned.findContract "Vault" = none ∧
        pruned.functionsAt [.range (.lines 4 4)] = .ok ["Bank.pay"] := by
  have hdistinct : documented.Distinct := by decide
  have hkind : documented.kind ∉ Kind.comments := by decide
  obtain ⟨count, pruned, hprune, hlist, hfind, hat⟩ :=
    queries_prune documented Kind.comments hdistinct hkind (by decide) (by decide) (by decide)
  have hbank := hfind "Bank"
  have hvault := hfind "Vault"
  refine ⟨hdistinct, hkind, count, pruned, hprune, (hlist "Bank").trans rfl, ?_, ?_,
    (hat _).trans rfl⟩
  · generalize pruned.findContract "Bank" = found at hbank
    cases hbank with
    | some _ => rfl
  · generalize pruned.findContract "Vault" = found at hvault
    cases hvault with
    | none => rfl

end Node

end ContractQuery
