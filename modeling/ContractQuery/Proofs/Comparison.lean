import ContractQuery.Proofs.Edit
import ContractQuery.Proofs.Search
import ContractQuery.Settings.Basic

/-!
# Outcomes of a Comparison

A comparison prunes its two subjects one after the other and gives up at the first that cannot
be pruned. `Node.Compared` says what two subjects come to, without an order between them: one
that is itself of the pruned kinds is refused, a contract that neither tree has is missing, one
that only one tree has makes them differ, and two that remain are compared. On trees with
distinct names this is what the comparison answers (`Node.compareWithout_eq_iff`), so its laws
are laws of `Node.Compared`.

Settings keep the kind of the root from being pruned. The subject of a comparison with a target
is a contract, and settings that prune contracts are accepted, so such a comparison is refused.

## Main results

* `Node.compareWithout_eq_iff`: what a comparison answers.
* `Node.compareWithout_equivalence`: **the errors of a comparison, and that it is an equivalence**.
* `Settings.compare_refused_iff`: **when a comparison under accepted settings is refused**.
-/

namespace ContractQuery

namespace Node

/-! ### The subjects -/

/-- What is compared of a tree is one of its nodes. -/
theorem mem_nodes_of_subject {root s : Node} {target : Option String}
    (h : root.subject target = some s) : s ∈ root.toValue.nodes := by
  cases target with
  | none =>
      obtain rfl := Option.some.inj h
      exact List.mem_cons_self
  | some name => exact (mem_nodes_of_findContract h).1

/-- What is compared of a tree with distinct names has distinct names. -/
theorem Distinct.of_subject {root s : Node} {target : Option String} (hroot : root.Distinct)
    (h : root.subject target = some s) : s.Distinct :=
  Value.Distinct.of_mem_nodes hroot (mem_nodes_of_subject h)

/-- Where there is nothing to compare, nothing is pruned. -/
theorem prunedSubject_of_none {root : Node} {target : Option String} (kinds : List Kind)
    (h : root.subject target = none) : root.prunedSubject target kinds = .ok none := by
  rw [prunedSubject, h]

/-- What is itself of a pruned kind is refused. -/
theorem prunedSubject_of_mem {root s : Node} {target : Option String} {kinds : List Kind}
    (h : root.subject target = some s) (hkind : s.kind ∈ kinds) :
    root.prunedSubject target kinds = .error (.removal .root) := by
  rw [prunedSubject, h]
  simp only [prune_of_mem hkind]

/-- All else is pruned. -/
theorem prunedSubject_of_not_mem {root s : Node} {target : Option String} {kinds : List Kind}
    (h : root.subject target = some s) (hs : s.Distinct) (hkind : s.kind ∉ kinds) :
    root.prunedSubject target kinds = .ok (some (s.without kinds)) := by
  rw [prunedSubject, h]
  simp only [prune_of_not_mem hs hkind]

/-! ### What two subjects come to -/

/-- What the subjects of two trees come to when they are compared without the nodes of some
kinds. -/
inductive Compared (target : Option String) (kinds : List Kind) :
    Option Node → Option Node → Except CompareError Bool → Prop
  /-- A subject is itself of the kinds. -/
  | refused {x y : Option Node} {s : Node} :
      s ∈ x ∨ s ∈ y → s.kind ∈ kinds → Compared target kinds x y (.error (.removal .root))
  /-- There is no subject. -/
  | missing : Compared target kinds none none (.error (.contractMissing (target.getD "")))
  /-- Only the first tree has a subject. -/
  | first {s : Node} : s.kind ∉ kinds → Compared target kinds (some s) none (.ok false)
  /-- Only the second tree has a subject. -/
  | second {s : Node} : s.kind ∉ kinds → Compared target kinds none (some s) (.ok false)
  /-- What is left of the subjects is compared. -/
  | both {s t : Node} {equal : Bool} : s.Distinct → t.Distinct → s.kind ∉ kinds →
      t.kind ∉ kinds → (s.without kinds).same (t.without kinds) = equal →
      Compared target kinds (some s) (some t) (.ok equal)

variable {a b : Node} {target : Option String} {kinds : List Kind} {x y z : Option Node}
  {r r' : Except CompareError Bool}

/-- A comparison of trees with distinct names comes to what their subjects come to. -/
theorem compared_compareWithout (ha : a.Distinct) (hb : b.Distinct) (target : Option String)
    (kinds : List Kind) :
    Compared target kinds (a.subject target) (b.subject target)
      (a.compareWithout b target kinds) := by
  cases hx : a.subject target with
  | none =>
      have hleft := prunedSubject_of_none kinds hx
      cases hy : b.subject target with
      | none =>
          rw [compareWithout, hleft, prunedSubject_of_none kinds hy]
          exact .missing
      | some t =>
          by_cases ht : t.kind ∈ kinds
          · rw [compareWithout, hleft, prunedSubject_of_mem hy ht]
            exact .refused (.inr rfl) ht
          · rw [compareWithout, hleft, prunedSubject_of_not_mem hy (hb.of_subject hy) ht]
            exact .second ht
  | some s =>
      by_cases hs : s.kind ∈ kinds
      · rw [compareWithout, prunedSubject_of_mem hx hs]
        exact .refused (.inl rfl) hs
      · have hleft := prunedSubject_of_not_mem hx (ha.of_subject hx) hs
        cases hy : b.subject target with
        | none =>
            rw [compareWithout, hleft, prunedSubject_of_none kinds hy]
            exact .first hs
        | some t =>
            by_cases ht : t.kind ∈ kinds
            · rw [compareWithout, hleft, prunedSubject_of_mem hy ht]
              exact .refused (.inr rfl) ht
            · rw [compareWithout, hleft, prunedSubject_of_not_mem hy (hb.of_subject hy) ht]
              exact .both (ha.of_subject hx) (hb.of_subject hy) hs ht rfl

/-- A subject that is itself of the kinds is refused, whatever the other one is. -/
theorem Compared.eq_refused (h : Compared target kinds x y r) {s : Node} (hs : s ∈ x ∨ s ∈ y)
    (hkind : s.kind ∈ kinds) : r = .error (.removal .root) := by
  cases h with
  | refused _ _ => rfl
  | missing => simp at hs
  | first ht =>
      obtain rfl : _ = s := by simpa using hs
      exact absurd hkind ht
  | second ht =>
      obtain rfl : _ = s := by simpa using hs
      exact absurd hkind ht
  | both _ _ ht hu _ =>
      rcases hs with hs | hs
      · obtain rfl := Option.some.inj hs
        exact absurd hkind ht
      · obtain rfl := Option.some.inj hs
        exact absurd hkind hu

/-- Two subjects come to one result only. -/
theorem Compared.unique (h : Compared target kinds x y r) (h' : Compared target kinds x y r') :
    r = r' := by
  have hagain := h'
  cases h' with
  | refused hs hkind => exact h.eq_refused hs hkind
  | missing =>
      cases h with
      | refused hs hkind => exact (hagain.eq_refused hs hkind).symm
      | missing => rfl
  | first _ =>
      cases h with
      | refused hs hkind => exact (hagain.eq_refused hs hkind).symm
      | first _ => rfl
  | second _ =>
      cases h with
      | refused hs hkind => exact (hagain.eq_refused hs hkind).symm
      | second _ => rfl
  | both _ _ _ _ hequal' =>
      cases h with
      | refused hs hkind => exact (hagain.eq_refused hs hkind).symm
      | both _ _ _ _ hequal => rw [← hequal, hequal']

/-- **What a comparison answers.** -/
theorem compareWithout_eq_iff (ha : a.Distinct) (hb : b.Distinct) :
    a.compareWithout b target kinds = r ↔
      Compared target kinds (a.subject target) (b.subject target) r := by
  constructor
  · rintro rfl
    exact compared_compareWithout ha hb target kinds
  · exact (compared_compareWithout ha hb target kinds).unique

/-! ### Laws -/

/-- What the filter leaves of a tree with distinct names has distinct names. -/
theorem Distinct.without {n : Node} (hn : n.Distinct) (kinds : List Kind) :
    (n.without kinds).Distinct := by
  rw [Distinct, toValue_without]
  exact Value.Distinct.without hn kinds

/-- Equality of trees with distinct names does not depend on their order. -/
theorem same_comm {s t : Node} (hs : s.Distinct) (ht : t.Distinct) : s.same t = t.same s := by
  rw [← same_toValue, ← same_toValue, Bool.eq_iff_iff]
  exact ⟨Value.same_symm hs ht, Value.same_symm ht hs⟩

/-- The order of the subjects does not matter. -/
theorem Compared.swap (h : Compared target kinds x y r) : Compared target kinds y x r := by
  cases h with
  | refused hs hkind => exact .refused hs.symm hkind
  | missing => exact .missing
  | first hs => exact .second hs
  | second hs => exact .first hs
  | both hs ht hks hkt hequal =>
      rw [same_comm (hs.without kinds) (ht.without kinds)] at hequal
      exact .both ht hs hkt hks hequal

/-- A subject that is not of the kinds equals itself. -/
theorem Compared.self {s : Node} (hs : s.Distinct) (hkind : s.kind ∉ kinds) :
    Compared target kinds (some s) (some s) (.ok true) := by
  refine .both hs hs hkind hkind ?_
  rw [← same_toValue]
  exact Value.same_refl (hs.without kinds)

/-- Subjects that equal a third one equal each other. -/
theorem Compared.trans (h : Compared target kinds x y (.ok true))
    (h' : Compared target kinds y z (.ok true)) : Compared target kinds x z (.ok true) := by
  cases h with
  | both hs ht hks hkt hst =>
      cases h' with
      | both _ hu _ hku htu =>
          refine .both hs hu hks hku ?_
          rw [← same_toValue] at hst htu ⊢
          exact Value.same_trans (hs.without kinds) (ht.without kinds) (hu.without kinds) hst htu

/-- The errors of a comparison are those of a refused subject and of a missing one. -/
theorem Compared.error_cases {e : CompareError} (h : Compared target kinds x y (.error e)) :
    (e = .removal .root ∧ ∃ s, (s ∈ x ∨ s ∈ y) ∧ s.kind ∈ kinds) ∨
      (e = .contractMissing (target.getD "") ∧ x = none ∧ y = none) := by
  cases h with
  | refused hs hkind => exact .inl ⟨rfl, _, hs, hkind⟩
  | missing => exact .inr ⟨rfl, rfl, rfl⟩

/-- A comparison is refused if a subject is itself of the kinds. -/
theorem compareWithout_removal_iff (ha : a.Distinct) (hb : b.Distinct) {cause : RemovalError} :
    a.compareWithout b target kinds = .error (.removal cause) ↔ cause = .root ∧
      ∃ s, (a.subject target = some s ∨ b.subject target = some s) ∧ s.kind ∈ kinds := by
  rw [compareWithout_eq_iff ha hb]
  constructor
  · intro h
    rcases h.error_cases with ⟨hcause, hrefused⟩ | ⟨hcause, -, -⟩
    · exact ⟨CompareError.removal.inj hcause, hrefused⟩
    · cases hcause
  · rintro ⟨rfl, s, hs, hkind⟩
    exact .refused hs hkind

/-- A contract is reported as missing if it is the target and neither tree has it. -/
theorem compareWithout_missing_iff (ha : a.Distinct) (hb : b.Distinct) {name : String} :
    a.compareWithout b target kinds = .error (.contractMissing name) ↔
      target = some name ∧ a.findContract name = none ∧ b.findContract name = none := by
  rw [compareWithout_eq_iff ha hb]
  constructor
  · intro h
    rcases h.error_cases with ⟨hcause, -⟩ | ⟨hcause, hx, hy⟩
    · cases hcause
    · cases target with
      | none => cases hx
      | some name' =>
          obtain rfl : name = name' := CompareError.contractMissing.inj hcause
          exact ⟨rfl, hx, hy⟩
  · rintro ⟨rfl, hx, hy⟩
    rw [subject, subject, hx, hy]
    exact .missing

/-- The order of the trees does not matter to a comparison. -/
theorem compareWithout_comm (ha : a.Distinct) (hb : b.Distinct) (target : Option String)
    (kinds : List Kind) : a.compareWithout b target kinds = b.compareWithout a target kinds :=
  (compareWithout_eq_iff ha hb).2 (compared_compareWithout hb ha target kinds).swap

/-- **Comparison is an equivalence with two errors.** For trees with distinct names, a comparison
is refused if a subject is itself of the kinds, a contract is missing if it is the target and
neither tree has it, and there is no other error. The order of the trees does not matter, errors
included, and being equal is reflexive on subjects that can be compared, symmetric and
transitive. -/
theorem compareWithout_equivalence (a b c : Node) (target : Option String) (kinds : List Kind)
    (ha : a.Distinct) (hb : b.Distinct) (hc : c.Distinct) :
    (a.compareWithout b target kinds = .error (.removal .root) ↔
      ∃ s, (a.subject target = some s ∨ b.subject target = some s) ∧ s.kind ∈ kinds) ∧
    (∀ name, a.compareWithout b target kinds = .error (.contractMissing name) ↔
      target = some name ∧ a.findContract name = none ∧ b.findContract name = none) ∧
    (∀ e, a.compareWithout b target kinds = .error e →
      e = .removal .root ∨ ∃ name, e = .contractMissing name) ∧
    a.compareWithout b target kinds = b.compareWithout a target kinds ∧
    (∀ s, a.subject target = some s → s.kind ∉ kinds →
      a.compareWithout a target kinds = .ok true) ∧
    (a.compareWithout b target kinds = .ok true → b.compareWithout a target kinds = .ok true) ∧
    (a.compareWithout b target kinds = .ok true → b.compareWithout c target kinds = .ok true →
      a.compareWithout c target kinds = .ok true) := by
  have hcomm := compareWithout_comm ha hb target kinds
  refine ⟨?_, fun name => compareWithout_missing_iff ha hb, ?_, hcomm, ?_, ?_, ?_⟩
  · rw [compareWithout_removal_iff ha hb, eq_self, true_and]
  · intro e h
    rcases ((compareWithout_eq_iff ha hb).1 h).error_cases with ⟨he, -⟩ | ⟨he, -, -⟩
    · exact .inl he
    · exact .inr ⟨_, he⟩
  · intro s hs hkind
    rw [compareWithout_eq_iff ha ha, hs]
    exact .self (ha.of_subject hs) hkind
  · intro h
    rw [← hcomm, h]
  · intro hab hbc
    rw [compareWithout_eq_iff ha hb] at hab
    rw [compareWithout_eq_iff hb hc] at hbc
    rw [compareWithout_eq_iff ha hc]
    exact hab.trans hbc

/-- A file with one contract, and remarks before it and in it. -/
def remarked (span : Option Span) (remarks : List Value) : Node :=
  ⟨.sourceUnit, none, [
    ("children", .list (remarks ++ [
      .node .contractDefinition span [("name", .text "Vault"), ("subNodes", .list remarks)]]))]⟩

/-- The file without remarks. -/
def vault : Node := remarked none []

/-- The file with a comment, and with the lines of the contract. -/
def vaultInLines : Node := remarked (some (.lines 2 9)) [.node .lineComment none []]

/-- The file with two comments. -/
def vaultExplained : Node := remarked none [.node .blockComment none [], .node .comment none []]

/-- The three files have one contract `Vault` up to comments. They have no contract `Bank`, and
without contracts nothing is left to compare. -/
theorem compareWithout_vault :
    vault.Distinct ∧ vaultInLines.Distinct ∧ vaultExplained.Distinct ∧
      vault.compareWithout vaultInLines (some "Vault") Kind.comments = .ok true ∧
      vaultInLines.compareWithout vaultExplained (some "Vault") Kind.comments = .ok true ∧
      vault.compareWithout vaultExplained (some "Vault") Kind.comments = .ok true ∧
      vault.compareWithout vaultExplained (some "Bank") Kind.comments =
        .error (.contractMissing "Bank") ∧
      vault.compareWithout vaultExplained (some "Vault") [.contractDefinition] =
        .error (.removal .root) := by
  have ha : vault.Distinct := by decide
  have hb : vaultInLines.Distinct := by decide
  have hc : vaultExplained.Distinct := by decide
  have hab : vault.compareWithout vaultInLines (some "Vault") Kind.comments = .ok true :=
    (compareWithout_eq_iff ha hb).2 (.both (by decide) (by decide) (by decide) (by decide) rfl)
  have hbc : vaultInLines.compareWithout vaultExplained (some "Vault") Kind.comments = .ok true :=
    (compareWithout_eq_iff hb hc).2 (.both (by decide) (by decide) (by decide) (by decide) rfl)
  obtain ⟨-, -, -, -, -, -, htrans⟩ :=
    compareWithout_equivalence vault vaultInLines vaultExplained (some "Vault") Kind.comments
      ha hb hc
  obtain ⟨-, hmissing, -⟩ :=
    compareWithout_equivalence vault vaultExplained vault (some "Bank") Kind.comments ha hc ha
  obtain ⟨hrefused, -⟩ :=
    compareWithout_equivalence vault vaultExplained vault (some "Vault") [.contractDefinition]
      ha hc ha
  exact ⟨ha, hb, hc, hab, hbc, htrans hab hbc, (hmissing "Bank").2 ⟨rfl, rfl, rfl⟩,
    hrefused.2 ⟨_, .inl rfl, by decide⟩⟩

end Node

/-! ### Comparison under settings -/

namespace Settings

/-- Settings are accepted if they have no issues, and as they are. -/
theorem validate_eq_ok_iff {settings settings' : Settings} {path : Option String} :
    settings.validate path = .ok settings' ↔ settings.issues = [] ∧ settings = settings' := by
  rw [validate]
  cases settings.issues <;> simp

/-- A kind that its name denotes is pruned if its name is among the settings. -/
theorem mem_prunedKinds_iff {settings : Settings} {kind : Kind} (h : Kind.ofName kind.name = kind) :
    kind ∈ settings.prunedKinds ↔ kind.name ∈ settings.kinds := by
  rw [prunedKinds, List.mem_map]
  constructor
  · rintro ⟨name, hname, rfl⟩
    rwa [Kind.name_ofName]
  · intro hname
    exact ⟨kind.name, hname, h⟩

/-- Accepted settings do not prune the kind of the root. -/
theorem sourceUnit_not_mem_prunedKinds {settings settings' : Settings} {path : Option String}
    (h : settings.validate path = .ok settings') : .sourceUnit ∉ settings.prunedKinds := by
  rw [mem_prunedKinds_iff rfl]
  intro (hmem : "SourceUnit" ∈ settings.kinds)
  have hissues := (validate_eq_ok_iff.1 h).1
  rw [issues, if_pos hmem] at hissues
  simp at hissues

/-- **When a comparison under accepted settings is refused.** Let the settings be accepted and
the roots be source units. A comparison fails because of what is pruned if and only if it has a
target that one of the trees declares and the settings prune contracts. -/
theorem compare_refused_iff (settings : Settings) (path : Option String) (a b : Node)
    (target : Option String) (haccepted : settings.validate path = .ok settings)
    (ha : a.Distinct) (hb : b.Distinct) (hka : a.kind = .sourceUnit) (hkb : b.kind = .sourceUnit) :
    (∃ cause, a.compareWithout b target settings.prunedKinds = .error (.removal cause)) ↔
      "ContractDefinition" ∈ settings.kinds ∧
        ∃ name, target = some name ∧ (a.Declares name ∨ b.Declares name) := by
  have hroot := sourceUnit_not_mem_prunedKinds haccepted
  have hcontract : .contractDefinition ∈ settings.prunedKinds ↔
      "ContractDefinition" ∈ settings.kinds := mem_prunedKinds_iff rfl
  simp only [Node.compareWithout_removal_iff ha hb, exists_eq_left, ← hcontract]
  cases target with
  | none =>
      -- The subjects are the roots.
      simp only [Node.subject, Option.some.injEq]
      refine iff_of_false ?_ (by simp)
      rintro ⟨s, rfl | rfl, hs⟩
      · exact hroot (hka ▸ hs)
      · exact hroot (hkb ▸ hs)
  | some name =>
      simp only [Node.subject, Option.some.injEq, exists_eq_left', ← Node.isSome_findContract_iff,
        Option.isSome_iff_exists]
      constructor
      · rintro ⟨s, hs | hs, hkind⟩
        · rw [(Node.mem_nodes_of_findContract hs).2] at hkind
          exact ⟨hkind, .inl ⟨s, hs⟩⟩
        · rw [(Node.mem_nodes_of_findContract hs).2] at hkind
          exact ⟨hkind, .inr ⟨s, hs⟩⟩
      · rintro ⟨hkind, ⟨s, hs⟩ | ⟨s, hs⟩⟩
        · exact ⟨s, .inl hs, by rwa [(Node.mem_nodes_of_findContract hs).2]⟩
        · exact ⟨s, .inr hs, by rwa [(Node.mem_nodes_of_findContract hs).2]⟩

/-- Settings that prune contracts. -/
def contractless : Settings := ⟨.auto, ["ContractDefinition"]⟩

/-- Under these settings a contract that only one of two files has cannot be compared. -/
theorem compare_contractless :
    contractless.validate none = .ok contractless ∧
      ∃ cause, Node.vault.compareWithout (.ofKind .sourceUnit) (some "Vault")
        contractless.prunedKinds = .error (.removal cause) := by
  have haccepted : contractless.validate none = .ok contractless := by decide +kernel
  refine ⟨haccepted, ?_⟩
  exact (compare_refused_iff contractless none Node.vault (.ofKind .sourceUnit) (some "Vault")
    haccepted (by decide) (by decide) rfl rfl).2 ⟨by decide, "Vault", rfl, .inl (by decide)⟩

/-- The settings are accepted, and yet comparing the contract of a file with itself fails because
of what is pruned. -/
theorem compare_vault_self :
    contractless.validate none = .ok contractless ∧ Node.vault.Distinct ∧
      Node.vault.kind = .sourceUnit ∧
      Node.vault.compareWithout Node.vault (some "Vault") contractless.prunedKinds =
        .error (.removal .root) := by
  decide +kernel

end Settings

end ContractQuery
