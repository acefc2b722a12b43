import Mathlib.Data.List.Find
import Mathlib.Data.List.Pairwise
import ContractQuery.Proofs.Coverage

/-!
# Nested Contracts

Leaving a contract empties the slot for the open contract, also if the contract lies inside
another one. This module says what follows. As long as no contract lies below another, the open
contract is the contract around the place (`Coverage.Settled`), and the functions that
locations touch can be read off the tree. In general a function inside a contract counts as
outside of every contract once a walk has left another contract inside the same one
(`Coverage.CutOff`).

Both results are about the nodes that a walk can reach. It does not look into maps, so a
function there is neither listed nor an error.

## Main results

* `Coverage.openContract_eq_none_iff`: when no contract is open.
* `Through.settled`: without nesting, the open contract is the one around.
* `Node.functionsAt_of_not_nested`: **the answer without nested contracts**.
* `Node.functionsAt_error_iff`: **when a function counts as outside of every contract**.
-/

namespace ContractQuery

/-! ### When no contract is open -/

namespace Coverage

variable {locations : List Location}

/-- A place lies in a contract, and a walk has entered another contract since it entered the
nearest one. -/
def CutOff (locations : List Location) (above : List Frame) : Prop :=
  ∃ inner frame outer, above = inner ++ frame :: outer ∧
    (∀ f ∈ inner, f.node.kind ≠ .contractDefinition) ∧
    frame.node.kind = .contractDefinition ∧
    ∃ f ∈ inner ++ [frame], ∃ v ∈ f.earlier, v.opens locations = true

/-- Once a walk has entered a contract directly inside the first frame, a place is in no
contract or is cut off. -/
theorem cutOff_of_opens {frame : Frame} {above : List Frame} {v : Value}
    (hv : v ∈ frame.earlier) (hopens : v.opens locations = true) :
    (∀ f ∈ frame :: above, f.node.kind ≠ .contractDefinition) ∨
      CutOff locations (frame :: above) := by
  by_cases hcontract : ∀ f ∈ frame :: above, f.node.kind ≠ .contractDefinition
  · exact .inl hcontract
  · right
    simp only [not_forall, not_not, exists_prop] at hcontract
    obtain ⟨c, hc, hkind⟩ := hcontract
    have hfind : ((frame :: above).find? (·.node.kind = .contractDefinition)).isSome :=
      List.find?_isSome.mpr ⟨c, hc, decide_eq_true hkind⟩
    obtain ⟨nearest, hnearest⟩ := Option.isSome_iff_exists.mp hfind
    obtain ⟨hkind, inner, outer, hsplit, hinner⟩ := List.find?_eq_some_iff_append.mp hnearest
    have hmem : frame ∈ inner ++ [nearest] := by
      cases inner with
      | nil => simp [(List.cons.inj hsplit).1]
      | cons g inner => simp [(List.cons.inj hsplit).1]
    exact ⟨inner, nearest, outer, hsplit, by simpa using hinner, by simpa using hkind,
      frame, hmem, v, hv, hopens⟩

/-- Directly inside a contract, a place is cut off if a contract came earlier there. -/
theorem exists_opens_of_cutOff {frame : Frame} {above : List Frame}
    (hkind : frame.node.kind = .contractDefinition)
    (h : CutOff locations (frame :: above)) :
    ∃ v ∈ frame.earlier, v.opens locations = true := by
  obtain ⟨inner, nearest, outer, hsplit, hinner, -, f, hf, hopens⟩ := h
  cases inner with
  | nil =>
      obtain rfl : f = nearest := by simpa using hf
      obtain rfl : frame = f := (List.cons.inj hsplit).1
      exact hopens
  | cons g inner =>
      obtain rfl : frame = g := (List.cons.inj hsplit).1
      exact absurd hkind (hinner frame (by simp))

/-- A node that is no contract and in which no contract came earlier makes no difference. -/
theorem cutOff_cons_iff {frame : Frame} {above : List Frame}
    (hkind : frame.node.kind ≠ .contractDefinition)
    (hopens : ∀ v ∈ frame.earlier, v.opens locations ≠ true) :
    CutOff locations (frame :: above) ↔ CutOff locations above := by
  constructor
  · rintro ⟨inner, nearest, outer, hsplit, hinner, hnearest, f, hf, v, hv, hov⟩
    cases inner with
    | nil =>
        obtain rfl : frame = nearest := (List.cons.inj hsplit).1
        exact absurd hnearest hkind
    | cons g inner =>
        obtain ⟨rfl, habove⟩ := List.cons.inj hsplit
        refine ⟨inner, nearest, outer, habove, ?_, hnearest, f, ?_, v, hv, hov⟩
        · exact fun f hf => hinner f (List.mem_cons_of_mem _ hf)
        · rcases List.mem_cons.mp hf with rfl | hf
          · exact absurd hov (hopens v hv)
          · exact hf
  · rintro ⟨inner, nearest, outer, rfl, hinner, hnearest, f, hf, hov⟩
    refine ⟨frame :: inner, nearest, outer, rfl, ?_, hnearest, f, ?_, hov⟩
    · exact List.forall_mem_cons.mpr ⟨hkind, hinner⟩
    · exact List.mem_cons_of_mem _ hf

/-- No contract is open where there is none above, and where a place is cut off. -/
theorem openContract_eq_none_iff {above : List Frame} :
    openContract locations above = none ↔
      (∀ f ∈ above, f.node.kind ≠ .contractDefinition) ∨ CutOff locations above := by
  induction above with
  | nil => simp [openContract]
  | cons frame above ih =>
      rw [openContract]
      split
      · next hany =>
          obtain ⟨v, hv, hopens⟩ := List.any_eq_true.mp hany
          exact iff_of_true rfl (cutOff_of_opens hv hopens)
      · next hany =>
          have hopens : ∀ v ∈ frame.earlier, v.opens locations ≠ true := by simpa using hany
          split
          · next hkind =>
              refine iff_of_false (by simp) ?_
              rintro (hnone | hcut)
              · exact hnone frame (by simp) hkind
              · obtain ⟨v, hv, hov⟩ := exists_opens_of_cutOff hkind hcut
                exact hopens v hv hov
          · next hkind =>
              rw [ih, cutOff_cons_iff hkind hopens, List.forall_mem_cons]
              simp [hkind]

/-! ### Trees without nested contracts -/

/-- At most one contract is above, and it is the open one. -/
structure Settled (locations : List Location) (above : List Frame) : Prop where
  openContract_eq : openContract locations above =
    (above.map Frame.node).find? (·.kind = .contractDefinition)
  unnested : (above.map Frame.node).Pairwise fun a b =>
    a.kind = .contractDefinition → b.kind ≠ .contractDefinition

/-- Entering a node that is no contract in a contract keeps a place settled. -/
theorem Settled.enter {above : List Frame} (h : Settled locations above) {n : Node}
    (hn : n.kind = .contractDefinition →
      ∀ a ∈ above.map Frame.node, a.kind ≠ .contractDefinition) :
    Settled locations (⟨n, []⟩ :: above) := by
  constructor
  · by_cases hkind : n.kind = .contractDefinition
    · simp [openContract, hkind]
    · simpa [openContract, hkind] using h.openContract_eq
  · rw [List.map_cons, List.pairwise_cons]
    exact ⟨fun a ha hkind => hn hkind a ha, h.unnested⟩

/-- Going past a value with no contract in a contract keeps a place settled. -/
theorem Settled.pass {above : List Frame} (h : Settled locations above) {v : Value}
    (hv : v.opens locations = true →
      ∀ a ∈ above.map Frame.node, a.kind ≠ .contractDefinition) :
    Settled locations (Frame.pass v above) := by
  constructor
  · rw [openContract_pass, Frame.map_node_pass]
    split
    · next hopens =>
        exact (List.find?_eq_none.mpr fun a ha => by simpa using hv hopens a ha).symm
    · exact h.openContract_eq
  · rw [Frame.map_node_pass]
    exact h.unnested

end Coverage

namespace Through

open Coverage

variable {locations : List Location} {above : List Frame} {vs : List Value} {route : Route}
  {os : List Occurrence} {ps : List Place}

/-- A value that opens a contract has one. -/
theorem exists_contract_of_opens (h : Through above vs route os ps) {v : Value} (hv : v ∈ vs)
    (hopens : v.opens locations = true) : ∃ o ∈ os, o.node.kind = .contractDefinition := by
  induction h generalizing v with
  | nil => simp at hv
  | map | scalar =>
      obtain rfl := List.mem_singleton.mp hv
      simp [Value.opens] at hopens
  | list h ih =>
      obtain rfl := List.mem_singleton.mp hv
      rw [Value.opens_list, List.any_eq_true] at hopens
      obtain ⟨w, hw, hopens⟩ := hopens
      exact ih hw hopens
  | @node above n path address below os ps hbelow h ih =>
      obtain rfl := List.mem_singleton.mp hv
      rw [Node.toValue, Value.opens] at hopens
      split at hopens
      · next hkind => exact ⟨_, List.mem_cons_self, hkind⟩
      · split at hopens
        · simp at hopens
        · rw [Value.opensFields_eq_any, List.any_eq_true] at hopens
          obtain ⟨w, hw, hopens⟩ := hopens
          obtain ⟨o, ho, hkind⟩ := ih hw hopens
          exact ⟨o, List.mem_cons_of_mem _ ho, hkind⟩
  | cons hright h h' ih ih' =>
      rcases List.mem_cons.mp hv with rfl | hv
      · obtain ⟨o, ho, hkind⟩ := ih List.mem_cons_self hopens
        exact ⟨o, List.mem_append_left _ ho, hkind⟩
      · obtain ⟨o, ho, hkind⟩ := ih' hv hopens
        exact ⟨o, List.mem_append_right _ ho, hkind⟩

/-- If no contract lies in a contract, then values that open one do not. -/
theorem not_contract_of_opens (h : Through above vs route os ps)
    (hflat : ∀ o ∈ os, o.node.kind = .contractDefinition →
      ∀ a ∈ o.ancestors, a.kind ≠ .contractDefinition)
    {v : Value} (hv : v ∈ vs) (hopens : v.opens locations = true) :
    ∀ a ∈ above.map Frame.node, a.kind ≠ .contractDefinition := by
  obtain ⟨o, ho, hkind⟩ := h.exists_contract_of_opens hv hopens
  intro a ha
  exact hflat o ho hkind a ((h.suffix_of_mem o ho).subset ha)

/-- Without nested contracts, all places are settled if the first is. -/
theorem settled (h : Through above vs route os ps)
    (hflat : ∀ o ∈ os, o.node.kind = .contractDefinition →
      ∀ a ∈ o.ancestors, a.kind ≠ .contractDefinition)
    (hs : Settled locations above) : ∀ o ∈ os, Settled locations o.above := by
  induction h with
  | nil | map | scalar => simp
  | list h ih => exact ih hflat hs
  | node hbelow h ih =>
      obtain ⟨hn, hos⟩ := List.forall_mem_cons.mp hflat
      exact List.forall_mem_cons.mpr ⟨hs, ih hos (hs.enter hn)⟩
  | cons hright h h' ih ih' =>
      obtain ⟨hos, hos'⟩ := List.forall_mem_append.mp hflat
      have hpass := hs.pass (h.not_contract_of_opens hos List.mem_cons_self)
      exact List.forall_mem_append.mpr ⟨ih hos hs, ih' hos' hpass⟩

end Through

namespace Occurrence

variable {locations : List Location}

/-- A function with neither a contract nor a function around it. -/
def IsStray (o : Occurrence) : Prop :=
  o.node.kind = .functionDefinition ∧
    ∀ a ∈ o.ancestors, a.kind ≠ .contractDefinition ∧ a.kind ≠ .functionDefinition

/-- A function in no other function that some location meets, in a contract that some
location meets. -/
def IsCovered (locations : List Location) (o : Occurrence) : Prop :=
  o.node.kind = .functionDefinition ∧ (∀ a ∈ o.ancestors, a.kind ≠ .functionDefinition) ∧
    o.node.Touched locations ∧
    ∃ c ∈ o.ancestors, c.kind = .contractDefinition ∧ c.Touched locations

instance : DecidablePred IsStray := fun o =>
  inferInstanceAs (Decidable (_ ∧ ∀ a ∈ o.ancestors, _))

instance (locations : List Location) : DecidablePred (IsCovered locations) := fun o =>
  inferInstanceAs (Decidable (_ ∧ (∀ a ∈ o.ancestors, _) ∧ o.node.Touched locations ∧
    ∃ c ∈ o.ancestors, _))

/-- The nearest contract is missing if there is no contract around a place. -/
theorem contract?_eq_none_iff {o : Occurrence} :
    o.contract? = none ↔ ∀ a ∈ o.ancestors, a.kind ≠ .contractDefinition := by
  simp [contract?]

/-- The nearest contract is a contract. -/
theorem kind_of_contract? {o : Occurrence} {c : Node} (hc : o.contract? = some c) :
    c.kind = .contractDefinition := by
  simpa using List.find?_some hc

/-- A reached place has a nearest contract that some location meets, if any. -/
theorem IsReached.touched_of_contract? {o : Occurrence} (h : o.IsReached locations) {c : Node}
    (hc : o.contract? = some c) : c.Touched locations :=
  (h c (List.mem_of_find?_eq_some hc)).2 (kind_of_contract? hc)

/-- A walk loses the functions to which it comes and that are in no contract or cut off. -/
theorem isLost_iff {o : Occurrence} : o.IsLost locations ↔
    o.node.kind = .functionDefinition ∧ o.IsReached locations ∧
      ((∀ a ∈ o.ancestors, a.kind ≠ .contractDefinition) ∨
        Coverage.CutOff locations o.above) := by
  rw [IsLost, Option.isNone_iff_eq_none, Coverage.openContract_eq_none_iff, ancestors,
    List.forall_mem_map]

/-- A listed function that is not lost is in a contract that some location meets. -/
theorem IsListed.exists_contract? {o : Occurrence} (h : o.IsListed locations)
    (hlost : ¬ o.IsLost locations) : ∃ c, o.contract? = some c ∧ c.Touched locations := by
  obtain ⟨hkind, hreached, -⟩ := h
  cases hc : o.contract? with
  | none =>
      have hcontract := contract?_eq_none_iff.mp hc
      exact absurd (isLost_iff.mpr ⟨hkind, hreached, .inl hcontract⟩) hlost
  | some c => exact ⟨c, rfl, hreached.touched_of_contract? hc⟩

/-- At a settled place a walk loses a function if it is stray. -/
theorem isLost_iff_isStray {o : Occurrence} (h : Coverage.Settled locations o.above) :
    o.IsLost locations ↔ o.IsStray := by
  have hopen : (Coverage.openContract locations o.above).isNone = true ↔
      ∀ a ∈ o.ancestors, a.kind ≠ .contractDefinition := by
    rw [h.openContract_eq, Option.isNone_iff_eq_none]
    exact contract?_eq_none_iff
  unfold IsLost IsStray
  rw [hopen]
  refine and_congr_right fun _ => ⟨?_, ?_⟩
  · rintro ⟨hreached, hcontract⟩ a ha
    exact ⟨hcontract a ha, (hreached a ha).1⟩
  · intro hstray
    exact ⟨fun a ha => ⟨(hstray a ha).2, fun hkind => absurd hkind (hstray a ha).1⟩,
      fun a ha => (hstray a ha).1⟩

/-- At a settled place a walk lists a function that is not stray if it is covered. -/
theorem isListed_iff_isCovered {o : Occurrence} (h : Coverage.Settled locations o.above)
    (hstray : ¬ o.IsStray) : o.IsListed locations ↔ o.IsCovered locations := by
  constructor
  · intro hlisted
    have hlost : ¬ o.IsLost locations := fun hlost => hstray ((isLost_iff_isStray h).mp hlost)
    obtain ⟨c, hc, hctouched⟩ := hlisted.exists_contract? hlost
    obtain ⟨hkind, hreached, htouched⟩ := hlisted
    exact ⟨hkind, fun a ha => (hreached a ha).1, htouched, c, List.mem_of_find?_eq_some hc,
      kind_of_contract? hc, hctouched⟩
  · rintro ⟨hkind, hfunction, htouched, c, hc, hcontract, hctouched⟩
    refine ⟨hkind, fun a ha => ⟨hfunction a ha, fun hakind => ?_⟩, htouched⟩
    -- No two contracts are above, so the location that meets `c` is one for `a`.
    obtain rfl : c = a := by
      by_contra hne
      have hsymm : Std.Symm fun a b : Node =>
          a.kind = .contractDefinition → b.kind ≠ .contractDefinition :=
        ⟨fun _ _ hab hb ha => hab ha hb⟩
      exact h.unnested.forall hc ha hne hcontract hakind
    exact hctouched

end Occurrence

/-! ### The functions that locations touch -/

namespace Node

/-- **The answer without nested contracts.** If no contract lies below another, the answer is
an error for the first function that is in neither a contract nor a function. If there is
none, it names the functions in no other function such that the function and the contract
around it each meet a location. -/
theorem functionsAt_of_not_nested (root : Node) (locations : List Location)
    (hflat : ∀ o ∈ root.occurrences, o.node.kind = .contractDefinition →
      ∀ a ∈ o.ancestors, a.kind ≠ .contractDefinition) :
    root.functionsAt locations =
      match root.occurrences.find? (·.IsStray) with
      | some o => .error (.outsideContract (Coverage.label o.node))
      | none =>
        .ok ((root.occurrences.filter (·.IsCovered locations)).map
          Occurrence.qualifiedName) := by
  have hsettled : ∀ o ∈ root.occurrences, Coverage.Settled locations o.above :=
    (root.toValue.through [] [] []).settled hflat ⟨rfl, .nil⟩
  have hlost : root.occurrences.find? (·.IsLost locations) =
      root.occurrences.find? (·.IsStray) :=
    List.find?_congr fun o ho =>
      decide_eq_decide.mpr (Occurrence.isLost_iff_isStray (hsettled o ho))
  rw [functionsAt_eq, hlost]
  cases hfind : root.occurrences.find? (·.IsStray) with
  | some o => rfl
  | none =>
      have hlisted : root.occurrences.filter (·.IsListed locations) =
          root.occurrences.filter (·.IsCovered locations) := by
        refine List.filter_congr fun o ho => decide_eq_decide.mpr ?_
        have hstray : ¬ o.IsStray := by simpa using List.find?_eq_none.mp hfind o ho
        exact Occurrence.isListed_iff_isCovered (hsettled o ho) hstray
      simp only [hlisted]

/-- A tree with two contracts: in the first a function with another inside, one without a
name, and one that is far away; the second has no span. -/
def banks : Node :=
  ⟨.sourceUnit, none, [
    ("children", .list [
      .node .contractDefinition (some (.lines 1 20)) [
        ("name", .text "Bank"),
        ("subNodes", .list [
          .node .functionDefinition (some (.lines 2 5)) [
            ("name", .text "pay"),
            ("body", .node .functionDefinition (some (.lines 3 3)) [("name", .text "inner")])],
          .node .functionDefinition (some (.lines 4 6)) [],
          .node .functionDefinition (some (.lines 12 15)) [("name", .text "close")]])],
      .node .contractDefinition none [
        ("name", .text "Vault"),
        ("subNodes", .list [
          .node .functionDefinition (some (.lines 4 4)) [("name", .text "open")]])]])]⟩

/-- Two functions of that tree are in the given lines. -/
theorem functionsAt_banks :
    (∀ o ∈ banks.occurrences, o.node.kind = .contractDefinition →
      ∀ a ∈ o.ancestors, a.kind ≠ .contractDefinition) ∧
      banks.functionsAt [.range (.lines 4 4)] = .ok ["Bank.pay", "Bank.null"] := by
  have hflat : ∀ o ∈ banks.occurrences, o.node.kind = .contractDefinition →
      ∀ a ∈ o.ancestors, a.kind ≠ .contractDefinition := by decide
  refine ⟨hflat, ?_⟩
  rw [functionsAt_of_not_nested banks _ hflat]
  rfl

end Node

/-- The node `m` lies in a value, below the nodes `above` of it. Other than for a walk, this
includes the nodes in maps. -/
inductive Value.Holds : Value → List Node → Node → Prop where
  | here {kind : Kind} {span : Option Span} {fields : Record Value} :
      Holds (.node kind span fields) [] ⟨kind, span, fields⟩
  | inField {kind : Kind} {span : Option Span} {fields : Record Value} {name : String}
      {v : Value} {above : List Node} {m : Node} : (name, v) ∈ fields → Holds v above m →
      Holds (.node kind span fields) (above ++ [⟨kind, span, fields⟩]) m
  | inItem {items : List Value} {v : Value} {above : List Node} {m : Node} :
      v ∈ items → Holds v above m → Holds (.list items) above m
  | inEntry {entries : Record Value} {name : String} {v : Value} {above : List Node}
      {m : Node} : (name, v) ∈ entries → Holds v above m → Holds (.map entries) above m

namespace Node

/-- A function in a map. -/
def mapped : Node :=
  ⟨.sourceUnit, none, [
    ("meta", .map [("hidden", .node .functionDefinition none [("name", .text "f")])])]⟩

/-- A function in a map is in no contract, and yet it is no error. -/
theorem functionsAt_mapped :
    (∀ above n, mapped.toValue.Holds above n → n.kind ≠ .contractDefinition) ∧
      ¬ ((∃ f, mapped.functionsAt [] = .error (.outsideContract f)) ↔
        ∃ above n, mapped.toValue.Holds above n ∧ n.kind = .functionDefinition ∧
          ∀ a ∈ above, a.kind ≠ .contractDefinition ∧ a.kind ≠ .functionDefinition) := by
  refine ⟨?_, ?_⟩
  · intro above n h
    cases h with
    | here => decide
    | inField hmeta h =>
        obtain ⟨rfl, rfl⟩ := Prod.mk.inj (List.mem_singleton.mp hmeta)
        cases h with
        | inEntry hhidden h =>
            obtain ⟨rfl, rfl⟩ := Prod.mk.inj (List.mem_singleton.mp hhidden)
            cases h with
            | here => decide
            | inField hname h =>
                obtain ⟨rfl, rfl⟩ := Prod.mk.inj (List.mem_singleton.mp hname)
                cases h
  · have hok : mapped.functionsAt [] = .ok [] := rfl
    have hholds : mapped.toValue.Holds [mapped]
        ⟨.functionDefinition, none, [("name", .text "f")]⟩ :=
      .inField (List.mem_singleton_self _) (.inEntry (List.mem_singleton_self _) .here)
    intro hiff
    obtain ⟨f, hf⟩ := hiff.mpr ⟨_, _, hholds, rfl, by decide⟩
    rw [hok] at hf
    cases hf

/-! ### Nested contracts -/

/-- **When a function counts as outside of every contract.** The answer is an error if a walk
comes to a function that is in no contract, or that is in one but after another contract
inside the same one. If it is no error, each function is named after the nearest contract
around it, and a location meets this contract. -/
theorem functionsAt_error_iff (root : Node) (locations : List Location) :
    ((∃ f, root.functionsAt locations = .error (.outsideContract f)) ↔
      ∃ o ∈ root.occurrences, o.node.kind = .functionDefinition ∧ o.IsReached locations ∧
        ((∀ a ∈ o.ancestors, a.kind ≠ .contractDefinition) ∨
          Coverage.CutOff locations o.above)) ∧
      ∀ names, root.functionsAt locations = .ok names →
        names = (root.occurrences.filter (·.IsListed locations)).map
            Occurrence.qualifiedName ∧
          ∀ o ∈ root.occurrences, o.IsListed locations →
            ∃ c, o.contract? = some c ∧ c.Touched locations := by
  rw [functionsAt_eq]
  cases hfind : root.occurrences.find? (·.IsLost locations) with
  | some o =>
      refine ⟨iff_of_true ⟨_, rfl⟩ ⟨o, List.mem_of_find?_eq_some hfind, ?_⟩, ?_⟩
      · exact o.isLost_iff.mp (by simpa using List.find?_some hfind)
      · intro names hnames
        cases hnames
  | none =>
      have hnone : ∀ o ∈ root.occurrences, ¬ o.IsLost locations := by
        simpa using hfind
      refine ⟨iff_of_false ?_ ?_, ?_⟩
      · rintro ⟨f, hf⟩
        cases hf
      · rintro ⟨o, ho, hlost⟩
        exact hnone o ho (o.isLost_iff.mpr hlost)
      · intro names hnames
        refine ⟨(Except.ok.inj hnames).symm, fun o ho hlisted => ?_⟩
        exact hlisted.exists_contract? (hnone o ho)

/-- A contract with another contract and, after it, a function. -/
def nested : Node :=
  ⟨.sourceUnit, none, [
    ("children", .list [
      .node .contractDefinition (some (.lines 1 10)) [
        ("name", .text "Outer"),
        ("subNodes", .list [
          .node .contractDefinition (some (.lines 2 3)) [("name", .text "Inner")],
          .node .functionDefinition (some (.lines 5 6)) [("name", .text "f")]])]])]⟩

/-- All functions of that tree are in a contract, and yet the answer is an error. -/
theorem functionsAt_nested :
    (∀ o ∈ nested.occurrences, o.node.kind = .functionDefinition →
      ∃ a ∈ o.ancestors, a.kind = .contractDefinition) ∧
      nested.functionsAt [.range (.lines 1 10)] = .error (.outsideContract "f") := by
  refine ⟨by decide, rfl⟩

end Node

end ContractQuery
