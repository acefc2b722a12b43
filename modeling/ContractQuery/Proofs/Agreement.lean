import ContractQuery.Proofs.Equality
import ContractQuery.Proofs.Listing
import ContractQuery.Proofs.Resolution

/-!
# The Contract Found and the Functions Listed

Two queries ask for a contract by name. The search goes everywhere and stops at the first contract
of the name. The listing goes past functions and contracts of other names and never stops. So they
see different parts of a tree, and neither result can be read off the other in general.

What they have in common follows from the order of places. A function is listed only below a
contract of the name, and this contract comes before it. So nothing is listed before the contract
that the search finds, and what is listed in this contract comes first, provided that the listing
gets there: no function and no contract may be above it.

The listing is restated over `Node.places` (`Node.listFunctions_eq_places`), where "above" is a
relation between places, and a subtree is a segment of the list (`Value.isSegment_of_mem_places`).

## Main results

* `Node.listFunctions_eq_places`: the functions of a contract, by place.
* `Value.isSegment_of_mem_places`: the places of a subtree stand together.
* `Node.findContract_agrees_listFunctions`: **what the search and the listing have in common**.
-/

namespace ContractQuery

universe u

namespace Place

variable {a p q : Place}

instance (a p : Place) : Decidable (a.Above p) :=
  inferInstanceAs (Decidable (a.address <+: p.address ∧ a.address ≠ p.address))

/-- Pre-order is transitive. -/
theorem Before.trans (h : a.Before p) (h' : p.Before q) : a.Before q :=
  List.lex_trans Nat.lt_trans h h'

/-- What is above a place is above all that is below it. -/
theorem Above.trans (h : a.Above p) (h' : p.Above q) : a.Above q := by
  refine ⟨h.1.trans h'.1, fun heq => ?_⟩
  have hback : p.address <+: a.address := heq ▸ h'.1
  exact h.2 (h.1.eq_of_length (Nat.le_antisymm h.1.length_le hback.length_le))

/-- Of two places above a third one is above the other, or they have one address. -/
theorem Above.comparable (h : a.Above q) (h' : p.Above q) :
    a.Above p ∨ a.address = p.address ∨ p.Above a := by
  by_cases heq : a.address = p.address
  · exact .inr (.inl heq)
  · rcases List.prefix_or_prefix_of_prefix h.1 h'.1 with hpre | hpre
    · exact .inl ⟨hpre, heq⟩
    · exact .inr (.inr ⟨hpre, Ne.symm heq⟩)

/-! ### Subtrees -/

/-- The places of the subtree at a place, the place itself among them. -/
def subtree (p : Place) : List Place := p.node.toValue.places p.path p.address

/-- In the subtree are the place and places below it. -/
theorem eq_or_above_of_mem_subtree (h : q ∈ p.subtree) : q = p ∨ p.Above q := by
  have hsubtree : p.subtree = p :: Value.placesFields p.node.fields p.path p.address 0 := by
    rw [subtree, Node.toValue, Value.places]
  rw [hsubtree, List.mem_cons] at h
  exact h.imp id fun hbelow => Value.above_of_mem_placesFields hbelow

/-- The places of the subtree at `p` stand together, and what comes after is on the right. -/
def IsSegment (p : Place) (places : List Place) : Prop :=
  ∃ before after, places = before ++ p.subtree ++ after ∧ ∀ q ∈ after, p.LeftOf q

/-- A segment stays one with more places in front. -/
theorem IsSegment.append_left {places : List Place} (h : p.IsSegment places) (left : List Place) :
    p.IsSegment (left ++ places) := by
  obtain ⟨before, after, rfl, hafter⟩ := h
  exact ⟨left ++ before, after, by simp, hafter⟩

/-- A segment stays one with more places behind, if they are on its right. -/
theorem IsSegment.append_right {places right : List Place} (h : p.IsSegment places)
    (hright : ∀ q ∈ right, p.LeftOf q) : p.IsSegment (places ++ right) := by
  obtain ⟨before, after, rfl, hafter⟩ := h
  exact ⟨before, after ++ right, by simp, List.forall_mem_append.mpr ⟨hafter, hright⟩⟩

end Place

namespace Value

mutual

/-- **The places of a subtree stand together.** -/
theorem isSegment_of_mem_places : ∀ (v : Value) (path : Path) (address : List Nat),
    ∀ p ∈ v.places path address, p.IsSegment (v.places path address)
  | node kind span fields, path, address => by
      intro p hp
      rw [places, List.mem_cons] at hp
      rcases hp with rfl | hp
      · exact ⟨[], [], by simp [Place.subtree, Node.toValue], by simp⟩
      · exact (isSegment_of_mem_placesFields fields path address 0 p hp).append_left
          [⟨⟨⟨kind, span, fields⟩, path⟩, address⟩]
  | list items, path, address => by
      rw [places]
      exact isSegment_of_mem_placesItems items path address 0
  | map entries, path, address => by simp [places]
  | scalar leaf, path, address => by simp [places]

/-- The places of a subtree in the items of a list stand together. -/
theorem isSegment_of_mem_placesItems : ∀ (items : List Value) (path : Path) (address : List Nat)
    (i : Nat), ∀ p ∈ placesItems items path address i,
    p.IsSegment (placesItems items path address i)
  | [], path, address, i => by simp [placesItems]
  | v :: rest, path, address, i => by
      intro p hp
      rw [placesItems] at hp ⊢
      rcases List.mem_append.mp hp with hp | hp
      · exact (isSegment_of_mem_places v _ _ p hp).append_right
          fun q hq => leftOf_of_mem_placesItems hp hq
      · exact (isSegment_of_mem_placesItems rest path address (i + 1) p hp).append_left _

/-- The places of a subtree in the fields of a node stand together. -/
theorem isSegment_of_mem_placesFields : ∀ (fields : List (String × Value)) (path : Path)
    (address : List Nat) (i : Nat), ∀ p ∈ placesFields fields path address i,
    p.IsSegment (placesFields fields path address i)
  | [], path, address, i => by simp [placesFields]
  | (name, v) :: rest, path, address, i => by
      intro p hp
      rw [placesFields] at hp ⊢
      rcases List.mem_append.mp hp with hp | hp
      · exact (isSegment_of_mem_places v _ _ p hp).append_right
          fun q hq => leftOf_of_mem_placesFields hp hq
      · exact (isSegment_of_mem_placesFields rest path address (i + 1) p hp).append_left _

end

end Value

/-! ### Places and occurrences -/

/-- A place and an occurrence of one node. Above the occurrence are the nodes `outside` and the
nodes of those `places` that are above the place. -/
def Corresponds (outside : List Node) (places : List Place) (p : Place) (o : Occurrence) : Prop :=
  p.node = o.node ∧ ∀ a, a ∈ o.ancestors ↔ a ∈ outside ∨ ∃ q ∈ places, q.Above p ∧ q.node = a

namespace Corresponds

variable {outside : List Node} {left right : List Place} {p : Place} {o : Occurrence}

/-- A place and an occurrence still correspond with more places on the right. -/
theorem append_right (h : Corresponds outside left p o) (hright : ∀ q ∈ right, p.LeftOf q) :
    Corresponds outside (left ++ right) p o := by
  refine ⟨h.1, fun a => (h.2 a).trans (or_congr_right ⟨?_, ?_⟩)⟩
  · rintro ⟨q, hq, habove⟩
    exact ⟨q, List.mem_append_left _ hq, habove⟩
  · rintro ⟨q, hq, habove, hnode⟩
    rcases List.mem_append.mp hq with hq | hq
    · exact ⟨q, hq, habove, hnode⟩
    · exact absurd habove (hright q hq).1.not_above

/-- A place and an occurrence still correspond with more places on the left. -/
theorem append_left (h : Corresponds outside right p o) (hleft : ∀ q ∈ left, q.LeftOf p) :
    Corresponds outside (left ++ right) p o := by
  refine ⟨h.1, fun a => (h.2 a).trans (or_congr_right ⟨?_, ?_⟩)⟩
  · rintro ⟨q, hq, habove⟩
    exact ⟨q, List.mem_append_right _ hq, habove⟩
  · rintro ⟨q, hq, habove, hnode⟩
    rcases List.mem_append.mp hq with hq | hq
    · exact absurd habove (hleft q hq).2
    · exact ⟨q, hq, habove, hnode⟩

/-- A node above all of the places counts as one of them. -/
theorem cons {r : Place} (h : Corresponds (r.node :: outside) right p o) (hr : r.Above p) :
    Corresponds outside (r :: right) p o := by
  refine ⟨h.1, fun a => (h.2 a).trans ?_⟩
  simp only [List.mem_cons, exists_eq_or_imp, hr, true_and]
  tauto

end Corresponds

/-- Parts on the left and on the right correspond together if each corresponds by itself. -/
theorem forall₂_corresponds_append {outside : List Node} {left right : List Place}
    {os os' : List Occurrence} (h : List.Forall₂ (Corresponds outside left) left os)
    (h' : List.Forall₂ (Corresponds outside right) right os')
    (hright : ∀ p ∈ left, ∀ q ∈ right, p.LeftOf q) :
    List.Forall₂ (Corresponds outside (left ++ right)) (left ++ right) (os ++ os') := by
  refine List.rel_append (forall₂_imp_of_mem_left h ?_) (forall₂_imp_of_mem_left h' ?_)
  · exact fun p hp o hpo => hpo.append_right (hright p hp)
  · exact fun p hp o hpo => hpo.append_left fun q hq => hright q hq p hp

namespace Value

mutual

/-- The places of a value are its occurrences, one by one, whatever the paths. -/
theorem forall₂_occurrences : ∀ (v : Value) (path path' : Path) (address : List Nat)
    (above : List Frame),
    List.Forall₂ (Corresponds (above.map Frame.node) (v.places path address))
      (v.places path address) (v.occurrences path' above)
  | node kind span fields, path, path', address, above => by
      rw [places, occurrences]
      have hbelow : ∀ q ∈ placesFields fields path address 0,
          Place.Above ⟨⟨⟨kind, span, fields⟩, path⟩, address⟩ q :=
        fun q hq => above_of_mem_placesFields hq
      refine .cons ⟨rfl, fun a => ?_⟩ ?_
      · -- Nothing is above the node itself.
        refine (or_iff_left ?_).symm
        rintro ⟨q, hq, habove, -⟩
        rcases List.mem_cons.mp hq with rfl | hq
        · exact Place.not_above_self _ habove
        · exact (hbelow q hq).before.not_above habove
      · have hfields := forall₂_occurrencesFields fields path path' address 0
          (⟨⟨kind, span, fields⟩, []⟩ :: above)
        exact forall₂_imp_of_mem_left hfields fun p hp o hpo =>
          Corresponds.cons (r := ⟨⟨⟨kind, span, fields⟩, path⟩, address⟩) hpo (hbelow p hp)
  | list items, path, path', address, above => by
      rw [places, occurrences]
      exact forall₂_occurrencesItems items path path' address 0 above
  | map entries, path, path', address, above => by
      rw [places, occurrences]
      exact .nil
  | scalar leaf, path, path', address, above => by
      rw [places, occurrences]
      exact .nil

/-- The places in items are the occurrences in them, one by one. -/
theorem forall₂_occurrencesItems : ∀ (items : List Value) (path path' : Path) (address : List Nat)
    (i : Nat) (above : List Frame),
    List.Forall₂ (Corresponds (above.map Frame.node) (placesItems items path address i))
      (placesItems items path address i) (occurrencesItems items path' i above)
  | [], path, path', address, i, above => by
      rw [placesItems, occurrencesItems]
      exact .nil
  | v :: rest, path, path', address, i, above => by
      have hrest := forall₂_occurrencesItems rest path path' address (i + 1) (Frame.pass v above)
      rw [Frame.map_node_pass] at hrest
      rw [placesItems, occurrencesItems]
      exact forall₂_corresponds_append (forall₂_occurrences v _ _ _ above) hrest
        fun p hp q hq => leftOf_of_mem_placesItems hp hq

/-- The places in fields are the occurrences in them, one by one. -/
theorem forall₂_occurrencesFields : ∀ (fields : List (String × Value)) (path path' : Path)
    (address : List Nat) (i : Nat) (above : List Frame),
    List.Forall₂ (Corresponds (above.map Frame.node) (placesFields fields path address i))
      (placesFields fields path address i) (occurrencesFields fields path' above)
  | [], path, path', address, i, above => by
      rw [placesFields, occurrencesFields]
      exact .nil
  | (name, v) :: rest, path, path', address, i, above => by
      have hrest := forall₂_occurrencesFields rest path path' address (i + 1) (Frame.pass v above)
      rw [Frame.map_node_pass] at hrest
      rw [placesFields, occurrencesFields]
      exact forall₂_corresponds_append (forall₂_occurrences v _ _ _ above) hrest
        fun p hp q hq => leftOf_of_mem_placesFields hp hq

end

end Value

/-! ### The listing by place -/

namespace Place

/-- A function below a contract, with no function and no contract of another name above it. -/
def IsMember (contract : String) (places : List Place) (p : Place) : Prop :=
  p.node.kind = .functionDefinition ∧
    (∀ a ∈ places, a.Above p → Listing.Passable contract a.node) ∧
    ∃ a ∈ places, a.Above p ∧ a.node.kind = .contractDefinition

instance (contract : String) (places : List Place) : DecidablePred (IsMember contract places) :=
  fun _ => inferInstanceAs (Decidable (_ ∧ (∀ a ∈ places, _ → _) ∧ ∃ a ∈ places, _ ∧ _))

/-- At a place and at an occurrence that correspond, the same is listed. -/
theorem isMember_iff_of_corresponds {contract : String} {places : List Place} {p : Place}
    {o : Occurrence} (h : Corresponds [] places p o) :
    p.IsMember contract places ↔ o.IsMember contract := by
  simp only [IsMember, Occurrence.IsMember, h.1, h.2, List.not_mem_nil, false_or]
  constructor
  · rintro ⟨hkind, hpass, a, ha, hap, hcontract⟩
    refine ⟨hkind, ?_, a.node, ⟨a, ha, hap, rfl⟩, hcontract⟩
    rintro _ ⟨q, hq, hqp, rfl⟩
    exact hpass q hq hqp
  · rintro ⟨hkind, hpass, _, ⟨a, ha, hap, rfl⟩, hcontract⟩
    exact ⟨hkind, fun q hq hqp => hpass q.node ⟨q, hq, hqp, rfl⟩, a, ha, hap, hcontract⟩

/-- The names of the functions of a contract among some places. -/
def members (contract : String) (places among : List Place) : List (Option String) :=
  (among.filter (IsMember contract places)).map (·.node.name?)

/-- Places are listed one after the other. -/
theorem members_append (contract : String) (places among among' : List Place) :
    members contract places (among ++ among') =
      members contract places among ++ members contract places among' := by
  simp [members]

/-- Where no place is that of a listed function, nothing is listed. -/
theorem members_eq_nil {contract : String} {places among : List Place}
    (h : ∀ p ∈ among, ¬ p.IsMember contract places) : members contract places among = [] := by
  rw [members, List.map_eq_nil_iff, List.filter_eq_nil_iff]
  simpa using h

/-- The same is listed where the same places are those of listed functions. -/
theorem members_congr {contract : String} {places places' among : List Place}
    (h : ∀ p ∈ among, p.IsMember contract places ↔ p.IsMember contract places') :
    members contract places among = members contract places' among := by
  rw [members, members, List.filter_congr fun p hp => decide_eq_decide.mpr (h p hp)]

end Place

namespace Node

/-- **The functions of a contract, by place.** It does not matter where the tree itself lies. -/
theorem listFunctions_eq_places (root : Node) (contract : String) (path : Path)
    (address : List Nat) :
    root.listFunctions contract =
      Place.members contract (root.toValue.places path address)
        (root.toValue.places path address) := by
  rw [listFunctions_eq, Place.members, eq_comm, map_eq_map_iff_forall₂]
  have hplaces : List.Forall₂ (Corresponds [] (root.toValue.places path address))
      (root.toValue.places path address) root.occurrences :=
    Value.forall₂_occurrences root.toValue path [] address []
  refine (List.rel_filter (fun p o h => ?_) hplaces).imp fun p o h => congrArg name? h.1
  simpa using Place.isMember_iff_of_corresponds h

/-! ### The subtree of the first contract -/

section Subtree

variable {root : Node} {name : String} {p q a : Place}

/-- The places of a tree are told apart by their addresses. -/
theorem eq_of_address_eq (hp : p ∈ root.places) (hq : q ∈ root.places)
    (h : p.address = q.address) : p = q := by
  refine List.inj_on_of_nodup_map (f := Place.address) ?_ hp hq h
  rw [List.Nodup, List.pairwise_map]
  exact (Value.pairwise_places root.toValue [] []).imp Place.Before.address_ne

/-- The places of a tree are those before a place, those of its subtree, and those on its right. -/
theorem exists_places_eq (hp : p ∈ root.places) :
    ∃ before after, root.places = before ++ p.subtree ++ after ∧ (∀ q ∈ before, q.Before p) ∧
      ∀ q ∈ after, p.LeftOf q := by
  obtain ⟨before, after, hsplit, hafter⟩ := Value.isSegment_of_mem_places root.toValue [] [] p hp
  refine ⟨before, after, hsplit, fun q hq => ?_, hafter⟩
  have hordered : root.places.Pairwise Place.Before := Value.pairwise_places _ _ _
  rw [places, hsplit, List.append_assoc, List.pairwise_append] at hordered
  exact hordered.2.2 q hq p (List.mem_append_left _ List.mem_cons_self)

/-- What is below a place is in its subtree. -/
theorem mem_subtree_of_above (hp : p ∈ root.places) (hq : q ∈ root.places) (h : p.Above q) :
    q ∈ p.subtree := by
  obtain ⟨before, after, hsplit, hbefore, hafter⟩ := exists_places_eq hp
  rw [hsplit, List.mem_append, List.mem_append] at hq
  rcases hq with (hq | hq) | hq
  · exact absurd h (hbefore q hq).not_above
  · exact hq
  · exact absurd h (hafter q hq).2

/-- What is above a place of a subtree is in the subtree, or above all of it. -/
theorem above_or_mem_subtree (hp : p ∈ root.places) (ha : a ∈ root.places) (hq : q ∈ p.subtree)
    (h : a.Above q) : a.Above p ∨ a ∈ p.subtree := by
  rcases Place.eq_or_above_of_mem_subtree hq with rfl | hpq
  · exact .inl h
  · rcases h.comparable hpq with hap | heq | hpa
    · exact .inl hap
    · obtain rfl := eq_of_address_eq ha hp heq
      exact .inr List.mem_cons_self
    · exact .inr (mem_subtree_of_above hp ha hpa)

/-- With no function and no contract above it, a subtree is listed in the whole tree as it is by
itself. -/
theorem isMember_iff_subtree (hp : p ∈ root.places)
    (habove : ∀ a ∈ root.places, a.Above p →
      a.node.kind ≠ .functionDefinition ∧ a.node.kind ≠ .contractDefinition)
    (hq : q ∈ p.subtree) : q.IsMember name root.places ↔ q.IsMember name p.subtree := by
  have hsub : ∀ a ∈ p.subtree, a ∈ root.places := by
    obtain ⟨before, after, hsplit, -, -⟩ := exists_places_eq hp
    rw [hsplit]
    exact fun a ha => List.mem_append_left _ (List.mem_append_right _ ha)
  constructor
  · rintro ⟨hkind, hpass, a, ha, haq, hcontract⟩
    refine ⟨hkind, fun b hb => hpass b (hsub b hb), a, ?_, haq, hcontract⟩
    rcases above_or_mem_subtree hp ha hq haq with hap | ha
    · exact absurd hcontract (habove a ha hap).2
    · exact ha
  · rintro ⟨hkind, hpass, a, ha, haq, hcontract⟩
    refine ⟨hkind, fun b hb hbq => ?_, a, hsub a ha, haq, hcontract⟩
    rcases above_or_mem_subtree hp hb hq hbq with hbp | hb'
    · exact ⟨(habove b hb hbp).1, fun hkind => absurd hkind (habove b hb hbp).2⟩
    · exact hpass b hb' hbq

/-- Above a listed function is a contract of the name. -/
theorem exists_contract_of_isMember {places : List Place} (h : q.IsMember name places) :
    ∃ a ∈ places, a.Above q ∧ a.node.isContract name = true := by
  obtain ⟨-, hpass, a, ha, haq, hkind⟩ := h
  refine ⟨a, ha, haq, ?_⟩
  rw [isContract, hkind, (hpass a ha haq).2 hkind]
  simp

/-- All other contracts of the name come after the first one. -/
theorem before_of_isContract (h : root.places.find? (·.node.isContract name) = some p)
    (ha : a ∈ root.places) (hcontract : a.node.isContract name = true) : a = p ∨ p.Before a := by
  obtain ⟨-, before, after, hsplit, hbefore⟩ := List.find?_eq_some_iff_append.mp h
  have hordered : root.places.Pairwise Place.Before := Value.pairwise_places _ _ _
  rw [hsplit] at ha hordered
  rcases List.mem_append.mp ha with ha | ha
  · exact absurd hcontract (by simpa using hbefore a ha)
  · rcases List.mem_cons.mp ha with rfl | ha
    · exact .inl rfl
    · exact .inr ((List.pairwise_cons.mp (List.pairwise_append.mp hordered).2.1).1 a ha)

/-- **Nothing is listed before the first contract of the name.** -/
theorem not_isMember_of_before (h : root.places.find? (·.node.isContract name) = some p)
    (hq : q.Before p) : ¬ q.IsMember name root.places := by
  intro hmember
  obtain ⟨a, ha, haq, hcontract⟩ := exists_contract_of_isMember hmember
  have hap : a.Before p := haq.before.trans hq
  rcases before_of_isContract h ha hcontract with rfl | hpa
  · exact Place.not_before_self a hap
  · exact hap.asymm hpa

/-- The functions of a tree are those of the first contract of the name, and then some on its
right. -/
theorem exists_listFunctions_eq_append (h : root.places.find? (·.node.isContract name) = some p)
    (habove : ∀ a ∈ root.places, a.Above p →
      a.node.kind ≠ .functionDefinition ∧ a.node.kind ≠ .contractDefinition) :
    ∃ after, (∀ q ∈ after, p.LeftOf q) ∧
      root.listFunctions name = p.node.listFunctions name ++
        Place.members name root.places after := by
  have hp : p ∈ root.places := List.mem_of_find?_eq_some h
  obtain ⟨before, after, hsplit, hbefore, hafter⟩ := exists_places_eq hp
  refine ⟨after, hafter, ?_⟩
  have hnone : Place.members name root.places before = [] :=
    Place.members_eq_nil fun q hq => not_isMember_of_before h (hbefore q hq)
  have hsubtree : Place.members name root.places p.subtree = p.node.listFunctions name := by
    rw [listFunctions_eq_places p.node name p.path p.address]
    exact Place.members_congr fun q hq => isMember_iff_subtree hp habove hq
  calc root.listFunctions name
      = Place.members name root.places root.places := listFunctions_eq_places root name [] []
    _ = Place.members name root.places (before ++ p.subtree ++ after) := by rw [← hsplit]
    _ = p.node.listFunctions name ++ Place.members name root.places after := by
        rw [Place.members_append, Place.members_append, hnone, hsubtree, List.nil_append]

/-- Nothing is listed on the right of a contract if all others of the name lie below it. -/
theorem members_eq_nil_of_leftOf {after : List Place} (hafter : ∀ q ∈ after, p.LeftOf q)
    (hall : ∀ a ∈ root.places, a.node.isContract name = true → a = p ∨ p.Above a) :
    Place.members name root.places after = [] := by
  refine Place.members_eq_nil fun q hq hmember => ?_
  obtain ⟨a, ha, haq, hcontract⟩ := exists_contract_of_isMember hmember
  rcases hall a ha hcontract with rfl | hpa
  · exact (hafter q hq).2 haq
  · exact (hafter q hq).2 (hpa.trans haq)

end Subtree

/-! ### Search and listing -/

/-- The nodes of a tree are those at its places. -/
theorem map_node_places (root : Node) :
    root.places.map (fun p => p.node) = root.toValue.nodes := by
  rw [← Value.map_node_occurrences root.toValue [] [], map_eq_map_iff_forall₂]
  exact (Value.forall₂_occurrences root.toValue [] [] [] []).imp fun p o h => h.1

/-- The search finds the node at the first place that has a contract of the name. -/
theorem findContract_eq_map_find? (root : Node) (name : String) :
    root.findContract name =
      (root.places.find? (·.node.isContract name)).map fun p => p.node := by
  rw [findContract_eq_find?, ← map_node_places, List.find?_map]
  rfl

/-- A listed function has a contract of the name above it, so the search finds one. -/
theorem isSome_findContract_of_listFunctions {root : Node} {name : String}
    (h : root.listFunctions name ≠ []) : (root.findContract name).isSome := by
  rw [listFunctions_eq_places root name [] []] at h
  have hmember : ∃ q ∈ root.places, q.IsMember name root.places := by
    by_contra hnone
    push Not at hnone
    exact h (Place.members_eq_nil hnone)
  obtain ⟨q, -, hmember⟩ := hmember
  obtain ⟨a, ha, -, hcontract⟩ := exists_contract_of_isMember hmember
  rw [findContract_eq_map_find?, Option.isSome_map, List.find?_isSome]
  exact ⟨a, ha, hcontract⟩

/-- **What the search and the listing have in common.** The search finds the first contract of the
name among the nodes that a walk enters which always descends, and nothing exactly if there is none.
If any function is listed, a contract is found. If no function and no contract is above the place of
the contract that is found, its functions are the first of all functions listed, and they are all of
them if every other contract of the name lies below it. -/
theorem findContract_agrees_listFunctions (root : Node) (name : String) :
    (∀ {σ : Type u} (visitor : Visitor σ) (s : σ),
      (∀ s n path, (visitor.enter s n path).2 = .descend) →
      root.findContract name =
        ((Call.entered (root.calls visitor s)).map Site.node).find? (·.isContract name)) ∧
    (root.findContract name = none ↔ ∀ p ∈ root.places, p.node.isContract name = false) ∧
    (root.listFunctions name ≠ [] → (root.findContract name).isSome) ∧
    ∀ c, root.findContract name = some c →
      ∃ p, root.places.find? (·.node.isContract name) = some p ∧ p.node = c ∧
        ((∀ a ∈ root.places, a.Above p →
            a.node.kind ≠ .functionDefinition ∧ a.node.kind ≠ .contractDefinition) →
          c.listFunctions name <+: root.listFunctions name ∧
          ((∀ q ∈ root.places, q.node.isContract name = true → q = p ∨ p.Above q) →
            c.listFunctions name = root.listFunctions name)) := by
  have hfind := root.findContract_eq_map_find? name
  refine ⟨fun visitor s hdescend => ?_, ?_, isSome_findContract_of_listFunctions, fun c hc => ?_⟩
  · rw [entered_calls hdescend, List.map_map, findContract_eq_find?, ← map_node_places]
    rfl
  · rw [hfind, Option.map_eq_none_iff, List.find?_eq_none]
    simp
  · rw [hfind, Option.map_eq_some_iff] at hc
    obtain ⟨p, hp, rfl⟩ := hc
    refine ⟨p, hp, rfl, fun habove => ?_⟩
    obtain ⟨after, hafter, hlist⟩ := exists_listFunctions_eq_append hp habove
    refine ⟨⟨_, hlist.symm⟩, fun hall => ?_⟩
    rw [hlist, members_eq_nil_of_leftOf hafter hall, List.append_nil]

/-- A node with a name and a list of members. -/
def titled (kind : Kind) (name : String) (members : List Value) : Node :=
  ⟨kind, none, [("name", .text name), ("members", .list members)]⟩

/-- A contract with a function, and with a contract of its own name inside. -/
def depot : Node :=
  titled .contractDefinition "Depot" [
    titled .functionDefinition "store" [],
    titled .contractDefinition "Depot" [titled .functionDefinition "load" []]]

/-- The contract behind one of another name, and in front of some more. -/
def yard (more : List Value) : Node :=
  titled .sourceUnit "yard" (
    (titled .contractDefinition "Hub" [titled .functionDefinition "open" []]).toValue ::
      depot.toValue :: more)

/-- One more contract of the same name. -/
def annex : Node := titled .contractDefinition "Depot" [titled .functionDefinition "ship" []]

/-- The functions of the contract that is found are all functions listed, and the first of them if
there is one more contract of the name on its right. -/
theorem listFunctions_depot :
    (yard []).findContract "Depot" = some depot ∧
      (yard []).findContract "Depot" = ((Call.entered ((yard []).calls counter 0)).map
        Site.node).find? (·.isContract "Depot") ∧
      (yard []).listFunctions "Depot" ≠ [] ∧ ((yard []).findContract "Depot").isSome ∧
      depot.listFunctions "Depot" = [some "store", some "load"] ∧
      depot.listFunctions "Depot" = (yard []).listFunctions "Depot" ∧
      (yard [annex]).findContract "Depot" = some depot ∧
      depot.listFunctions "Depot" <+: (yard [annex]).listFunctions "Depot" ∧
      (yard [annex]).listFunctions "Depot" = [some "store", some "load", some "ship"] := by
  obtain ⟨hwalk, -, hsome, hfound⟩ := findContract_agrees_listFunctions.{0} (yard []) "Depot"
  obtain ⟨-, -, -, hfound'⟩ := findContract_agrees_listFunctions.{0} (yard [annex]) "Depot"
  obtain ⟨p, hp, -, hagree⟩ := hfound depot rfl
  obtain ⟨p', hp', -, hagree'⟩ := hfound' depot rfl
  have hmem : p ∈ (yard []).places := List.mem_of_find?_eq_some hp
  obtain rfl := Option.some.inj hp
  obtain rfl := Option.some.inj hp'
  have hlisted : (yard []).listFunctions "Depot" ≠ [] := by decide
  -- The contract is the second item of the second field.
  have hbelow : ∀ q ∈ (yard []).places, q.node.isContract "Depot" = true →
      q.address = [1, 1] ∨ [1, 1] <+: q.address ∧ [1, 1] ≠ q.address := by decide
  have hall := fun q hq hcontract =>
    (hbelow q hq hcontract).imp (eq_of_address_eq hq hmem) id
  exact ⟨rfl, hwalk counter 0 fun _ _ _ => rfl, hlisted, hsome hlisted, rfl,
    (hagree (by decide)).2 hall, rfl, (hagree' (by decide)).1, rfl⟩

end Node

end ContractQuery
