import Mathlib.Data.List.Sort
import Mathlib.Data.String.Basic
import ContractQuery.Proofs.History

/-!
# Sorted Forms

Equality of trees looks up each entry of one record in the other and does not look at spans. On
trees with distinct names there is a second way to say the same: drop all spans, put the entries of
every node and of every map in the order of their names, and see whether the two results are
identical. Only numbers are still compared as values there (`Value.identical`).

Behind this is that names leave one order only. Entries with distinct names that agree with some
arrangement of others agree with them one by one once both are sorted
(`Record.exists_arranged_iff_sorted`).

## Main results

* `Value.same_iff_sortedForm`: **equal values have identical sorted forms**, and no others have.
* `Value.sortedForm_stripSpans`: spans make no difference to the sorted form.
* `Node.same_iff_identical`: the same for trees, with what follows for equality.
-/

namespace ContractQuery

/-! ### Records in the order of their names -/

namespace Record

variable {α : Type}

/-- The name of the first entry is not after that of the second. -/
def NameLE (e e' : String × α) : Prop := e.1 ≤ e'.1

instance : DecidableRel (@NameLE α) := fun e e' => inferInstanceAs (Decidable (e.1 ≤ e'.1))

instance : Std.Total (@NameLE α) := ⟨fun e e' => le_total e.1 e'.1⟩

instance : IsTrans (String × α) NameLE := ⟨fun _ _ _ h h' => le_trans h h'⟩

/-- The entries in the order of their names. -/
def sorted (r : Record α) : Record α := r.insertionSort NameLE

/-- Sorting keeps all entries. -/
theorem perm_sorted (r : Record α) : (sorted r).Perm r := List.perm_insertionSort NameLE r

/-- With distinct names, each entry is strictly before the later ones. -/
theorem pairwise_sorted {r : Record α} (hr : Distinct r) :
    (sorted r).Pairwise fun e e' => e.1 < e'.1 := by
  have hnodup : (sorted r).Pairwise fun e e' => e.1 ≠ e'.1 :=
    List.pairwise_map.mp (hr.perm (perm_sorted r).symm)
  have hle : (sorted r).Pairwise NameLE := List.pairwise_insertionSort NameLE r
  exact hle.imp₂ (fun _ _ h hne => lt_of_le_of_ne h hne) hnodup

/-- The order does not depend on the values. -/
theorem sorted_map {β : Type} (f : α → β) (r : Record α) :
    sorted (r.map fun e => (e.1, f e.2)) = (sorted r).map fun e => (e.1, f e.2) :=
  (List.map_insertionSort NameLE NameLE (fun e : String × α => (e.1, f e.2)) r
    fun _ _ _ _ => Iff.rfl).symm

/-- **Only one order is sorted.** The entries of a record agree with an arrangement of those of
another exactly if the two agree one by one when they are sorted. -/
theorem exists_arranged_iff_sorted {R : String × α → String × α → Prop}
    (hR : ∀ e e', R e e' → e.1 = e'.1) {r r' : Record α} (hr : Distinct r) (hr' : Distinct r') :
    (∃ arranged, List.Forall₂ R r arranged ∧ arranged.Perm r') ↔
      List.Forall₂ R (sorted r) (sorted r') := by
  constructor
  · rintro ⟨arranged, hforall, hperm⟩
    -- The arrangement is itself rearranged to follow the sorted entries, and so it is sorted.
    obtain ⟨followed, hfollowed, hperm'⟩ := List.perm_comp_forall₂ (perm_sorted r) hforall
    have hnames : (sorted r).map Prod.fst = followed.map Prod.fst :=
      map_eq_map_iff_forall₂.mpr (hfollowed.imp hR)
    have hordered : followed.Pairwise fun e e' => e.1 < e'.1 := by
      rw [← List.pairwise_map (f := Prod.fst) (R := (· < ·)), ← hnames, List.pairwise_map]
      exact pairwise_sorted hr
    have heq : followed = sorted r' := by
      refine List.Perm.eq_of_pairwise (fun e e' _ _ h h' => absurd h' h.asymm) hordered
        (pairwise_sorted hr') ?_
      exact (hperm'.trans hperm).trans (perm_sorted r').symm
    exact heq ▸ hfollowed
  · intro h
    obtain ⟨arranged, hforall, hperm⟩ := List.perm_comp_forall₂ (perm_sorted r).symm h
    exact ⟨arranged, hforall, hperm.trans (perm_sorted r')⟩

end Record

namespace Value

/-! ### Sorting and identity -/

mutual

/-- The value with the entries of all nodes and maps in the order of their names. -/
def sorted : Value → Value
  | node kind span fields => node kind span (Record.sorted (sortedFields fields))
  | list items => list (sortedItems items)
  | map entries => map (Record.sorted (sortedFields entries))
  | scalar s => scalar s

/-- The items of a list, each of them sorted inside. -/
def sortedItems : List Value → List Value
  | [] => []
  | v :: rest => v.sorted :: sortedItems rest

/-- Named values, each of them sorted inside. -/
def sortedFields : List (String × Value) → List (String × Value)
  | [] => []
  | (name, v) :: rest => (name, v.sorted) :: sortedFields rest

end

mutual

/-- The two values are one and the same, spans and all orders included, but for numbers, which are
compared as values. -/
def identical : Value → Value → Bool
  | node kind span fields, node kind' span' fields' =>
    kind == kind' && span == span' && identicalFields fields fields'
  | list items, list items' => identicalItems items items'
  | map entries, map entries' => identicalFields entries entries'
  | scalar s, scalar s' => s.same s'
  | _, _ => false

/-- The items of two lists are identical, one by one. -/
def identicalItems : List Value → List Value → Bool
  | [], [] => true
  | v :: rest, v' :: rest' => v.identical v' && identicalItems rest rest'
  | _, _ => false

/-- Named values are identical, one by one and with the same names. -/
def identicalFields : List (String × Value) → List (String × Value) → Bool
  | [], [] => true
  | (name, v) :: rest, (name', v') :: rest' =>
    name == name' && v.identical v' && identicalFields rest rest'
  | _, _ => false

end

/-- The value without any span, and with the entries of all nodes and maps in the order of their
names. -/
def sortedForm (v : Value) : Value := v.stripSpans.sorted

/-- Items are sorted one by one, and keep their order. -/
theorem sortedItems_eq_map (items : List Value) : sortedItems items = items.map sorted := by
  induction items with
  | nil => rfl
  | cons v rest ih => rw [sortedItems, ih, List.map_cons]

/-- The values of fields are sorted one by one. -/
theorem sortedFields_eq_map (fields : Record Value) :
    sortedFields fields = fields.map fun e => (e.1, e.2.sorted) := by
  induction fields with
  | nil => rfl
  | cons e rest ih =>
      obtain ⟨name, v⟩ := e
      rw [sortedFields, ih, List.map_cons]

/-- Lists of items are identical if the items are, one by one. -/
theorem identicalItems_iff {items items' : List Value} :
    identicalItems items items' = true ↔
      List.Forall₂ (fun v v' => v.identical v' = true) items items' := by
  induction items generalizing items' with
  | nil => cases items' <;> simp [identicalItems]
  | cons v rest ih => cases items' <;> simp [identicalItems, ih]

/-- Fields are identical if names and values are, one by one. -/
theorem identicalFields_iff {fields fields' : Record Value} :
    identicalFields fields fields' = true ↔
      List.Forall₂ (fun e e' => e.1 = e'.1 ∧ e.2.identical e'.2 = true) fields fields' := by
  induction fields generalizing fields' with
  | nil => cases fields' <;> simp [identicalFields]
  | cons e rest ih =>
      obtain ⟨name, v⟩ := e
      cases fields' with
      | nil => simp [identicalFields]
      | cons e' rest' => simp [identicalFields, ih, and_assoc]

/-! ### Sorted forms, level by level -/

/-- Fields may be sorted before or after the values in them. -/
theorem sortedForm_fields (fields : Record Value) :
    Record.sorted (sortedFields (stripFields fields)) =
      (Record.sorted fields).map fun e => (e.1, e.2.sortedForm) := by
  rw [sortedFields_eq_map, stripFields_eq_map, List.map_map]
  exact Record.sorted_map sortedForm fields

/-- The sorted form of a node has no span, and the sorted forms of its fields by name. -/
theorem sortedForm_node (kind : Kind) (span : Option Span) (fields : Record Value) :
    (node kind span fields).sortedForm =
      node kind none ((Record.sorted fields).map fun e => (e.1, e.2.sortedForm)) := by
  rw [sortedForm, stripSpans, sorted, sortedForm_fields]

/-- The sorted form of a map has the sorted forms of its entries by name. -/
theorem sortedForm_map (entries : Record Value) :
    (map entries).sortedForm =
      map ((Record.sorted entries).map fun e => (e.1, e.2.sortedForm)) := by
  rw [sortedForm, stripSpans, sorted, sortedForm_fields]

/-- The sorted form of a list has the sorted forms of its items. -/
theorem sortedForm_list (items : List Value) :
    (list items).sortedForm = list (items.map sortedForm) := by
  rw [sortedForm, stripSpans, sorted, stripItems_eq_map, sortedItems_eq_map, List.map_map]
  rfl

/-- A leaf is its own sorted form. -/
theorem sortedForm_scalar (s : Scalar) : (scalar s).sortedForm = scalar s := by
  rw [sortedForm, stripSpans, sorted]

/-! ### Equality by sorted forms -/

/-- Records match exactly if they are identical once they are sorted, given that this is so for
their values. -/
theorem matching_iff_sortedForm {r r' : Record Value} (hr : Record.Distinct r)
    (hr' : Record.Distinct r')
    (hvalues : ∀ e ∈ r, ∀ e' ∈ r',
      e.2.same e'.2 = true ↔ e.2.sortedForm.identical e'.2.sortedForm = true) :
    Matching r r' ↔
      identicalFields ((Record.sorted r).map fun e => (e.1, e.2.sortedForm))
        ((Record.sorted r').map fun e => (e.1, e.2.sortedForm)) = true := by
  rw [Matching, Record.exists_arranged_iff_sorted (fun _ _ h => h.1) hr hr', identicalFields_iff,
    List.forall₂_map_left_iff, List.forall₂_map_right_iff]
  have hiff : ∀ e ∈ Record.sorted r, ∀ e' ∈ Record.sorted r',
      SameEntry e e' ↔ e.1 = e'.1 ∧ e.2.sortedForm.identical e'.2.sortedForm = true := by
    intro e he e' he'
    have h := hvalues e ((Record.perm_sorted r).mem_iff.mp he) e'
      ((Record.perm_sorted r').mem_iff.mp he')
    rw [SameEntry, h]
  exact ⟨fun h => forall₂_imp_of_mem h fun e he e' he' => (hiff e he e' he').mp,
    fun h => forall₂_imp_of_mem h fun e he e' he' => (hiff e he e' he').mpr⟩

/-- **Equal values have identical sorted forms**, and values with identical sorted forms are
equal. -/
theorem same_iff_sortedForm {v w : Value} (hv : v.Distinct) (hw : w.Distinct) :
    v.same w = true ↔ v.sortedForm.identical w.sortedForm = true := by
  induction v using inductionOn generalizing w with
  | node kind span r ih =>
      obtain ⟨hnames, hr⟩ := distinct_node.mp hv
      cases w with
      | node kind' span' r' =>
          obtain ⟨hnames', hr'⟩ := distinct_node.mp hw
          have hmatching := matching_iff_sortedForm hnames hnames' fun e he e' he' =>
            ih e he (distinctFields_iff.mp hr e he) (distinctFields_iff.mp hr' e' he')
          rw [same_node_iff hnames hnames', hmatching, sortedForm_node, sortedForm_node]
          simp [identical]
      | list _ | map _ | scalar _ =>
          simp [same, sortedForm, stripSpans, sorted, identical]
  | list items ih =>
      have hitems := distinctItems_iff.mp (distinct_list.mp hv)
      cases w with
      | list items' =>
          have hitems' := distinctItems_iff.mp (distinct_list.mp hw)
          have hiff : ∀ v ∈ items, ∀ w ∈ items',
              v.same w = true ↔ v.sortedForm.identical w.sortedForm = true :=
            fun v hv w hw => ih v hv (hitems v hv) (hitems' w hw)
          rw [same_list_iff, sortedForm_list, sortedForm_list, identical, identicalItems_iff,
            List.forall₂_map_left_iff, List.forall₂_map_right_iff]
          exact ⟨fun h => forall₂_imp_of_mem h fun v hv w hw => (hiff v hv w hw).mp,
            fun h => forall₂_imp_of_mem h fun v hv w hw => (hiff v hv w hw).mpr⟩
      | node _ _ _ | map _ | scalar _ =>
          simp [same, sortedForm, stripSpans, sorted, identical]
  | map r ih =>
      obtain ⟨hnames, hr⟩ := distinct_map.mp hv
      cases w with
      | map r' =>
          obtain ⟨hnames', hr'⟩ := distinct_map.mp hw
          have hmatching := matching_iff_sortedForm hnames hnames' fun e he e' he' =>
            ih e he (distinctFields_iff.mp hr e he) (distinctFields_iff.mp hr' e' he')
          rw [same_map_iff hnames hnames', hmatching, sortedForm_map, sortedForm_map, identical]
      | node _ _ _ | list _ | scalar _ =>
          simp [same, sortedForm, stripSpans, sorted, identical]
  | scalar s =>
      cases w with
      | scalar s' => rw [same_scalar_iff, sortedForm_scalar, sortedForm_scalar, identical]
      | node _ _ _ | list _ | map _ =>
          simp [same, sortedForm, stripSpans, sorted, identical]

/-! ### Values without spans -/

/-- The value has no span of its own. -/
def spanless : Value → Bool
  | node _ span _ => span.isNone
  | _ => true

/-- What is left has no span at any depth. -/
theorem every_spanless_stripSpans (v : Value) : v.stripSpans.Every (spanless · = true) := by
  induction v using inductionOn with
  | node kind span fields ih =>
      rw [stripSpans, every_node, stripFields_eq_map, List.forall_mem_map]
      exact ⟨rfl, ih⟩
  | list items ih =>
      rw [stripSpans, every_list, stripItems_eq_map, List.forall_mem_map]
      exact ⟨rfl, ih⟩
  | map entries ih =>
      rw [stripSpans, every_map, stripFields_eq_map, List.forall_mem_map]
      exact ⟨rfl, ih⟩
  | scalar s =>
      rw [stripSpans, every_scalar]
      rfl

/-- A value without spans has none to lose. -/
theorem stripSpans_eq_self {v : Value} (hv : v.Every (spanless · = true)) : v.stripSpans = v := by
  induction v using inductionOn with
  | node kind span fields ih =>
      obtain ⟨hspan, hfields⟩ := every_node.mp hv
      have hkept : ∀ e ∈ fields, (e.1, e.2.stripSpans) = e := fun e he =>
        Prod.ext rfl (ih e he (hfields e he))
      rw [stripSpans, stripFields_eq_map, List.map_congr_left hkept, List.map_id',
        Option.isNone_iff_eq_none.mp hspan]
  | list items ih =>
      obtain ⟨-, hitems⟩ := every_list.mp hv
      have hkept : ∀ w ∈ items, w.stripSpans = w := fun w hw => ih w hw (hitems w hw)
      rw [stripSpans, stripItems_eq_map, List.map_congr_left hkept, List.map_id']
  | map entries ih =>
      obtain ⟨-, hentries⟩ := every_map.mp hv
      have hkept : ∀ e ∈ entries, (e.1, e.2.stripSpans) = e := fun e he =>
        Prod.ext rfl (ih e he (hentries e he))
      rw [stripSpans, stripFields_eq_map, List.map_congr_left hkept, List.map_id']
  | scalar s => rw [stripSpans]

/-- Spans make no difference to the sorted form. -/
theorem sortedForm_stripSpans (v : Value) : v.stripSpans.sortedForm = v.sortedForm := by
  rw [sortedForm, stripSpans_eq_self (every_spanless_stripSpans v), sortedForm]

/-- Spans make no difference to equality. -/
theorem same_stripSpans {v : Value} (hv : v.Distinct) : v.stripSpans.same v = true := by
  rw [same_iff_sortedForm hv.stripSpans hv, sortedForm_stripSpans, ← same_iff_sortedForm hv hv]
  exact same_refl hv

end Value

namespace Node

/-- **Equality is identity of sorted forms** on trees with distinct names. There it is an
equivalence, and a tree without its spans, of which none is left at any depth, equals the tree. -/
theorem same_iff_identical (a b c : Node) (ha : a.Distinct) (hb : b.Distinct) (hc : c.Distinct) :
    (a.same b = true ↔ a.toValue.sortedForm.identical b.toValue.sortedForm = true) ∧
      a.same a = true ∧
      (a.same b = true → b.same a = true) ∧
      (a.same b = true → b.same c = true → a.same c = true) ∧
      a.stripSpans.same a = true ∧
      a.stripSpans.toValue.Every (Value.spanless · = true) := by
  simp only [← same_toValue, ← stripSpans_toValue]
  exact ⟨Value.same_iff_sortedForm ha hb, Value.same_refl ha, Value.same_symm ha hb,
    Value.same_trans ha hb hc, Value.same_stripSpans ha, Value.every_spanless_stripSpans _⟩

/-- A tree with a node inside a map, in a field after the list. -/
def packed : Node :=
  ⟨.sourceUnit, some (.lines 1 4), [
    ("children", .list [
      .node (.other "Literal") (some (.lines 2 2)) [
        ("value", .scalar (.number (.float (.zero false)))), ("unit", .text "ether")]]),
    ("annotations", .map [("origin", .node .comment (some (.lines 1 1)) []), ("kind", .null)])]⟩

/-- The same tree with all entries in another order, other spans, and the other zero. -/
def repacked : Node :=
  ⟨.sourceUnit, none, [
    ("annotations", .map [("kind", .null), ("origin", .node .comment none [])]),
    ("children", .list [
      .node (.other "Literal") (some (.lines 7 7)) [
        ("unit", .text "ether"), ("value", .scalar (.number (.float (.zero true))))]])]⟩

/-- The two trees are not identical, but their sorted forms are. -/
theorem sortedForm_packed_repacked :
    packed.Distinct ∧ repacked.Distinct ∧
      packed.toValue.identical repacked.toValue = false ∧
      packed.toValue.sortedForm.identical repacked.toValue.sortedForm = true ∧
      repacked.same packed = true ∧ packed.stripSpans.same packed = true ∧
      packed.stripSpans.toValue.Every (Value.spanless · = true) := by
  have ha : packed.Distinct := by decide
  have hb : repacked.Distinct := by decide
  have hsame : packed.same repacked = true := by decide
  obtain ⟨hiff, -, hsymm, -, hstripped, hspanless⟩ :=
    same_iff_identical packed repacked packed ha hb ha
  exact ⟨ha, hb, by decide, hiff.mp hsame, hsymm hsame, hstripped, hspanless⟩

end Node

end ContractQuery
