import ContractQuery.Proofs.Decoding
import ContractQuery.Proofs.Distinct
import ContractQuery.Tree.OfJson

/-!
# Canonical Trees

A tree is written as JSON with the type of a node first, then its span if it has one, then its
fields. Not every tree survives this: a second field of a name, a field called like an entry that
is no field, a map with a `type`, or a kind that is kept by the name of another would be read back
as something else. A tree without these is canonical.

Loading inverts writing on canonical trees, and what it returns is canonical always, so canonical
trees are all there is to load. Coordinates are counts below `2^64` throughout (`Value.Fits`).

Both conditions are about one value at a time and are asked of every value of a tree
(`Value.Every`).

## Main results

* `Value.ofJson_toJson`: **a canonical tree is read back** as it was written.
* `Value.every_ofJson`: **every value that is loaded is canonical** and fits.
* `Node.loads_iff_canonical`: the loader has exactly the canonical trees as its image.
-/

namespace ContractQuery

universe u

/-! ### Records built by insertion -/

namespace Record

variable {α : Type u}

/-- Entries with distinct names are inserted one behind the other. -/
theorem ofList_eq_self {r : Record α} (h : Distinct r) : ofList r = r := by
  suffices hfold : ∀ (done : Record α), Distinct (done ++ r) →
      r.foldl (fun r e => Record.insert r e.1 e.2) done = done ++ r from hfold [] h
  clear h
  induction r with
  | nil => simp
  | cons e r ih =>
      intro done hdone
      obtain ⟨name, v⟩ := e
      have hname : name ∉ names (done ++ r) := (distinct_middle.mp hdone).1
      have hnot : name ∉ names done := fun hmem => hname (by simp_all [names])
      rw [List.foldl_cons, insert_of_not_mem v hnot, ih _ (by simpa using hdone)]
      simp

/-- A record holds only what was inserted into it. -/
theorem mem_of_mem_ofList {entries : List (String × α)} {e : String × α}
    (h : e ∈ ofList entries) : e ∈ entries := by
  suffices hfold : ∀ (done : Record α),
      e ∈ entries.foldl (fun r e => Record.insert r e.1 e.2) done → e ∈ done ∨ e ∈ entries from
    (hfold [] h).resolve_left List.not_mem_nil
  clear h
  induction entries with
  | nil => exact fun done h => .inl h
  | cons e' rest ih =>
      intro done h
      rcases ih _ h with h | h
      · rcases eq_or_mem_of_mem_insert h with rfl | h
        · exact .inr List.mem_cons_self
        · exact .inl h
      · exact .inr (List.mem_cons_of_mem _ h)

/-- A record has only names that were inserted into it. -/
theorem mem_names_of_mem_names_ofList {entries : List (String × α)} {name : String}
    (h : name ∈ names (ofList entries)) : name ∈ names entries := by
  obtain ⟨e, he, rfl⟩ := List.mem_map.mp h
  exact mem_names_of_mem (mem_of_mem_ofList he)

end Record

/-! ### Kinds -/

namespace Kind

/-- The kinds with a constructor of their own. -/
def own : List Kind :=
  [sourceUnit, contractDefinition, functionDefinition, comment, lineComment, blockComment]

/-- A kind that is kept by its name is none with a constructor of its own. -/
def Canonical : Kind → Prop
  | other s => s ∉ own.map name
  | _ => True

instance : DecidablePred Canonical
  | other s => inferInstanceAs (Decidable (s ∉ own.map name))
  | sourceUnit | contractDefinition | functionDefinition
  | comment | lineComment | blockComment => .isTrue trivial

/-- The canonical kinds are those that their names denote. -/
theorem ofName_name_iff {k : Kind} : ofName k.name = k ↔ k.Canonical := by
  cases k with
  | other s =>
      show ofName s = other s ↔ s ∉ own.map name
      unfold ofName
      split <;> simp_all [own, name]
  | _ => simp [name, ofName, Canonical]

/-- What a name denotes is canonical. -/
theorem canonical_ofName (s : String) : (ofName s).Canonical :=
  ofName_name_iff.mp (by rw [name_ofName])

end Kind

/-! ### Conditions on every value of a tree -/

namespace Value

mutual

/-- The value and all values inside satisfy the condition. -/
def Every (P : Value → Prop) : Value → Prop
  | node kind span fields => P (node kind span fields) ∧ EveryField P fields
  | list items => P (list items) ∧ EveryItem P items
  | map entries => P (map entries) ∧ EveryField P entries
  | scalar s => P (scalar s)

/-- All values in the items of a list satisfy the condition. -/
def EveryItem (P : Value → Prop) : List Value → Prop
  | [] => True
  | v :: rest => v.Every P ∧ EveryItem P rest

/-- All values in named values satisfy the condition. -/
def EveryField (P : Value → Prop) : List (String × Value) → Prop
  | [] => True
  | (_, v) :: rest => v.Every P ∧ EveryField P rest

end

mutual

/-- Decides a condition on every value. -/
def decideEvery (P : Value → Prop) [DecidablePred P] : (v : Value) → Decidable (v.Every P)
  | node kind span fields =>
    have := decideEveryField P fields
    inferInstanceAs (Decidable (P (node kind span fields) ∧ EveryField P fields))
  | list items =>
    have := decideEveryItem P items
    inferInstanceAs (Decidable (P (list items) ∧ EveryItem P items))
  | map entries =>
    have := decideEveryField P entries
    inferInstanceAs (Decidable (P (map entries) ∧ EveryField P entries))
  | scalar s => inferInstanceAs (Decidable (P (scalar s)))

/-- Decides a condition on every value in the items of a list. -/
def decideEveryItem (P : Value → Prop) [DecidablePred P] :
    (items : List Value) → Decidable (EveryItem P items)
  | [] => .isTrue trivial
  | v :: rest =>
    have := decideEvery P v
    have := decideEveryItem P rest
    inferInstanceAs (Decidable (v.Every P ∧ EveryItem P rest))

/-- Decides a condition on every value in named values. -/
def decideEveryField (P : Value → Prop) [DecidablePred P] :
    (fields : List (String × Value)) → Decidable (EveryField P fields)
  | [] => .isTrue trivial
  | (_, v) :: rest =>
    have := decideEvery P v
    have := decideEveryField P rest
    inferInstanceAs (Decidable (v.Every P ∧ EveryField P rest))

end

instance (P : Value → Prop) [DecidablePred P] (v : Value) : Decidable (v.Every P) :=
  decideEvery P v

section Every

variable {P Q : Value → Prop}

/-- All values in items have a property if all values in each item do. -/
theorem everyItem_iff {items : List Value} : EveryItem P items ↔ ∀ v ∈ items, v.Every P := by
  induction items with
  | nil => simp [EveryItem]
  | cons v rest ih => rw [EveryItem, ih, List.forall_mem_cons]

/-- All values in fields have a property if all values in each field do. -/
theorem everyField_iff {fields : Record Value} :
    EveryField P fields ↔ ∀ e ∈ fields, e.2.Every P := by
  induction fields with
  | nil => simp [EveryField]
  | cons e rest ih =>
      obtain ⟨name, v⟩ := e
      rw [EveryField, ih, List.forall_mem_cons]

/-- All values in a node have a property if the node has it and all values in each field do. -/
@[simp] theorem every_node {kind : Kind} {span : Option Span} {fields : Record Value} :
    (node kind span fields).Every P ↔
      P (node kind span fields) ∧ ∀ e ∈ fields, e.2.Every P := by
  rw [Every, everyField_iff]

/-- All values in a list have a property if the list has it and all values in each item do. -/
@[simp] theorem every_list {items : List Value} :
    (list items).Every P ↔ P (list items) ∧ ∀ v ∈ items, v.Every P := by
  rw [Every, everyItem_iff]

/-- All values in a map have a property if the map has it and all values in each entry do. -/
@[simp] theorem every_map {entries : Record Value} :
    (map entries).Every P ↔ P (map entries) ∧ ∀ e ∈ entries, e.2.Every P := by
  rw [Every, everyField_iff]

/-- There is no value in a leaf but itself. -/
@[simp] theorem every_scalar {s : Scalar} : (scalar s).Every P ↔ P (scalar s) := by
  rw [Every]

/-- Two conditions on every value are one. -/
theorem every_and {v : Value} : v.Every (fun w => P w ∧ Q w) ↔ v.Every P ∧ v.Every Q := by
  induction v using inductionOn with
  | node kind span fields ih =>
      rw [every_node, every_node, every_node, forall₂_congr ih, forall₂_and]
      exact and_and_and_comm
  | list items ih =>
      rw [every_list, every_list, every_list, forall₂_congr ih, forall₂_and]
      exact and_and_and_comm
  | map entries ih =>
      rw [every_map, every_map, every_map, forall₂_congr ih, forall₂_and]
      exact and_and_and_comm
  | scalar s => rw [every_scalar, every_scalar, every_scalar]

end Every

/-! ### Canonical trees -/

/-- The value itself is canonical, whatever is inside. -/
def CanonicalHere : Value → Prop
  | node kind _ fields =>
    kind.Canonical ∧ Record.Distinct fields ∧
      ∀ name ∈ ["type", "loc", "range"], name ∉ Record.names fields
  | map entries => Record.Distinct entries ∧ "type" ∉ Record.names entries
  | list _ | scalar _ => True

/-- The span of the value itself fits, whatever is inside. -/
def FitsHere : Value → Prop
  | node _ span _ => ∀ s ∈ span, s.Fits
  | list _ | map _ | scalar _ => True

instance : DecidablePred CanonicalHere
  | node kind _ fields =>
    inferInstanceAs (Decidable (kind.Canonical ∧ (Record.names fields).Nodup ∧ ∀ name ∈ _, _))
  | map entries => inferInstanceAs (Decidable ((Record.names entries).Nodup ∧ _))
  | list _ | scalar _ => .isTrue trivial

instance : DecidablePred FitsHere
  | node _ span _ => inferInstanceAs (Decidable (∀ s ∈ span, s.Fits))
  | list _ | map _ | scalar _ => .isTrue trivial

/-- Each name is used once and is none that a document uses otherwise, and each kind is told by
its name. -/
def Canonical (v : Value) : Prop := v.Every CanonicalHere

/-- All lines and columns are counts below `2^64`. -/
def Fits (v : Value) : Prop := v.Every FitsHere

instance (v : Value) : Decidable v.Canonical := inferInstanceAs (Decidable (v.Every _))

instance (v : Value) : Decidable v.Fits := inferInstanceAs (Decidable (v.Every _))

/-- A canonical tree uses no name twice. -/
theorem Canonical.distinct {v : Value} (h : v.Canonical) : v.Distinct := by
  induction v using inductionOn with
  | node kind span fields ih =>
      obtain ⟨hhere, hfields⟩ := every_node.mp h
      exact distinct_node.mpr ⟨hhere.2.1, distinctFields_iff.mpr fun e he => ih e he (hfields e he)⟩
  | list items ih =>
      obtain ⟨-, hitems⟩ := every_list.mp h
      exact distinct_list.mpr (distinctItems_iff.mpr fun v hv => ih v hv (hitems v hv))
  | map entries ih =>
      obtain ⟨hhere, hentries⟩ := every_map.mp h
      exact distinct_map.mpr
        ⟨hhere.1, distinctFields_iff.mpr fun e he => ih e he (hentries e he)⟩
  | scalar s => exact distinct_scalar s

/-- The entries of a typed object that are no fields. -/
theorem isReserved_iff {name : String} :
    isReserved name = true ↔ name ∈ ["type", "loc", "range"] := by
  simp [isReserved, or_assoc]

end Value

/-! ### Documents -/

namespace Json

mutual

/-- No object of the document uses a name twice. -/
def Distinct : Json → Prop
  | object entries => Record.Distinct entries ∧ DistinctEntries entries
  | array items => DistinctItems items
  | null | bool _ | number _ | text _ => True

/-- No object of the items uses a name twice. -/
def DistinctItems : List Json → Prop
  | [] => True
  | j :: rest => j.Distinct ∧ DistinctItems rest

/-- No object inside the entries uses a name twice. -/
def DistinctEntries : List (String × Json) → Prop
  | [] => True
  | (_, j) :: rest => j.Distinct ∧ DistinctEntries rest

end

end Json

/-- A point is written with distinct names. -/
theorem Point.distinct_toJson (p : Point) : p.toJson.Distinct := by
  have hcolumn : Json.Distinct (p.column.elim .null fun c => .number (.int c)) := by
    cases p.column <;> simp [Json.Distinct]
  simp [toJson, Json.Distinct, Json.DistinctEntries, Record.Distinct, Record.names, hcolumn]

/-- A span is written with distinct names. -/
theorem Span.distinct_toJson (s : Span) : s.toJson.Distinct := by
  simp [toJson, Json.Distinct, Json.DistinctEntries, Record.Distinct, Record.names,
    Point.distinct_toJson]

/-! ### Writing -/

/-- A leaf as JSON. -/
def Scalar.toJson : Scalar → Json
  | null => .null
  | bool b => .bool b
  | number n => .number n
  | text s => .text s

/-- The entry for a span, if there is one. -/
def Span.entries (span : Option Span) : Record Json :=
  span.toList.map fun s => ("loc", s.toJson)

namespace Value

mutual

/-- A tree as JSON: type, span and fields of a node, in this order. -/
def toJson : Value → Json
  | node kind span fields =>
    .object (("type", .text kind.name) :: (Span.entries span ++ toJsonFields fields))
  | list items => .array (toJsonItems items)
  | map entries => .object (toJsonFields entries)
  | scalar s => s.toJson

/-- The items of a list as JSON. -/
def toJsonItems : List Value → List Json
  | [] => []
  | v :: rest => v.toJson :: toJsonItems rest

/-- Named values as JSON. -/
def toJsonFields : List (String × Value) → List (String × Json)
  | [] => []
  | (name, v) :: rest => (name, v.toJson) :: toJsonFields rest

end

/-- Fields are written under their own names. -/
theorem names_toJsonFields (fields : Record Value) :
    Record.names (toJsonFields fields) = Record.names fields := by
  induction fields with
  | nil => rfl
  | cons e rest ih =>
      obtain ⟨name, v⟩ := e
      simp [toJsonFields, ih]

/-- Items are written with distinct names if each of them is. -/
theorem distinctItems_toJsonItems {items : List Value} (h : ∀ v ∈ items, v.toJson.Distinct) :
    Json.DistinctItems (toJsonItems items) := by
  induction items with
  | nil => trivial
  | cons v rest ih =>
      obtain ⟨hv, hrest⟩ := List.forall_mem_cons.mp h
      exact ⟨hv, ih hrest⟩

/-- Fields are written with distinct names inside if each of them is. -/
theorem distinctEntries_toJsonFields {fields : Record Value}
    (h : ∀ e ∈ fields, e.2.toJson.Distinct) : Json.DistinctEntries (toJsonFields fields) := by
  induction fields with
  | nil => trivial
  | cons e rest ih =>
      obtain ⟨he, hrest⟩ := List.forall_mem_cons.mp h
      exact ⟨he, ih hrest⟩

/-- A canonical tree is written without a name that is used twice. -/
theorem Canonical.distinct_toJson {v : Value} (hv : v.Canonical) : v.toJson.Distinct := by
  induction v using inductionOn with
  | node kind span fields ih =>
      obtain ⟨⟨-, hdistinct, hnames⟩, hcanonical⟩ := every_node.mp hv
      have hfields : Json.DistinctEntries (toJsonFields fields) :=
        distinctEntries_toJsonFields fun e he => ih e he (hcanonical e he)
      have hall : ("type" :: "loc" :: Record.names (toJsonFields fields)).Nodup := by
        rw [names_toJsonFields]
        simp only [List.nodup_cons, List.mem_cons, not_or]
        exact ⟨⟨by decide, hnames "type" (by simp)⟩, hnames "loc" (by simp), hdistinct⟩
      cases span with
      | none =>
          rw [toJson]
          exact ⟨hall.sublist ((List.sublist_cons_self _ _).cons_cons _), trivial, hfields⟩
      | some s =>
          rw [toJson]
          exact ⟨hall, trivial, s.distinct_toJson, hfields⟩
  | list items ih =>
      obtain ⟨-, hcanonical⟩ := every_list.mp hv
      rw [toJson]
      exact distinctItems_toJsonItems fun v hv => ih v hv (hcanonical v hv)
  | map entries ih =>
      obtain ⟨⟨hdistinct, -⟩, hcanonical⟩ := every_map.mp hv
      rw [toJson]
      refine ⟨?_, distinctEntries_toJsonFields fun e he => ih e he (hcanonical e he)⟩
      rwa [Record.Distinct, names_toJsonFields]
  | scalar s => cases s <;> trivial

/-! ### What is written is read back -/

/-- Items are read back if each of them is. -/
theorem ofItems_toJsonItems {items : List Value} (h : ∀ v ∈ items, ofJson v.toJson = .ok v) :
    ofItems (toJsonItems items) = .ok items := by
  induction items with
  | nil => rfl
  | cons v rest ih =>
      obtain ⟨hv, hrest⟩ := List.forall_mem_cons.mp h
      rw [toJsonItems, ofItems, hv, ih hrest]
      rfl

/-- Named values are read back if each of them is and none has the name of another entry. -/
theorem ofEntries_toJsonFields {typed : Bool} {fields : Record Value}
    (h : ∀ e ∈ fields, ofJson e.2.toJson = .ok e.2)
    (hnames : ∀ name ∈ Record.names fields, (typed && isReserved name) = false) :
    ofEntries typed (toJsonFields fields) = .ok fields := by
  induction fields with
  | nil => rfl
  | cons e rest ih =>
      obtain ⟨name, v⟩ := e
      obtain ⟨hv, hrest⟩ := List.forall_mem_cons.mp h
      obtain ⟨hname, hnames⟩ := List.forall_mem_cons.mp hnames
      rw [toJsonFields, ofEntries, hname, hv, ih hrest hnames]
      rfl

/-- A `loc` that is a span is the span of the node. -/
theorem loadSpan_of_span {type : String} {entries : Record Json} {loc : Json} {s : Span}
    (hget : Record.get? entries "loc" = some loc) (hs : Decode.span loc = .ok s) :
    loadSpan type entries = .ok (some s) := by
  cases loc with
  | null => cases hs
  | _ => simp only [loadSpan, hget, hs]

/-- The span of a written node is read back. -/
theorem loadSpan_entries {type : String} {j : Json} {span : Option Span}
    {fields : Record Json} (hspan : ∀ s ∈ span, s.Fits) (hloc : "loc" ∉ Record.names fields) :
    loadSpan type (("type", j) :: (Span.entries span ++ fields)) = .ok span := by
  have hne : "type" ≠ "loc" := by decide
  cases span with
  | none =>
      have hget : Record.get? (("type", j) :: (Span.entries none ++ fields)) "loc" = none := by
        rw [Record.get?_eq_none_iff]
        simpa [Span.entries] using hloc
      rw [loadSpan, hget]
  | some s =>
      have hget : Record.get? (("type", j) :: (Span.entries (some s) ++ fields)) "loc" =
          some s.toJson := by
        rw [Record.get?_cons, if_neg hne]
        rfl
      exact loadSpan_of_span hget (Decode.span_toJson (hspan s rfl))

/-- The entries of a written node that are no fields are left out. -/
theorem ofEntries_entries {j : Json} {span : Option Span} {fields : Record Json} :
    ofEntries true (("type", j) :: (Span.entries span ++ fields)) = ofEntries true fields := by
  cases span <;> rfl

/-- **A canonical tree is read back** as it was written. -/
theorem ofJson_toJson {v : Value} (hv : v.Canonical) (hfits : v.Fits) :
    ofJson v.toJson = .ok v := by
  induction v using inductionOn with
  | node kind span fields ih =>
      obtain ⟨⟨hkind, hdistinct, hnames⟩, hcanonical⟩ := every_node.mp hv
      obtain ⟨hspan, hfits⟩ := every_node.mp hfits
      have hloc : "loc" ∉ Record.names (toJsonFields fields) := by
        rw [names_toJsonFields]
        exact hnames "loc" (by simp)
      have hfields : ofEntries true (toJsonFields fields) = .ok fields :=
        ofEntries_toJsonFields (fun e he => ih e he (hcanonical e he) (hfits e he))
          fun name hname => by
            rw [Bool.true_and, Bool.eq_false_iff, ne_eq, isReserved_iff]
            exact fun hmem => hnames name hmem hname
      rw [toJson, ofJson, Record.get?_cons, if_pos rfl]
      simp only
      rw [loadSpan_entries hspan hloc, ofEntries_entries, hfields, Kind.ofName_name_iff.mpr hkind]
      simp only [bind, Except.bind, pure, Except.pure, Record.ofList_eq_self hdistinct]
  | list items ih =>
      obtain ⟨-, hcanonical⟩ := every_list.mp hv
      obtain ⟨-, hfits⟩ := every_list.mp hfits
      have hitems : ofItems (toJsonItems items) = .ok items :=
        ofItems_toJsonItems fun v hv => ih v hv (hcanonical v hv) (hfits v hv)
      rw [toJson, ofJson, hitems]
      rfl
  | map entries ih =>
      obtain ⟨⟨hdistinct, htype⟩, hcanonical⟩ := every_map.mp hv
      obtain ⟨-, hfits⟩ := every_map.mp hfits
      have hget : Record.get? (toJsonFields entries) "type" = none := by
        rwa [Record.get?_eq_none_iff, names_toJsonFields]
      have hentries : ofEntries false (toJsonFields entries) = .ok entries :=
        ofEntries_toJsonFields (fun e he => ih e he (hcanonical e he) (hfits e he))
          fun _ _ => rfl
      rw [toJson, ofJson, hget, hentries]
      simp only [bind, Except.bind, pure, Except.pure, Record.ofList_eq_self hdistinct]
  | scalar s => cases s <;> rfl

/-! ### What is read is canonical -/

/-- A span that was read fits. -/
theorem fits_of_loadSpan {type : String} {entries : Record Json} {span : Option Span}
    (h : loadSpan type entries = .ok span) : ∀ s ∈ span, s.Fits := by
  rw [loadSpan] at h
  split at h
  · obtain rfl := Except.ok.inj h
    simp
  · obtain rfl := Except.ok.inj h
    simp
  · split at h
    · next s hs =>
        obtain rfl := Except.ok.inj h
        rintro s' ⟨⟩
        exact Decode.fits_of_span hs
    · cases h

/-- The names of what is read are names of the object, and none of an entry that is left out. -/
theorem mem_names_of_ofEntries {typed : Bool} {entries : Record Json} {fields : Record Value}
    (h : ofEntries typed entries = .ok fields) {name : String}
    (hname : name ∈ Record.names fields) :
    name ∈ Record.names entries ∧ (typed && isReserved name) = false := by
  induction entries generalizing fields with
  | nil =>
      obtain rfl := Except.ok.inj h
      simp at hname
  | cons e rest ih =>
      obtain ⟨n, j⟩ := e
      rw [ofEntries] at h
      split at h
      · obtain ⟨hmem, hkept⟩ := ih h hname
        exact ⟨List.mem_cons_of_mem _ hmem, hkept⟩
      · next hkept =>
          obtain ⟨v, -, h⟩ := bind_eq_ok_iff.mp h
          obtain ⟨fields', hfields, h⟩ := bind_eq_ok_iff.mp h
          obtain rfl := Except.ok.inj h
          rcases List.mem_cons.mp hname with rfl | hname
          · exact ⟨List.mem_cons_self, by simpa using hkept⟩
          · obtain ⟨hmem, hkept⟩ := ih hfields hname
            exact ⟨List.mem_cons_of_mem _ hmem, hkept⟩

/-- The value itself is canonical and fits. -/
def SoundHere (v : Value) : Prop := v.CanonicalHere ∧ v.FitsHere

/-- A map that is read is canonical: it had no type. -/
theorem soundHere_map {entries : Record Json} {fields : Record Value}
    (htype : Record.get? entries "type" = none) (h : ofEntries false entries = .ok fields) :
    SoundHere (map (Record.ofList fields)) := by
  refine ⟨⟨Record.distinct_ofList fields, fun hmem => ?_⟩, trivial⟩
  have hname := Record.mem_names_of_mem_names_ofList hmem
  exact (Record.get?_eq_none_iff _ _).mp htype (mem_names_of_ofEntries h hname).1

/-- A node that is read is canonical: its fields are none of the other entries. -/
theorem soundHere_node {type : String} {entries : Record Json} {span : Option Span}
    {fields : Record Value} (hspan : loadSpan type entries = .ok span)
    (h : ofEntries true entries = .ok fields) :
    SoundHere (node (.ofName type) span (Record.ofList fields)) := by
  refine ⟨⟨Kind.canonical_ofName type, Record.distinct_ofList fields, ?_⟩,
    fits_of_loadSpan hspan⟩
  intro name hreserved hmem
  have hkept := (mem_names_of_ofEntries h (Record.mem_names_of_mem_names_ofList hmem)).2
  rw [Bool.true_and, isReserved_iff.mpr hreserved] at hkept
  cases hkept

mutual

/-- **Every value that is loaded is canonical** and fits. -/
theorem every_ofJson : ∀ {j : Json} {v : Value}, ofJson j = .ok v → v.Every SoundHere
  | .null, _, h | .bool _, _, h | .number _, _, h | .text _, _, h => by
      obtain rfl := Except.ok.inj h
      exact every_scalar.mpr ⟨trivial, trivial⟩
  | .array items, _, h => by
      rw [ofJson] at h
      obtain ⟨values, hvalues, h⟩ := bind_eq_ok_iff.mp h
      obtain rfl := Except.ok.inj h
      exact every_list.mpr ⟨⟨trivial, trivial⟩, every_ofItems hvalues⟩
  | .object entries, _, h => by
      rw [ofJson] at h
      split at h
      · next htype =>
          obtain ⟨fields, hfields, h⟩ := bind_eq_ok_iff.mp h
          obtain rfl := Except.ok.inj h
          exact every_map.mpr ⟨soundHere_map htype hfields,
            fun e he => every_ofEntries hfields e (Record.mem_of_mem_ofList he)⟩
      · next type htype =>
          obtain ⟨span, hspan, h⟩ := bind_eq_ok_iff.mp h
          obtain ⟨fields, hfields, h⟩ := bind_eq_ok_iff.mp h
          obtain rfl := Except.ok.inj h
          exact every_node.mpr ⟨soundHere_node hspan hfields,
            fun e he => every_ofEntries hfields e (Record.mem_of_mem_ofList he)⟩
      · cases h

/-- All items of a list that is loaded are canonical and fit. -/
theorem every_ofItems : ∀ {items : List Json} {values : List Value},
    ofItems items = .ok values → ∀ v ∈ values, v.Every SoundHere
  | [], _, h => by
      obtain rfl := Except.ok.inj h
      simp
  | j :: rest, _, h => by
      rw [ofItems] at h
      obtain ⟨v, hv, h⟩ := bind_eq_ok_iff.mp h
      obtain ⟨values, hvalues, h⟩ := bind_eq_ok_iff.mp h
      obtain rfl := Except.ok.inj h
      exact List.forall_mem_cons.mpr ⟨every_ofJson hv, every_ofItems hvalues⟩

/-- All named values that are loaded are canonical and fit. -/
theorem every_ofEntries {typed : Bool} : ∀ {entries : List (String × Json)} {fields : Record Value},
    ofEntries typed entries = .ok fields → ∀ e ∈ fields, e.2.Every SoundHere
  | [], _, h => by
      obtain rfl := Except.ok.inj h
      simp
  | (name, j) :: rest, _, h => by
      rw [ofEntries] at h
      split at h
      · exact every_ofEntries h
      · obtain ⟨v, hv, h⟩ := bind_eq_ok_iff.mp h
        obtain ⟨fields, hfields, h⟩ := bind_eq_ok_iff.mp h
        obtain rfl := Except.ok.inj h
        exact List.forall_mem_cons.mpr ⟨every_ofJson hv, every_ofEntries hfields⟩

end

/-- What is loaded is canonical and fits. -/
theorem canonical_of_ofJson {j : Json} {v : Value} (h : ofJson j = .ok v) :
    v.Canonical ∧ v.Fits :=
  every_and.mp (every_ofJson h)

end Value

/-! ### The trees that documents stand for -/

namespace Node

/-- The tree as JSON. -/
def toJson (n : Node) : Json := n.toValue.toJson

/-- Each name of the tree is used once and is none that a document uses otherwise, and each kind
is told by its name. -/
def Canonical (n : Node) : Prop := n.toValue.Canonical

/-- All lines and columns of the tree are counts below `2^64`. -/
def Fits (n : Node) : Prop := n.toValue.Fits

instance (n : Node) : Decidable n.Canonical := inferInstanceAs (Decidable n.toValue.Canonical)

instance (n : Node) : Decidable n.Fits := inferInstanceAs (Decidable n.toValue.Fits)

/-- A document is loaded as a node exactly when its value is that node. -/
theorem ofJson_eq_ok_iff {j : Json} {n : Node} :
    ofJson j = .ok n ↔ Value.ofJson j = .ok n.toValue := by
  obtain ⟨kind, span, fields⟩ := n
  rw [ofJson]
  split
  · next e he => simp [he]
  · next v hv =>
      rw [hv, Except.ok.injEq]
      cases v <;> simp [Value.node?, toValue]

/-- The tree that a text denotes is canonical and fits. -/
theorem canonical_of_parse {text : String} {n : Node} (h : parse text = .ok n) :
    n.Canonical ∧ n.Fits := by
  rw [parse] at h
  split at h
  · exact Value.canonical_of_ofJson (ofJson_eq_ok_iff.mp h)
  · cases h

/-- **The loader inverts writing, and canonical trees are all it returns.** A tree is canonical
exactly if it is read back as it was written, on its own or as a document. Nothing else is loaded,
from whatever value and from whatever text. -/
theorem loads_iff_canonical :
    (∀ v : Value, v.Canonical ∧ v.Fits ↔ v.toJson.Distinct ∧ Value.ofJson v.toJson = .ok v) ∧
    (∀ n : Node, n.Canonical ∧ n.Fits ↔ ofJson n.toJson = .ok n) ∧
    (∀ (j : Json) (v : Value), Value.ofJson j = .ok v → v.Canonical ∧ v.Fits) ∧
    ∀ (text : String) (n : Node), parse text = .ok n → n.Canonical ∧ n.Fits := by
  have hread (v : Value) :
      v.Canonical ∧ v.Fits ↔ v.toJson.Distinct ∧ Value.ofJson v.toJson = .ok v :=
    ⟨fun h => ⟨h.1.distinct_toJson, Value.ofJson_toJson h.1 h.2⟩,
      fun h => Value.canonical_of_ofJson h.2⟩
  refine ⟨hread, fun n => ?_, fun _ _ => Value.canonical_of_ofJson,
    fun _ _ => canonical_of_parse⟩
  rw [ofJson_eq_ok_iff]
  exact ⟨fun h => ((hread n.toValue).mp h).2, Value.canonical_of_ofJson⟩

/-- A function with a list of modifiers and notes, where names stand for other things than in a
node. -/
def annotated : Node :=
  ⟨.functionDefinition, some ⟨⟨3, some 4⟩, ⟨5, none⟩⟩,
    [("name", .text "f"),
      ("modifiers", .list [.node (.other "Modifier") none [("name", .text "only")], .null]),
      ("notes", .map [("loc", .scalar (.number (.int 7))), ("range", .map [])])]⟩

/-- A function with a span, a list and a map is written and loaded again as it was. -/
theorem loads_iff_canonical_annotated :
    annotated.Canonical ∧ annotated.Fits ∧
    annotated.toJson =
      .object [
        ("type", .text "FunctionDefinition"),
        ("loc", .object [
          ("start", .object [("line", .number (.int 3)), ("column", .number (.int 4))]),
          ("end", .object [("line", .number (.int 5)), ("column", .null)])]),
        ("name", .text "f"),
        ("modifiers", .array [
          .object [("type", .text "Modifier"), ("name", .text "only")], .null]),
        ("notes", .object [("loc", .number (.int 7)), ("range", .object [])])] ∧
    ofJson annotated.toJson = .ok annotated := by
  have hcanonical : annotated.Canonical := by decide
  have hfits : annotated.Fits := by decide
  exact ⟨hcanonical, hfits, rfl, (loads_iff_canonical.2.1 annotated).mp ⟨hcanonical, hfits⟩⟩

end Node

end ContractQuery
