import ContractQuery.Proofs.Locations

/-!
# Documents That Load

Which documents are trees is decided by the objects that the loader looks at. From an object it
goes on into all values if the object has no type, into the values other than those of `type`,
`loc` and `range` if it has a text for one, and no further if it has something else. These objects
are *inspected* (`Json.Inspects`, and in the order in which they are met `Json.inspected`).

A document loads exactly if its root has a text for a type and every inspected object is well
typed. What stands in `loc` and `range` of a typed object counts only by the span that `loc` is
decoded as, and the inspected objects become the nodes and maps of the tree one by one.

## Main results

* `Value.exists_ofJson_iff`: **a value loads exactly if its inspected objects are well typed**.
* `Value.ofJson_of_ignoredChange`: a change to what is ignored is not seen.
* `Value.forall₂_made`: **nodes and maps are the inspected objects, one by one**.
* `Node.accepts_iff_wellTyped`: what is accepted, and what it is accepted as.
-/

namespace ContractQuery

universe u

/-- Lists whose members agree one by one have results that agree one by one. -/
theorem forall₂_flatMap {α β γ δ : Type} {R : α → β → Prop} {S : γ → δ → Prop} {f : α → List γ}
    {g : β → List δ} {l : List α} {l' : List β} (h : List.Forall₂ R l l')
    (himp : ∀ a ∈ l, ∀ b, R a b → List.Forall₂ S (f a) (g b)) :
    List.Forall₂ S (l.flatMap f) (l'.flatMap g) :=
  List.rel_flatMap (forall₂_imp_of_mem_left h himp) fun _ _ hab => hab

namespace Record

variable {α : Type u}

/-- Entries of another name do not matter to look-up. -/
theorem get?_filter_ne (r : Record α) {name other : String} (h : name ≠ other) :
    get? (r.filter fun e => e.1 ≠ other) name = get? r name := by
  induction r with
  | nil => rfl
  | cons e r ih =>
      obtain ⟨n, w⟩ := e
      by_cases hn : n = other
      · have hne : n ≠ name := fun hname => h (hname.symm.trans hn)
        rw [List.filter_cons_of_neg (by simp [hn]), get?_cons, if_neg hne, ih]
      · rw [List.filter_cons_of_pos (by simp [hn]), get?_cons, get?_cons, ih]

/-- Records that differ at one name only agree at every other name. -/
theorem get?_congr_filter {r r' : Record α} {name other : String} (h : name ≠ other)
    (hrest : (r'.filter fun e => e.1 ≠ other) = r.filter fun e => e.1 ≠ other) :
    get? r' name = get? r name := by
  rw [← get?_filter_ne r' h, hrest, get?_filter_ne r h]

/-- The value of one name does not matter to the others. -/
theorem get?_middle_of_ne {before after : Record α} {n name : String} (x y : α) (h : n ≠ name) :
    get? (before ++ (n, x) :: after) name = get? (before ++ (n, y) :: after) name := by
  induction before with
  | nil => rw [List.nil_append, List.nil_append, get?_cons, get?_cons, if_neg h, if_neg h]
  | cons e before ih =>
      obtain ⟨m, w⟩ := e
      rw [List.cons_append, List.cons_append, get?_cons, get?_cons, ih]

end Record

/-! ### Inspected objects -/

namespace Json

/-- The span of a typed object: none if `loc` is absent or null, or else what it is decoded as. -/
inductive Located (o : Record Json) : Option Span → Prop
  | absent (h : Record.get? o "loc" = none) : Located o none
  | null (h : Record.get? o "loc" = some null) : Located o none
  | decoded {loc : Json} {s : Span} (h : Record.get? o "loc" = some loc)
      (hs : Decode.span loc = .ok s) : Located o (some s)

/-- The type of an object is absent, a text, or something else. -/
theorem type_cases (o : Record Json) :
    Record.get? o "type" = none ∨ (∃ type, Record.get? o "type" = some (text type)) ∨
      ∃ found, Record.get? o "type" = some found ∧ ∀ type, found ≠ text type := by
  cases Record.get? o "type" with
  | none => exact .inl rfl
  | some found =>
      cases found with
      | text type => exact .inr (.inl ⟨type, rfl⟩)
      | _ => exact .inr (.inr ⟨_, rfl, nofun⟩)

/-- A type is a text, and an object that has one says where it is or does not say it at all. -/
structure WellTyped (o : Record Json) : Prop where
  type : ∀ found, Record.get? o "type" = some found → ∃ type, found = text type
  loc : ∀ type, Record.get? o "type" = some (text type) → ∃ span, Located o span

/-- The object is reached through arrays, values of objects without a type, and values of objects
with a text for a type that are not called `type`, `loc` or `range`. -/
inductive Inspects : Json → Record Json → Prop
  | self {o : Record Json} : Inspects (object o) o
  | item {items : List Json} {j : Json} {o : Record Json} (hj : j ∈ items) (h : Inspects j o) :
      Inspects (array items) o
  | entry {entries : Record Json} {name : String} {j : Json} {o : Record Json}
      (htype : Record.get? entries "type" = none) (hj : (name, j) ∈ entries) (h : Inspects j o) :
      Inspects (object entries) o
  | field {entries : Record Json} {type name : String} {j : Json} {o : Record Json}
      (htype : Record.get? entries "type" = some (text type)) (hj : (name, j) ∈ entries)
      (hname : name ∉ ["type", "loc", "range"]) (h : Inspects j o) : Inspects (object entries) o

/-- The entries of an object that the loader goes on into. -/
def explored (o : Record Json) : Record Json :=
  match Record.get? o "type" with
  | none => o
  | some (text _) => o.filter fun e => e.1 ∉ ["type", "loc", "range"]
  | some _ => []

/-- An object without a type is gone into at all its entries. -/
theorem explored_of_none {o : Record Json} (h : Record.get? o "type" = none) :
    explored o = o := by
  rw [explored, h]

/-- An object with a type is gone into at all entries but the reserved ones. -/
theorem explored_of_text {o : Record Json} {type : String}
    (h : Record.get? o "type" = some (text type)) :
    explored o = o.filter fun e => e.1 ∉ ["type", "loc", "range"] := by
  rw [explored, h]

/-- The entries that are gone into are entries of the object, in order. -/
theorem explored_sublist (o : Record Json) : (explored o).Sublist o := by
  rw [explored]
  split
  · exact .refl o
  · exact List.filter_sublist
  · exact List.nil_sublist o

/-- Loading an array looks at the objects that it looks at in the items. -/
theorem inspects_array {items : List Json} {o : Record Json} :
    (array items).Inspects o ↔ ∃ j ∈ items, j.Inspects o := by
  constructor
  · rintro (_ | ⟨hj, h⟩)
    exact ⟨_, hj, h⟩
  · rintro ⟨j, hj, h⟩
    exact .item hj h

/-- Loading an object looks at this object, and at those in the entries that it goes into. -/
theorem inspects_object {entries o : Record Json} :
    (object entries).Inspects o ↔ o = entries ∨ ∃ e ∈ explored entries, e.2.Inspects o := by
  constructor
  · rintro (_ | _ | ⟨htype, hj, h⟩ | ⟨htype, hj, hname, h⟩)
    · exact .inl rfl
    · rw [explored_of_none htype]
      exact .inr ⟨_, hj, h⟩
    · rw [explored_of_text htype]
      exact .inr ⟨_, List.mem_filter.mpr ⟨hj, decide_eq_true hname⟩, h⟩
  · rintro (rfl | ⟨⟨name, j⟩, hj, h⟩)
    · exact .self
    · rw [explored] at hj
      split at hj
      · next htype => exact .entry htype hj h
      · next htype =>
          obtain ⟨hj, hname⟩ := List.mem_filter.mp hj
          exact .field htype hj (of_decide_eq_true hname) h
      · exact absurd hj List.not_mem_nil

mutual

/-- The inspected objects, each before those inside. -/
def inspected : Json → List (Record Json)
  | object entries =>
    entries ::
      match Record.get? entries "type" with
      | none => inspectedEntries [] entries
      | some (text _) => inspectedEntries ["type", "loc", "range"] entries
      | some _ => []
  | array items => inspectedItems items
  | null | bool _ | number _ | text _ => []

/-- The inspected objects of array items. -/
def inspectedItems : List Json → List (Record Json)
  | [] => []
  | j :: rest => j.inspected ++ inspectedItems rest

/-- The inspected objects of entries, without those of some names. -/
def inspectedEntries (skipped : List String) : List (String × Json) → List (Record Json)
  | [] => []
  | (name, j) :: rest =>
    if name ∈ skipped then inspectedEntries skipped rest
    else j.inspected ++ inspectedEntries skipped rest

end

/-- The objects in items are those of each item, one after the other. -/
theorem inspectedItems_eq (items : List Json) : inspectedItems items = items.flatMap inspected := by
  induction items with
  | nil => rfl
  | cons j rest ih => rw [inspectedItems, ih, List.flatMap_cons]

/-- The objects in entries are those of each entry that is not skipped. -/
theorem inspectedEntries_eq (skipped : List String) (entries : Record Json) :
    inspectedEntries skipped entries =
      (entries.filter fun e => e.1 ∉ skipped).flatMap fun e => e.2.inspected := by
  induction entries with
  | nil => rfl
  | cons e rest ih =>
      obtain ⟨name, j⟩ := e
      by_cases h : name ∈ skipped
      · simp [inspectedEntries, h, ih]
      · simp [inspectedEntries, h, ih]

/-- The objects that loading an array looks at, in order. -/
theorem inspected_array (items : List Json) :
    (array items).inspected = items.flatMap inspected := by
  rw [inspected, inspectedItems_eq]

/-- The objects that loading an object looks at: itself, and then those of its entries. -/
theorem inspected_object (entries : Record Json) :
    (object entries).inspected =
      entries :: (explored entries).flatMap fun e => e.2.inspected := by
  rw [inspected, explored]
  split
  · simp [inspectedEntries_eq]
  · rw [inspectedEntries_eq]
  · rfl

/-- The inspected objects are those that are reached. -/
theorem mem_inspected {j : Json} {o : Record Json} : o ∈ j.inspected ↔ j.Inspects o := by
  induction j using inductionOn with
  | null | bool b | number n | text s =>
      rw [inspected]
      exact ⟨fun h => absurd h List.not_mem_nil, nofun⟩
  | array items ih =>
      rw [inspected_array, List.mem_flatMap, inspects_array]
      exact exists_congr fun j => and_congr_right fun hj => ih j hj
  | object entries ih =>
      rw [inspected_object, List.mem_cons, List.mem_flatMap, inspects_object]
      refine or_congr_right (exists_congr fun e => and_congr_right fun he => ?_)
      exact ih e ((explored_sublist entries).subset he)

end Json

/-! ### Loading one container -/

namespace Value

/-- An entry is kept under its name, as the value that it loads as. -/
def LoadsAs (e : String × Json) (f : String × Value) : Prop := f.1 = e.1 ∧ ofJson e.2 = .ok f.2

/-- The span of an object loads exactly if the object says where it lies. -/
theorem loadSpan_eq_ok_iff {type : String} {o : Record Json} {span : Option Span} :
    loadSpan type o = .ok span ↔ Json.Located o span := by
  constructor
  · intro h
    rw [loadSpan] at h
    split at h
    · next hget =>
        obtain rfl := Except.ok.inj h
        exact .absent hget
    · next hget =>
        obtain rfl := Except.ok.inj h
        exact .null hget
    · next hget =>
        split at h
        · next hs =>
            obtain rfl := Except.ok.inj h
            exact .decoded hget hs
        · cases h
  · rintro (hget | hget | ⟨hget, hs⟩)
    · rw [loadSpan, hget]
    · rw [loadSpan, hget]
    · exact loadSpan_of_span hget hs

/-- Items load one after the other. -/
theorem ofItems_eq_mapM (items : List Json) : ofItems items = items.mapM ofJson := by
  induction items with
  | nil => rfl
  | cons j rest ih => rw [ofItems, List.mapM_cons, ih]

/-- Entries load exactly if each of them does, the reserved ones of a node apart. -/
theorem ofEntries_eq_ok_iff {typed : Bool} {entries : Record Json} {fields : Record Value} :
    ofEntries typed entries = .ok fields ↔
      List.Forall₂ LoadsAs (entries.filter fun e => !(typed && isReserved e.1)) fields := by
  induction entries generalizing fields with
  | nil =>
      rw [List.filter_nil, List.forall₂_nil_left_iff, ofEntries, Except.ok.injEq]
      exact eq_comm
  | cons e rest ih =>
      obtain ⟨name, j⟩ := e
      rw [ofEntries]
      cases hskip : typed && isReserved name with
      | true => rw [if_pos rfl, ih, List.filter_cons_of_neg (by simp [hskip])]
      | false =>
          rw [if_neg Bool.false_ne_true, List.filter_cons_of_pos (by simp [hskip]),
            List.forall₂_cons_left_iff, bind_eq_ok_iff]
          constructor
          · rintro ⟨v, hv, h⟩
            obtain ⟨fs, hfs, rfl⟩ := bind_pure_eq_ok_iff.mp h
            exact ⟨(name, v), fs, ⟨rfl, hv⟩, ih.mp hfs, rfl⟩
          · rintro ⟨⟨_, v⟩, fs, ⟨rfl, hv⟩, hfs, rfl⟩
            exact ⟨v, hv, bind_pure_eq_ok_iff.mpr ⟨fs, ih.mpr hfs, rfl⟩⟩

/-- There are fields to load exactly if every entry loads. -/
theorem exists_forall₂_loadsAs_iff {entries : Record Json} :
    (∃ fields, List.Forall₂ LoadsAs entries fields) ↔ ∀ e ∈ entries, ∃ v, ofJson e.2 = .ok v := by
  rw [exists_forall₂_iff]
  refine forall₂_congr fun e _ => ?_
  exact ⟨fun ⟨f, _, h⟩ => ⟨f.2, h⟩, fun ⟨v, h⟩ => ⟨(e.1, v), rfl, h⟩⟩

/-- Loading keeps the names of entries. -/
theorem names_of_forall₂_loadsAs {entries : Record Json} {fields : Record Value}
    (h : List.Forall₂ LoadsAs entries fields) : Record.names fields = Record.names entries := by
  induction h with
  | nil => rfl
  | cons he _ ih => exact congrArg₂ List.cons he.1 ih

/-- An array loads exactly if its items do, and then as the list of what they load as. -/
theorem ofJson_array_eq_ok_iff {items : List Json} {v : Value} :
    ofJson (.array items) = .ok v ↔
      ∃ values, List.Forall₂ (fun j v => ofJson j = .ok v) items values ∧ v = list values := by
  simp only [← mapM_eq_ok_iff, ← ofItems_eq_mapM]
  rw [ofJson]
  exact bind_pure_eq_ok_iff

/-- An object without a type loads as the map of all its entries. -/
theorem ofJson_object_of_none {o : Record Json} {v : Value}
    (htype : Record.get? o "type" = none) :
    ofJson (.object o) = .ok v ↔
      ∃ fields, List.Forall₂ LoadsAs (Json.explored o) fields ∧ v = map (Record.ofList fields) := by
  have hall : (o.filter fun e => !(false && isReserved e.1)) = Json.explored o := by
    rw [Json.explored_of_none htype]
    exact List.filter_eq_self.mpr fun _ _ => rfl
  rw [ofJson, htype]
  simp only [← hall, ← ofEntries_eq_ok_iff]
  exact bind_pure_eq_ok_iff

/-- An object with a text for a type loads as the node of its fields. -/
theorem ofJson_object_of_text {o : Record Json} {type : String} {v : Value}
    (htype : Record.get? o "type" = some (.text type)) :
    ofJson (.object o) = .ok v ↔
      ∃ span fields, Json.Located o span ∧ List.Forall₂ LoadsAs (Json.explored o) fields ∧
        v = node (.ofName type) span (Record.ofList fields) := by
  have hkept : (o.filter fun e => !(true && isReserved e.1)) = Json.explored o := by
    rw [Json.explored_of_text htype]
    refine List.filter_congr fun e _ => ?_
    rw [Bool.true_and, Bool.eq_iff_iff, decide_eq_true_iff, ← isReserved_iff, Bool.not_eq_true',
      Bool.not_eq_true]
  rw [ofJson, htype]
  constructor
  · intro h
    obtain ⟨span, hspan, h⟩ := bind_eq_ok_iff.mp h
    obtain ⟨fields, hfields, rfl⟩ := bind_pure_eq_ok_iff.mp h
    rw [ofEntries_eq_ok_iff, hkept] at hfields
    exact ⟨span, fields, loadSpan_eq_ok_iff.mp hspan, hfields, rfl⟩
  · rintro ⟨span, fields, hspan, hfields, rfl⟩
    rw [← hkept, ← ofEntries_eq_ok_iff] at hfields
    refine bind_eq_ok_iff.mpr ⟨span, loadSpan_eq_ok_iff.mpr hspan, ?_⟩
    exact bind_pure_eq_ok_iff.mpr ⟨fields, hfields, rfl⟩

/-- An object with anything else for a type does not load. -/
theorem ofJson_object_of_other {o : Record Json} {found : Json}
    (htype : Record.get? o "type" = some found) (hfound : ∀ type, found ≠ .text type) :
    ofJson (.object o) = .error (.badType found) := by
  rw [ofJson, htype]
  cases found with
  | text type => exact absurd rfl (hfound type)
  | _ => rfl

/-! ### What loads -/

/-- An object loads exactly if it is well typed and the loader can go on. -/
theorem exists_ofJson_object_iff {o : Record Json} :
    (∃ v, ofJson (.object o) = .ok v) ↔
      Json.WellTyped o ∧ ∀ e ∈ Json.explored o, ∃ v, ofJson e.2 = .ok v := by
  rw [← exists_forall₂_loadsAs_iff]
  obtain htype | ⟨type, htype⟩ | ⟨found, htype, hfound⟩ := Json.type_cases o
  · have hwell : Json.WellTyped o := ⟨by simp [htype], by simp [htype]⟩
    constructor
    · rintro ⟨v, hv⟩
      obtain ⟨fields, hfields, -⟩ := (ofJson_object_of_none htype).mp hv
      exact ⟨hwell, fields, hfields⟩
    · rintro ⟨-, fields, hfields⟩
      exact ⟨_, (ofJson_object_of_none htype).mpr ⟨fields, hfields, rfl⟩⟩
  · constructor
    · rintro ⟨v, hv⟩
      obtain ⟨span, fields, hspan, hfields, -⟩ := (ofJson_object_of_text htype).mp hv
      exact ⟨⟨by simp [htype], fun _ _ => ⟨span, hspan⟩⟩, fields, hfields⟩
    · rintro ⟨hwell, fields, hfields⟩
      obtain ⟨span, hspan⟩ := hwell.loc type htype
      exact ⟨_, (ofJson_object_of_text htype).mpr ⟨span, fields, hspan, hfields, rfl⟩⟩
  · constructor
    · rintro ⟨v, hv⟩
      rw [ofJson_object_of_other htype hfound] at hv
      cases hv
    · rintro ⟨hwell, -⟩
      obtain ⟨type, rfl⟩ := hwell.type found htype
      exact absurd rfl (hfound type)

/-- **A value loads exactly if its inspected objects are well typed.** -/
theorem exists_ofJson_iff {j : Json} :
    (∃ v, ofJson j = .ok v) ↔ ∀ o, j.Inspects o → Json.WellTyped o := by
  induction j using Json.inductionOn with
  | null | bool b | number n | text s =>
      rw [ofJson]
      refine ⟨fun _ o h => ?_, fun _ => ⟨_, rfl⟩⟩
      cases h
  | array items ih =>
      have hitems : (∃ v, ofJson (.array items) = .ok v) ↔
          ∀ j ∈ items, ∃ v, ofJson j = .ok v := by
        rw [← exists_forall₂_iff]
        constructor
        · rintro ⟨v, hv⟩
          obtain ⟨values, hvalues, -⟩ := ofJson_array_eq_ok_iff.mp hv
          exact ⟨values, hvalues⟩
        · rintro ⟨values, hvalues⟩
          exact ⟨_, ofJson_array_eq_ok_iff.mpr ⟨values, hvalues, rfl⟩⟩
      rw [hitems, forall₂_congr ih]
      simp only [Json.inspects_array]
      exact ⟨fun h o ⟨j, hj, ho⟩ => h j hj o ho, fun h j hj o ho => h o ⟨j, hj, ho⟩⟩
  | object entries ih =>
      have hexplored : (∀ e ∈ Json.explored entries, ∃ v, ofJson e.2 = .ok v) ↔
          ∀ e ∈ Json.explored entries, ∀ o, e.2.Inspects o → Json.WellTyped o :=
        forall₂_congr fun e he => ih e ((Json.explored_sublist entries).subset he)
      rw [exists_ofJson_object_iff, hexplored]
      simp only [Json.inspects_object]
      constructor
      · rintro ⟨hwell, h⟩ o (rfl | ⟨e, he, ho⟩)
        · exact hwell
        · exact h e he o ho
      · intro h
        exact ⟨h entries (.inl rfl), fun e he o ho => h o (.inr ⟨e, he, ho⟩)⟩

end Value

/-! ### What is ignored -/

/-- Two documents that differ at one place, in what the loader ignores there: typed objects may
differ in what is called `range`, and in what is called `loc` as long as the span is the same. -/
inductive Json.IgnoredChange : Json → Json → Prop
  | range {o o' : Record Json} {type : String} (htype : Record.get? o "type" = some (text type))
      (hrest : (o'.filter fun e => e.1 ≠ "range") = o.filter fun e => e.1 ≠ "range") :
      IgnoredChange (object o) (object o')
  | loc {o o' : Record Json} {type : String} {span : Option Span}
      (htype : Record.get? o "type" = some (text type)) (hspan : Located o span)
      (hspan' : Located o' span)
      (hrest : (o'.filter fun e => e.1 ≠ "loc") = o.filter fun e => e.1 ≠ "loc") :
      IgnoredChange (object o) (object o')
  | item {before after : List Json} {j k : Json} (h : IgnoredChange j k) :
      IgnoredChange (array (before ++ j :: after)) (array (before ++ k :: after))
  | entry {before after : Record Json} {name : String} {j k : Json}
      (htype : Record.get? (before ++ (name, j) :: after) "type" = none)
      (h : IgnoredChange j k) :
      IgnoredChange (object (before ++ (name, j) :: after)) (object (before ++ (name, k) :: after))
  | field {before after : Record Json} {type name : String} {j k : Json}
      (htype : Record.get? (before ++ (name, j) :: after) "type" = some (text type))
      (hname : name ∉ ["type", "loc", "range"]) (h : IgnoredChange j k) :
      IgnoredChange (object (before ++ (name, j) :: after)) (object (before ++ (name, k) :: after))

namespace Value

/-- The span is a matter of one entry alone. -/
theorem loadSpan_congr {type : String} {o o' : Record Json}
    (h : Record.get? o' "loc" = Record.get? o "loc") : loadSpan type o' = loadSpan type o := by
  rw [loadSpan, loadSpan, h]

/-- Leaving out a reserved entry makes no difference to the fields of a node. -/
theorem ofEntries_filter_ne {name : String} (h : isReserved name = true) (o : Record Json) :
    ofEntries true (o.filter fun e => e.1 ≠ name) = ofEntries true o := by
  induction o with
  | nil => rfl
  | cons e rest ih =>
      obtain ⟨n, j⟩ := e
      by_cases hn : n = name
      · subst hn
        rw [List.filter_cons_of_neg (by simp), ih, ofEntries, if_pos (by simp [h])]
      · rw [List.filter_cons_of_pos (by simp [hn]), ofEntries, ofEntries, ih]

/-- Objects that differ at a reserved name only have the same fields. -/
theorem ofEntries_congr_filter {name : String} {o o' : Record Json} (h : isReserved name = true)
    (hrest : (o'.filter fun e => e.1 ≠ name) = o.filter fun e => e.1 ≠ name) :
    ofEntries true o' = ofEntries true o := by
  rw [← ofEntries_filter_ne h o', hrest, ofEntries_filter_ne h o]

/-- Items load alike if one of them is replaced by one that loads alike. -/
theorem ofItems_middle {before after : List Json} {j k : Json} (h : ofJson k = ofJson j) :
    ofItems (before ++ k :: after) = ofItems (before ++ j :: after) := by
  induction before with
  | nil => rw [List.nil_append, List.nil_append, ofItems, ofItems, h]
  | cons i before ih => rw [List.cons_append, List.cons_append, ofItems, ofItems, ih]

/-- Entries load alike if the value of one is replaced by one that loads alike. -/
theorem ofEntries_middle {typed : Bool} {before after : Record Json} {name : String} {j k : Json}
    (h : ofJson k = ofJson j) :
    ofEntries typed (before ++ (name, k) :: after) =
      ofEntries typed (before ++ (name, j) :: after) := by
  induction before with
  | nil => rw [List.nil_append, List.nil_append, ofEntries, ofEntries, h]
  | cons e before ih =>
      obtain ⟨n, i⟩ := e
      rw [List.cons_append, List.cons_append, ofEntries, ofEntries, ih]

/-- Objects of one type load alike if their spans and fields do. -/
theorem ofJson_object_congr {o o' : Record Json} {type : String}
    (htype : Record.get? o "type" = some (.text type))
    (hsame : Record.get? o' "type" = Record.get? o "type")
    (hspan : loadSpan type o' = loadSpan type o) (hfields : ofEntries true o' = ofEntries true o) :
    ofJson (.object o') = ofJson (.object o) := by
  rw [ofJson, ofJson, hsame, htype]
  simp only [hspan, hfields]

/-- **A change to what is ignored is not seen.** -/
theorem ofJson_of_ignoredChange {j k : Json} (h : j.IgnoredChange k) : ofJson k = ofJson j := by
  induction h with
  | range htype hrest =>
      refine ofJson_object_congr htype (Record.get?_congr_filter (by decide) hrest) ?_
        (ofEntries_congr_filter (by decide) hrest)
      exact loadSpan_congr (Record.get?_congr_filter (by decide) hrest)
  | loc htype hspan hspan' hrest =>
      refine ofJson_object_congr htype (Record.get?_congr_filter (by decide) hrest) ?_
        (ofEntries_congr_filter (by decide) hrest)
      rw [loadSpan_eq_ok_iff.mpr hspan, loadSpan_eq_ok_iff.mpr hspan']
  | item h ih => rw [ofJson, ofJson, ofItems_middle ih]
  | @entry before after name j k htype h ih =>
      -- The changed entry is not the type, since there is none.
      have hne : name ≠ "type" := by
        rintro rfl
        exact (Record.get?_eq_none_iff _ _).mp htype (by simp [Record.names])
      rw [ofJson, ofJson, Record.get?_middle_of_ne k j hne, htype]
      simp only [ofEntries_middle ih]
  | @field before after type name j k htype hname h ih =>
      simp only [List.mem_cons, not_or] at hname
      refine ofJson_object_congr htype (Record.get?_middle_of_ne k j hname.1) ?_
        (ofEntries_middle ih)
      exact loadSpan_congr (Record.get?_middle_of_ne k j hname.2.1)

/-! ### What the tree holds -/

mutual

/-- All nodes and maps of a value, each before those inside. -/
def compounds : Value → List Value
  | node kind span fields => node kind span fields :: compoundsFields fields
  | list items => compoundsItems items
  | map entries => map entries :: compoundsFields entries
  | scalar _ => []

/-- All nodes and maps in the items of a list. -/
def compoundsItems : List Value → List Value
  | [] => []
  | v :: rest => v.compounds ++ compoundsItems rest

/-- All nodes and maps in named values. -/
def compoundsFields : List (String × Value) → List Value
  | [] => []
  | (_, v) :: rest => v.compounds ++ compoundsFields rest

end

/-- The nodes and maps in items are those of each item, one after the other. -/
theorem compoundsItems_eq (items : List Value) :
    compoundsItems items = items.flatMap compounds := by
  induction items with
  | nil => rfl
  | cons v rest ih => rw [compoundsItems, ih, List.flatMap_cons]

/-- The nodes and maps in fields are those of each field, one after the other. -/
theorem compoundsFields_eq (fields : Record Value) :
    compoundsFields fields = fields.flatMap fun e => e.2.compounds := by
  induction fields with
  | nil => rfl
  | cons e rest ih => rw [compoundsFields, ih, List.flatMap_cons]

/-- What an object becomes: with a type the node of its fields, without one the map of all its
entries, each under its name. -/
inductive Made (o : Record Json) : Value → Prop
  | node {type : String} {span : Option Span} {fields : Record Value}
      (htype : Record.get? o "type" = some (.text type)) (hspan : Json.Located o span)
      (hfields : List.Forall₂ LoadsAs (o.filter fun e => e.1 ∉ ["type", "loc", "range"]) fields) :
      Made o (.node (.ofName type) span fields)
  | map {entries : Record Value} (htype : Record.get? o "type" = none)
      (hentries : List.Forall₂ LoadsAs o entries) : Made o (.map entries)

/-- An object with distinct names becomes what its entries make of it. -/
theorem made_of_ofJson {o : Record Json} {v : Value} (hdistinct : Record.Distinct o)
    (h : ofJson (.object o) = .ok v) :
    Made o v ∧ ∃ fields, List.Forall₂ LoadsAs (Json.explored o) fields ∧
      v.compounds = v :: fields.flatMap fun e => e.2.compounds := by
  -- Insertion would merge entries of one name, but there are none.
  have hkeep {fields : Record Value} (hfields : List.Forall₂ LoadsAs (Json.explored o) fields) :
      Record.ofList fields = fields := by
    refine Record.ofList_eq_self ?_
    rw [Record.Distinct, names_of_forall₂_loadsAs hfields]
    exact hdistinct.sublist ((Json.explored_sublist o).map Prod.fst)
  obtain htype | ⟨type, htype⟩ | ⟨found, htype, hfound⟩ := Json.type_cases o
  · obtain ⟨fields, hfields, rfl⟩ := (ofJson_object_of_none htype).mp h
    rw [hkeep hfields]
    refine ⟨.map htype ?_, fields, hfields, ?_⟩
    · rwa [Json.explored_of_none htype] at hfields
    · rw [compounds, compoundsFields_eq]
  · obtain ⟨span, fields, hspan, hfields, rfl⟩ := (ofJson_object_of_text htype).mp h
    rw [hkeep hfields]
    refine ⟨.node htype hspan ?_, fields, hfields, ?_⟩
    · rwa [Json.explored_of_text htype] at hfields
    · rw [compounds, compoundsFields_eq]
  · rw [ofJson_object_of_other htype hfound] at h
    cases h

/-- **Nodes and maps are the inspected objects, one by one.** -/
theorem forall₂_made {j : Json} {v : Value} (hdistinct : j.Distinct) (h : ofJson j = .ok v) :
    List.Forall₂ Made j.inspected v.compounds := by
  induction j using Json.inductionOn generalizing v with
  | null | bool b | number n | text s =>
      obtain rfl := Except.ok.inj h
      rw [Json.inspected, compounds]
      exact .nil
  | array items ih =>
      rw [Json.distinct_array] at hdistinct
      obtain ⟨values, hvalues, rfl⟩ := ofJson_array_eq_ok_iff.mp h
      rw [Json.inspected_array, compounds, compoundsItems_eq]
      exact forall₂_flatMap hvalues fun j hj v hv => ih j hj (hdistinct j hj) hv
  | object entries ih =>
      -- The object itself comes first on both sides, then entry by entry what is inside.
      obtain ⟨hnames, hinner⟩ := Json.distinct_object.mp hdistinct
      obtain ⟨hmade, fields, hfields, hcompounds⟩ := made_of_ofJson hnames h
      rw [Json.inspected_object, hcompounds]
      refine .cons hmade (forall₂_flatMap hfields fun e he f hf => ?_)
      have hmem : e ∈ entries := (Json.explored_sublist entries).subset he
      exact ih e hmem (hinner e hmem) hf.2

end Value

/-! ### Documents -/

/-- Only an object with a text for a type is a node. -/
theorem Value.typed_of_ofJson_node {j : Json} {kind : Kind} {span : Option Span}
    {fields : Record Value} (h : ofJson j = .ok (node kind span fields)) :
    ∃ o type, j = .object o ∧ Record.get? o "type" = some (.text type) := by
  cases j with
  | null | bool b | number n | text s => cases h
  | array items =>
      obtain ⟨values, -, hlist⟩ := ofJson_array_eq_ok_iff.mp h
      cases hlist
  | object o =>
      obtain htype | ⟨type, htype⟩ | ⟨found, htype, hfound⟩ := Json.type_cases o
      · obtain ⟨fields, -, hmap⟩ := (ofJson_object_of_none htype).mp h
        cases hmap
      · exact ⟨o, type, rfl, htype⟩
      · rw [ofJson_object_of_other htype hfound] at h
        cases h

namespace Node

/-- A document is a tree exactly if its value is one and its root has a text for a type. -/
theorem exists_ofJson_iff {j : Json} :
    (∃ n, ofJson j = .ok n) ↔
      (∃ o type, j = .object o ∧ Record.get? o "type" = some (.text type)) ∧
        ∃ v, Value.ofJson j = .ok v := by
  constructor
  · rintro ⟨n, hn⟩
    rw [ofJson_eq_ok_iff] at hn
    exact ⟨Value.typed_of_ofJson_node hn, n.toValue, hn⟩
  · rintro ⟨⟨o, type, rfl, htype⟩, v, hv⟩
    obtain ⟨span, fields, -, -, rfl⟩ := (Value.ofJson_object_of_text htype).mp hv
    exact ⟨⟨.ofName type, span, Record.ofList fields⟩, ofJson_eq_ok_iff.mpr hv⟩

/-- A change to what is ignored makes no difference to the tree that is loaded. -/
theorem ofJson_of_ignoredChange {j k : Json} (h : j.IgnoredChange k) : ofJson k = ofJson j := by
  rw [ofJson, ofJson, Value.ofJson_of_ignoredChange h]

/-- A text that is JSON denotes what its document does, and this uses no name twice. -/
theorem parse_of_json {text : String} {j : Json} (h : Json.parse text = .ok j) :
    j.Distinct ∧ parse text = ofJson j := by
  refine ⟨Json.distinct_of_parse h, ?_⟩
  rw [parse, h]

/-- **The loader accepts the well-typed documents, and these become trees object by object.** A
document is a tree exactly if its root has a text for a type and every inspected object is well
typed. A change to what is ignored changes neither the tree nor the error. If no name is used
twice, which is so for all that is read from a text, then the nodes and maps of the tree are made
from the inspected objects, one from each and in the same order. -/
theorem accepts_iff_wellTyped (j : Json) :
    ((∃ n, ofJson j = .ok n) ↔
      (∃ o type, j = .object o ∧ Record.get? o "type" = some (.text type)) ∧
        ∀ o, j.Inspects o → Json.WellTyped o) ∧
    (∀ k, j.IgnoredChange k → ofJson k = ofJson j) ∧
    (∀ o, o ∈ j.inspected ↔ j.Inspects o) ∧
    (j.Distinct → ∀ n, ofJson j = .ok n →
      List.Forall₂ Value.Made j.inspected n.toValue.compounds) ∧
    ∀ text, Json.parse text = .ok j → j.Distinct ∧ parse text = ofJson j := by
  refine ⟨?_, fun k => ofJson_of_ignoredChange, fun o => Json.mem_inspected, ?_,
    fun text => parse_of_json⟩
  · rw [exists_ofJson_iff, Value.exists_ofJson_iff]
  · intro hdistinct n hn
    exact Value.forall₂_made hdistinct (ofJson_eq_ok_iff.mp hn)

/-- A file with entries for its range and with a note that has no type. What looks like a node of
no proper type in the span is ignored; the range of the note is not. -/
def marked (range : Record Json) (type : Json) : Json :=
  .object (
    [("type", .text "SourceUnit"),
      ("loc", .object [
        ("start", .array [.number (.int 1)]),
        ("hint", .object [("type", .null)]),
        ("end", .array [.number (.int 2), .null])])] ++
    range ++
    [("notes", .array [.object [("loc", .text "top"), ("range", .object [("type", type)])]])])

/-- The tree of the file if the range of the note is a mark. -/
def markedTree : Node :=
  ⟨.sourceUnit, some ⟨⟨1, none⟩, ⟨2, none⟩⟩, [
    ("notes", .list [.map [("loc", .text "top"), ("range", .node (.other "Mark") none [])]])]⟩

/-- The file is accepted whatever its own range is, and refused if the range of the note has a type
that is no text. -/
theorem accepts_iff_wellTyped_marked :
    (marked [("range", .object [("type", .null)])] (.text "Mark")).Distinct ∧
    ofJson (marked [("range", .object [("type", .null)])] (.text "Mark")) = .ok markedTree ∧
    List.Forall₂ Value.Made
      (marked [("range", .object [("type", .null)])] (.text "Mark")).inspected
      markedTree.toValue.compounds ∧
    ofJson (marked [] (.text "Mark")) =
      ofJson (marked [("range", .object [("type", .null)])] (.text "Mark")) ∧
    ¬ ∃ n, ofJson (marked [] .null) = .ok n := by
  have hdistinct : (marked [("range", .object [("type", .null)])] (.text "Mark")).Distinct := by
    simp [marked, Json.Distinct, Json.DistinctEntries, Json.DistinctItems, Record.Distinct,
      Record.names]
  have hload :
      ofJson (marked [("range", .object [("type", .null)])] (.text "Mark")) = .ok markedTree := rfl
  obtain ⟨-, hignored, -, hmade, -⟩ :=
    accepts_iff_wellTyped (marked [("range", .object [("type", .null)])] (.text "Mark"))
  refine ⟨hdistinct, hload, hmade hdistinct markedTree hload, ?_, ?_⟩
  · exact hignored _ (Json.IgnoredChange.range rfl rfl)
  · intro hsome
    obtain ⟨-, hwell⟩ := (accepts_iff_wellTyped (marked [] .null)).1.mp hsome
    have hnote : (marked [] .null).Inspects [("type", .null)] := by
      rw [← Json.mem_inspected]
      simp [marked, Json.inspected, Json.inspectedEntries, Json.inspectedItems, Record.get?]
    obtain ⟨type, htype⟩ := (hwell _ hnote).type .null rfl
    cases htype

end Node

end ContractQuery
