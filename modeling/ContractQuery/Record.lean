/-!
# Insertion-Ordered Records

A record is a list of named values in the order in which the names were first given.
Look-up takes the first entry of a name, a second value for a name replaces the first one
in place, and erasing a name closes the gap, so the order of all other names is kept.

* `names_insert_of_mem`, `names_insert_of_not_mem`: what insertion does to the names.
* `get?_insert_self`, `get?_insert_of_ne`: what insertion does to look-up.
* `Distinct.insert`, `Distinct.erase`, `distinct_ofList`: names stay distinct.
-/

namespace ContractQuery

universe u

/-- Named values in insertion order. -/
abbrev Record (α : Type u) := List (String × α)

namespace Record

variable {α : Type u}

/-- The names, in order. -/
def names (r : Record α) : List String := r.map Prod.fst

/-- The value of the first entry called `name`. -/
def get? : Record α → String → Option α
  | [], _ => none
  | (n, v) :: rest, name => if n = name then some v else get? rest name

/-- Sets `name` to `v`: in place if the record has the name, at the end otherwise. -/
def insert : Record α → String → α → Record α
  | [], name, v => [(name, v)]
  | (n, w) :: rest, name, v =>
    if n = name then (n, v) :: rest else (n, w) :: insert rest name v

/-- Drops the first entry called `name`. -/
def erase : Record α → String → Record α
  | [], _ => []
  | (n, w) :: rest, name => if n = name then rest else (n, w) :: erase rest name

/-- Whether some entry is called `name`. -/
def has (r : Record α) (name : String) : Bool := (get? r name).isSome

/-- Inserts the entries one after the other, so the last value of a name stands at the
place of the first. -/
def ofList (entries : List (String × α)) : Record α :=
  entries.foldl (fun r e => insert r e.1 e.2) []

/-- No name occurs twice. -/
def Distinct (r : Record α) : Prop := (names r).Nodup

/-! ### Look-up -/

@[simp] theorem names_nil : names ([] : Record α) = [] := rfl

@[simp] theorem names_cons (n : String) (v : α) (r : Record α) :
    names ((n, v) :: r) = n :: names r := rfl

@[simp] theorem get?_nil (name : String) : get? ([] : Record α) name = none := rfl

theorem get?_cons (n : String) (v : α) (r : Record α) (name : String) :
    get? ((n, v) :: r) name = if n = name then some v else get? r name := rfl

/-- Look-up finds nothing exactly for the names that do not occur. -/
theorem get?_eq_none_iff (r : Record α) (name : String) :
    get? r name = none ↔ name ∉ names r := by
  induction r with
  | nil => simp
  | cons e r ih =>
      obtain ⟨n, v⟩ := e
      by_cases h : n = name
      · simp [get?_cons, h]
      · simp [get?_cons, h, ih, Ne.symm h]

/-- What look-up finds is an entry of the record. -/
theorem mem_of_get?_eq_some {r : Record α} {name : String} {v : α}
    (h : get? r name = some v) : (name, v) ∈ r := by
  induction r with
  | nil => simp at h
  | cons e r ih =>
      obtain ⟨n, w⟩ := e
      rw [get?_cons] at h
      split at h
      · next hn => simp_all
      · exact List.mem_cons_of_mem _ (ih h)

/-- With distinct names, look-up finds every entry. -/
theorem get?_eq_some_of_mem {r : Record α} (hr : Distinct r) {name : String} {v : α}
    (h : (name, v) ∈ r) : get? r name = some v := by
  induction r with
  | nil => simp at h
  | cons e r ih =>
      obtain ⟨n, w⟩ := e
      obtain ⟨hn, hr'⟩ := List.nodup_cons.1 hr
      rw [get?_cons]
      rcases List.mem_cons.1 h with h | h
      · obtain ⟨rfl, rfl⟩ := Prod.mk.inj h
        simp
      · have hne : n ≠ name := by
          rintro rfl
          exact hn (List.mem_map.2 ⟨_, h, rfl⟩)
        simp [hne, ih hr' h]

/-! ### Insertion -/

/-- A name that is set has the value it is set to. -/
@[simp] theorem get?_insert_self (r : Record α) (name : String) (v : α) :
    get? (insert r name v) name = some v := by
  induction r with
  | nil => simp [insert, get?]
  | cons e r ih =>
      obtain ⟨n, w⟩ := e
      by_cases h : n = name <;> simp [insert, get?_cons, h, ih]

/-- Setting a name leaves all other names alone. -/
theorem get?_insert_of_ne (r : Record α) {name other : String} (v : α) (h : name ≠ other) :
    get? (insert r name v) other = get? r other := by
  induction r with
  | nil => simp [insert, get?_cons, h]
  | cons e r ih =>
      obtain ⟨n, w⟩ := e
      by_cases hn : n = name
      · subst hn
        simp [insert, get?_cons, h]
      · simp only [insert, if_neg hn, get?_cons, ih]

/-- A new name goes to the end. -/
theorem insert_of_not_mem {r : Record α} {name : String} (v : α) (h : name ∉ names r) :
    insert r name v = r ++ [(name, v)] := by
  induction r with
  | nil => rfl
  | cons e r ih =>
      obtain ⟨n, w⟩ := e
      simp only [names_cons, List.mem_cons, not_or] at h
      simp [insert, Ne.symm h.1, ih h.2]

/-- A new value for a name leaves all names where they are. -/
theorem names_insert_of_mem {r : Record α} {name : String} (v : α) (h : name ∈ names r) :
    names (insert r name v) = names r := by
  induction r with
  | nil => simp at h
  | cons e r ih =>
      obtain ⟨n, w⟩ := e
      by_cases hn : n = name
      · simp [insert, hn]
      · have : name ∈ names r := by simpa [Ne.symm hn] using h
        simp [insert, hn, ih this]

/-- A name that is new comes last. -/
theorem names_insert_of_not_mem {r : Record α} {name : String} (v : α)
    (h : name ∉ names r) : names (insert r name v) = names r ++ [name] := by
  simp [insert_of_not_mem v h, names]

/-- Setting a name keeps names distinct. -/
theorem Distinct.insert {r : Record α} (hr : Distinct r) (name : String) (v : α) :
    Distinct (Record.insert r name v) := by
  by_cases h : name ∈ names r
  · simpa [Distinct, names_insert_of_mem v h] using hr
  · simp only [Distinct, names_insert_of_not_mem v h]
    refine List.nodup_append.2 ⟨hr, by simp, ?_⟩
    intro a ha b hb
    rw [List.mem_singleton] at hb
    rintro rfl
    exact h (hb ▸ ha)

/-- A record built by insertion has distinct names. -/
theorem distinct_ofList (entries : List (String × α)) : Distinct (ofList entries) := by
  suffices h : ∀ r : Record α, Distinct r →
      Distinct (entries.foldl (fun r e => Record.insert r e.1 e.2) r) from
    h [] List.nodup_nil
  induction entries with
  | nil => exact fun r hr => hr
  | cons e entries ih => exact fun r hr => ih _ (hr.insert e.1 e.2)

/-! ### Erasure -/

/-- Erasing a name erases the first of its entries. -/
theorem names_erase (r : Record α) (name : String) :
    names (erase r name) = (names r).erase name := by
  induction r with
  | nil => rfl
  | cons e r ih =>
      obtain ⟨n, w⟩ := e
      by_cases h : n = name
      · simp [erase, h]
      · simp [erase, h, ih]

/-- Erasing a name keeps names distinct. -/
theorem Distinct.erase {r : Record α} (hr : Distinct r) (name : String) :
    Distinct (Record.erase r name) := by
  rw [Distinct, names_erase]
  exact List.Nodup.sublist List.erase_sublist hr

end Record

end ContractQuery
