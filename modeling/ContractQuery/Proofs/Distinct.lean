import Mathlib.Data.List.Nodup
import ContractQuery.Tree.Address

/-!
# Trees with Distinct Names

A tree has distinct names when no node and no map in it, at any depth, uses a name twice.
Every tree that is built by insertion is of this kind, and it is what makes a path lead to
one value only.

The predicate is a property of the values directly inside (`Value.distinctItems_iff`,
`Value.distinctFields_iff`), and it is decidable. `Value.inductionOn` is induction over a
tree with the hypothesis for every value directly inside.

## Main results

* `Record.erase_eq_filter`, `Record.insert_eq_map`: with distinct names, erasing and
  replacing an entry treat all entries by their name alone.
* `Record.perm_cons_erase`: an entry that look-up finds can be moved to the front.
* `Value.Distinct.child`: what lies one step below has distinct names as well.
-/

namespace ContractQuery

universe u

namespace Record

variable {α : Type u}

/-- Names are distinct if the first is none of the rest, and these are distinct. -/
@[simp] theorem distinct_cons {n : String} {v : α} {r : Record α} :
    Distinct ((n, v) :: r) ↔ n ∉ names r ∧ Distinct r :=
  List.nodup_cons

/-- The name of an entry is a name of the record. -/
theorem mem_names_of_mem {r : Record α} {n : String} {v : α} (h : (n, v) ∈ r) : n ∈ names r :=
  List.mem_map.2 ⟨_, h, rfl⟩

/-- The order of the entries does not matter to distinctness. -/
theorem Distinct.perm {r r' : Record α} (hr : Distinct r) (h : r.Perm r') : Distinct r' :=
  (h.map Prod.fst).nodup_iff.1 hr

/-- Distinct names, with one entry taken apart. -/
theorem distinct_middle {before after : Record α} {n : String} {v : α} :
    Distinct (before ++ (n, v) :: after) ↔
      n ∉ names (before ++ after) ∧ Distinct (before ++ after) := by
  simp only [Distinct, names, List.map_append, List.map_cons]
  rw [List.nodup_middle, List.nodup_cons]

/-- With distinct names, erasing a name keeps exactly the entries of other names. -/
theorem erase_eq_filter {r : Record α} (hr : Distinct r) (name : String) :
    erase r name = r.filter fun e => e.1 ≠ name := by
  induction r with
  | nil => rfl
  | cons e r ih =>
      obtain ⟨n, w⟩ := e
      obtain ⟨hn, hr'⟩ := distinct_cons.1 hr
      by_cases h : n = name
      · subst h
        have hrest : r.filter (fun e => e.1 ≠ n) = r := by
          rw [List.filter_eq_self]
          rintro ⟨m, x⟩ hm
          have hmn : m ≠ n := by
            rintro rfl
            exact hn (mem_names_of_mem hm)
          simpa using hmn
        rw [erase, if_pos rfl, List.filter_cons_of_neg (by simp), hrest]
      · simp [erase, h, ih hr']

/-- With distinct names, setting a name that occurs replaces the value of exactly the entry
of that name. -/
theorem insert_eq_map {r : Record α} (hr : Distinct r) {name : String} (h : name ∈ names r)
    (v : α) : insert r name v = r.map fun e => if e.1 = name then (e.1, v) else e := by
  induction r with
  | nil => simp at h
  | cons e r ih =>
      obtain ⟨n, w⟩ := e
      obtain ⟨hn, hr'⟩ := distinct_cons.1 hr
      by_cases hname : n = name
      · subst hname
        have hrest : r.map (fun e => if e.1 = n then (e.1, v) else e) = r := by
          refine (List.map_congr_left ?_).trans (List.map_id r)
          rintro ⟨m, x⟩ hm
          have hmn : m ≠ n := by
            rintro rfl
            exact hn (mem_names_of_mem hm)
          simp [hmn]
        rw [insert, if_pos rfl, List.map_cons, hrest, if_pos rfl]
      · have hmem : name ∈ names r := by simpa [Ne.symm hname] using h
        rw [insert, if_neg hname, ih hr' hmem, List.map_cons, if_neg hname]

/-- Look-up in a record whose values all changed in one way. -/
theorem get?_map {β : Type u} (f : α → β) (r : Record α) (name : String) :
    get? (r.map fun e => (e.1, f e.2)) name = (get? r name).map f := by
  induction r with
  | nil => rfl
  | cons e r ih =>
      obtain ⟨n, w⟩ := e
      by_cases h : n = name <;> simp [get?_cons, h, ih]

/-- Setting a name before or after all values change in one way. -/
theorem map_insert {β : Type u} (f : α → β) (r : Record α) (name : String) (v : α) :
    ((insert r name v).map fun e => (e.1, f e.2)) =
      insert (r.map fun e => (e.1, f e.2)) name (f v) := by
  induction r with
  | nil => rfl
  | cons e r ih =>
      obtain ⟨n, w⟩ := e
      by_cases h : n = name <;> simp [insert, h, ih]

/-- The entries after setting a name are the new one and old ones. -/
theorem eq_or_mem_of_mem_insert {r : Record α} {name : String} {v : α} {e : String × α}
    (h : e ∈ insert r name v) : e = (name, v) ∨ e ∈ r := by
  induction r with
  | nil => exact .inl (by simpa [insert] using h)
  | cons e' r ih =>
      obtain ⟨n, w⟩ := e'
      rw [insert] at h
      by_cases hn : n = name
      · rw [if_pos hn, List.mem_cons] at h
        rcases h with rfl | h
        · exact .inl (by rw [hn])
        · exact .inr (List.mem_cons_of_mem _ h)
      · rw [if_neg hn, List.mem_cons] at h
        rcases h with rfl | h
        · exact .inr List.mem_cons_self
        · exact (ih h).imp id (List.mem_cons_of_mem _)

/-- Erasing a name leaves old entries only. -/
theorem erase_sublist (r : Record α) (name : String) : (erase r name).Sublist r := by
  induction r with
  | nil => exact .slnil
  | cons e r ih =>
      obtain ⟨n, w⟩ := e
      by_cases hn : n = name
      · rw [erase, if_pos hn]
        exact List.sublist_cons_self _ _
      · rw [erase, if_neg hn]
        exact ih.cons_cons _

/-- An entry that look-up finds can be moved to the front. -/
theorem perm_cons_erase {r : Record α} {name : String} {v : α} (h : get? r name = some v) :
    ((name, v) :: erase r name).Perm r := by
  induction r with
  | nil => simp at h
  | cons e r ih =>
      obtain ⟨n, w⟩ := e
      rw [get?_cons] at h
      by_cases hn : n = name
      · rw [if_pos hn, Option.some.injEq] at h
        rw [erase, if_pos hn, hn, h]
      · rw [if_neg hn] at h
        rw [erase, if_neg hn]
        exact (List.Perm.swap _ _ _).trans ((ih h).cons _)

/-- Setting a name puts the new entry in the place of the old one, if there is any. -/
theorem perm_insert (r : Record α) (name : String) (v : α) :
    (insert r name v).Perm ((name, v) :: erase r name) := by
  induction r with
  | nil => exact .refl _
  | cons e r ih =>
      obtain ⟨n, w⟩ := e
      by_cases hn : n = name
      · rw [insert, erase, if_pos hn, if_pos hn, hn]
      · rw [insert, erase, if_neg hn, if_neg hn]
        exact (ih.cons _).trans (.swap _ _ _)

/-- Erasing a name does not change what look-up finds under the others. -/
theorem get?_erase_of_ne (r : Record α) {name other : String} (h : name ≠ other) :
    get? (erase r name) other = get? r other := by
  induction r with
  | nil => rfl
  | cons e r ih =>
      obtain ⟨n, w⟩ := e
      by_cases hn : n = name
      · subst hn
        simp [erase, get?_cons, h]
      · simp only [erase, if_neg hn, get?_cons, ih]

end Record

namespace Value

/-! ### Induction over a tree -/

/-- Induction over a tree: what holds of a value whenever it holds of all values directly
inside holds of every value. -/
theorem inductionOn {motive : Value → Prop} (v : Value)
    (node : ∀ kind span fields, (∀ e ∈ fields, motive e.2) → motive (node kind span fields))
    (list : ∀ items, (∀ v ∈ items, motive v) → motive (list items))
    (map : ∀ entries, (∀ e ∈ entries, motive e.2) → motive (map entries))
    (scalar : ∀ s, motive (scalar s)) : motive v := by
  -- The recursor has a motive of its own for fields, for items, and for one field.
  refine @Value.rec motive (fun fields => ∀ e ∈ fields, motive e.2)
    (fun items => ∀ v ∈ items, motive v) (fun e => motive e.2)
    node list map scalar ?_ ?_ ?_ ?_ ?_ v
  · simp
  · intro e fields he hfields e' he'
    rcases List.mem_cons.1 he' with rfl | he'
    · exact he
    · exact hfields e' he'
  · simp
  · intro v items hv hitems v' hv'
    rcases List.mem_cons.1 hv' with rfl | hv'
    · exact hv
    · exact hitems v' hv'
  · intro name v hv
    exact hv

/-! ### The predicate -/

mutual

/-- No node and no map of the value uses a name twice. -/
def Distinct : Value → Prop
  | node _ _ fields => Record.Distinct fields ∧ DistinctFields fields
  | list items => DistinctItems items
  | map entries => Record.Distinct entries ∧ DistinctFields entries
  | scalar _ => True

/-- No node and no map of the items uses a name twice. -/
def DistinctItems : List Value → Prop
  | [] => True
  | v :: rest => v.Distinct ∧ DistinctItems rest

/-- No node and no map inside the named values uses a name twice. -/
def DistinctFields : List (String × Value) → Prop
  | [] => True
  | (_, v) :: rest => v.Distinct ∧ DistinctFields rest

end

mutual

/-- Decides whether names are distinct. -/
def decideDistinct : (v : Value) → Decidable v.Distinct
  | node _ _ fields =>
    have := decideDistinctFields fields
    inferInstanceAs (Decidable ((Record.names fields).Nodup ∧ DistinctFields fields))
  | list items => decideDistinctItems items
  | map entries =>
    have := decideDistinctFields entries
    inferInstanceAs (Decidable ((Record.names entries).Nodup ∧ DistinctFields entries))
  | scalar _ => .isTrue trivial

/-- Decides whether names are distinct in the items of a list. -/
def decideDistinctItems : (items : List Value) → Decidable (DistinctItems items)
  | [] => .isTrue trivial
  | v :: rest =>
    have := decideDistinct v
    have := decideDistinctItems rest
    inferInstanceAs (Decidable (v.Distinct ∧ DistinctItems rest))

/-- Decides whether names are distinct in named values. -/
def decideDistinctFields : (fields : List (String × Value)) → Decidable (DistinctFields fields)
  | [] => .isTrue trivial
  | (_, v) :: rest =>
    have := decideDistinct v
    have := decideDistinctFields rest
    inferInstanceAs (Decidable (v.Distinct ∧ DistinctFields rest))

end

instance (v : Value) : Decidable v.Distinct := decideDistinct v

/-- A node has distinct names if its own fields do, and what is in them. -/
@[simp] theorem distinct_node {kind : Kind} {span : Option Span} {fields : Record Value} :
    (node kind span fields).Distinct ↔ Record.Distinct fields ∧ DistinctFields fields := by
  rw [Distinct]

/-- A list has distinct names if its items do. -/
@[simp] theorem distinct_list {items : List Value} :
    (list items).Distinct ↔ DistinctItems items := by
  rw [Distinct]

/-- A map has distinct names if its own entries do, and what is in them. -/
@[simp] theorem distinct_map {entries : Record Value} :
    (map entries).Distinct ↔ Record.Distinct entries ∧ DistinctFields entries := by
  rw [Distinct]

/-- A leaf has no names. -/
@[simp] theorem distinct_scalar (s : Scalar) : (scalar s).Distinct := by
  rw [Distinct]
  trivial

/-- The items of a list have distinct names exactly when each of them has. -/
theorem distinctItems_iff {items : List Value} :
    DistinctItems items ↔ ∀ v ∈ items, v.Distinct := by
  induction items with
  | nil => simp [DistinctItems]
  | cons v rest ih => simp [DistinctItems, ih]

/-- Named values have distinct names exactly when each of them has. -/
theorem distinctFields_iff {fields : Record Value} :
    DistinctFields fields ↔ ∀ e ∈ fields, e.2.Distinct := by
  induction fields with
  | nil => simp [DistinctFields]
  | cons e rest ih =>
      obtain ⟨name, v⟩ := e
      rw [DistinctFields, ih, List.forall_mem_cons]

/-- Distinct names of a list, with one item taken apart. -/
theorem distinct_list_middle {before after : List Value} {v : Value} :
    (list (before ++ v :: after)).Distinct ↔ v.Distinct ∧ (list (before ++ after)).Distinct := by
  simp only [distinct_list, distinctItems_iff, List.forall_mem_append, List.forall_mem_cons]
  exact and_left_comm

/-- Distinct names of a node, with one field taken apart. -/
theorem distinct_node_middle {kind : Kind} {span : Option Span} {before after : Record Value}
    {name : String} {v : Value} :
    (node kind span (before ++ (name, v) :: after)).Distinct ↔
      name ∉ Record.names (before ++ after) ∧ v.Distinct ∧
        (node kind span (before ++ after)).Distinct := by
  simp only [distinct_node, Record.distinct_middle, distinctFields_iff, List.forall_mem_append,
    List.forall_mem_cons]
  tauto

/-- Distinct names of a map, with one entry taken apart. -/
theorem distinct_map_middle {before after : Record Value} {name : String} {v : Value} :
    (map (before ++ (name, v) :: after)).Distinct ↔
      name ∉ Record.names (before ++ after) ∧ v.Distinct ∧ (map (before ++ after)).Distinct := by
  simp only [distinct_map, Record.distinct_middle, distinctFields_iff, List.forall_mem_append,
    List.forall_mem_cons]
  tauto

/-- What lies one step below has distinct names as well. -/
theorem Distinct.child {v c : Value} {s : Segment} (hv : v.Distinct)
    (h : v.child? s = some c) : c.Distinct := by
  fun_cases child? v s with
  | case1 kind span fields name =>
      rw [child?] at h
      exact distinctFields_iff.1 (distinct_node.1 hv).2 _ (Record.mem_of_get?_eq_some h)
  | case2 items i =>
      rw [child?] at h
      exact distinctItems_iff.1 (distinct_list.1 hv) _ (List.mem_of_getElem? h)
  | case3 v s hnode hlist => simp_all [child?]

/-- Taking out the value one step below keeps names distinct. -/
theorem Distinct.eraseChild {v : Value} (hv : v.Distinct) (s : Segment) :
    (v.eraseChild s).Distinct := by
  fun_cases Value.eraseChild v s with
  | case1 kind span fields name =>
      obtain ⟨hnames, hfields⟩ := distinct_node.1 hv
      refine distinct_node.2 ⟨hnames.erase name, distinctFields_iff.2 fun e he => ?_⟩
      exact distinctFields_iff.1 hfields e ((Record.erase_sublist fields name).subset he)
  | case2 items i =>
      refine distinct_list.2 (distinctItems_iff.2 fun w hw => ?_)
      exact distinctItems_iff.1 (distinct_list.1 hv) w ((List.eraseIdx_sublist _ _).subset hw)
  | case3 v s hnode hlist => exact hv

/-- Putting a value with distinct names one step below keeps names distinct. -/
theorem Distinct.setChild {v c : Value} (hv : v.Distinct) (s : Segment) (hc : c.Distinct) :
    (v.setChild s c).Distinct := by
  fun_cases Value.setChild v s c with
  | case1 kind span fields name =>
      obtain ⟨hnames, hfields⟩ := distinct_node.1 hv
      refine distinct_node.2 ⟨hnames.insert name c, distinctFields_iff.2 fun e he => ?_⟩
      rcases Record.eq_or_mem_of_mem_insert he with rfl | he
      · exact hc
      · exact distinctFields_iff.1 hfields e he
  | case2 items i =>
      refine distinct_list.2 (distinctItems_iff.2 fun w hw => ?_)
      rcases List.mem_or_eq_of_mem_set hw with hw | rfl
      · exact distinctItems_iff.1 (distinct_list.1 hv) w hw
      · exact hc
  | case3 v s hnode hlist => exact hv

end Value

/-- No node and no map of the tree uses a name twice. -/
def Node.Distinct (n : Node) : Prop := n.toValue.Distinct

instance (n : Node) : Decidable n.Distinct := inferInstanceAs (Decidable n.toValue.Distinct)

/-- What is in the fields of a node with distinct names has distinct names. -/
theorem Node.Distinct.of_mem_fields {n : Node} (h : n.Distinct) : ∀ e ∈ n.fields, e.2.Distinct :=
  Value.distinctFields_iff.mp (Value.distinct_node.mp h).2

end ContractQuery
