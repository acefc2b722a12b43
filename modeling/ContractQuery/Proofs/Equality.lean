import Mathlib.Data.List.Perm.Basic
import ContractQuery.Proofs.Distinct
import ContractQuery.Tree.Equality

/-!
# Equality of Trees with Distinct Names

Two records are equal when they have as many entries and look-up in the second finds every
entry of the first. With distinct names this means that the entries of the first, in their
order, agree one by one with some arrangement of the entries of the second
(`Value.sameFields_iff_matching`). In this form equality is seen to be an equivalence on
trees with distinct names; on other trees it need not even be reflexive.

## Main results

* `Value.same_node_iff`, `Value.same_list_iff`, `Value.same_map_iff`: what equality says at a
  node, a list and a map.
* `Value.same_refl`, `Value.same_symm`, `Value.same_trans`: equality is an equivalence.
-/

namespace ContractQuery

/-- A scalar is equal to itself, also if it is a number. -/
theorem Scalar.same_refl (a : Scalar) : a.same a = true := by
  cases a <;> simp [same, Number.same_refl]

/-- Equality of scalars is symmetric. -/
theorem Scalar.same_symm {a b : Scalar} (h : a.same b = true) : b.same a = true := by
  cases a <;> cases b <;> simp_all [same]
  exact Number.same_symm h

/-- Equality of scalars is transitive. -/
theorem Scalar.same_trans {a b c : Scalar} (h : a.same b = true) (h' : b.same c = true) :
    a.same c = true := by
  cases a <;> cases b <;> cases c <;> simp_all [same]
  exact Number.same_trans h h'

/-! ### Lists that agree one by one

Between lists that agree one by one, what is known of a relation has to be known of the
members only, which is what an induction over trees provides. -/

section Forall₂

universe u

variable {α : Type u} {R : α → α → Prop} {l l' l'' : List α}

/-- A relation between lists may be weakened for the members of the two lists alone. -/
theorem forall₂_imp_of_mem {S : α → α → Prop} (h : List.Forall₂ R l l')
    (himp : ∀ a ∈ l, ∀ b ∈ l', R a b → S a b) : List.Forall₂ S l l' := by
  induction h with
  | nil => exact .nil
  | cons hab _ ih =>
      refine .cons (himp _ List.mem_cons_self _ List.mem_cons_self hab) (ih ?_)
      intro a ha b hb
      exact himp a (List.mem_cons_of_mem _ ha) b (List.mem_cons_of_mem _ hb)

/-- A relation between lists can be turned round if this holds of their members. -/
theorem forall₂_symm_of_mem (h : List.Forall₂ R l l')
    (hsymm : ∀ a ∈ l, ∀ b ∈ l', R a b → R b a) : List.Forall₂ R l' l :=
  List.Forall₂.flip (forall₂_imp_of_mem h hsymm)

/-- Relations between lists can be chained if this holds of their members. -/
theorem forall₂_trans_of_mem (h : List.Forall₂ R l l') (h' : List.Forall₂ R l' l'')
    (htrans : ∀ a ∈ l, ∀ b ∈ l', ∀ c ∈ l'', R a b → R b c → R a c) :
    List.Forall₂ R l l'' := by
  induction h generalizing l'' with
  | nil => exact h'
  | cons hab _ ih =>
      obtain ⟨c, rest, hbc, hrest, rfl⟩ := List.forall₂_cons_left_iff.1 h'
      refine .cons (htrans _ List.mem_cons_self _ List.mem_cons_self _ List.mem_cons_self hab hbc)
        (ih hrest ?_)
      intro a ha b hb c hc
      exact htrans a (List.mem_cons_of_mem _ ha) b (List.mem_cons_of_mem _ hb) c
        (List.mem_cons_of_mem _ hc)

/-- Between lists that agree one by one, a relation has to be known of members of the first only. -/
theorem forall₂_imp_of_mem_left {α β : Type} {R S : α → β → Prop} {l : List α} {l' : List β}
    (h : List.Forall₂ R l l') (himp : ∀ a ∈ l, ∀ b, R a b → S a b) : List.Forall₂ S l l' :=
  ((List.forall₂_and_left l l').mpr ⟨fun _ ha => ha, h⟩).imp fun a b hab => himp a hab.1 b hab.2

/-- Of two lists that agree one by one, each member of the second agrees with one of the first. -/
theorem exists_mem_of_forall₂ {α β : Type} {R : α → β → Prop} {l : List α} {l' : List β}
    (h : List.Forall₂ R l l') {b : β} (hb : b ∈ l') : ∃ a ∈ l, R a b := by
  induction h with
  | nil => simp at hb
  | cons hhead _ ih =>
      rcases List.mem_cons.mp hb with rfl | hb
      · exact ⟨_, List.mem_cons_self, hhead⟩
      · obtain ⟨a, ha, hab⟩ := ih hb
        exact ⟨a, List.mem_cons_of_mem _ ha, hab⟩

/-- Lists whose members have one after the other equal results, up to order. -/
theorem perm_flatMap_of_forall₂ {α β γ : Type} {f : α → List γ} {g : β → List γ} {l : List α}
    {l' : List β} (h : List.Forall₂ (fun a b => (f a).Perm (g b)) l l') :
    (l.flatMap f).Perm (l'.flatMap g) := by
  induction h with
  | nil => exact .refl _
  | cons hab _ ih =>
      rw [List.flatMap_cons, List.flatMap_cons]
      exact hab.append ih

/-- Lists whose images are equal agree one by one. -/
theorem map_eq_map_iff_forall₂ {β : Type u} {γ : Type u} {f : α → γ} {g : β → γ}
    {l : List α} {l' : List β} :
    l.map f = l'.map g ↔ List.Forall₂ (fun a b => f a = g b) l l' := by
  rw [← List.forall₂_eq_eq_eq, List.forall₂_map_left_iff, List.forall₂_map_right_iff]

/-- Lists that differ in one member agree one by one if the rest agrees with itself. -/
theorem forall₂_replace {before after : List α} {a b : α} (h : R a b)
    (hrefl : ∀ x ∈ before ++ after, R x x) :
    List.Forall₂ R (before ++ a :: after) (before ++ b :: after) := by
  induction before with
  | nil => exact .cons h (List.forall₂_same.2 hrefl)
  | cons x before ih =>
      exact .cons (hrefl x List.mem_cons_self) (ih fun y hy => hrefl y (List.mem_cons_of_mem _ hy))

end Forall₂

namespace Value

/-! ### Records as arrangements of entries -/

/-- One name, and equal values. -/
def SameEntry (e e' : String × Value) : Prop := e.1 = e'.1 ∧ e.2.same e'.2 = true

/-- The entries of the first record agree one by one with an arrangement of those of the
second. -/
def Matching (r r' : Record Value) : Prop :=
  ∃ arranged, List.Forall₂ SameEntry r arranged ∧ arranged.Perm r'

/-- Each entry of the first record is found in the second. -/
theorem sameFields_iff {r r' : Record Value} :
    sameFields r r' = true ↔
      ∀ e ∈ r, ∃ v, Record.get? r' e.1 = some v ∧ e.2.same v = true := by
  induction r with
  | nil => simp [sameFields]
  | cons e rest ih =>
      obtain ⟨name, v⟩ := e
      rw [sameFields, Bool.and_eq_true, ih, List.forall_mem_cons]
      cases hget : Record.get? r' name <;> simp

/-- **Equal records.** With distinct names, the test by length and look-up is the same as
agreeing with an arrangement of the entries. -/
theorem sameFields_iff_matching {r r' : Record Value} (hr : Record.Distinct r)
    (hr' : Record.Distinct r') :
    r.length = r'.length ∧ sameFields r r' = true ↔ Matching r r' := by
  constructor
  · rintro ⟨hlength, hsame⟩
    induction r generalizing r' with
    | nil =>
        obtain rfl : r' = [] := List.eq_nil_of_length_eq_zero hlength.symm
        exact ⟨[], .nil, .refl _⟩
    | cons e rest ih =>
        -- The entry that look-up finds goes to the front, and the rest is found in the rest.
        obtain ⟨name, v⟩ := e
        obtain ⟨hname, hrest⟩ := Record.distinct_cons.1 hr
        rw [sameFields_iff, List.forall_mem_cons] at hsame
        obtain ⟨⟨v', hget, hv⟩, hothers⟩ := hsame
        have hperm := Record.perm_cons_erase hget
        have hlength' : rest.length = (Record.erase r' name).length := by
          have hcount := hperm.length_eq
          simp only [List.length_cons] at hlength hcount
          omega
        have hfound : sameFields rest (Record.erase r' name) = true := by
          rw [sameFields_iff]
          rintro ⟨n, w⟩ hn
          have hne : name ≠ n := by
            rintro rfl
            exact hname (Record.mem_names_of_mem hn)
          rw [Record.get?_erase_of_ne r' hne]
          exact hothers _ hn
        obtain ⟨arranged, hforall, harranged⟩ := ih hrest (hr'.erase name) hlength' hfound
        exact ⟨(name, v') :: arranged, .cons ⟨rfl, hv⟩ hforall,
          (harranged.cons _).trans hperm⟩
  · rintro ⟨arranged, hforall, hperm⟩
    refine ⟨hforall.length_eq.trans hperm.length_eq, ?_⟩
    rw [sameFields_iff]
    intro e he
    obtain ⟨e', he', hname, hsame⟩ := exists_mem_of_forall₂ hforall.flip he
    refine ⟨e'.2, ?_, hsame⟩
    rw [hname]
    exact Record.get?_eq_some_of_mem hr' (hperm.subset he')

/-- A record matches every arrangement of its entries. -/
theorem Matching.of_perm {r r' : Record Value} (h : ∀ e ∈ r, e.2.same e.2 = true)
    (hperm : r.Perm r') : Matching r r' :=
  ⟨r, List.forall₂_same.2 fun e he => ⟨rfl, h e he⟩, hperm⟩

/-- Matching is symmetric if equality of the values is. -/
theorem Matching.symm {r r' : Record Value} (h : Matching r r')
    (hsymm : ∀ e ∈ r, ∀ e' ∈ r', e.2.same e'.2 = true → e'.2.same e.2 = true) :
    Matching r' r := by
  obtain ⟨arranged, hforall, hperm⟩ := h
  have hback : List.Forall₂ SameEntry arranged r := by
    refine forall₂_symm_of_mem hforall ?_
    rintro e he e' he' ⟨hname, hsame⟩
    exact ⟨hname.symm, hsymm e he e' (hperm.subset he') hsame⟩
  exact List.perm_comp_forall₂ hperm.symm hback

/-- Matching is transitive if equality of the values is. -/
theorem Matching.trans {r r' r'' : Record Value} (h : Matching r r') (h' : Matching r' r'')
    (htrans : ∀ e ∈ r, ∀ e' ∈ r', ∀ e'' ∈ r'', e.2.same e'.2 = true → e'.2.same e''.2 = true →
      e.2.same e''.2 = true) : Matching r r'' := by
  obtain ⟨arranged, hforall, hperm⟩ := h
  obtain ⟨arranged', hforall', hperm'⟩ := h'
  -- The second arrangement is itself rearranged to follow the first record.
  obtain ⟨followed, hfollowed, hperm''⟩ := List.perm_comp_forall₂ hperm hforall'
  refine ⟨followed, forall₂_trans_of_mem hforall hfollowed ?_, hperm''.trans hperm'⟩
  rintro e he e' he' e'' he'' ⟨hname, hsame⟩ ⟨hname', hsame'⟩
  exact ⟨hname.trans hname', htrans e he e' (hperm.subset he') e''
    ((hperm''.trans hperm').subset he'') hsame hsame'⟩

/-! ### Equality at each kind of value -/

/-- Nodes with distinct names are equal if their kinds are and their fields match. -/
theorem same_node_iff {kind kind' : Kind} {span span' : Option Span} {r r' : Record Value}
    (hr : Record.Distinct r) (hr' : Record.Distinct r') :
    (node kind span r).same (node kind' span' r') = true ↔ kind = kind' ∧ Matching r r' := by
  rw [same, Bool.and_eq_true, Bool.and_eq_true, beq_iff_eq, beq_iff_eq, and_assoc,
    sameFields_iff_matching hr hr']

/-- Maps with distinct names are equal if their entries match. -/
theorem same_map_iff {r r' : Record Value} (hr : Record.Distinct r) (hr' : Record.Distinct r') :
    (map r).same (map r') = true ↔ Matching r r' := by
  rw [same, Bool.and_eq_true, beq_iff_eq, sameFields_iff_matching hr hr']

/-- Lists are equal if their items are, one by one. -/
theorem same_list_iff {items items' : List Value} :
    (list items).same (list items') = true ↔
      List.Forall₂ (fun v v' => v.same v' = true) items items' := by
  rw [same]
  induction items generalizing items' with
  | nil => cases items' <;> simp [sameItems]
  | cons v rest ih => cases items' <;> simp [sameItems, ih]

/-- Leaves are equal if their scalars are. -/
theorem same_scalar_iff {a b : Scalar} :
    (scalar a).same (scalar b) = true ↔ a.same b = true := by
  rw [same]

/-! ### Equality is an equivalence -/

/-- Every tree with distinct names equals itself. -/
theorem same_refl {v : Value} (hv : v.Distinct) : v.same v = true := by
  induction v using inductionOn with
  | node kind span r ih =>
      obtain ⟨hnames, hr⟩ := distinct_node.1 hv
      rw [same_node_iff hnames hnames]
      exact ⟨rfl, .of_perm (fun e he => ih e he (distinctFields_iff.1 hr e he)) (.refl r)⟩
  | list items ih =>
      rw [same_list_iff, List.forall₂_same]
      exact fun w hw => ih w hw (distinctItems_iff.1 (distinct_list.1 hv) w hw)
  | map r ih =>
      obtain ⟨hnames, hr⟩ := distinct_map.1 hv
      rw [same_map_iff hnames hnames]
      exact .of_perm (fun e he => ih e he (distinctFields_iff.1 hr e he)) (.refl r)
  | scalar a => exact same_scalar_iff.2 a.same_refl

/-- Equality of trees with distinct names is symmetric. -/
theorem same_symm {v w : Value} (hv : v.Distinct) (hw : w.Distinct) (h : v.same w = true) :
    w.same v = true := by
  induction v using inductionOn generalizing w with
  | node kind span r ih =>
      cases w with
      | node kind' span' r' =>
          obtain ⟨hnames, hr⟩ := distinct_node.1 hv
          obtain ⟨hnames', hr'⟩ := distinct_node.1 hw
          obtain ⟨hkind, hmatch⟩ := (same_node_iff hnames hnames').1 h
          refine (same_node_iff hnames' hnames).2 ⟨hkind.symm, hmatch.symm fun e he e' he' => ?_⟩
          exact ih e he (distinctFields_iff.1 hr e he) (distinctFields_iff.1 hr' e' he')
      | _ => simp [same] at h
  | list items ih =>
      cases w with
      | list items' =>
          have hitems := distinctItems_iff.1 (distinct_list.1 hv)
          have hitems' := distinctItems_iff.1 (distinct_list.1 hw)
          refine same_list_iff.2 (forall₂_symm_of_mem (same_list_iff.1 h) fun a ha b hb => ?_)
          exact ih a ha (hitems a ha) (hitems' b hb)
      | _ => simp [same] at h
  | map r ih =>
      cases w with
      | map r' =>
          obtain ⟨hnames, hr⟩ := distinct_map.1 hv
          obtain ⟨hnames', hr'⟩ := distinct_map.1 hw
          refine (same_map_iff hnames' hnames).2
            (((same_map_iff hnames hnames').1 h).symm fun e he e' he' => ?_)
          exact ih e he (distinctFields_iff.1 hr e he) (distinctFields_iff.1 hr' e' he')
      | _ => simp [same] at h
  | scalar a =>
      cases w with
      | scalar b => exact same_scalar_iff.2 (Scalar.same_symm (same_scalar_iff.1 h))
      | _ => simp [same] at h

/-- Equality of trees with distinct names is transitive. -/
theorem same_trans {u v w : Value} (hu : u.Distinct) (hv : v.Distinct) (hw : w.Distinct)
    (h : u.same v = true) (h' : v.same w = true) : u.same w = true := by
  induction u using inductionOn generalizing v w with
  | node kind span r ih =>
      cases v with
      | node kind' span' r' =>
          cases w with
          | node kind'' span'' r'' =>
              obtain ⟨hnames, hr⟩ := distinct_node.1 hu
              obtain ⟨hnames', hr'⟩ := distinct_node.1 hv
              obtain ⟨hnames'', hr''⟩ := distinct_node.1 hw
              obtain ⟨hkind, hmatch⟩ := (same_node_iff hnames hnames').1 h
              obtain ⟨hkind', hmatch'⟩ := (same_node_iff hnames' hnames'').1 h'
              refine (same_node_iff hnames hnames'').2 ⟨hkind.trans hkind',
                hmatch.trans hmatch' fun e he e' he' e'' he'' => ?_⟩
              exact ih e he (distinctFields_iff.1 hr e he) (distinctFields_iff.1 hr' e' he')
                (distinctFields_iff.1 hr'' e'' he'')
          | _ => simp [same] at h'
      | _ => simp [same] at h
  | list items ih =>
      cases v with
      | list items' =>
          cases w with
          | list items'' =>
              have hitems := distinctItems_iff.1 (distinct_list.1 hu)
              have hitems' := distinctItems_iff.1 (distinct_list.1 hv)
              have hitems'' := distinctItems_iff.1 (distinct_list.1 hw)
              refine same_list_iff.2 (forall₂_trans_of_mem (same_list_iff.1 h)
                (same_list_iff.1 h') fun a ha b hb c hc => ?_)
              exact ih a ha (hitems a ha) (hitems' b hb) (hitems'' c hc)
          | _ => simp [same] at h'
      | _ => simp [same] at h
  | map r ih =>
      cases v with
      | map r' =>
          cases w with
          | map r'' =>
              obtain ⟨hnames, hr⟩ := distinct_map.1 hu
              obtain ⟨hnames', hr'⟩ := distinct_map.1 hv
              obtain ⟨hnames'', hr''⟩ := distinct_map.1 hw
              refine (same_map_iff hnames hnames'').2 (((same_map_iff hnames hnames').1 h).trans
                ((same_map_iff hnames' hnames'').1 h') fun e he e' he' e'' he'' => ?_)
              exact ih e he (distinctFields_iff.1 hr e he) (distinctFields_iff.1 hr' e' he')
                (distinctFields_iff.1 hr'' e'' he'')
          | _ => simp [same] at h'
      | _ => simp [same] at h
  | scalar a =>
      cases v with
      | scalar b =>
          cases w with
          | scalar c =>
              exact same_scalar_iff.2
                (Scalar.same_trans (same_scalar_iff.1 h) (same_scalar_iff.1 h'))
          | _ => simp [same] at h'
      | _ => simp [same] at h

/-! ### Equality by look-up -/

/-- Equal nodes have equal values under every name. -/
theorem rel_get?_of_same {kind kind' : Kind} {span span' : Option Span} {r r' : Record Value}
    (hv : (node kind span r).Distinct) (hw : (node kind' span' r').Distinct)
    (h : (node kind span r).same (node kind' span' r') = true) (name : String) :
    Option.Rel (fun v w => v.same w = true) (Record.get? r name) (Record.get? r' name) := by
  have hfound : ∀ {k k' : Kind} {s s' : Option Span} {r r' : Record Value},
      (node k s r).same (node k' s' r') = true → ∀ v, Record.get? r name = some v →
        ∃ w, Record.get? r' name = some w ∧ v.same w = true := by
    intro k k' s s' r r' h v hv
    rw [same, Bool.and_eq_true] at h
    exact sameFields_iff.1 h.2 _ (Record.mem_of_get?_eq_some hv)
  cases hget : Record.get? r name with
  | some v =>
      obtain ⟨w, hget', hvw⟩ := hfound h v hget
      rw [hget']
      exact .some hvw
  | none =>
      cases hget' : Record.get? r' name with
      | none => exact .none
      | some w =>
          obtain ⟨v, hv, -⟩ := hfound (same_symm hv hw h) w hget'
          simp [hget] at hv

/-! ### Changing one part

The span of a node and the order of its fields do not matter, and replacing a part by an
equal one leads to an equal value. -/

/-- Neither the order of its fields nor its span makes a difference to a node. -/
theorem same_node_of_perm {kind : Kind} {span span' : Option Span} {r r' : Record Value}
    (hv : (node kind span r).Distinct) (hperm : r.Perm r') :
    (node kind span r).same (node kind span' r') = true := by
  obtain ⟨hnames, hr⟩ := distinct_node.1 hv
  rw [same_node_iff hnames (hnames.perm hperm)]
  exact ⟨rfl, .of_perm (fun e he => same_refl (distinctFields_iff.1 hr e he)) hperm⟩

/-- The order of its entries makes no difference to a map. -/
theorem same_map_of_perm {r r' : Record Value} (hv : (map r).Distinct) (hperm : r.Perm r') :
    (map r).same (map r') = true := by
  obtain ⟨hnames, hr⟩ := distinct_map.1 hv
  rw [same_map_iff hnames (hnames.perm hperm)]
  exact .of_perm (fun e he => same_refl (distinctFields_iff.1 hr e he)) hperm

/-- Records match if they differ in one entry only, with equal values there. -/
theorem Matching.replace {before after : Record Value} {name : String} {v v' : Value}
    (hrest : DistinctFields (before ++ after)) (h : v.same v' = true) :
    Matching (before ++ (name, v) :: after) (before ++ (name, v') :: after) := by
  have hreplaced : SameEntry (name, v) (name, v') := ⟨rfl, h⟩
  refine ⟨_, forall₂_replace hreplaced fun e he => ⟨rfl, ?_⟩, .refl _⟩
  exact same_refl (distinctFields_iff.1 hrest e he)

/-- A node stays equal to itself when the value of a field is replaced by an equal one. -/
theorem same_node_replace {kind : Kind} {span : Option Span} {before after : Record Value}
    {name : String} {v v' : Value} (hv : (node kind span (before ++ (name, v) :: after)).Distinct)
    (h : v.same v' = true) :
    (node kind span (before ++ (name, v) :: after)).same
      (node kind span (before ++ (name, v') :: after)) = true := by
  obtain ⟨hname, -, hrest⟩ := distinct_node_middle.1 hv
  obtain ⟨hnames, hfields⟩ := distinct_node.1 hrest
  rw [same_node_iff (Record.distinct_middle.2 ⟨hname, hnames⟩)
    (Record.distinct_middle.2 ⟨hname, hnames⟩)]
  exact ⟨rfl, .replace hfields h⟩

/-- A map stays equal to itself when the value of an entry is replaced by an equal one. -/
theorem same_map_replace {before after : Record Value} {name : String} {v v' : Value}
    (hv : (map (before ++ (name, v) :: after)).Distinct) (h : v.same v' = true) :
    (map (before ++ (name, v) :: after)).same (map (before ++ (name, v') :: after)) = true := by
  obtain ⟨hname, -, hrest⟩ := distinct_map_middle.1 hv
  obtain ⟨hnames, hfields⟩ := distinct_map.1 hrest
  rw [same_map_iff (Record.distinct_middle.2 ⟨hname, hnames⟩)
    (Record.distinct_middle.2 ⟨hname, hnames⟩)]
  exact .replace hfields h

/-- A list stays equal to itself when an item is replaced by an equal one. -/
theorem same_list_replace {before after : List Value} {v v' : Value}
    (hv : (list (before ++ v :: after)).Distinct) (h : v.same v' = true) :
    (list (before ++ v :: after)).same (list (before ++ v' :: after)) = true := by
  have hrest := distinctItems_iff.1 (distinct_list.1 (distinct_list_middle.1 hv).2)
  rw [same_list_iff]
  exact forall₂_replace h fun w hw => same_refl (hrest w hw)

end Value

end ContractQuery
