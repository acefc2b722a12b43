import Mathlib.Logic.Relation
import ContractQuery.Compare
import ContractQuery.Proofs.Equality
import ContractQuery.Proofs.Pruning

/-!
# Comparison and Edits

Two trees compare as equal without the nodes of some kinds exactly when one can be edited
into the other without touching anything that counts. `Value.Edit` lists the edits: a node of
these kinds may come or go as an item of a list or as a field, a span may be set to anything,
fields and entries may change places, and a number may be written differently. Nodes come and
go only where a walk arrives; inside maps the other edits remain.

An edit does not change what is left of a tree by the filter, up to equality
(`Value.Edit.same_without`). In the other direction a tree is edited into its filtered form
(`Value.edits_without`), equal trees are edited into each other (`Value.edits_of_same`), and
every edit can be undone (`Value.Edit.symm`).

## Main results

* `Value.same_without_iff_edits`: equality of what the filter leaves is reachability by edits.
* `Node.compareWithout_none_iff_edits`: **comparison is sound and complete for edits**.
-/

namespace ContractQuery

open Relation

namespace Value

/-- One edit of a value. Here `reached` tells whether a walk arrives at the value, that is,
whether no map is around it. The contents of a node that comes or goes are arbitrary, with
distinct names as in every tree. -/
inductive Edit (kinds : List Kind) : Bool → Value → Value → Prop
  /-- The span of a node is set or dropped. -/
  | span {reached : Bool} {kind : Kind} {s s' : Option Span} {fields : Record Value} :
      Edit kinds reached (node kind s fields) (node kind s' fields)
  /-- The fields of a node change places. -/
  | permuteFields {reached : Bool} {kind : Kind} {s : Option Span} {fields fields' : Record Value} :
      fields.Perm fields' → Edit kinds reached (node kind s fields) (node kind s fields')
  /-- The entries of a map change places. -/
  | permuteEntries {reached : Bool} {entries entries' : Record Value} :
      entries.Perm entries' → Edit kinds reached (map entries) (map entries')
  /-- A number is replaced by an equal one. -/
  | number {reached : Bool} {m n : Number} :
      m.same n = true → Edit kinds reached (scalar (.number m)) (scalar (.number n))
  /-- A node of one of the kinds comes into a list. -/
  | insertItem {before after : List Value} {v : Value} :
      v.isOf kinds = true → v.Distinct →
      Edit kinds true (list (before ++ after)) (list (before ++ v :: after))
  /-- A node of one of the kinds goes from a list. -/
  | deleteItem {before after : List Value} {v : Value} :
      v.isOf kinds = true → v.Distinct →
      Edit kinds true (list (before ++ v :: after)) (list (before ++ after))
  /-- A node of one of the kinds comes into a node, under a name that is not in use. -/
  | insertField {kind : Kind} {s : Option Span} {before after : Record Value} {name : String}
      {v : Value} :
      v.isOf kinds = true → v.Distinct → name ∉ Record.names (before ++ after) →
      Edit kinds true (node kind s (before ++ after)) (node kind s (before ++ (name, v) :: after))
  /-- A node of one of the kinds goes from a node. -/
  | deleteField {kind : Kind} {s : Option Span} {before after : Record Value} {name : String}
      {v : Value} :
      v.isOf kinds = true → v.Distinct → name ∉ Record.names (before ++ after) →
      Edit kinds true (node kind s (before ++ (name, v) :: after)) (node kind s (before ++ after))
  /-- An edit inside a field. -/
  | inField {reached : Bool} {kind : Kind} {s : Option Span} {before after : Record Value}
      {name : String} {v v' : Value} :
      Edit kinds reached v v' →
      Edit kinds reached (node kind s (before ++ (name, v) :: after))
        (node kind s (before ++ (name, v') :: after))
  /-- An edit inside an item. -/
  | inItem {reached : Bool} {before after : List Value} {v v' : Value} :
      Edit kinds reached v v' →
      Edit kinds reached (list (before ++ v :: after)) (list (before ++ v' :: after))
  /-- An edit inside an entry of a map, where a walk does not arrive. -/
  | inEntry {reached : Bool} {before after : Record Value} {name : String} {v v' : Value} :
      Edit kinds false v v' →
      Edit kinds reached (map (before ++ (name, v) :: after))
        (map (before ++ (name, v') :: after))

/-- A finite sequence of edits. -/
abbrev Edits (kinds : List Kind) (reached : Bool) : Value → Value → Prop :=
  ReflTransGen (Edit kinds reached)

/-! ### Undoing edits -/

/-- Every edit can be undone. -/
theorem Edit.symm {kinds : List Kind} {reached : Bool} {v w : Value}
    (h : Edit kinds reached v w) : Edit kinds reached w v := by
  induction h with
  | span => exact .span
  | permuteFields h => exact .permuteFields h.symm
  | permuteEntries h => exact .permuteEntries h.symm
  | number h => exact .number (Number.same_symm h)
  | insertItem hof hv => exact .deleteItem hof hv
  | deleteItem hof hv => exact .insertItem hof hv
  | insertField hof hv hname => exact .deleteField hof hv hname
  | deleteField hof hv hname => exact .insertField hof hv hname
  | inField _ ih => exact .inField ih
  | inItem _ ih => exact .inItem ih
  | inEntry _ ih => exact .inEntry ih

/-- A chain of edits can be gone back. -/
theorem edits_symm {kinds : List Kind} {reached : Bool} {v w : Value}
    (h : Edits kinds reached v w) : Edits kinds reached w v := by
  induction h with
  | refl => exact .refl
  | tail _ hstep ih => exact .head hstep.symm ih

/-! ### The filter and distinct names -/

/-- Items are filtered one after the other. -/
@[simp] theorem withoutItems_append (kinds : List Kind) (items items' : List Value) :
    withoutItems kinds (items ++ items') =
      withoutItems kinds items ++ withoutItems kinds items' := by
  simp only [withoutItems_eq_filterMap, List.filterMap_append]

/-- Fields are filtered one after the other. -/
@[simp] theorem withoutFields_append (kinds : List Kind) (fields fields' : Record Value) :
    withoutFields kinds (fields ++ fields') =
      withoutFields kinds fields ++ withoutFields kinds fields' := by
  simp only [withoutFields_eq_filterMap, List.filterMap_append]

/-- An item of the filtered kinds makes no difference to the filter. -/
theorem without_list_middle {kinds : List Kind} {before after : List Value} {v : Value}
    (hof : v.isOf kinds = true) :
    (list (before ++ v :: after)).without kinds = (list (before ++ after)).without kinds := by
  simp [without, withoutItems, hof]

/-- A field of the filtered kinds makes no difference to the filter. -/
theorem without_node_middle {kinds : List Kind} {kind : Kind} {span : Option Span}
    {before after : Record Value} {name : String} {v : Value} (hof : v.isOf kinds = true) :
    (node kind span (before ++ (name, v) :: after)).without kinds =
      (node kind span (before ++ after)).without kinds := by
  simp [without, withoutFields, hof]

/-- The filter keeps the arrangement of fields. -/
theorem withoutFields_perm (kinds : List Kind) {fields fields' : Record Value}
    (h : fields.Perm fields') :
    (withoutFields kinds fields).Perm (withoutFields kinds fields') := by
  rw [withoutFields_eq_filterMap, withoutFields_eq_filterMap]
  exact h.filterMap _

/-- The filter takes names out and adds none. -/
theorem names_withoutFields_sublist (kinds : List Kind) (fields : Record Value) :
    (Record.names (withoutFields kinds fields)).Sublist (Record.names fields) := by
  induction fields with
  | nil => simp [withoutFields]
  | cons e rest ih =>
      obtain ⟨name, v⟩ := e
      by_cases h : v.isOf kinds
      · simpa [withoutFields, h] using ih.cons name
      · simpa [withoutFields, h] using ih.cons_cons name

/-- Look-up after filtering. -/
theorem get?_withoutFields {kinds : List Kind} {fields : Record Value}
    (h : Record.Distinct fields) (name : String) :
    Record.get? (withoutFields kinds fields) name =
      (Record.get? fields name).bind fun v =>
        if v.isOf kinds then none else some (v.without kinds) := by
  induction fields with
  | nil => rfl
  | cons e rest ih =>
      obtain ⟨n, v⟩ := e
      obtain ⟨hn, hrest⟩ := Record.distinct_cons.1 h
      by_cases hname : n = name
      · subst hname
        have hnone : Record.get? rest n = none := (Record.get?_eq_none_iff rest n).2 hn
        by_cases hof : v.isOf kinds <;> simp [withoutFields, Record.get?_cons, hof, ih hrest, hnone]
      · by_cases hof : v.isOf kinds <;> simp [withoutFields, Record.get?_cons, hof, ih hrest, hname]

/-- What the filter leaves has distinct names. -/
theorem Distinct.without {v : Value} (hv : v.Distinct) (kinds : List Kind) :
    (v.without kinds).Distinct := by
  induction v using inductionOn with
  | node kind span fields ih =>
      obtain ⟨hnames, hfields⟩ := distinct_node.1 hv
      rw [Value.without, distinct_node]
      refine ⟨hnames.sublist (names_withoutFields_sublist kinds fields),
        distinctFields_iff.2 fun e he => ?_⟩
      rw [withoutFields_eq_filterMap, List.mem_filterMap] at he
      obtain ⟨e', he', hsome⟩ := he
      split at hsome
      · simp at hsome
      · obtain rfl := Option.some.inj hsome
        exact ih e' he' (distinctFields_iff.1 hfields e' he')
  | list items ih =>
      rw [Value.without, distinct_list, distinctItems_iff]
      intro w hw
      rw [withoutItems_eq_filterMap, List.mem_filterMap] at hw
      obtain ⟨w', hw', hsome⟩ := hw
      split at hsome
      · simp at hsome
      · obtain rfl := Option.some.inj hsome
        exact ih w' hw' (distinctItems_iff.1 (distinct_list.1 hv) w' hw')
  | map entries ih => rwa [Value.without]
  | scalar leaf => rwa [Value.without]

/-! ### Soundness -/

/-- An edit does not change whether the value itself is a node of some kinds. -/
theorem Edit.isOf_eq {kinds : List Kind} {reached : Bool} {v w : Value}
    (h : Edit kinds reached v w) (kinds' : List Kind) : v.isOf kinds' = w.isOf kinds' := by
  cases h <;> rfl

/-- An edit keeps names distinct. -/
theorem Edit.distinct {kinds : List Kind} {reached : Bool} {v w : Value}
    (h : Edit kinds reached v w) (hv : v.Distinct) : w.Distinct := by
  induction h with
  | span => exact hv
  | permuteFields hperm =>
      obtain ⟨hnames, hfields⟩ := distinct_node.1 hv
      refine distinct_node.2 ⟨hnames.perm hperm, distinctFields_iff.2 fun e he => ?_⟩
      exact distinctFields_iff.1 hfields e (hperm.symm.subset he)
  | permuteEntries hperm =>
      obtain ⟨hnames, hentries⟩ := distinct_map.1 hv
      refine distinct_map.2 ⟨hnames.perm hperm, distinctFields_iff.2 fun e he => ?_⟩
      exact distinctFields_iff.1 hentries e (hperm.symm.subset he)
  | number _ => exact distinct_scalar _
  | insertItem _ hnew => exact distinct_list_middle.2 ⟨hnew, hv⟩
  | deleteItem _ _ => exact (distinct_list_middle.1 hv).2
  | insertField _ hnew hname => exact distinct_node_middle.2 ⟨hname, hnew, hv⟩
  | deleteField _ _ _ => exact (distinct_node_middle.1 hv).2.2
  | inField _ ih =>
      obtain ⟨hname, hold, hrest⟩ := distinct_node_middle.1 hv
      exact distinct_node_middle.2 ⟨hname, ih hold, hrest⟩
  | inItem _ ih =>
      obtain ⟨hold, hrest⟩ := distinct_list_middle.1 hv
      exact distinct_list_middle.2 ⟨ih hold, hrest⟩
  | inEntry _ ih =>
      obtain ⟨hname, hold, hrest⟩ := distinct_map_middle.1 hv
      exact distinct_map_middle.2 ⟨hname, ih hold, hrest⟩

/-- Where no node can come or go, an edit leads to an equal value. -/
theorem Edit.same {kinds : List Kind} {reached : Bool} {v w : Value}
    (h : Edit kinds reached v w) (hreached : reached = false) (hv : v.Distinct) :
    v.same w = true := by
  induction h with
  | span => exact same_node_of_perm hv (.refl _)
  | permuteFields hperm => exact same_node_of_perm hv hperm
  | permuteEntries hperm => exact same_map_of_perm hv hperm
  | number h => exact same_scalar_iff.2 h
  | insertItem | deleteItem | insertField | deleteField => simp at hreached
  | inField _ ih => exact same_node_replace hv (ih hreached (distinct_node_middle.1 hv).2.1)
  | inItem _ ih => exact same_list_replace hv (ih hreached (distinct_list_middle.1 hv).1)
  | inEntry _ ih => exact same_map_replace hv (ih rfl (distinct_map_middle.1 hv).2.1)

/-- **Soundness of one edit.** Up to equality, an edit does not change what the filter
leaves. -/
theorem Edit.same_without {kinds : List Kind} {reached : Bool} {v w : Value}
    (h : Edit kinds reached v w) (hv : v.Distinct) :
    (v.without kinds).same (w.without kinds) = true := by
  have hleft := hv.without kinds
  induction h with
  | span =>
      rw [Value.without] at hleft ⊢
      exact same_node_of_perm hleft (.refl _)
  | permuteFields hperm =>
      rw [Value.without] at hleft ⊢
      exact same_node_of_perm hleft (withoutFields_perm kinds hperm)
  | permuteEntries hperm =>
      rw [Value.without, Value.without]
      exact same_map_of_perm hv hperm
  | number h =>
      rw [Value.without, Value.without]
      exact same_scalar_iff.2 h
  | insertItem hof _ =>
      rw [without_list_middle hof]
      exact same_refl hleft
  | deleteItem hof _ =>
      rw [without_list_middle hof] at hleft ⊢
      exact same_refl hleft
  | insertField hof _ _ =>
      rw [without_node_middle hof]
      exact same_refl hleft
  | deleteField hof _ _ =>
      rw [without_node_middle hof] at hleft ⊢
      exact same_refl hleft
  | @inField reached kind s before after name old new hstep ih =>
      have hold := (distinct_node_middle.1 hv).2.1
      -- A field that is filtered out before the edit is filtered out after it.
      cases hof : old.isOf kinds with
      | true =>
          have hof' : new.isOf kinds = true := by rw [← hstep.isOf_eq, hof]
          rw [without_node_middle hof] at hleft ⊢
          rw [without_node_middle hof']
          exact same_refl hleft
      | false =>
          have hof' : new.isOf kinds = false := by rw [← hstep.isOf_eq, hof]
          simp only [Value.without, withoutFields_append, withoutFields, hof, hof',
            Bool.false_eq_true, if_false] at hleft ⊢
          exact same_node_replace hleft (ih hold (hold.without kinds))
  | @inItem reached before after old new hstep ih =>
      have hold := (distinct_list_middle.1 hv).1
      cases hof : old.isOf kinds with
      | true =>
          have hof' : new.isOf kinds = true := by rw [← hstep.isOf_eq, hof]
          rw [without_list_middle hof] at hleft ⊢
          rw [without_list_middle hof']
          exact same_refl hleft
      | false =>
          have hof' : new.isOf kinds = false := by rw [← hstep.isOf_eq, hof]
          simp only [Value.without, withoutItems_append, withoutItems, hof, hof',
            Bool.false_eq_true, if_false] at hleft ⊢
          exact same_list_replace hleft (ih hold (hold.without kinds))
  | inEntry hstep _ =>
      -- Maps are kept as they are, so the edit itself has to lead to an equal value.
      rw [Value.without, Value.without]
      exact same_map_replace hv (hstep.same rfl (distinct_map_middle.1 hv).2.1)

/-- **Soundness.** Up to equality, edits do not change what the filter leaves. -/
theorem same_without_of_edits {kinds : List Kind} {reached : Bool} {v w : Value}
    (h : Edits kinds reached v w) (hv : v.Distinct) :
    w.Distinct ∧ (v.without kinds).same (w.without kinds) = true := by
  induction h with
  | refl => exact ⟨hv, same_refl (hv.without kinds)⟩
  | tail _ hstep ih =>
      obtain ⟨hmiddle, hsame⟩ := ih
      have hlast := hstep.distinct hmiddle
      exact ⟨hlast, same_trans (hv.without kinds) (hmiddle.without kinds) (hlast.without kinds)
        hsame (hstep.same_without hmiddle)⟩

/-! ### Completeness -/

/-- Edits of a value can be made inside a field. -/
theorem edits_inField {kinds : List Kind} {reached : Bool} {v v' : Value}
    (h : Edits kinds reached v v') (kind : Kind) (s : Option Span) (before after : Record Value)
    (name : String) :
    Edits kinds reached (node kind s (before ++ (name, v) :: after))
      (node kind s (before ++ (name, v') :: after)) :=
  h.lift (fun w => node kind s (before ++ (name, w) :: after)) fun _ _ => .inField

/-- Edits of a value can be made inside an item. -/
theorem edits_inItem {kinds : List Kind} {reached : Bool} {v v' : Value}
    (h : Edits kinds reached v v') (before after : List Value) :
    Edits kinds reached (list (before ++ v :: after)) (list (before ++ v' :: after)) :=
  h.lift (fun w => list (before ++ w :: after)) fun _ _ => .inItem

/-- Edits of a value can be made inside an entry of a map, if no node comes or goes. -/
theorem edits_inEntry {kinds : List Kind} {v v' : Value} (h : Edits kinds false v v')
    (reached : Bool) (before after : Record Value) (name : String) :
    Edits kinds reached (map (before ++ (name, v) :: after))
      (map (before ++ (name, v') :: after)) :=
  h.lift (fun w => map (before ++ (name, w) :: after)) fun _ _ => .inEntry

/-- Fields are edited into their filtered form one by one; those before are done. -/
theorem edits_withoutFields {kinds : List Kind} {kind : Kind} {s : Option Span}
    {before fields : Record Value} (hv : (node kind s (before ++ fields)).Distinct)
    (hfields : ∀ e ∈ fields, e.2.Distinct → Edits kinds true e.2 (e.2.without kinds)) :
    Edits kinds true (node kind s (before ++ fields))
      (node kind s (before ++ withoutFields kinds fields)) := by
  induction fields generalizing before with
  | nil => rw [withoutFields]
  | cons e rest ih =>
      obtain ⟨name, v⟩ := e
      obtain ⟨hname, hvalue, hothers⟩ := distinct_node_middle.1 hv
      have hrest : ∀ e ∈ rest, e.2.Distinct → Edits kinds true e.2 (e.2.without kinds) :=
        fun e he => hfields e (List.mem_cons_of_mem _ he)
      cases hof : v.isOf kinds with
      | true =>
          rw [withoutFields, if_pos hof]
          exact .head (.deleteField hof hvalue hname) (ih hothers hrest)
      | false =>
          have hfirst := edits_inField (hfields _ List.mem_cons_self hvalue) kind s before rest name
          have hdone : (node kind s (before ++ (name, v.without kinds) :: rest)).Distinct :=
            distinct_node_middle.2 ⟨hname, hvalue.without kinds, hothers⟩
          rw [List.append_cons] at hdone
          have hnext := ih hdone hrest
          rw [withoutFields, if_neg (by simp [hof])]
          simp only [List.append_assoc, List.singleton_append] at hnext
          exact hfirst.trans hnext

/-- Items are edited into their filtered form one by one; those before are done. -/
theorem edits_withoutItems {kinds : List Kind} {before items : List Value}
    (hv : (list (before ++ items)).Distinct)
    (hitems : ∀ v ∈ items, v.Distinct → Edits kinds true v (v.without kinds)) :
    Edits kinds true (list (before ++ items)) (list (before ++ withoutItems kinds items)) := by
  induction items generalizing before with
  | nil => rw [withoutItems]
  | cons v rest ih =>
      obtain ⟨hvalue, hothers⟩ := distinct_list_middle.1 hv
      have hrest : ∀ w ∈ rest, w.Distinct → Edits kinds true w (w.without kinds) :=
        fun w hw => hitems w (List.mem_cons_of_mem _ hw)
      cases hof : v.isOf kinds with
      | true =>
          rw [withoutItems, if_pos hof]
          exact .head (.deleteItem hof hvalue) (ih hothers hrest)
      | false =>
          have hfirst := edits_inItem (hitems v List.mem_cons_self hvalue) before rest
          have hdone : (list (before ++ v.without kinds :: rest)).Distinct :=
            distinct_list_middle.2 ⟨hvalue.without kinds, hothers⟩
          rw [List.append_cons] at hdone
          have hnext := ih hdone hrest
          rw [withoutItems, if_neg (by simp [hof])]
          simp only [List.append_assoc, List.singleton_append] at hnext
          exact hfirst.trans hnext

/-- A tree can be edited into its filtered form. -/
theorem edits_without {kinds : List Kind} {v : Value} (hv : v.Distinct) :
    Edits kinds true v (v.without kinds) := by
  induction v using inductionOn with
  | node kind s fields ih =>
      rw [without]
      exact @edits_withoutFields kinds kind s [] fields hv ih
  | list items ih =>
      rw [without]
      exact @edits_withoutItems kinds [] items hv ih
  | map entries _ => rw [without]
  | scalar leaf => rw [without]

/-- If one part of a value can be edited at a time, parts that agree up to edits can be edited
one by one; those before are done. -/
theorem edits_of_forall₂ {α : Type} {kinds : List Kind} {reached : Bool} {R : α → α → Prop}
    {context : List α → Value}
    (hcontext : ∀ before after a b, R a b →
      Edits kinds reached (context (before ++ a :: after)) (context (before ++ b :: after)))
    {parts parts' : List α} (h : List.Forall₂ R parts parts') (before : List α) :
    Edits kinds reached (context (before ++ parts)) (context (before ++ parts')) := by
  induction h generalizing before with
  | nil => exact .refl
  | @cons a b rest rest' hab _ ih =>
      have hnext := ih (before ++ [b])
      simp only [List.append_assoc, List.singleton_append] at hnext
      exact (hcontext before rest a b hab).trans hnext

/-- Equal trees can be edited into each other, also where no node can come or go. -/
theorem edits_of_same {kinds : List Kind} {v w : Value} (hv : v.Distinct) (hw : w.Distinct)
    (h : v.same w = true) (reached : Bool) : Edits kinds reached v w := by
  induction v using inductionOn generalizing w reached with
  | node kind s r ih =>
      cases w with
      | node kind' s' r' =>
          obtain ⟨hnames, hr⟩ := distinct_node.1 hv
          obtain ⟨hnames', hr'⟩ := distinct_node.1 hw
          obtain ⟨rfl, arranged, hforall, hperm⟩ := (same_node_iff hnames hnames').1 h
          have hparts : List.Forall₂ (fun e e' => e.1 = e'.1 ∧ Edits kinds reached e.2 e'.2)
              r arranged := by
            refine forall₂_imp_of_mem hforall ?_
            rintro e he e' he' ⟨hname, hsame⟩
            exact ⟨hname, ih e he (distinctFields_iff.1 hr e he)
              (distinctFields_iff.1 hr' e' (hperm.subset he')) hsame reached⟩
          have hfields : Edits kinds reached (node kind s r) (node kind s arranged) := by
            refine edits_of_forall₂ ?_ hparts []
            rintro before after ⟨name, u⟩ ⟨name', u'⟩ ⟨hname, hedits⟩
            obtain rfl : name = name' := hname
            exact edits_inField hedits kind s before after name
          exact (hfields.tail (.permuteFields hperm)).tail .span
      | _ => simp [same] at h
  | list items ih =>
      cases w with
      | list items' =>
          have hitems := distinctItems_iff.1 (distinct_list.1 hv)
          have hitems' := distinctItems_iff.1 (distinct_list.1 hw)
          have hparts : List.Forall₂ (Edits kinds reached) items items' :=
            forall₂_imp_of_mem (same_list_iff.1 h) fun a ha b hb hsame =>
              ih a ha (hitems a ha) (hitems' b hb) hsame reached
          exact edits_of_forall₂ (fun before after a b hab => edits_inItem hab before after)
            hparts []
      | _ => simp [same] at h
  | map r ih =>
      cases w with
      | map r' =>
          obtain ⟨hnames, hr⟩ := distinct_map.1 hv
          obtain ⟨hnames', hr'⟩ := distinct_map.1 hw
          obtain ⟨arranged, hforall, hperm⟩ := (same_map_iff hnames hnames').1 h
          have hparts : List.Forall₂ (fun e e' => e.1 = e'.1 ∧ Edits kinds false e.2 e'.2)
              r arranged := by
            refine forall₂_imp_of_mem hforall ?_
            rintro e he e' he' ⟨hname, hsame⟩
            exact ⟨hname, ih e he (distinctFields_iff.1 hr e he)
              (distinctFields_iff.1 hr' e' (hperm.subset he')) hsame false⟩
          have hentries : Edits kinds reached (map r) (map arranged) := by
            refine edits_of_forall₂ ?_ hparts []
            rintro before after ⟨name, u⟩ ⟨name', u'⟩ ⟨hname, hedits⟩
            obtain rfl : name = name' := hname
            exact edits_inEntry hedits reached before after name
          exact hentries.tail (.permuteEntries hperm)
      | _ => simp [same] at h
  | scalar a =>
      cases w with
      | scalar b =>
          have hsame := same_scalar_iff.1 h
          cases a <;> cases b <;> simp only [Scalar.same, beq_iff_eq, Bool.false_eq_true] at hsame
          · exact .refl
          · rw [hsame]
          · exact .single (.number hsame)
          · rw [hsame]
      | _ => simp [same] at h

/-- **Equality of what the filter leaves is reachability by edits.** -/
theorem same_without_iff_edits {kinds : List Kind} {v w : Value} (hv : v.Distinct)
    (hw : w.Distinct) :
    (v.without kinds).same (w.without kinds) = true ↔ Edits kinds true v w := by
  constructor
  · intro h
    have hthere : Edits kinds true v (v.without kinds) := edits_without hv
    have hback : Edits kinds true (w.without kinds) w := edits_symm (edits_without hw)
    exact (hthere.trans (edits_of_same (hv.without kinds) (hw.without kinds) h true)).trans hback
  · intro h
    exact (same_without_of_edits h hv).2

end Value

/-! ### Comparison -/

namespace Node

/-- On trees with distinct names whose roots do not match, comparison without a target is
equality of what the filter leaves. -/
theorem compareWithout_none_eq {a b : Node} {kinds : List Kind} (ha : a.Distinct)
    (hb : b.Distinct) (hka : a.kind ∉ kinds) (hkb : b.kind ∉ kinds) :
    a.compareWithout b none kinds =
      .ok ((a.toValue.without kinds).same (b.toValue.without kinds)) := by
  rw [← toValue_without, ← toValue_without, same_toValue]
  simp only [compareWithout, prunedSubject, subject, prune_of_not_mem ha hka,
    prune_of_not_mem hb hkb]
  rfl

/-- **Comparison is sound and complete for edits.** For trees with distinct names whose roots
are not of the given kinds, comparing all of them gives true exactly when the second tree can
be reached from the first by edits, and false otherwise. -/
theorem compareWithout_none_iff_edits (a b : Node) (kinds : List Kind) (ha : a.Distinct)
    (hb : b.Distinct) (hka : a.kind ∉ kinds) (hkb : b.kind ∉ kinds) :
    (a.compareWithout b none kinds = .ok true ↔ Value.Edits kinds true a.toValue b.toValue) ∧
    (¬ Value.Edits kinds true a.toValue b.toValue → a.compareWithout b none kinds = .ok false) := by
  rw [compareWithout_none_eq ha hb hka hkb, ← Value.same_without_iff_edits ha hb]
  constructor
  · rw [Except.ok.injEq]
  · intro h
    rw [Bool.not_eq_true] at h
    rw [h]

/-- A tree with a comment at the end of a list, and one zero. -/
def trailing : Node :=
  ⟨.sourceUnit, none, [
    ("children", .list [
      .node (.other "Literal") none [("value", .scalar (.number (.float (.zero false))))],
      .node .lineComment none [("text", .text "// end")]]),
    ("meta", .map [("origin", .node .comment none []), ("kind", .null)])]⟩

/-- The same tree with the comment in a field, spans, other orders, and the other zero. -/
def leading : Node :=
  ⟨.sourceUnit, some (.lines 1 9), [
    ("meta", .map [("kind", .null), ("origin", .node .comment (some (.lines 1 1)) [])]),
    ("doc", .node .blockComment none []),
    ("children", .list [
      .node (.other "Literal") none [("value", .scalar (.number (.float (.zero true))))]])]⟩

/-- The two trees compare as equal, so one can be edited into the other. -/
theorem edits_trailing_leading :
    trailing.Distinct ∧ leading.Distinct ∧ trailing.kind ∉ Kind.comments ∧
      leading.kind ∉ Kind.comments ∧ trailing.compareWithout leading none Kind.comments = .ok true ∧
      Value.Edits Kind.comments true trailing.toValue leading.toValue := by
  have ha : trailing.Distinct := by decide
  have hb : leading.Distinct := by decide
  have hka : trailing.kind ∉ Kind.comments := by decide
  have hkb : leading.kind ∉ Kind.comments := by decide
  have hequal : trailing.compareWithout leading none Kind.comments = .ok true := by
    rw [compareWithout_none_eq ha hb hka hkb]
    rfl
  exact ⟨ha, hb, hka, hkb, hequal,
    (compareWithout_none_iff_edits trailing leading Kind.comments ha hb hka hkb).1.1 hequal⟩

end Node

end ContractQuery
