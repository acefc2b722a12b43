import ContractQuery.Proofs.Grouping

/-!
# The Tokens of Equal Sources

The tokens of a concrete tree are the texts of its leaves in source order, without comments and
without the delimiters that conversion leaves out. Sources that compare as equal have the same
tokens, each as often as in the other (`Concrete.Alike.perm_tokens`), but not always in one order:
children are grouped by field name, and the fields of a node are compared in any order. Where the
kind of a node and the field names below it determine their order, the tokens are the same in the
same order (`Concrete.Alike.tokens_eq`).

Both follow from one fact about lists. Lists that agree for each key agree one by one after one of
them is rearranged, and as they are if their keys come in one order.

## Main results

* `Concrete.tokens_of_equivalent`: **what equal sources have in common**.
* `Concrete.equivalent_renamed`: the order of tokens can differ.
-/

namespace ContractQuery

/-! ### Lists that agree for each key -/

section Key

variable {α κ : Type} [DecidableEq κ] {key : α → κ} {R : α → α → Prop} {l l' : List α}

/-- Lists that agree for each key agree one by one once the second is rearranged. -/
theorem exists_arranged_of_filter
    (h : ∀ k, List.Forall₂ R (l.filter fun a => key a = k) (l'.filter fun a => key a = k)) :
    ∃ arranged, List.Forall₂ (fun a b => key a = key b ∧ R a b) l arranged ∧
      arranged.Perm l' := by
  induction l generalizing l' with
  | nil =>
      rcases l' with _ | ⟨b, l'⟩
      · exact ⟨[], .nil, .refl _⟩
      · have hkey := h (key b)
        simp at hkey
  | cons a l ih =>
      have hkey := h (key a)
      rw [List.filter_cons_of_pos (by simp)] at hkey
      obtain ⟨b, rest, hab, hrest, hfilter⟩ := List.forall₂_cons_left_iff.1 hkey
      -- The first member of the key is taken out of the second list.
      obtain ⟨before, after, rfl, hbefore, hb, rfl⟩ := List.filter_eq_cons_iff.1 hfilter
      have hb : key b = key a := by simpa using hb
      have hothers : ∀ k, List.Forall₂ R (l.filter fun a => key a = k)
          ((before ++ after).filter fun a => key a = k) := by
        intro k
        by_cases hk : key a = k
        · subst hk
          have hnone : (before.filter fun x => key x = key a) = [] :=
            List.filter_eq_nil_iff.2 hbefore
          rw [List.filter_append, hnone, List.nil_append]
          exact hrest
        · have hall := h k
          simpa [List.filter_append, List.filter_cons, hk, hb] using hall
      obtain ⟨arranged, hforall, hperm⟩ := ih hothers
      exact ⟨b :: arranged, .cons ⟨hb.symm, hab⟩ hforall,
        (hperm.cons b).trans List.perm_middle.symm⟩

/-- Lists that agree for each key, with keys in one order, agree one by one. -/
theorem forall₂_of_filter
    (h : ∀ k, List.Forall₂ R (l.filter fun a => key a = k) (l'.filter fun a => key a = k))
    (hkeys : l.map key = l'.map key) : List.Forall₂ R l l' := by
  induction l generalizing l' with
  | nil =>
      obtain rfl : l' = [] := by simpa using hkeys.symm
      exact .nil
  | cons a l ih =>
      rcases l' with _ | ⟨b, l'⟩
      · simp at hkeys
      · rw [List.map_cons, List.map_cons, List.cons.injEq] at hkeys
        obtain ⟨hab, hkeys⟩ := hkeys
        have hkey := h (key a)
        rw [List.filter_cons_of_pos (by simp), List.filter_cons_of_pos (by simp [hab])] at hkey
        obtain ⟨hhead, htail⟩ := List.forall₂_cons.1 hkey
        refine .cons hhead (ih (fun k => ?_) hkeys)
        by_cases hk : key a = k
        · subst hk
          exact htail
        · have hall := h k
          rwa [List.filter_cons_of_neg (by simpa using hk),
            List.filter_cons_of_neg (by simpa [← hab] using hk)] at hall

end Key

/-- Lists whose members have one after the other equal results. -/
theorem flatMap_eq_of_forall₂ {α β γ : Type} {f : α → List γ} {g : β → List γ} {l : List α}
    {l' : List β} (h : List.Forall₂ (fun a b => f a = g b) l l') : l.flatMap f = l'.flatMap g := by
  induction h with
  | nil => rfl
  | cons hab _ ih => rw [List.flatMap_cons, List.flatMap_cons, hab, ih]

namespace Concrete

/-! ### Tokens -/

mutual

/-- The texts of the leaves in source order, without delimiters and comments. -/
def tokens (source : String) : Concrete → List String
  | mk info children =>
    if children.isEmpty then [info.textIn source] else tokensIn source children

/-- The tokens of several nodes, without delimiters and comments. -/
def tokensIn (source : String) : List Concrete → List String
  | [] => []
  | c :: rest => if c.isKept then c.tokens source ++ tokensIn source rest else tokensIn source rest

end

/-- The tokens of children are those of each child that is kept. -/
theorem tokensIn_eq_flatMap (source : String) (children : List Concrete) :
    tokensIn source children = (children.filter isKept).flatMap (tokens source) := by
  induction children with
  | nil => rfl
  | cons c rest ih => by_cases h : c.isKept <;> simp [tokensIn, h, ih]

/-- A leaf is a token. -/
theorem tokens_of_isLeaf {source : String} {c : Concrete} (h : c.isLeaf = true) :
    c.tokens source = [c.info.textIn source] := by
  obtain ⟨info, children⟩ := c
  rw [tokens]
  exact if_pos h

/-- An inner node has the tokens of the children that are kept. -/
theorem tokens_of_not_isLeaf {source : String} {c : Concrete} (h : c.isLeaf = false) :
    c.tokens source = c.kept.flatMap (tokens source) := by
  obtain ⟨info, children⟩ := c
  rw [tokens, kept, ← tokensIn_eq_flatMap]
  exact if_neg (by simpa [isLeaf, Concrete.children] using h)

/-- Conversion hides nothing: only leaves are bare tokens, and no field is overwritten. -/
structure Faithful (c : Concrete) : Prop where
  tokensBare : c.TokensBare
  keepsFields : c.KeepsFields

/-- The children of a faithful tree are faithful. -/
theorem Faithful.of_mem_children {c d : Concrete} (h : c.Faithful) (hd : d ∈ c.children) :
    d.Faithful where
  tokensBare := (tokensBare_iff.1 h.tokensBare).2 d hd
  keepsFields := (keepsFields_iff.1 h.keepsFields).2 d hd

/-- The children that are kept of a faithful tree are faithful. -/
theorem Faithful.of_mem_kept {c d : Concrete} (h : c.Faithful) (hd : d ∈ c.kept) : d.Faithful :=
  h.of_mem_children (List.mem_of_mem_filter hd)

/-- No field of a faithful tree is overwritten. -/
theorem Faithful.keepsNames {c : Concrete} (h : c.Faithful) : c.KeepsNames :=
  (keepsFields_iff.1 h.keepsFields).1

/-- Only leaves of a faithful tree are kept as text. -/
theorem Faithful.isLeaf_of_keptAsText {c : Concrete} (h : c.Faithful)
    (hkept : c.keptAsText = true) : c.isLeaf = true :=
  Concrete.isLeaf_of_keptAsText (tokensBare_iff.1 h.tokensBare).1 hkept

section Alike

variable {source source' : String} {c c' : Concrete}

/-- Equal parts are equal nodes, or leaves of one text. -/
theorem alike_or_tokens_eq (hc : c.Faithful) (hc' : c'.Faithful)
    (h : (c.seen source).same (c'.seen source') = true) :
    Alike source source' c c' ∨ c.tokens source = c'.tokens source' := by
  obtain ⟨hkept, htext, halike⟩ := seen_inv h
  cases htrue : c.keptAsText with
  | false => exact .inl (halike htrue)
  | true =>
      have hleaf := hc.isLeaf_of_keptAsText htrue
      have hleaf' := hc'.isLeaf_of_keptAsText (hkept ▸ htrue)
      refine .inr ?_
      rw [tokens_of_isLeaf hleaf, tokens_of_isLeaf hleaf', htext htrue]

/-- Equal nodes agree one by one in their children, once these are rearranged. -/
theorem Alike.exists_arranged (h : Alike source source' c c') (hc : c.Faithful)
    (hc' : c'.Faithful) :
    ∃ arranged, List.Forall₂ (fun d d' => d.info.field = d'.info.field ∧
        (d.seen source).same (d'.seen source') = true) c.kept arranged ∧
      arranged.Perm c'.kept :=
  exists_arranged_of_filter (h.forall₂_kept hc.keepsNames hc'.keepsNames)

/-- Equal nodes have the same tokens, up to order. -/
theorem Alike.perm_tokens (h : Alike source source' c c') (hc : c.Faithful) (hc' : c'.Faithful) :
    (c.tokens source).Perm (c'.tokens source') := by
  induction c using inductionOn generalizing c' with
  | mk info children ih =>
      cases hleaf : (mk info children).isLeaf with
      | true =>
          rw [tokens_of_isLeaf hleaf, tokens_of_isLeaf (h.isLeaf_eq ▸ hleaf), h.textIn_eq hleaf]
      | false =>
          rw [tokens_of_not_isLeaf hleaf, tokens_of_not_isLeaf (h.isLeaf_eq ▸ hleaf)]
          obtain ⟨arranged, hforall, hperm⟩ := h.exists_arranged hc hc'
          refine (perm_flatMap_of_forall₂ ?_).trans (hperm.flatMap_right _)
          refine forall₂_imp_of_mem hforall fun d hd d' hd' hdd' => ?_
          have hfaithful := hc.of_mem_kept hd
          have hfaithful' := hc'.of_mem_kept (hperm.subset hd')
          rcases alike_or_tokens_eq hfaithful hfaithful' hdd'.2 with halike | heq
          · exact ih d (List.mem_of_mem_filter hd) halike hfaithful hfaithful'
          · exact .of_eq heq

/-! ### Tokens in order -/

/-- The field names of the children, without delimiters and comments. -/
def labels (c : Concrete) : List (Option String) := c.kept.map fun d => d.info.field

/-- Nodes of one kind whose children have the same field names have them in one order. -/
def OrderAgrees (source source' : String) (c c' : Concrete) : Prop :=
  c.info.treeKind source = c'.info.treeKind source' → c.labels.Perm c'.labels →
    c.labels = c'.labels

/-- The kind of a node and the field names of its children determine their order. -/
def FixedOrder (source source' : String) (c c' : Concrete) : Prop :=
  ∀ p ∈ c.subtrees, ∀ q ∈ c'.subtrees, OrderAgrees source source' p.node q.node

instance (source source' : String) (c c' : Concrete) :
    Decidable (FixedOrder source source' c c') :=
  inferInstanceAs (Decidable (∀ p ∈ c.subtrees, ∀ q ∈ c'.subtrees, _ → _ → _))

/-- Fixed order holds at the roots. -/
theorem FixedOrder.here (h : FixedOrder source source' c c') : OrderAgrees source source' c c' :=
  h _ (mem_subtrees_self c) _ (mem_subtrees_self c')

/-- Fixed order holds of the children. -/
theorem FixedOrder.of_mem {d d' : Concrete} (h : FixedOrder source source' c c')
    (hd : d ∈ c.children) (hd' : d' ∈ c'.children) : FixedOrder source source' d d' := by
  intro p hp
  have hbelow := (forall_mem_subtrees_iff
    (P := fun d => ∀ q ∈ c'.subtrees, OrderAgrees source source' d q.node)).1 h
  exact (forall_mem_subtrees_iff.1 (hbelow.2 d hd p hp)).2 d' hd'

/-- Equal nodes have the same field names below them, up to order. -/
theorem Alike.perm_labels (h : Alike source source' c c') (hc : c.Faithful) (hc' : c'.Faithful) :
    c.labels.Perm c'.labels := by
  obtain ⟨arranged, hforall, hperm⟩ := h.exists_arranged hc hc'
  have hnames : c.labels = arranged.map fun d => d.info.field :=
    map_eq_map_iff_forall₂.2 (hforall.imp fun d d' h => h.1)
  rw [hnames]
  exact hperm.map _

/-- Equal nodes have the same tokens in the same order, where the order is determined. -/
theorem Alike.tokens_eq (h : Alike source source' c c') (hc : c.Faithful) (hc' : c'.Faithful)
    (horder : FixedOrder source source' c c') : c.tokens source = c'.tokens source' := by
  induction c using inductionOn generalizing c' with
  | mk info children ih =>
      cases hleaf : (mk info children).isLeaf with
      | true =>
          rw [tokens_of_isLeaf hleaf, tokens_of_isLeaf (h.isLeaf_eq ▸ hleaf), h.textIn_eq hleaf]
      | false =>
          rw [tokens_of_not_isLeaf hleaf, tokens_of_not_isLeaf (h.isLeaf_eq ▸ hleaf)]
          have hlabels := horder.here h.treeKind_eq (h.perm_labels hc hc')
          have hforall :=
            forall₂_of_filter (h.forall₂_kept hc.keepsNames hc'.keepsNames) hlabels
          refine flatMap_eq_of_forall₂ (forall₂_imp_of_mem hforall fun d hd d' hd' hdd' => ?_)
          have hfaithful := hc.of_mem_kept hd
          have hfaithful' := hc'.of_mem_kept hd'
          rcases alike_or_tokens_eq hfaithful hfaithful' hdd' with halike | heq
          · exact ih d (List.mem_of_mem_filter hd) halike hfaithful hfaithful'
              (horder.of_mem (List.mem_of_mem_filter hd) (List.mem_of_mem_filter hd'))
          · exact heq

end Alike

/-! ### Tokens of equal sources -/

/-- **What equal sources have in common.** Let no node of the concrete trees of two accepted
sources be hidden by conversion. If the sources compare as equal, they have the same tokens, each
as often as in the other. The tokens are in the same order as well if in nodes of one kind the
same field names always come in one order. -/
theorem tokens_of_equivalent (source source' : String) (c c' : Concrete) (tree tree' : Node)
    (htree : c.toTree source = .ok tree) (htree' : c'.toTree source' = .ok tree')
    (hc : c.Faithful) (hc' : c'.Faithful) (h : tree.equivalent tree' none = .ok true) :
    (c.tokens source).Perm (c'.tokens source') ∧
      (FixedOrder source source' c c' → c.tokens source = c'.tokens source') := by
  obtain rfl := eq_toNode_of_toTree htree
  obtain rfl := eq_toNode_of_toTree htree'
  have halike := (equivalent_iff_alike.1 h).2.2
  exact ⟨halike.perm_tokens hc hc', halike.tokens_eq hc hc'⟩

/-- The import of two names, the first of which has an alias. -/
def firstText : String := "import \x7bA as B, C\x7d from \"x.sol\";"

/-- The import of the same names, the second of which has the alias. -/
def secondText : String := "import \x7bA, C as B\x7d from \"x.sol\";"

/-- A node without children in the first row. -/
def word (field : Option String) (kind : String) (named : Bool) (byte length : Nat) : Concrete :=
  .mk (.inRow field kind named 0 byte byte length) []

/-- A file with an import of two names, which stand between bytes 8 and 17. -/
def importing (names after : List Concrete) (length : Nat) : Concrete :=
  .mk (.inRow none "source_file" true 0 0 0 length) (
    .mk (.inRow none "import_directive" true 0 0 0 32) (
      [word none "import" false 0 6, word none "\x7b" false 7 1] ++ names ++
      [word none "\x7d" false 17 1, word none "from" false 19 4,
        .mk (.inRow (some "source") "string" true 0 24 24 7)
          [word none "\"" false 24 1, word none "\"" false 30 1],
        word none ";" false 31 1]) :: after)

/-- The names of the first text. -/
def firstRenamed : List Concrete :=
  [word (some "import_name") "identifier" true 8 1, word none "as" false 10 2,
    word (some "alias") "identifier" true 13 1, word none "," false 14 1,
    word (some "import_name") "identifier" true 16 1]

/-- The names of the second text. -/
def secondRenamed : List Concrete :=
  [word (some "import_name") "identifier" true 8 1, word none "," false 9 1,
    word (some "import_name") "identifier" true 11 1, word none "as" false 13 2,
    word (some "alias") "identifier" true 16 1]

/-- The order of tokens can differ in sources that compare as equal: which of two names has an
alias makes no difference. -/
theorem equivalent_renamed :
    (importing firstRenamed [] 32).Faithful ∧ (importing secondRenamed [] 32).Faithful ∧
      ∃ tree tree', (importing firstRenamed [] 32).toTree firstText = .ok tree ∧
        (importing secondRenamed [] 32).toTree secondText = .ok tree' ∧
        tree.equivalent tree' none = .ok true ∧
        (importing firstRenamed [] 32).tokens firstText =
          ["import", "A", "as", "B", "C", "from", "\"", "\""] ∧
        (importing secondRenamed [] 32).tokens secondText =
          ["import", "A", "C", "as", "B", "from", "\"", "\""] ∧
        (importing firstRenamed [] 32).tokens firstText ≠
          (importing secondRenamed [] 32).tokens secondText := by
  refine ⟨⟨by decide, by decide⟩, ⟨by decide, by decide⟩, _, _, rfl, rfl, ?_, by decide, by decide,
    by decide⟩
  exact equivalent_iff_alike.2 ⟨by decide, by decide, by decide +kernel⟩

/-- A comment after the import leaves its tokens as they are. -/
theorem tokens_commented :
    ∃ tree tree', (importing firstRenamed [] 32).toTree firstText = .ok tree ∧
      (importing firstRenamed [word none "comment" true 33 4] 37).toTree (firstText ++ " // x") =
        .ok tree' ∧
      tree.equivalent tree' none = .ok true ∧
      (importing firstRenamed [] 32).tokens firstText =
        (importing firstRenamed [word none "comment" true 33 4] 37).tokens
          (firstText ++ " // x") := by
  have hequal : ((importing firstRenamed [] 32).toNode firstText).equivalent
      ((importing firstRenamed [word none "comment" true 33 4] 37).toNode (firstText ++ " // x"))
      none = .ok true :=
    equivalent_iff_alike.2 ⟨by decide, by decide, by decide +kernel⟩
  refine ⟨_, _, rfl, rfl, hequal, ?_⟩
  exact (tokens_of_equivalent firstText (firstText ++ " // x") _ _ _ _ rfl rfl
    ⟨by decide, by decide⟩ ⟨by decide, by decide⟩ hequal).2 (by decide +kernel)

end Concrete

end ContractQuery
