import ContractQuery.Proofs.Tokens

/-!
# The Text of Equal Sources

How much of the text of a source comparison looks at. Blanks, comments and the delimiters that
conversion leaves out have no part in it. What remains lies in a leaf, or between the children of
a node, where the grammar has tokens without a node of their own: the text between the quotes of
a literal is of this kind. Leaves are compared by their text, so sources that compare as equal
have the same bytes in leaves. Text outside of leaves is not compared at all.

The nodes of a well-placed tree cover their text without overlap, so each remaining byte in a leaf
is a byte of exactly one token (`Concrete.WellPlaced.perm_bytesAt_shown`).

## Main results

* `Concrete.remaining_of_equivalent`: **sources that compare as equal have the same text exactly
  if they have the same text outside of leaves**.
* `Concrete.equivalent_literals`: the text of a literal makes no difference.
-/

namespace ContractQuery

namespace Concrete

/-! ### Bytes by position -/

/-- The bytes of a text. -/
def bytes (text : String) : List UInt8 := text.toUTF8.data.toList

/-- The bytes of a source at some positions. -/
def bytesAt (source : String) (among : Nat → Bool) : List UInt8 :=
  ((bytes source).zipIdx.filter fun e => among e.2).map Prod.fst

/-- Whether a node covers a position. -/
def Info.covers (i : Info) (position : Nat) : Bool :=
  i.startByte ≤ position && position < i.endByte

/-- A position in a node is not in one that starts after it. -/
theorem Info.not_covers_of_le {i j : Info} (h : i.endByte ≤ j.startByte) {b : Nat}
    (hb : i.covers b = true) : j.covers b = false := by
  simp only [covers, Bool.and_eq_true, Bool.and_eq_false_iff, decide_eq_true_eq,
    decide_eq_false_iff_not] at hb ⊢
  omega

/-- The members at the positions of a range. -/
theorem map_fst_filter_zipIdx {α : Type} (l : List α) (start stop offset : Nat) :
    ((l.zipIdx offset).filter fun e => start ≤ e.2 && e.2 < stop).map Prod.fst =
      (l.take (stop - offset)).drop (start - offset) := by
  induction l generalizing offset with
  | nil => simp
  | cons a l ih =>
      rw [List.zipIdx_cons]
      have hrest := ih (offset + 1)
      by_cases hstop : offset < stop
      · have htake : stop - offset = stop - (offset + 1) + 1 := by omega
        rw [htake, List.take_succ_cons]
        by_cases hstart : start ≤ offset
        · have hdrop : start - offset = 0 := by omega
          have hdrop' : start - (offset + 1) = 0 := by omega
          rw [hdrop', List.drop_zero] at hrest
          rw [List.filter_cons_of_pos (by simp [hstart, hstop]), List.map_cons, hrest, hdrop,
            List.drop_zero]
        · have hdrop : start - offset = start - (offset + 1) + 1 := by omega
          rw [List.filter_cons_of_neg (by simp [hstart]), hrest, hdrop, List.drop_succ_cons]
      · have htake : stop - offset = 0 := by omega
        have htake' : stop - (offset + 1) = 0 := by omega
        rw [List.filter_cons_of_neg (by simp [hstop]), hrest, htake, htake', List.take_zero,
          List.take_zero, List.drop_nil, List.drop_nil]

/-- Whether a position belongs to the text of a node. Bytes that are not text belong to none. -/
def Info.spells (source : String) (i : Info) (position : Nat) : Bool :=
  (String.fromUTF8? (source.toUTF8.extract i.startByte i.endByte)).isSome && i.covers position

/-- The bytes at the positions of the text of a node are those of the text. -/
theorem bytesAt_spells (source : String) (i : Info) :
    bytesAt source (i.spells source) = bytes (i.textIn source) := by
  unfold Info.spells Info.textIn
  cases htext : String.fromUTF8? (source.toUTF8.extract i.startByte i.endByte) with
  | none => simp [bytesAt, bytes]
  | some text =>
      have hbytes : text.toUTF8 = source.toUTF8.extract i.startByte i.endByte := by
        unfold String.fromUTF8? at htext
        split at htext
        · rw [← Option.some.inj htext]
          rfl
        · simp at htext
      rw [Option.getD_some, bytes, hbytes, ByteArray.data_extract, Array.toList_extract,
        List.extract_eq_take_drop, ← List.drop_take]
      exact map_fst_filter_zipIdx _ _ _ 0

/-- Positions of two kinds that exclude each other. -/
theorem perm_bytesAt_or (source : String) {p q : Nat → Bool} (h : ∀ b, p b = true → q b = false) :
    (bytesAt source fun b => p b || q b).Perm (bytesAt source p ++ bytesAt source q) := by
  unfold bytesAt
  rw [← List.map_append]
  refine List.Perm.map _ ?_
  have hsplit := (List.filter_append_perm (fun e : UInt8 × Nat => p e.2)
    ((bytes source).zipIdx.filter fun e => p e.2 || q e.2)).symm
  rw [List.filter_filter, List.filter_filter] at hsplit
  have hleft : ∀ b, (p b && (p b || q b)) = p b := by
    intro b
    cases p b <;> rfl
  have hright : ∀ b, (!p b && (p b || q b)) = q b := by
    intro b
    cases hp : p b with
    | true => simp [h b hp]
    | false => rfl
  simpa only [hleft, hright] using hsplit

/-! ### Well-placed trees -/

/-- The nodes lie in order between two positions, without overlap. -/
def Tiles (start : Nat) : List Concrete → Nat → Prop
  | [], stop => start ≤ stop
  | c :: rest, stop =>
    start ≤ c.info.startByte ∧ c.info.startByte ≤ c.info.endByte ∧ Tiles c.info.endByte rest stop

/-- Decides whether nodes lie in order between two positions. -/
def decideTiles (start : Nat) :
    (children : List Concrete) → (stop : Nat) → Decidable (Tiles start children stop)
  | [], stop => inferInstanceAs (Decidable (start ≤ stop))
  | c :: rest, stop =>
    have := decideTiles c.info.endByte rest stop
    inferInstanceAs (Decidable (start ≤ c.info.startByte ∧ c.info.startByte ≤ c.info.endByte ∧
      Tiles c.info.endByte rest stop))

instance (start : Nat) (children : List Concrete) (stop : Nat) :
    Decidable (Tiles start children stop) :=
  decideTiles start children stop

/-- Children lie in order inside their parents, without overlap. -/
def WellPlaced (c : Concrete) : Prop :=
  ∀ p ∈ c.subtrees, Tiles p.node.info.startByte p.node.children p.node.info.endByte

instance (c : Concrete) : Decidable c.WellPlaced :=
  inferInstanceAs (Decidable (∀ p ∈ c.subtrees, _))

/-- What is tiled does not stop before it starts. -/
theorem Tiles.le {start stop : Nat} {children : List Concrete} (h : Tiles start children stop) :
    start ≤ stop := by
  induction children generalizing start with
  | nil => exact h
  | cons c rest ih =>
      obtain ⟨hstart, hself, hrest⟩ := h
      have hle := ih hrest
      omega

/-- Each tile lies between the start and the stop. -/
theorem Tiles.of_mem {start stop : Nat} {children : List Concrete} (h : Tiles start children stop)
    {c : Concrete} (hc : c ∈ children) : start ≤ c.info.startByte ∧ c.info.endByte ≤ stop := by
  induction children generalizing start with
  | nil => simp at hc
  | cons d rest ih =>
      obtain ⟨hstart, hself, hrest⟩ := h
      rcases List.mem_cons.1 hc with rfl | hc
      · exact ⟨hstart, hrest.le⟩
      · obtain ⟨hfrom, hto⟩ := ih hrest hc
        exact ⟨by omega, hto⟩

/-- Each node ends before the next ones start. -/
theorem Tiles.pairwise {start stop : Nat} {children : List Concrete}
    (h : Tiles start children stop) :
    children.Pairwise fun c d => c.info.endByte ≤ d.info.startByte := by
  induction children generalizing start with
  | nil => exact .nil
  | cons c rest ih =>
      obtain ⟨-, -, hrest⟩ := h
      exact .cons (fun d hd => (hrest.of_mem hd).1) (ih hrest)

/-- A position in one node is in no other one. -/
theorem Tiles.eq_of_covers {start stop : Nat} {children : List Concrete}
    (h : Tiles start children stop) {c d : Concrete} (hc : c ∈ children) (hd : d ∈ children)
    {b : Nat} (hcb : c.info.covers b = true) (hdb : d.info.covers b = true) : c = d := by
  induction children generalizing start with
  | nil => simp at hc
  | cons e rest ih =>
      obtain ⟨-, -, hrest⟩ := h
      rcases List.mem_cons.1 hc with rfl | hc' <;> rcases List.mem_cons.1 hd with rfl | hd'
      · rfl
      · simp [Info.not_covers_of_le (hrest.of_mem hd').1 hcb] at hdb
      · simp [Info.not_covers_of_le (hrest.of_mem hc').1 hdb] at hcb
      · exact ih hrest hc' hd'

/-- The children of a well-placed tree tile its root. -/
theorem WellPlaced.here {c : Concrete} (h : c.WellPlaced) :
    Tiles c.info.startByte c.children c.info.endByte :=
  h _ (mem_subtrees_self c)

/-- The children of a well-placed tree are well-placed. -/
theorem WellPlaced.of_mem {c d : Concrete} (h : c.WellPlaced) (hd : d ∈ c.children) :
    d.WellPlaced :=
  (forall_mem_subtrees_iff (P := fun d =>
    Tiles d.info.startByte d.children d.info.endByte).1 h).2 d hd

/-! ### Positions that have a part in comparison -/

/-- Whether a position belongs to the text of a leaf. -/
def inLeaf (source : String) (c : Concrete) (b : Nat) : Bool :=
  c.subtrees.any fun p => p.node.isLeaf && p.node.info.spells source b

/-- Whether a position is in a comment or a delimiter below the root. -/
def leftOut (c : Concrete) (b : Nat) : Bool :=
  c.children.any fun d => d.subtrees.any fun p => !p.node.isKept && p.node.info.covers b

/-- Whether a position belongs to the text of a leaf that has a part in comparison. -/
def shown (source : String) (c : Concrete) (b : Nat) : Bool := !c.leftOut b && c.inLeaf source b

section Shown

variable {source : String} {c : Concrete} {b : Nat}

/-- A well-placed tree covers what its subtrees cover. -/
theorem WellPlaced.covers_of_mem_subtrees (h : c.WellPlaced) :
    ∀ p ∈ c.subtrees, p.node.info.covers b = true → c.info.covers b = true := by
  induction c using inductionOn with
  | mk info children ih =>
      refine (forall_mem_subtrees_iff
        (P := fun d => d.info.covers b = true → info.covers b = true)).2 ⟨id, ?_⟩
      intro d hd p hp hpb
      have hdb := ih d hd (h.of_mem hd) p hp hpb
      obtain ⟨hstart, hstop⟩ := h.here.of_mem hd
      simp only [Info.covers, Bool.and_eq_true, decide_eq_true_eq] at hdb ⊢
      exact ⟨hstart.trans hdb.1, hdb.2.trans_le hstop⟩

/-- A well-placed tree covers the bytes in its leaves. -/
theorem WellPlaced.covers_of_inLeaf (h : c.WellPlaced) (hb : c.inLeaf source b = true) :
    c.info.covers b = true := by
  obtain ⟨p, hp, hspells⟩ := List.any_eq_true.1 hb
  have hspells := (Bool.and_eq_true_iff.1 hspells).2
  exact h.covers_of_mem_subtrees p hp (Bool.and_eq_true_iff.1 hspells).2

/-- A well-placed tree covers the bytes that it shows. -/
theorem WellPlaced.covers_of_shown (h : c.WellPlaced) (hb : c.shown source b = true) :
    c.info.covers b = true :=
  h.covers_of_inLeaf (Bool.and_eq_true_iff.1 hb).2

/-- A byte is in a leaf of an inner node if it is in one of a child. -/
theorem inLeaf_of_not_isLeaf (h : c.isLeaf = false) :
    c.inLeaf source b = c.children.any fun d => d.inLeaf source b := by
  rw [inLeaf, any_subtrees fun d => d.isLeaf && d.info.spells source b, h]
  rfl

/-- A position is left out if a child that has no part in comparison covers it, or if it is left
out below a child. -/
theorem leftOut_eq_any : c.leftOut b =
    c.children.any fun d => !d.isKept && d.info.covers b || d.leftOut b := by
  rw [leftOut]
  congr 1
  funext d
  exact any_subtrees (fun d => !d.isKept && d.info.covers b) d

/-- A leaf shows what it spells. -/
theorem shown_of_isLeaf (h : c.isLeaf = true) : c.shown source b = c.info.spells source b := by
  have hnone : c.children = [] := List.isEmpty_iff.1 h
  rw [shown, leftOut, inLeaf, any_subtrees fun d => d.isLeaf && d.info.spells source b, hnone, h]
  simp

/-- A position has a part in comparison if it has one in a child that has. -/
theorem WellPlaced.shown_eq_any (h : c.WellPlaced) (hleaf : c.isLeaf = false) :
    c.shown source b = c.kept.any fun d => d.shown source b := by
  rw [Bool.eq_iff_iff, List.any_eq_true, shown, Bool.and_eq_true, Bool.not_eq_true',
    inLeaf_of_not_isLeaf hleaf, List.any_eq_true, leftOut_eq_any, List.any_eq_false]
  constructor
  · rintro ⟨hout, d, hd, hdb⟩
    have hdout := hout d hd
    have hcovers := (h.of_mem hd).covers_of_inLeaf hdb
    simp only [hcovers, Bool.and_true, Bool.or_eq_true, Bool.not_eq_true', not_or,
      Bool.not_eq_false, Bool.not_eq_true] at hdout
    exact ⟨d, List.mem_filter.2 ⟨hd, hdout.1⟩, by simp [shown, hdb, hdout.2]⟩
  · rintro ⟨d, hd, hdb⟩
    obtain ⟨hd, hkept⟩ := List.mem_filter.1 hd
    have hcovers := (h.of_mem hd).covers_of_shown hdb
    rw [shown, Bool.and_eq_true, Bool.not_eq_true'] at hdb
    refine ⟨fun e he heb => ?_, d, hd, hdb.2⟩
    have heb' : (e.subtrees.any fun p => !p.node.isKept && p.node.info.covers b) = true := by
      rwa [any_subtrees fun d => !d.isKept && d.info.covers b]
    obtain ⟨p, hp, hpb⟩ := List.any_eq_true.1 heb'
    have hecovers := (h.of_mem he).covers_of_mem_subtrees p hp (Bool.and_eq_true_iff.1 hpb).2
    obtain rfl := h.here.eq_of_covers hd he hcovers hecovers
    simp [hkept, hdb.1] at heb

end Shown

/-- Positions in one of several nodes that do not overlap. -/
theorem perm_bytesAt_any (source : String) {l : List Concrete} {f : Concrete → Nat → Bool}
    (h : l.Pairwise fun c d => ∀ b, f c b = true → f d b = false) :
    (bytesAt source fun b => l.any fun c => f c b).Perm
      (l.flatMap fun c => bytesAt source (f c)) := by
  induction l with
  | nil => simp [bytesAt]
  | cons c rest ih =>
      obtain ⟨hc, hrest⟩ := List.pairwise_cons.1 h
      simp only [List.any_cons, List.flatMap_cons]
      refine (perm_bytesAt_or source ?_).trans ((ih hrest).append_left _)
      intro b hb
      exact List.any_eq_false.2 fun d hd => by simp [hc d hd b hb]

/-- Children have no position in common. -/
theorem WellPlaced.pairwise_shown {c : Concrete} (h : c.WellPlaced) (source : String) :
    c.kept.Pairwise fun d e => ∀ b, d.shown source b = true → e.shown source b = false := by
  refine (h.here.pairwise.filter isKept).imp_of_mem fun {d e} hd he hde b hdb => ?_
  have hcovers := (h.of_mem (List.mem_of_mem_filter hd)).covers_of_shown hdb
  by_contra heb
  rw [Bool.not_eq_false] at heb
  have hcovers' := (h.of_mem (List.mem_of_mem_filter he)).covers_of_shown heb
  rw [Info.not_covers_of_le hde hcovers] at hcovers'
  exact Bool.false_ne_true hcovers'

/-- The bytes in leaves that have a part in comparison are those of the tokens. -/
theorem WellPlaced.perm_bytesAt_shown {c : Concrete} (h : c.WellPlaced) (source : String) :
    (bytesAt source (c.shown source)).Perm ((c.tokens source).flatMap bytes) := by
  induction c using inductionOn with
  | mk info children ih =>
      cases hleaf : (mk info children).isLeaf with
      | true =>
          have hshown : (mk info children).shown source = info.spells source :=
            funext fun b => shown_of_isLeaf hleaf
          rw [tokens_of_isLeaf hleaf, hshown, bytesAt_spells, List.flatMap_singleton]
          rfl
      | false =>
          have hshown : (mk info children).shown source =
              fun b => (mk info children).kept.any fun d => d.shown source b :=
            funext fun b => h.shown_eq_any hleaf
          rw [tokens_of_not_isLeaf hleaf, List.flatMap_assoc, hshown]
          refine (perm_bytesAt_any source (h.pairwise_shown source)).trans
            (List.Perm.flatMap_left _ fun d hd => ?_)
          exact ih d (List.mem_of_mem_filter hd) (h.of_mem (List.mem_of_mem_filter hd))

/-! ### The text of a source -/

/-- Whether a byte is a blank. -/
def isBlank (byte : UInt8) : Bool := byte == 32 || 9 ≤ byte && byte ≤ 13

/-- The text of a source without blanks, comments and delimiters. -/
def remaining (source : String) (c : Concrete) : List UInt8 :=
  (bytesAt source fun b => !c.leftOut b).filter fun byte => !isBlank byte

/-- What of it is in leaves. -/
def spelled (source : String) (c : Concrete) : List UInt8 :=
  (bytesAt source fun b => !c.leftOut b && c.inLeaf source b).filter fun byte => !isBlank byte

/-- What of it is outside of leaves. -/
def hidden (source : String) (c : Concrete) : List UInt8 :=
  (bytesAt source fun b => !c.leftOut b && !c.inLeaf source b).filter fun byte => !isBlank byte

/-- What remains of a source is in leaves or outside of them. -/
theorem perm_remaining (source : String) (c : Concrete) :
    (remaining source c).Perm (spelled source c ++ hidden source c) := by
  have hsplit := perm_bytesAt_or source (p := fun b => !c.leftOut b && c.inLeaf source b)
    (q := fun b => !c.leftOut b && !c.inLeaf source b) fun b hb => by simp_all
  have hor : ∀ b, (!c.leftOut b && c.inLeaf source b || !c.leftOut b && !c.inLeaf source b) =
      !c.leftOut b := by
    intro b
    cases c.inLeaf source b <;> simp
  simp only [hor] at hsplit
  rw [spelled, hidden, ← List.filter_append]
  exact hsplit.filter _

/-- **The text of equal sources.** Let the concrete trees of two accepted sources be well-placed
and let conversion hide none of their nodes. If the sources compare as equal, they have the same
text in leaves, up to the order of bytes and apart from blanks, comments and delimiters. They have
the same text at all exactly if they also have the same text outside of leaves. -/
theorem remaining_of_equivalent (source source' : String) (c c' : Concrete) (tree tree' : Node)
    (htree : c.toTree source = .ok tree) (htree' : c'.toTree source' = .ok tree')
    (hc : c.Faithful) (hc' : c'.Faithful) (hplaced : c.WellPlaced) (hplaced' : c'.WellPlaced)
    (h : tree.equivalent tree' none = .ok true) :
    (spelled source c).Perm (spelled source' c') ∧
      ((remaining source c).Perm (remaining source' c') ↔
        (hidden source c).Perm (hidden source' c')) := by
  obtain rfl := eq_toNode_of_toTree htree
  obtain rfl := eq_toNode_of_toTree htree'
  have htokens := (equivalent_iff_alike.1 h).2.2.perm_tokens hc hc'
  have hspelled : (spelled source c).Perm (spelled source' c') := by
    have hshown := ((hplaced.perm_bytesAt_shown source).trans (htokens.flatMap_right bytes)).trans
      (hplaced'.perm_bytesAt_shown source').symm
    exact hshown.filter _
  refine ⟨hspelled, ?_⟩
  -- The text in leaves can be cancelled on both sides.
  have hleft := perm_remaining source c
  have hright := (perm_remaining source' c').trans (hspelled.symm.append_right _)
  refine Iff.trans ?_ (List.perm_append_left_iff (spelled source c))
  exact ⟨fun h => (hleft.symm.trans h).trans hright, fun h => (hleft.trans h).trans hright.symm⟩

/-- A file with the import of a text of one byte. -/
def importingByte : Concrete :=
  .mk (.inRow none "source_file" true 0 0 0 11) [
    .mk (.inRow none "import_directive" true 0 0 0 11) [
      word none "import" false 0 6,
      .mk (.inRow (some "source") "string" true 0 7 7 3)
        [word none "\"" false 7 1, word none "\"" false 9 1],
      word none ";" false 10 1]]

/-- Sources that compare as equal can have different text: that of a literal lies between its
quotes, outside of leaves. -/
theorem equivalent_literals :
    importingByte.Faithful ∧ importingByte.WellPlaced ∧
      ∃ tree tree', importingByte.toTree "import \"a\";" = .ok tree ∧
        importingByte.toTree "import \"b\";" = .ok tree' ∧
        tree.equivalent tree' none = .ok true ∧
        remaining "import \"a\";" importingByte = bytes "import\"a\"" ∧
        remaining "import \"b\";" importingByte = bytes "import\"b\"" ∧
        ¬ (remaining "import \"a\";" importingByte).Perm
          (remaining "import \"b\";" importingByte) := by
  refine ⟨⟨by decide, by decide⟩, by decide, _, _, rfl, rfl, ?_, by decide, by decide, by decide⟩
  exact equivalent_iff_alike.2 ⟨by decide, by decide, by decide +kernel⟩

/-- Two imports that differ in the order of their tokens have the same text. -/
theorem remaining_renamed :
    (hidden firstText (importing firstRenamed [] 32)).Perm
        (hidden secondText (importing secondRenamed [] 32)) ∧
      (remaining firstText (importing firstRenamed [] 32)).Perm
        (remaining secondText (importing secondRenamed [] 32)) := by
  have hequal : ((importing firstRenamed [] 32).toNode firstText).equivalent
      ((importing secondRenamed [] 32).toNode secondText) none = .ok true :=
    equivalent_iff_alike.2 ⟨by decide, by decide, by decide +kernel⟩
  have hhidden : (hidden firstText (importing firstRenamed [] 32)).Perm
      (hidden secondText (importing secondRenamed [] 32)) := by
    decide +kernel
  refine ⟨hhidden, ?_⟩
  exact (remaining_of_equivalent firstText secondText (importing firstRenamed [] 32)
    (importing secondRenamed [] 32) _ _ rfl rfl ⟨by decide, by decide⟩ ⟨by decide, by decide⟩
    (by decide) (by decide) hequal).2.2 hhidden

end Concrete

end ContractQuery
