import ContractQuery.Proofs.Conversion

/-!
# The Faults of a Concrete Tree

The check of a concrete tree does not look at every node. It does not go below a fault, and it
leaves out all trees that say they have none. Where the flags tell the truth at every node
(`Concrete.FlagsExact`), it finds all the same what a scan of the whole tree would find: the faults
that lie below no other fault, in pre-order.

The first of these is the first fault of all, because a node comes before everything below it.

## Main results

* `Concrete.faults_eq_topmost`: the search finds the topmost faults.
* `Concrete.find?_eq_head?_topmost`: the first fault is a topmost one.
* `Concrete.toTree_eq_scan`: **the check decides as a scan of all nodes would**.
-/

namespace ContractQuery.Concrete

/-- Every node says that it has an error exactly if it is a fault or a fault lies below it. -/
def FlagsExact (c : Concrete) : Prop :=
  ∀ p ∈ c.subtrees, p.node.info.hasError = true ↔ ∃ q ∈ p.node.subtrees, q.node.info.isFault = true

instance (c : Concrete) : Decidable c.FlagsExact :=
  inferInstanceAs (Decidable (∀ p ∈ c.subtrees, _ ↔ ∃ q ∈ p.node.subtrees, _))

/-- Flags are exact in a tree if they are at its root and in all its children. -/
theorem flagsExact_iff {c : Concrete} :
    c.FlagsExact ↔
      (c.info.hasError = true ↔ ∃ q ∈ c.subtrees, q.node.info.isFault = true) ∧
        ∀ child ∈ c.children, child.FlagsExact :=
  forall_mem_subtrees_iff
    (P := fun d => d.info.hasError = true ↔ ∃ q ∈ d.subtrees, q.node.info.isFault = true)

namespace Subtree

/-- The node is an error or missing. -/
def isFault (p : Subtree) : Bool := p.node.info.isFault

/-- The node is a fault, and no node above it is. -/
def isTopmost (p : Subtree) : Bool := p.isFault && p.above.all (!·.isFault)

/-- A subtree is a topmost fault if it is a fault and none is above it. -/
theorem isTopmost_iff {p : Subtree} :
    p.isTopmost = true ↔ p.node.info.isFault = true ∧ ∀ i ∈ p.above, i.isFault = false := by
  simp [isTopmost, isFault]

/-- Below no fault, every fault is topmost. -/
theorem isTopmost_eq_isFault {p : Subtree} (h : ∀ i ∈ p.above, i.isFault = false) :
    p.isTopmost = p.isFault := by
  have hclean : p.above.all (!·.isFault) = true := by simpa using h
  rw [isTopmost, hclean, Bool.and_true]

end Subtree

/-! ### Subtrees and what is above them -/

/-- What is above a tree is above all its subtrees. -/
theorem suffix_of_mem_subtreesBelow {c : Concrete} {above : List Info} {p : Subtree}
    (hp : p ∈ c.subtreesBelow above) : above <:+ p.above := by
  induction c using inductionOn generalizing above with
  | mk info children ih =>
      rw [subtreesBelow, List.mem_cons] at hp
      rcases hp with rfl | hp
      · exact List.suffix_refl _
      · obtain ⟨c, hc, hp⟩ := mem_subtreesIn.mp hp
        exact (List.suffix_cons _ _).trans (ih c hc hp)

/-- Below a fault nothing is topmost. -/
theorem filter_isTopmost_of_isFault {children : List Concrete} {above : List Info} {i : Info}
    (hi : i ∈ above) (hfault : i.isFault = true) :
    (subtreesIn children above).filter Subtree.isTopmost = [] := by
  rw [List.filter_eq_nil_iff]
  intro p hp htopmost
  obtain ⟨c, -, hp⟩ := mem_subtreesIn.mp hp
  have hmem := (suffix_of_mem_subtreesBelow hp).subset hi
  have hclean := (Subtree.isTopmost_iff.mp htopmost).2 i hmem
  rw [hfault] at hclean
  cases hclean

/-- A tree without faults has no topmost one. -/
theorem filter_isTopmost_of_clean {c : Concrete}
    (h : ¬ ∃ q ∈ c.subtrees, q.node.info.isFault = true) (above : List Info) :
    (c.subtreesBelow above).filter Subtree.isTopmost = [] := by
  rw [List.filter_eq_nil_iff]
  intro p hp htopmost
  -- The same node lies in the tree when nothing is above it.
  have hmem : p.node ∈ (c.subtreesBelow above).map Subtree.node := List.mem_map_of_mem hp
  rw [map_node_subtreesBelow c above []] at hmem
  obtain ⟨q, hq, hnode⟩ := List.mem_map.mp hmem
  refine h ⟨q, hq, ?_⟩
  rw [hnode]
  exact (Subtree.isTopmost_iff.mp htopmost).1

/-! ### The search -/

mutual

/-- The search finds the topmost faults of a tree that lies below no fault. -/
theorem faults_eq_subtreesBelow : ∀ (c : Concrete) (above : List Info), c.FlagsExact →
    (∀ i ∈ above, i.isFault = false) →
    c.faults = ((c.subtreesBelow above).filter Subtree.isTopmost).map (·.node.info.start)
  | mk info children, above, hflags, habove => by
      obtain ⟨hhere, hbelow⟩ := flagsExact_iff.mp hflags
      have hself : Subtree.isTopmost ⟨above, mk info children⟩ = info.isFault :=
        Subtree.isTopmost_eq_isFault habove
      rw [faults]
      cases hfault : info.isFault with
      | true =>
          rw [subtreesBelow, List.filter_cons_of_pos (hself.trans hfault),
            filter_isTopmost_of_isFault List.mem_cons_self hfault]
          rfl
      | false =>
          cases hhas : info.hasError with
          | false =>
              have hclean : ¬ ∃ q ∈ (mk info children).subtrees, q.node.info.isFault = true :=
                fun h => Bool.false_ne_true (hhas.symm.trans (hhere.mpr h))
              rw [filter_isTopmost_of_clean hclean]
              rfl
          | true =>
              rw [subtreesBelow,
                List.filter_cons_of_neg (Bool.eq_false_iff.mp (hself.trans hfault))]
              exact faultsIn_eq_subtreesIn children (info :: above) hbelow
                (List.forall_mem_cons.mpr ⟨hfault, habove⟩)

/-- The search through several trees finds the topmost faults of all of them. -/
theorem faultsIn_eq_subtreesIn : ∀ (children : List Concrete) (above : List Info),
    (∀ c ∈ children, c.FlagsExact) → (∀ i ∈ above, i.isFault = false) →
    faultsIn children =
      ((subtreesIn children above).filter Subtree.isTopmost).map (·.node.info.start)
  | [], above, _, _ => rfl
  | c :: rest, above, hflags, habove => by
      obtain ⟨hc, hrest⟩ := List.forall_mem_cons.mp hflags
      rw [faultsIn, subtreesIn, List.filter_append, List.map_append,
        faults_eq_subtreesBelow c above hc habove, faultsIn_eq_subtreesIn rest above hrest habove]

end

mutual

/-- The first fault of a tree that lies below no fault is a topmost one. -/
theorem find?_subtreesBelow : ∀ (c : Concrete) (above : List Info),
    (∀ i ∈ above, i.isFault = false) →
    (c.subtreesBelow above).find? Subtree.isFault =
      ((c.subtreesBelow above).filter Subtree.isTopmost).head?
  | mk info children, above, habove => by
      have hself : Subtree.isTopmost ⟨above, mk info children⟩ =
          Subtree.isFault ⟨above, mk info children⟩ := Subtree.isTopmost_eq_isFault habove
      rw [subtreesBelow]
      cases hfault : Subtree.isFault ⟨above, mk info children⟩ with
      | true =>
          rw [List.find?_cons_of_pos hfault, List.filter_cons_of_pos (hself.trans hfault),
            List.head?_cons]
      | false =>
          rw [List.find?_cons_of_neg (Bool.eq_false_iff.mp hfault),
            List.filter_cons_of_neg (Bool.eq_false_iff.mp (hself.trans hfault))]
          exact find?_subtreesIn children (info :: above)
            (List.forall_mem_cons.mpr ⟨hfault, habove⟩)

/-- The first fault of several trees is a topmost one. -/
theorem find?_subtreesIn : ∀ (children : List Concrete) (above : List Info),
    (∀ i ∈ above, i.isFault = false) →
    (subtreesIn children above).find? Subtree.isFault =
      ((subtreesIn children above).filter Subtree.isTopmost).head?
  | [], above, _ => rfl
  | c :: rest, above, habove => by
      rw [subtreesIn, List.find?_append, List.filter_append, List.head?_append,
        find?_subtreesBelow c above habove, find?_subtreesIn rest above habove]

end

/-- The topmost faults of a tree, in pre-order. -/
def topmostFaults (root : Concrete) : List Subtree := root.subtrees.filter Subtree.isTopmost

/-- **The search finds the topmost faults.** -/
theorem faults_eq_topmost {root : Concrete} (h : root.FlagsExact) :
    root.faults = root.topmostFaults.map (·.node.info.start) :=
  faults_eq_subtreesBelow root [] h (by simp)

/-- The first fault is a topmost one. -/
theorem find?_eq_head?_topmost (root : Concrete) :
    root.subtrees.find? Subtree.isFault = root.topmostFaults.head? :=
  find?_subtreesBelow root [] (by simp)

/-! ### The check -/

/-- The flag of the root tells whether there is a topmost fault. -/
theorem hasError_iff_topmost {root : Concrete} (h : root.FlagsExact) :
    root.info.hasError = true ↔ root.topmostFaults ≠ [] := by
  rw [(flagsExact_iff.mp h).1, ne_eq, ← List.head?_eq_none_iff, ← find?_eq_head?_topmost,
    List.find?_eq_none]
  simp [Subtree.isFault]

/-- The check reports the number of topmost faults and where the first starts. -/
theorem check_eq {root : Concrete} (h : root.FlagsExact) :
    root.check =
      match root.topmostFaults with
      | [] => .ok ()
      | [p] => .error (.single (p.node.info.start.row + 1) p.node.info.start.column)
      | p :: rest => .error (.several (rest.length + 1) (p.node.info.start.row + 1)
          p.node.info.start.column) := by
  rw [check, faults_eq_topmost h]
  have hflag := hasError_iff_topmost h
  cases htop : root.topmostFaults with
  | nil =>
      have hhas : root.info.hasError = false := by simpa [htop] using hflag
      rw [hhas]
      rfl
  | cons p rest =>
      have hhas : root.info.hasError = true := hflag.mpr (by simp [htop])
      rw [hhas]
      cases rest with
      | nil => rfl
      | cons q rest => simp

/-- A tree that the check accepts is converted, and any other is rejected as the check says. -/
theorem toTree_eq_map_check (source : String) (root : Concrete) :
    root.toTree source = root.check.map fun _ => root.toNode source := by
  rw [toTree]
  cases root.check <;> rfl

/-- **The check decides as a scan of all nodes would.** Let the flags be exact. Then a source is
accepted if and only if no node is a fault. Otherwise the error tells where the first fault in
pre-order starts, and how many faults lie below no other, unless there is just one. The check never
fails to find a fault that the flags announce. -/
theorem toTree_eq_scan (source : String) (root : Concrete) (h : root.FlagsExact) :
    (root.toTree source = .ok (root.toNode source) ↔
      ∀ p ∈ root.subtrees, p.node.info.isFault = false) ∧
    (∀ first, root.subtrees.find? (·.node.info.isFault) = some first →
      root.toTree source = .error (
        if root.topmostFaults.length = 1 then
          .single (first.node.info.start.row + 1) first.node.info.start.column
        else
          .several root.topmostFaults.length (first.node.info.start.row + 1)
            first.node.info.start.column)) ∧
    root.check ≠ .error .unparsed := by
  have hfind : root.subtrees.find? (·.node.info.isFault) = root.topmostFaults.head? :=
    find?_eq_head?_topmost root
  have hscan : (∀ p ∈ root.subtrees, p.node.info.isFault = false) ↔ root.topmostFaults = [] := by
    rw [← List.head?_eq_none_iff, ← hfind, List.find?_eq_none]
    simp
  rw [hscan, hfind, toTree_eq_map_check, check_eq h]
  cases root.topmostFaults with
  | nil => simp [Except.map]
  | cons p rest => cases rest <;> simp [Except.map]

/-- A contract with an error in which a token is missing, a comment, and one more missing token. -/
def mended : Concrete :=
  .mk { Info.inRow none "source_file" true 0 0 0 30 with hasError := true } [
    .mk { Info.inRow none "contract_declaration" true 0 0 0 25 with hasError := true } [
      .mk (.inRow none "contract" false 0 0 0 8) [],
      .mk { Info.inRow none "ERROR" true 0 13 13 10 with isError := true, hasError := true } [
        .mk { Info.inRow none "identifier" true 0 22 22 0 with
          isMissing := true, hasError := true } []]],
    .mk (.inRow none "comment" true 0 26 26 4) [],
    .mk { Info.inRow none ";" false 0 30 30 0 with isMissing := true, hasError := true } []]

/-- Of its three faults two are counted, and the outer one of the first two is reported. -/
theorem toTree_mended :
    mended.FlagsExact ∧ (mended.subtrees.filter (·.node.info.isFault)).length = 3 ∧
      mended.toTree "contract A \x7b function ( \x7d // x" = .error (.several 2 1 13) := by
  have hflags : mended.FlagsExact := by decide
  exact ⟨hflags, by decide, (toTree_eq_scan _ mended hflags).2.1 _ rfl⟩

end ContractQuery.Concrete
