import ContractQuery.Proofs.Canonical

/-!
# Documents with Distinct Names

A JSON value may use a name of an object twice, but no value that is read from a text does: while
an object is open, each value goes into a record by insertion. This is an invariant of the reader.
All values that it holds have distinct names, the finished document, those in open containers, and
the one that a word in the middle of being read stands for (`Json.Reader.Sound`).

Each function that takes the reader on keeps the invariant, so one character keeps it
(`Json.Reader.Sound.step`), and so does a text.

## Main results

* `Json.inductionOn`: induction over a document.
* `Json.distinct_of_parse`: **a document that is read uses no name twice**.
-/

namespace ContractQuery

namespace Json

/-! ### Documents -/

/-- Induction over a document: what holds of a value whenever it holds of all values directly
inside holds of every value. -/
theorem inductionOn {motive : Json → Prop} (j : Json) (null : motive null)
    (bool : ∀ b, motive (bool b)) (number : ∀ n, motive (number n)) (text : ∀ s, motive (text s))
    (array : ∀ items, (∀ k ∈ items, motive k) → motive (array items))
    (object : ∀ entries, (∀ e ∈ entries, motive e.2) → motive (object entries)) : motive j := by
  -- The recursor has a motive of its own for items, for entries, and for one entry.
  refine @Json.rec motive (fun items => ∀ k ∈ items, motive k)
    (fun entries => ∀ e ∈ entries, motive e.2) (fun e => motive e.2)
    null bool number text array object ?_ ?_ ?_ ?_ ?_ j
  · simp
  · intro k items hk hitems
    exact List.forall_mem_cons.mpr ⟨hk, hitems⟩
  · simp
  · intro e entries he hentries
    exact List.forall_mem_cons.mpr ⟨he, hentries⟩
  · intro name k hk
    exact hk

/-- Items have distinct names if each of them does. -/
theorem distinctItems_iff {items : List Json} :
    DistinctItems items ↔ ∀ j ∈ items, j.Distinct := by
  induction items with
  | nil => simp [DistinctItems]
  | cons j rest ih => rw [DistinctItems, ih, List.forall_mem_cons]

/-- There are distinct names in entries if there are in each of them. -/
theorem distinctEntries_iff {entries : Record Json} :
    DistinctEntries entries ↔ ∀ e ∈ entries, e.2.Distinct := by
  induction entries with
  | nil => simp [DistinctEntries]
  | cons e rest ih =>
      obtain ⟨name, j⟩ := e
      rw [DistinctEntries, ih, List.forall_mem_cons]

/-- An array has distinct names if its items do. -/
theorem distinct_array {items : List Json} :
    (array items).Distinct ↔ ∀ j ∈ items, j.Distinct := by
  rw [Distinct, distinctItems_iff]

/-- An object has distinct names if its own entries do, and what is in them. -/
theorem distinct_object {entries : Record Json} :
    (object entries).Distinct ↔ Record.Distinct entries ∧ ∀ e ∈ entries, e.2.Distinct := by
  rw [Distinct, distinctEntries_iff]

/-! ### What the reader holds -/

/-- The values of an open container have distinct names, and so has the container. -/
def Frame.Sound : Frame → Prop
  | items done => ∀ j ∈ done, j.Distinct
  | entries done _ => Record.Distinct done ∧ ∀ e ∈ done, e.2.Distinct

/-- A finished document has distinct names. -/
def Stage.Sound : Stage → Prop
  | finished j => j.Distinct
  | _ => True

/-- A word stands for a value with distinct names. -/
def Scan.Sound : Scan → Prop
  | word _ _ j => j.Distinct
  | _ => True

/-- All values of a draft have distinct names. -/
structure Draft.Sound (d : Draft) : Prop where
  stage : d.stage.Sound
  stack : ∀ frame ∈ d.stack, frame.Sound

/-- All values that a reader holds have distinct names. -/
structure Reader.Sound (r : Reader) : Prop where
  draft : r.draft.Sound
  scan : r.scan.Sound

namespace Draft

/-- A complete value is put into the innermost container by insertion. -/
theorem sound_complete {j : Json} (hj : j.Distinct) {stack : List Frame}
    (hstack : ∀ frame ∈ stack, frame.Sound) : (complete j stack).Sound := by
  unfold complete
  split
  · exact ⟨hj, by simp⟩
  · next done stack =>
      obtain ⟨hdone, hrest⟩ := List.forall_mem_cons.mp hstack
      refine ⟨trivial, List.forall_mem_cons.mpr ⟨?_, hrest⟩⟩
      exact List.forall_mem_cons.mpr ⟨hj, hdone⟩
  · next done name stack =>
      obtain ⟨⟨hnames, hdone⟩, hrest⟩ := List.forall_mem_cons.mp hstack
      refine ⟨trivial, List.forall_mem_cons.mpr ⟨⟨hnames.insert name j, fun e he => ?_⟩, hrest⟩⟩
      rcases Record.eq_or_mem_of_mem_insert he with rfl | he
      · exact hj
      · exact hdone e he

/-- A container that is closed is a value with distinct names. -/
theorem Sound.close {d : Draft} (hd : d.Sound) : d.close.Sound := by
  have hstack := hd.stack
  rw [Draft.close]
  split
  · exact hd
  · next done stack heq =>
      rw [heq] at hstack
      obtain ⟨hdone, hrest⟩ := List.forall_mem_cons.mp hstack
      refine sound_complete (distinct_array.mpr fun j hj => ?_) hrest
      exact hdone j (List.mem_reverse.mp hj)
  · next done name stack heq =>
      rw [heq] at hstack
      obtain ⟨hdone, hrest⟩ := List.forall_mem_cons.mp hstack
      exact sound_complete (distinct_object.mpr hdone) hrest

/-- A container that is opened is empty. -/
theorem Sound.enter {d d' : Draft} (hd : d.Sound) {stage : Stage} {frame : Frame}
    (h : d.enter stage frame = .ok d') (hstage : stage.Sound) (hframe : frame.Sound) :
    d'.Sound := by
  rw [Draft.enter] at h
  split at h
  · obtain rfl := Except.ok.inj h
    exact ⟨hstage, List.forall_mem_cons.mpr ⟨hframe, hd.stack⟩⟩
  · cases h

/-- A string is a name, which changes no value, or a value. -/
theorem Sound.text {d : Draft} (hd : d.Sound) (s : String) : (d.text s).Sound := by
  have hstack := hd.stack
  rw [Draft.text]
  split
  · next heq =>
      rw [heq] at hstack
      obtain ⟨hdone, hrest⟩ := List.forall_mem_cons.mp hstack
      exact ⟨trivial, List.forall_mem_cons.mpr ⟨hdone, hrest⟩⟩
  · next heq =>
      rw [heq] at hstack
      obtain ⟨hdone, hrest⟩ := List.forall_mem_cons.mp hstack
      exact ⟨trivial, List.forall_mem_cons.mpr ⟨hdone, hrest⟩⟩
  · have htext : Json.Distinct (.text s) := trivial
    exact sound_complete htext hstack

/-- What a finished draft yields has distinct names. -/
theorem Sound.finish {d : Draft} (hd : d.Sound) {j : Json} (h : d.finish = .ok j) :
    j.Distinct := by
  have hstage := hd.stage
  rw [Draft.finish] at h
  split at h
  · next heq =>
      rw [heq] at hstage
      obtain rfl := Except.ok.inj h
      exact hstage
  all_goals cases h

/-- A draft and what the reader is then in the middle of have distinct names. -/
def Goes (next : Draft × Scan) : Prop := next.1.Sound ∧ next.2.Sound

/-- A step goes on with the draft and the part of the text that it returns. -/
theorem Sound.goes {d : Draft} (hd : d.Sound) {scan : Scan} {next : Draft × Scan}
    (h : (.ok (d, scan) : Except Fault (Draft × Scan)) = .ok next) (hscan : scan.Sound) :
    Goes next :=
  Except.ok.inj h ▸ ⟨hd, hscan⟩

/-- The same containers may be open at another stage. -/
theorem Sound.atStage {d : Draft} (hd : d.Sound) (stage : Stage) (hstage : stage.Sound) :
    Sound ⟨stage, d.stack⟩ :=
  ⟨hstage, hd.stack⟩

/-- A value starts with an empty container, or with nothing yet. -/
theorem Sound.start {d : Draft} (hd : d.Sound) {c : Char} {next : Draft × Scan}
    (h : d.start c = .ok next) : Goes next := by
  unfold Draft.start at h
  split at h
  · obtain ⟨d', hd', h⟩ := bind_eq_ok_iff.mp h
    have hempty : Frame.Sound (.items []) := fun j hj => absurd hj List.not_mem_nil
    exact (hd.enter hd' trivial hempty).goes h trivial
  · obtain ⟨d', hd', h⟩ := bind_eq_ok_iff.mp h
    have hempty : Frame.Sound (.entries [] "") :=
      ⟨List.nodup_nil, fun e he => absurd he List.not_mem_nil⟩
    exact (hd.enter hd' trivial hempty).goes h trivial
  · exact hd.goes h trivial
  · exact hd.goes h trivial
  · exact hd.goes h trivial
  · exact hd.goes h trivial
  · split at h
    · exact hd.goes h trivial
    · cases h

/-- Between two parts of a document, a character starts a value, closes a container, or moves on
to another stage. -/
theorem Sound.next {d : Draft} (hd : d.Sound) {c : Char} {next : Draft × Scan}
    (h : d.next c = .ok next) : Goes next := by
  rw [Draft.next] at h
  split at h
  · exact hd.start h
  · split at h
    · exact hd.close.goes h trivial
    · exact hd.start h
  · split at h
    · cases h
    · exact hd.start h
  · split at h
    · exact hd.close.goes h trivial
    · split at h
      · exact hd.goes h trivial
      · cases h
  · split at h
    · exact hd.goes h trivial
    · split at h <;> cases h
  · split at h
    · exact (hd.atStage .value trivial).goes h trivial
    · cases h
  · next heq =>
      rw [← heq] at h
      split at h
      · exact (hd.atStage .name trivial).goes h trivial
      · split at h
        · exact hd.close.goes h trivial
        · cases h
  · split at h
    · exact (hd.atStage .item trivial).goes h trivial
    · split at h
      · exact hd.close.goes h trivial
      · cases h
  · cases h

/-- A blank changes nothing. -/
theorem Sound.between {d : Draft} (hd : d.Sound) {c : Char} {next : Draft × Scan}
    (h : d.between c = .ok next) : Goes next := by
  rw [Draft.between] at h
  split at h
  · exact hd.goes h trivial
  · exact hd.next h

end Draft

/-! ### What a text denotes -/

namespace Reader

/-- A reader that goes on is sound if what it goes on with is. -/
theorem sound_advance {r r' : Reader} {c : Char} {next : Except Fault (Draft × Scan)}
    (h : r.advance c next = .ok r') (hnext : ∀ n, next = .ok n → Draft.Goes n) : r'.Sound := by
  unfold advance at h
  split at h
  · next draft scan =>
      obtain rfl := Except.ok.inj h
      obtain ⟨hdraft, hscan⟩ := hnext (draft, scan) rfl
      exact ⟨hdraft, hscan⟩
  · cases h

/-- A numeral that has ended is a value. -/
theorem Sound.numeralDone {r : Reader} (hr : r.Sound) {n : Numeral} {d : Draft}
    (h : r.numeralDone n = .ok d) : d.Sound := by
  rw [Reader.numeralDone] at h
  split at h
  · next x _ =>
      obtain rfl := Except.ok.inj h
      have hnumber : Json.Distinct (.number x) := trivial
      exact Draft.sound_complete hnumber hr.draft.stack
  · cases h

/-- Escapes only concern strings. -/
theorem sound_unitDone {seen : List Char} {high : Option Nat} {n : Nat} {scan : Scan}
    (h : Scan.unitDone seen high n = .ok scan) : scan.Sound := by
  simp only [Scan.unitDone] at h
  split at h
  · split at h
    · exact Except.ok.inj h ▸ trivial
    · cases h
  · split at h
    · cases h
    · split at h
      · exact Except.ok.inj h ▸ trivial
      · exact Except.ok.inj h ▸ trivial

/-- **One character keeps the names distinct.** -/
theorem Sound.step {r r' : Reader} (hr : r.Sound) {c : Char} (h : r.step c = .ok r') :
    r'.Sound := by
  have hscan := hr.scan
  simp only [Reader.step] at h
  -- By what the reader is in the middle of: nothing, a word, a numeral, or a part of a string.
  split at h
  · exact sound_advance h fun n hn => hr.draft.between hn
  · next heq =>
      rw [heq] at hscan
      refine sound_advance h fun n hn => ?_
      split at hn
      · cases hn
      · split at hn
        · exact (Draft.sound_complete hscan hr.draft.stack).goes hn trivial
        · exact hr.draft.goes hn hscan
  · split at h
    · exact sound_advance h fun n hn => hr.draft.goes hn trivial
    · obtain ⟨d, hd, h⟩ := bind_eq_ok_iff.mp h
      exact sound_advance h fun n hn => (hr.numeralDone hd).between hn
    · exact sound_advance h fun n hn => nomatch hn
    · exact sound_advance h fun n hn => nomatch hn
  · refine sound_advance h fun n hn => ?_
    split at hn
    · exact (hr.draft.text _).goes hn trivial
    · split at hn
      · exact hr.draft.goes hn trivial
      · split at hn
        · cases hn
        · exact hr.draft.goes hn trivial
  · refine sound_advance h fun n hn => ?_
    split at hn
    · exact hr.draft.goes hn trivial
    · split at hn
      · exact hr.draft.goes hn trivial
      · cases hn
  · split at h
    · exact sound_advance h fun n hn => hr.draft.goes hn trivial
    · split at h
      · next high value _ =>
          refine sound_advance h fun n hn => ?_
          cases hdone : Scan.unitDone _ _ value with
          | error e =>
              rw [hdone] at hn
              cases hn
          | ok scan =>
              rw [hdone] at hn
              exact hr.draft.goes hn (sound_unitDone hdone)
      · cases h
  · refine sound_advance h fun n hn => ?_
    split at hn
    · exact hr.draft.goes hn trivial
    · cases hn
  · refine sound_advance h fun n hn => ?_
    split at hn
    · exact hr.draft.goes hn trivial
    · cases hn

/-- A fault that is given a position stays a fault. -/
theorem mapError_eq_ok {ε ε' α : Type} {x : Except ε α} {f : ε → ε'} {a : α}
    (h : x.mapError f = .ok a) : x = .ok a := by
  cases x with
  | error e => cases h
  | ok b => exact congrArg Except.ok (Except.ok.inj h)

/-- What a text that ends here denotes has distinct names. -/
theorem Sound.finish {r : Reader} (hr : r.Sound) {j : Json} (h : r.finish = .ok j) :
    j.Distinct := by
  simp only [Reader.finish] at h
  split at h
  · exact hr.draft.finish (mapError_eq_ok h)
  · cases mapError_eq_ok h
  · split at h
    · obtain ⟨d, hd, h⟩ := bind_eq_ok_iff.mp h
      exact (hr.numeralDone hd).finish (mapError_eq_ok h)
    · cases mapError_eq_ok h
  · cases mapError_eq_ok h

end Reader

/-- **A document that is read uses no name twice.** -/
theorem distinct_of_parse {text : String} {j : Json} (h : parse text = .ok j) : j.Distinct := by
  rw [parse] at h
  obtain ⟨r, hr, h⟩ := bind_eq_ok_iff.mp h
  have hblank : Reader.blank.Sound := ⟨⟨trivial, by simp [Reader.blank, Draft.blank]⟩, trivial⟩
  have hsound : r.Sound := foldlM_preserves (fun _ _ _ hr h => hr.step h) hblank hr
  exact hsound.finish h

end Json

end ContractQuery
