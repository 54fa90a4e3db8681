import ProjectFile.Proofs.Workspace.Ledger

/-!
What a document publishes.

A document starts with an evaluated snapshot and goes through edits: new texts and saves. Each edit
replaces the current snapshot or leaves it. The lemmas say what one edit keeps (`Edit.version_le_apply`,
`Edit.Submitted.apply`), and by induction what a whole run keeps: the versions never decrease
(`version_le_current`), and every snapshot shows a text under the version that the text came with
(`submitted_current`).

A save is two steps. It reads the version of the document, and then rebuilds the snapshot that is
current by then. `rebuild_of_published` says what comes of a rebuild with a version that was read at any
earlier point of the run. It goes well if the snapshot has been evaluated or its version is the one that
was read, and only then: a stale text of a later version is published again under the earlier version
(`rebuild_of_published_lowers`).
-/

namespace ProjectFile.Workspace

open Evaluation

/-- What a document goes through after it is opened. -/
inductive Edit where
  | update (t : Text) (version : Version)
  | save

namespace Edit

/-- The snapshot that an edit leaves. -/
def apply (a : Analysis) (current : Snapshot) : Edit → Snapshot
  | .update t version => (updateSnapshot a current t version).getD current
  | .save => (saveSnapshot a current).getD current

/-- The text that an edit submits, with its version. -/
def submission? : Edit → Option (Text × Version)
  | .update t version => some (t, version)
  | .save => none

end Edit

/-- The snapshots that a document publishes, from the first one on; an edit that is ignored repeats
the snapshot that it leaves. -/
def published (a : Analysis) (first : Snapshot) : List Edit → List Snapshot
  | [] => [first]
  | edit :: edits => first :: published a (edit.apply a first) edits

/-- The snapshot that is current after some edits. -/
def current (a : Analysis) (first : Snapshot) (edits : List Edit) : Snapshot :=
  edits.foldl (Edit.apply a) first

/-- The texts that a document is given, each with its version: the text that it is opened with, and
those of the updates, accepted or not. -/
def submissions (first : Text × Version) (edits : List Edit) : List (Text × Version) :=
  first :: edits.filterMap Edit.submission?

/-- The snapshot after the second step of a save, with the version that the first step has read. -/
def rebuilt (a : Analysis) (current : Snapshot) (version : Version) : Snapshot :=
  (rebuild a current none version true).getD current

/-! ## One edit -/

namespace Snapshot

variable (a : Analysis) (file : FileId) (path : FilePath) (t : Text) (version : Version)

@[simp] theorem text_evaluated : (evaluated a file path t version).text = t := by
  obtain ⟨project, locator, diagnostics, heq⟩ := evaluated_eq a file path t version
  rw [heq]

@[simp] theorem version_evaluated : (evaluated a file path t version).version = version := by
  obtain ⟨project, locator, diagnostics, heq⟩ := evaluated_eq a file path t version
  rw [heq]

@[simp] theorem isStale_evaluated : (evaluated a file path t version).isStale = false := by
  obtain ⟨project, locator, diagnostics, heq⟩ := evaluated_eq a file path t version
  rw [heq]

end Snapshot

/-- A rebuild without a new text shows the current text: under the given version if the text has not
been evaluated, and else as it is. -/
theorem rebuilt_eq (a : Analysis) (s : Snapshot) (version : Version) :
    rebuilt a s version =
      if s.isStale then .evaluated a s.file s.path s.text version else s := by
  unfold rebuilt rebuild
  cases s.isStale <;> rfl

theorem text_rebuilt (a : Analysis) (s : Snapshot) (version : Version) :
    (rebuilt a s version).text = s.text := by
  rw [rebuilt_eq]
  split
  · exact Snapshot.text_evaluated ..
  · rfl

theorem version_rebuilt (a : Analysis) (s : Snapshot) (version : Version) :
    (rebuilt a s version).version = if s.isStale then version else s.version := by
  rw [rebuilt_eq]
  split
  · exact Snapshot.version_evaluated ..
  · rfl

namespace Edit

variable {a : Analysis} {s : Snapshot}

/-- An edit submits a text of a later version, which is then current and is stale unless every change
is evaluated, or it keeps the text with its version and makes nothing stale. -/
theorem apply_cases (a : Analysis) (s : Snapshot) (edit : Edit) :
    (∃ t version, edit.submission? = some (t, version) ∧ s.version < version ∧
      (edit.apply a s).text = t ∧ (edit.apply a s).version = version ∧
      (a.settings.evaluation = .onEveryChange → (edit.apply a s).isStale = false)) ∨
    ((edit.apply a s).text = s.text ∧ (edit.apply a s).version = s.version ∧
      (s.isStale = false → (edit.apply a s).isStale = false)) := by
  cases edit with
  | update t version =>
    by_cases hold : version ≤ s.version
    · have hkept : (update t version).apply a s = s := by
        simp only [apply, updateSnapshot, rebuild, if_pos hold, Option.getD_none]
      exact .inr ⟨by rw [hkept], by rw [hkept], fun h => by rw [hkept, h]⟩
    · refine .inl ⟨t, version, rfl, Int.not_le.mp hold, ?_⟩
      simp only [apply, updateSnapshot, rebuild, if_neg hold, Option.getD_some]
      by_cases hpolicy : a.settings.evaluation = .onEveryChange
      · simp [hpolicy]
      · simp [hpolicy, Snapshot.parsed]
  | save =>
    have hsave : save.apply a s = rebuilt a s s.version := rfl
    refine .inr ⟨?_, ?_, fun hfresh => ?_⟩
    · rw [hsave, text_rebuilt]
    · rw [hsave, version_rebuilt]
      split <;> rfl
    · rw [hsave, rebuilt_eq, hfresh]
      exact hfresh

/-- No edit lowers the version. -/
theorem version_le_apply (a : Analysis) (s : Snapshot) (edit : Edit) :
    s.version ≤ (edit.apply a s).version := by
  obtain ⟨t, version, -, hlater, -, hversion, -⟩ | ⟨-, hversion, -⟩ := edit.apply_cases a s
  · exact hversion ▸ Int.le_of_lt hlater
  · exact Int.le_of_eq hversion.symm

end Edit

/-! ## Runs -/

variable {a : Analysis} {first : Snapshot}

theorem current_cons (edit : Edit) (edits : List Edit) :
    current a first (edit :: edits) = current a (edit.apply a first) edits := rfl

/-- A run does not lower the version that it starts with. -/
theorem version_first_le_current (first : Snapshot) (edits : List Edit) :
    first.version ≤ (current a first edits).version := by
  induction edits generalizing first with
  | nil => exact Int.le_refl _
  | cons edit edits ih => exact Int.le_trans (edit.version_le_apply a first) (ih _)

/-- **The version never decreases**: what is published at some point of a run has no later version
than what is current at its end. -/
theorem version_le_current {s : Snapshot} {edits : List Edit} (hs : s ∈ published a first edits) :
    s.version ≤ (current a first edits).version := by
  induction edits generalizing first with
  | nil => exact List.eq_of_mem_singleton hs ▸ Int.le_refl _
  | cons edit edits ih =>
    rcases List.mem_cons.mp hs with rfl | hlater
    · exact version_first_le_current s (edit :: edits)
    · exact ih hlater

/-- **At the end of every run the text is shown under a version that it came with.** -/
theorem submitted_current (edits : List Edit) {before : List (Text × Version)}
    (hfirst : (first.text, first.version) ∈ before) :
    ((current a first edits).text, (current a first edits).version) ∈
      before ++ edits.filterMap Edit.submission? := by
  induction edits generalizing first before with
  | nil => exact List.mem_append_left _ hfirst
  | cons edit edits ih =>
    have hnext : ((edit.apply a first).text, (edit.apply a first).version) ∈
        before ++ edit.submission?.toList := by
      obtain ⟨t, version, hedit, -, htext, hversion, -⟩ | ⟨htext, hversion, -⟩ :=
        edit.apply_cases a first
      · rw [htext, hversion, hedit]
        exact List.mem_append_right _ (List.mem_singleton_self _)
      · rw [htext, hversion]
        exact List.mem_append_left _ hfirst
    have hlist : before ++ (edit :: edits).filterMap Edit.submission? =
        before ++ edit.submission?.toList ++ edits.filterMap Edit.submission? := by
      cases hedit : edit.submission? <;> simp [hedit]
    rw [current_cons, hlist]
    exact ih hnext

/-- If every change is evaluated, nothing is ever stale. -/
theorem isStale_current (hpolicy : a.settings.evaluation = .onEveryChange) (edits : List Edit)
    (hfirst : first.isStale = false) : (current a first edits).isStale = false := by
  induction edits generalizing first with
  | nil => exact hfirst
  | cons edit edits ih =>
    refine ih ?_
    obtain ⟨t, version, -, -, -, -, hfresh⟩ | ⟨-, -, hfresh⟩ := edit.apply_cases a first
    · exact hfresh hpolicy
    · exact hfresh hfirst

/-! ## Saves -/

/-- **A save that has read its version earlier in the run** shows the current text, and shows it under
the version that was read if the text is stale. So it keeps the version from being lowered, and the
text under a version that it came with, exactly if the text has been evaluated or nothing has been
accepted since the version was read. If every change is evaluated, the first is always the case. -/
theorem rebuild_of_published (a : Analysis) (file : FileId) (path : FilePath) (t : Text)
    (opened : Version) (edits : List Edit) {version : Version}
    (hversion : version ∈
      (published a (.evaluated a file path t opened) edits).map Snapshot.version) :
    let now := current a (.evaluated a file path t opened) edits
    let next := rebuilt a now version
    next.text = now.text ∧
    next.version = (if now.isStale then version else now.version) ∧
    version ≤ now.version ∧
    ((now.version ≤ next.version ∧
        (next.text, next.version) ∈ submissions (t, opened) edits) ↔
      now.isStale = false ∨ version = now.version) ∧
    (a.settings.evaluation = .onEveryChange → now.isStale = false) := by
  intro now next
  obtain ⟨earlier, hearlier, rfl⟩ := List.mem_map.mp hversion
  have hle : earlier.version ≤ now.version := version_le_current hearlier
  have hfirst : ((Snapshot.evaluated a file path t opened).text,
      (Snapshot.evaluated a file path t opened).version) ∈ [(t, opened)] := by simp
  have hsubmitted : (now.text, now.version) ∈ submissions (t, opened) edits :=
    submitted_current edits hfirst
  have htext : next.text = now.text := text_rebuilt a now earlier.version
  have hnext : next.version = if now.isStale then earlier.version else now.version :=
    version_rebuilt a now earlier.version
  refine ⟨htext, hnext, hle, ?_, fun hpolicy => isStale_current hpolicy edits (by simp)⟩
  constructor
  · rintro ⟨hkept, -⟩
    cases hstale : now.isStale with
    | false => exact .inl rfl
    | true =>
      rw [hnext, hstale, if_pos rfl] at hkept
      exact .inr (Int.le_antisymm hle hkept)
  · intro hcase
    have hsame : next.version = now.version := by
      rw [hnext]
      rcases hcase with hfresh | heq
      · rw [hfresh, if_neg Bool.false_ne_true]
      · rw [heq, ite_self]
    rw [htext, hsame]
    exact ⟨Int.le_refl _, hsubmitted⟩

/-- A document whose texts are evaluated when it is saved. -/
def onSave : Analysis := ⟨fun _ _ _ => .error (.failed "no tools"), ⟨.onSave, [], none⟩⟩

/-- A second version that is stale, and whose own number the save has read. -/
theorem rebuild_of_published_secondVersion :
    let first := Snapshot.evaluated onSave ⟨0⟩ ⟨"/a".toList⟩ "<a/>".toList 1
    let edits := [Edit.update "<b/>".toList 2]
    let now := current onSave first edits
    let next := rebuilt onSave now 2
    (2 : Version) ∈ (published onSave first edits).map Snapshot.version ∧
    now.isStale = true ∧
    now.version ≤ next.version ∧
    (next.text, next.version) ∈ submissions ("<a/>".toList, 1) edits := by
  intro first edits now next
  have hread : (2 : Version) ∈ (published onSave first edits).map Snapshot.version := by
    decide +kernel
  have hsame : (2 : Version) = now.version := by decide +kernel
  obtain ⟨-, -, -, hkept, -⟩ :=
    rebuild_of_published onSave ⟨0⟩ ⟨"/a".toList⟩ "<a/>".toList 1 edits hread
  exact ⟨hread, by decide +kernel, hkept.mpr (.inr hsame)⟩

/-- **A save can lower the version.** Between its two steps a second version is accepted; its text is
then published under the first version, with which another text was submitted. -/
theorem rebuild_of_published_lowers : ¬ ∀ (a : Analysis) (file : FileId) (path : FilePath) (t : Text)
    (opened : Version) (edits : List Edit) (version : Version),
    version ∈ (published a (.evaluated a file path t opened) edits).map Snapshot.version →
    let now := current a (.evaluated a file path t opened) edits
    let next := rebuilt a now version
    now.version ≤ next.version ∧ (next.text, next.version) ∈ submissions (t, opened) edits := by
  intro hall
  have hread : (1 : Version) ∈ (published onSave
      (.evaluated onSave ⟨0⟩ ⟨"/a".toList⟩ "<a/>".toList 1)
      [.update "<b/>".toList 2]).map Snapshot.version := by decide +kernel
  have hlowered : ¬ (current onSave (.evaluated onSave ⟨0⟩ ⟨"/a".toList⟩ "<a/>".toList 1)
      [.update "<b/>".toList 2]).version ≤
      (rebuilt onSave (current onSave (.evaluated onSave ⟨0⟩ ⟨"/a".toList⟩ "<a/>".toList 1)
        [.update "<b/>".toList 2]) 1).version := by decide +kernel
  exact hlowered (hall onSave ⟨0⟩ ⟨"/a".toList⟩ "<a/>".toList 1 [.update "<b/>".toList 2] 1 hread).1

end ProjectFile.Workspace
