import ProjectFile.Proofs.Workspace.Run

/-!
Documents do not depend on one another.

Two hosts that analyse texts in the same way, know the same files and have the same snapshot of a file
are alike to everyone who only looks at that file (`Host.Alike`). A call keeps two such hosts alike,
and they answer it in the same way if it is addressed to the file (`Host.Alike.perform`); one host may
even take an update, a save or a close of another file that the other host is spared
(`Host.Alike.perform_foreign`). So of a run with some of these calls left out the file shows nothing
(`Host.run_spared`).
-/

namespace ProjectFile.Workspace

open Evaluation

/-- Whether a call is an update, a save or a close of another file. -/
def Call.IsForeign (file : FileId) : Call → Prop
  | .openDocument _ _ _ => False
  | .update addressed _ _ => addressed ≠ file
  | .save addressed => addressed ≠ file
  | .close addressed => addressed ≠ file

instance (file : FileId) : (call : Call) → Decidable (call.IsForeign file)
  | .openDocument _ _ _ => inferInstanceAs (Decidable False)
  | .update addressed _ _ => inferInstanceAs (Decidable (addressed ≠ file))
  | .save addressed => inferInstanceAs (Decidable (addressed ≠ file))
  | .close addressed => inferInstanceAs (Decidable (addressed ≠ file))

/-- A call of a run, and whether it is left out of the other one. -/
structure Cue where
  call : Call
  isSpared : Bool

/-- The calls of a run. -/
def Cue.calls (cues : List Cue) : List Call := cues.map Cue.call

/-- The calls that are not left out. -/
def Cue.callsKept (cues : List Cue) : List Call :=
  (cues.filter fun cue => !cue.isSpared).map Cue.call

namespace Host

/-- Whether two hosts are the same to someone who looks only at one file. -/
structure Alike (file : FileId) (h k : Host) : Prop where
  analysis : h.analysis = k.analysis
  files : h.files = k.files
  snapshot : h.snapshot? file = k.snapshot? file

namespace Alike

variable {file : FileId} {h k : Host}

theorem addressee (halike : Alike file h k) (call : Call) : h.addressee call = k.addressee call := by
  cases call with
  | openDocument path t version => simp only [Host.addressee, halike.files]
  | _ => rfl

/-- The answer to a change of the file. -/
theorem outcome_change (halike : Alike file h k) (next : Snapshot → Option Snapshot) :
    (h.change file next).2 = (k.change file next).2 := by
  unfold change
  rw [halike.snapshot]
  split
  · rfl
  · split <;> rfl

theorem snapshot_change (halike : Alike file h k) (addressed : FileId)
    (next : Snapshot → Option Snapshot) :
    (h.change addressed next).1.snapshot? file = (k.change addressed next).1.snapshot? file := by
  rw [snapshot?_change, snapshot?_change, halike.snapshot]

/-- **Two hosts that are alike stay so by a call**, and answer it in the same way if it is addressed to
the file. -/
theorem perform (halike : Alike file h k) (call : Call) :
    Alike file (h.perform call).1 (k.perform call).1 ∧
      (h.addressee call = file → (h.perform call).2 = (k.perform call).2) := by
  have hframe (hsnapshot : (h.perform call).1.snapshot? file = (k.perform call).1.snapshot? file) :
      Alike file (h.perform call).1 (k.perform call).1 := by
    refine ⟨?_, ?_, hsnapshot⟩
    · rw [analysis_perform, analysis_perform, halike.analysis]
    · rw [files_perform, files_perform, halike.files]
  cases call with
  | openDocument path t version =>
    refine ⟨hframe ?_, fun _ => ?_⟩
    · show (h.openDocument path t version).1.snapshot? file =
        (k.openDocument path t version).1.snapshot? file
      rw [snapshot?_openDocument, snapshot?_openDocument, halike.analysis, halike.files,
        halike.snapshot]
    · simp only [Host.perform, openDocument, halike.analysis, halike.files]
  | update addressed t version =>
    refine ⟨hframe ?_, fun haddressed => ?_⟩
    · show (h.update addressed t version).1.snapshot? file =
        (k.update addressed t version).1.snapshot? file
      rw [update, update, halike.analysis]
      exact halike.snapshot_change addressed _
    · obtain rfl : addressed = file := haddressed
      simp only [Host.perform, update, halike.analysis, halike.outcome_change]
  | save addressed =>
    refine ⟨hframe ?_, fun haddressed => ?_⟩
    · show (h.save addressed).1.snapshot? file = (k.save addressed).1.snapshot? file
      rw [save, save, halike.analysis]
      exact halike.snapshot_change addressed _
    · obtain rfl : addressed = file := haddressed
      simp only [Host.perform, save, halike.analysis, halike.outcome_change]
  | close addressed =>
    refine ⟨hframe ?_, fun haddressed => ?_⟩
    · show (h.close addressed).1.snapshot? file = (k.close addressed).1.snapshot? file
      rw [snapshot?_close, snapshot?_close, halike.snapshot]
    · obtain rfl : addressed = file := haddressed
      simp only [Host.perform, close, halike.snapshot]

/-- **One of them may take a call that is foreign to the file.** -/
theorem perform_foreign (halike : Alike file h k) {call : Call} (hforeign : call.IsForeign file) :
    Alike file (h.perform call).1 k ∧ h.addressee call ≠ file := by
  have haddressee : h.addressee call ≠ file := by
    cases call with
    | openDocument path t version => exact hforeign.elim
    | _ => exact hforeign
  have hfiles : filesAfter h.files call = h.files := by
    cases call with
    | openDocument path t version => exact hforeign.elim
    | _ => rfl
  refine ⟨⟨?_, ?_, ?_⟩, haddressee⟩
  · rw [analysis_perform, halike.analysis]
  · rw [files_perform, hfiles, halike.files]
  · rw [snapshot?_perform_of_ne haddressee.symm, halike.snapshot]

/-- A run and one with foreign calls left out. -/
theorem run (halike : Alike file h k) {cues : List Cue}
    (hforeign : ∀ cue ∈ cues, cue.isSpared = true → cue.call.IsForeign file) :
    Alike file (h.run (Cue.calls cues)) (k.run (Cue.callsKept cues)) ∧
      h.repliesTo file (Cue.calls cues) = k.repliesTo file (Cue.callsKept cues) := by
  induction cues generalizing h k with
  | nil => exact ⟨halike, rfl⟩
  | cons cue cues ih =>
    rw [List.forall_mem_cons] at hforeign
    by_cases hspared : cue.isSpared = true
    -- Only the first host takes the call.
    · obtain ⟨hcall, haddressee⟩ := halike.perform_foreign (hforeign.1 hspared)
      obtain ⟨hrun, hreplies⟩ := ih hcall hforeign.2
      have hkept : Cue.callsKept (cue :: cues) = Cue.callsKept cues := by
        simp [Cue.callsKept, hspared]
      rw [hkept]
      refine ⟨hrun, ?_⟩
      rw [Cue.calls, List.map_cons, repliesTo, if_neg haddressee]
      exact hreplies
    · obtain ⟨hcall, hreply⟩ := halike.perform cue.call
      obtain ⟨hrun, hreplies⟩ := ih hcall hforeign.2
      have hkept : Cue.callsKept (cue :: cues) = cue.call :: Cue.callsKept cues := by
        simp [Cue.callsKept, hspared]
      rw [hkept]
      refine ⟨hrun, ?_⟩
      rw [Cue.calls, List.map_cons, repliesTo, repliesTo, ← halike.addressee cue.call]
      split
      · next haddressee =>
        rw [hreply haddressee]
        exact congrArg _ hreplies
      · exact hreplies

end Alike

/-- **Documents are independent.** If any updates, saves and closes of other files are left out of a
run, a file has the same snapshot at every point of the run, and all calls that are addressed to it are
answered in the same way. -/
theorem run_spared (h : Host) (file : FileId) (cues : List Cue)
    (hforeign : ∀ cue ∈ cues, cue.isSpared = true → cue.call.IsForeign file) :
    (∀ n, (h.run (Cue.calls (cues.take n))).snapshot? file =
      (h.run (Cue.callsKept (cues.take n))).snapshot? file) ∧
    h.repliesTo file (Cue.calls cues) = h.repliesTo file (Cue.callsKept cues) := by
  have hself : Alike file h h := ⟨rfl, rfl, rfl⟩
  refine ⟨fun n => ?_, (hself.run hforeign).2⟩
  have htake : ∀ cue ∈ cues.take n, cue.isSpared = true → cue.call.IsForeign file :=
    fun cue hcue => hforeign cue (List.mem_of_mem_take hcue)
  exact (hself.run htake).1.snapshot

/-- A run on two files, of which the second is malformed, is saved, and is closed at last. -/
def twoFiles : List Cue :=
  [⟨.openDocument ⟨"/a".toList⟩ "<Project/>".toList 1, false⟩,
    ⟨.openDocument ⟨"/b".toList⟩ "<Project>".toList 1, false⟩,
    ⟨.update ⟨1⟩ "</Project>".toList 2, true⟩,
    ⟨.update ⟨0⟩ "<Project></Project>".toList 2, false⟩,
    ⟨.save ⟨1⟩, true⟩,
    ⟨.save ⟨0⟩, false⟩,
    ⟨.close ⟨1⟩, true⟩,
    ⟨.close ⟨0⟩, false⟩]

/-- Of all that is done to the second file the first one shows nothing, even if no text can be
evaluated. -/
theorem run_spared_twoFiles :
    let h := empty ⟨fun _ _ _ => .error (.failed "no tools"), ⟨.onSave, [], none⟩⟩ .builtin
    (∀ cue ∈ twoFiles, cue.isSpared = true → cue.call.IsForeign ⟨0⟩) ∧
    (∀ n, (h.run (Cue.calls (twoFiles.take n))).snapshot? ⟨0⟩ =
      (h.run (Cue.callsKept (twoFiles.take n))).snapshot? ⟨0⟩) ∧
    h.repliesTo ⟨0⟩ (Cue.calls twoFiles) = h.repliesTo ⟨0⟩ (Cue.callsKept twoFiles) := by
  intro h
  have hforeign : ∀ cue ∈ twoFiles, cue.isSpared = true → cue.call.IsForeign ⟨0⟩ := by decide
  exact ⟨hforeign, run_spared h ⟨0⟩ twoFiles hforeign⟩

end Host

end ProjectFile.Workspace
