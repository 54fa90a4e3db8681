import ProjectFile.Workspace.Host

/-!
Runs of a host.

A run is a list of calls, performed one after the other; each call is addressed to one file and is
answered. The lemmas say what a call does to the snapshot of a file: a call that is addressed to
another file leaves it alone (`Host.snapshot?_perform_of_ne`), and what the calls addressed to the
file do depends on the host only through the way it analyses texts, the files that it knows and that
snapshot (`Host.snapshot?_openDocument`, `Host.snapshot?_change`, `Host.snapshot?_close`).
-/

namespace ProjectFile.Workspace

open Evaluation

/-- A call on a host. -/
inductive Call where
  | openDocument (path : FilePath) (t : Text) (version : Version)
  | update (file : FileId) (t : Text) (version : Version)
  | save (file : FileId)
  | close (file : FileId)

/-- What a call answers. -/
inductive Reply where
  | opened (file : FileId) (outcome : Outcome)
  /-- Nothing is told of a file that is not open. -/
  | changed (outcome : Option Outcome)
  | closed (wasOpen : Bool)

namespace Host

/-- The file that a call is addressed to. -/
def addressee (h : Host) : Call → FileId
  | .openDocument path _ _ => (h.files.fileId path).2
  | .update file _ _ => file
  | .save file => file
  | .close file => file

/-- The host after a call, and what the call answers. -/
def perform (h : Host) : Call → Host × Reply
  | .openDocument path t version =>
    let after := h.openDocument path t version
    (after.1, .opened after.2.1 after.2.2)
  | .update file t version => ((h.update file t version).1, .changed (h.update file t version).2)
  | .save file => ((h.save file).1, .changed (h.save file).2)
  | .close file => ((h.close file).1, .closed (h.close file).2)

/-- The host after some calls. -/
def run (h : Host) (calls : List Call) : Host := calls.foldl (fun h call => (h.perform call).1) h

/-- What those of some calls answer that are addressed to a file. -/
def repliesTo (file : FileId) (h : Host) : List Call → List Reply
  | [] => []
  | call :: calls =>
    let after := h.perform call
    if h.addressee call = file then after.2 :: after.1.repliesTo file calls
    else after.1.repliesTo file calls

/-! ## What stays -/

/-- A change of a document keeps everything but the documents. -/
theorem change_frame (h : Host) (file : FileId) (next : Snapshot → Option Snapshot) :
    (h.change file next).1.analysis = h.analysis ∧ (h.change file next).1.files = h.files := by
  unfold change
  split
  · exact ⟨rfl, rfl⟩
  · split <;> exact ⟨rfl, rfl⟩

/-- No call changes the way in which texts are analysed. -/
@[simp] theorem analysis_perform (h : Host) (call : Call) :
    (h.perform call).1.analysis = h.analysis := by
  cases call with
  | openDocument path t version => rfl
  | update file t version => exact (h.change_frame file _).1
  | save file => exact (h.change_frame file _).1
  | close file => rfl

/-- The files that are known after a call: only opening a document adds to them. -/
def filesAfter (files : FileTable) : Call → FileTable
  | .openDocument path _ _ => (files.fileId path).1
  | _ => files

@[simp] theorem files_perform (h : Host) (call : Call) :
    (h.perform call).1.files = filesAfter h.files call := by
  cases call with
  | openDocument path t version => rfl
  | update file t version => exact (h.change_frame file _).2
  | save file => exact (h.change_frame file _).2
  | close file => rfl

/-! ## Snapshots -/

theorem lookup_document (file file' : FileId) (s : Snapshot) (documents : List (FileId × Snapshot)) :
    ((file, s) :: documents).lookup file' =
      if file' = file then some s else documents.lookup file' := by
  by_cases h : file' = file
  · simp [h]
  · have hne : (file' == file) = false := beq_false_of_ne h
    rw [List.lookup_cons, hne, if_neg h]

theorem lookup_publish (file file' : FileId) (s : Snapshot) (documents : List (FileId × Snapshot)) :
    (publish file s documents).lookup file' =
      if file' = file then some s else documents.lookup file' := by
  induction documents with
  | nil => exact lookup_document file file' s []
  | cons d documents ih =>
    obtain ⟨g, s'⟩ := d
    by_cases hg : g = file
    · rw [publish, if_pos hg, lookup_document, lookup_document, hg]
      split <;> rfl
    · rw [publish, if_neg hg, lookup_document, lookup_document, ih]
      by_cases hfile : file' = g
      · have hne : file' ≠ file := fun h => hg (hfile ▸ h)
        rw [if_pos hfile, if_pos hfile, if_neg hne]
      · rw [if_neg hfile, if_neg hfile]

theorem lookup_remove (file file' : FileId) (documents : List (FileId × Snapshot)) :
    (documents.filter fun d => d.1 != file).lookup file' =
      if file' = file then none else documents.lookup file' := by
  induction documents with
  | nil => simp
  | cons d documents ih =>
    obtain ⟨g, s⟩ := d
    by_cases hg : g = file
    · rw [List.filter_cons_of_neg (by simpa using hg), ih, lookup_document, hg]
      split <;> rfl
    · rw [List.filter_cons_of_pos (by simpa using hg), lookup_document, lookup_document, ih]
      by_cases hfile : file' = g
      · have hne : file' ≠ file := fun h => hg (hfile ▸ h)
        rw [if_pos hfile, if_pos hfile, if_neg hne]
      · rw [if_neg hfile, if_neg hfile]

/-- The snapshot of a file after a document is opened. -/
theorem snapshot?_openDocument (h : Host) (path : FilePath) (t : Text) (version : Version)
    (file : FileId) :
    (h.openDocument path t version).1.snapshot? file =
      if file = (h.files.fileId path).2 then
        some (Snapshot.evaluated h.analysis (h.files.fileId path).2 path t version)
      else h.snapshot? file :=
  lookup_publish _ _ _ _

/-- The snapshot of a file after a change: `next` makes it from the one before, if the change is
addressed to the file and `next` makes anything. -/
theorem snapshot?_change (h : Host) (addressed : FileId) (next : Snapshot → Option Snapshot)
    (file : FileId) :
    (h.change addressed next).1.snapshot? file =
      if file = addressed then (h.snapshot? file).map fun s => (next s).getD s
      else h.snapshot? file := by
  unfold change
  split
  · next hnone =>
    split
    · next heq => rw [heq, hnone]; rfl
    · rfl
  · next current hsome =>
    split
    · next hnext =>
      split
      · next heq => rw [heq, hsome, Option.map_some, hnext]; rfl
      · rfl
    · next s hnext =>
      show (publish addressed s h.documents).lookup file = _
      rw [lookup_publish]
      split
      · next heq => rw [heq, hsome, Option.map_some, hnext]; rfl
      · rfl

theorem snapshot?_close (h : Host) (addressed file : FileId) :
    (h.close addressed).1.snapshot? file =
      if file = addressed then none else h.snapshot? file := lookup_remove _ _ _

/-- **A call leaves the snapshots of all files alone but that of the file that it is addressed
to.** -/
theorem snapshot?_perform_of_ne {h : Host} {call : Call} {file : FileId}
    (hne : file ≠ h.addressee call) : (h.perform call).1.snapshot? file = h.snapshot? file := by
  cases call with
  | openDocument path t version => exact (h.snapshot?_openDocument path t version file).trans (if_neg hne)
  | update g t version => exact (h.snapshot?_change g _ file).trans (if_neg hne)
  | save g => exact (h.snapshot?_change g _ file).trans (if_neg hne)
  | close g => exact (h.snapshot?_close g file).trans (if_neg hne)

end Host

end ProjectFile.Workspace
