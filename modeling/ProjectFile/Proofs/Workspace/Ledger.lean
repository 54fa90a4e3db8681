import ProjectFile.Proofs.Workspace.Run

/-!
What an open document shows after any run of a host.

A `Ledger` is what the calls of a run come to for one document, without any analysis of its texts: the
text and the version that were accepted last, the text that was evaluated last, and whether an update
was accepted since. The main result is that at the end of every run each file is open exactly if it has
a ledger, and its snapshot is the one that the ledger tells of (`Host.run_shows_ledger`).

The ledger of a document is carried along with its snapshot: every call that is addressed to the
document makes of both what belongs together again (`Ledger.Shows.updated`, `Ledger.Shows.saved`), and
no other call touches either of them.
-/

namespace ProjectFile.Workspace

open Evaluation

/-! ## Ledgers -/

/-- What the calls of a run come to for an open document. -/
structure Ledger where
  /-- The path at which the document was opened. -/
  path : FilePath
  /-- The text of the last accepted open or update. -/
  text : Text
  /-- The version of that text. -/
  version : Version
  /-- The text that was evaluated last. -/
  evaluated : Text
  /-- Whether an update was accepted after the last open or applied save. -/
  isEdited : Bool
  deriving DecidableEq, Repr

namespace Ledger

/-- A document that has just been opened. Its text is evaluated under every policy. -/
def opened (path : FilePath) (t : Text) (version : Version) : Ledger := ⟨path, t, version, t, false⟩

/-- Whether the text has not been evaluated since it was accepted. -/
def isStale (policy : EvaluationPolicy) (l : Ledger) : Bool := policy == .onSave && l.isEdited

/-- An update is accepted if its version is a later one. Its text is evaluated at once, or waits for a
save. -/
def updated (policy : EvaluationPolicy) (l : Ledger) (t : Text) (version : Version) : Ledger :=
  if l.version < version then
    { l with
      text := t
      version := version
      evaluated := if policy = .onEveryChange then t else l.evaluated
      isEdited := true }
  else l

/-- A save is applied if the document is stale. Then its text is evaluated. -/
def saved (policy : EvaluationPolicy) (l : Ledger) : Ledger :=
  if l.isStale policy then { l with evaluated := l.text, isEdited := false } else l

/-- The ledger of a file after a call; there is none unless the file is open. -/
def next (policy : EvaluationPolicy) (files : FileTable) (file : FileId) (l : Option Ledger) :
    Call → Option Ledger
  | .openDocument path t version =>
    if file = (files.fileId path).2 then some (opened path t version) else l
  | .update addressed t version =>
    if file = addressed then l.map fun l => l.updated policy t version else l
  | .save addressed => if file = addressed then l.map (saved policy) else l
  | .close addressed => if file = addressed then none else l

/-- The ledger of a file after some calls, where `files` are known and the file has the ledger `l`
before them. -/
def after (policy : EvaluationPolicy) (file : FileId) (files : FileTable) (l : Option Ledger) :
    List Call → Option Ledger
  | [] => l
  | call :: calls =>
    after policy file (Host.filesAfter files call) (next policy files file l call) calls

end Ledger

/-- The project that evaluation finds in a text, if the text has no syntax errors and the engine does
not fail. -/
def Analysis.project? (a : Analysis) (path : FilePath) (t : Text) : Option EvaluatedProject :=
  if (Markup.Document.parse t).errors = [] then (a.engine path t a.settings.globalProperties).toOption
  else none

/-! ## Snapshots that show a ledger -/

/-- Whether a snapshot is what a ledger tells of. -/
structure Ledger.Shows (a : Analysis) (file : FileId) (l : Ledger) (s : Snapshot) : Prop where
  ofFile : s.file = file
  path : s.path = l.path
  text : s.text = l.text
  version : s.version = l.version
  document : s.document = .parse l.text
  index : s.index = .ofText l.text
  stale_iff : s.isStale = true ↔ a.settings.evaluation = .onSave ∧ l.isEdited = true
  project : s.project = a.project? l.path l.evaluated
  /-- A snapshot that is not stale is that of the document opened anew. -/
  fresh : s.isStale = false → s = .evaluated a file l.path l.text l.version
  /-- It has a locator exactly if its text could be evaluated, and a project exactly if it has a
  locator. -/
  locator : s.isStale = false →
    (s.locator.isOk = true ↔ (Markup.Document.parse l.text).errors = [] ∧
      (a.engine l.path l.text a.settings.globalProperties).isOk = true) ∧
    (s.project.isSome = true ↔ s.locator.isOk = true)
  stale : s.isStale = true → s.locator = .error .pending ∧
    s.diagnostics = (Markup.Document.parse l.text).errors.map
      (Diagnostic.ofSyntaxError file (.ofText l.text))

namespace Snapshot

variable (a : Analysis) (file : FileId) (path : FilePath) (t : Text) (version : Version)

/-- What a text that has been evaluated is, whatever came of it. -/
theorem evaluated_eq : ∃ project locator diagnostics, evaluated a file path t version =
    ⟨file, path, version, t, .ofText t, .parse t, project, locator, diagnostics, false⟩ := by
  unfold evaluated
  dsimp only
  split
  · split <;> exact ⟨_, _, _, rfl⟩
  · exact ⟨_, _, _, rfl⟩

theorem project_evaluated : (evaluated a file path t version).project = a.project? path t := by
  unfold evaluated Analysis.project? Markup.Document.isValid
  simp only [List.isEmpty_iff]
  split
  · cases a.engine path t a.settings.globalProperties <;> rfl
  · rfl

theorem isOk_locator_evaluated :
    (evaluated a file path t version).locator.isOk = true ↔ (Markup.Document.parse t).errors = [] ∧
      (a.engine path t a.settings.globalProperties).isOk = true := by
  unfold evaluated Markup.Document.isValid
  simp only [List.isEmpty_iff]
  split
  · next h =>
    rw [and_iff_right h]
    cases a.engine path t a.settings.globalProperties <;> exact Iff.rfl
  · next h => simp [h, Except.isOk, Except.toBool]

theorem isSome_project_evaluated : (evaluated a file path t version).project.isSome = true ↔
    (evaluated a file path t version).locator.isOk = true := by
  rw [project_evaluated, isOk_locator_evaluated, Analysis.project?]
  split
  · next h =>
    rw [and_iff_right h]
    cases a.engine path t a.settings.globalProperties <;> simp [Except.isOk, Except.toBool, Except.toOption]
  · next h => simp [h]

end Snapshot

namespace Ledger

variable {a : Analysis} {file : FileId} {l : Ledger} {s : Snapshot}

theorem isStale_eq_true {policy : EvaluationPolicy} :
    l.isStale policy = true ↔ policy = .onSave ∧ l.isEdited = true := by
  simp [isStale]

namespace Shows

/-- The snapshot of a text that has just been evaluated shows a ledger that says so. -/
theorem of_evaluated (a : Analysis) (file : FileId) {l : Ledger} (hevaluated : l.evaluated = l.text)
    (hstale : l.isStale a.settings.evaluation = false) :
    l.Shows a file (.evaluated a file l.path l.text l.version) := by
  obtain ⟨project, locator, diagnostics, heq⟩ :=
    Snapshot.evaluated_eq a file l.path l.text l.version
  have hfresh : (Snapshot.evaluated a file l.path l.text l.version).isStale = false := by rw [heq]
  exact {
    ofFile := by rw [heq]
    path := by rw [heq]
    text := by rw [heq]
    version := by rw [heq]
    document := by rw [heq]
    index := by rw [heq]
    stale_iff := by rw [← isStale_eq_true, hfresh, hstale]
    project := by rw [Snapshot.project_evaluated, hevaluated]
    fresh := fun _ => rfl
    locator := fun _ =>
      ⟨Snapshot.isOk_locator_evaluated _ _ _ _ _, Snapshot.isSome_project_evaluated _ _ _ _ _⟩
    stale := fun h => absurd h (by rw [hfresh]; exact Bool.false_ne_true) }

/-- So does the snapshot of a text that has only been parsed, of a ledger that is stale. -/
theorem of_parsed {k : Ledger} (h : l.Shows a file s) (hpath : k.path = l.path)
    (hevaluated : k.evaluated = l.evaluated) (hstale : k.isStale a.settings.evaluation = true) :
    k.Shows a file (.parsed s k.text k.version) where
  ofFile := h.ofFile
  path := h.path.trans hpath.symm
  text := rfl
  version := rfl
  document := rfl
  index := rfl
  stale_iff := iff_of_true rfl (isStale_eq_true.1 hstale)
  project := by
    have hproject : (Snapshot.parsed s k.text k.version).project = s.project := rfl
    rw [hproject, h.project, hpath, hevaluated]
  fresh := nofun
  locator := nofun
  stale := fun _ => by
    refine ⟨rfl, ?_⟩
    have hdiagnostics : (Snapshot.parsed s k.text k.version).diagnostics =
      (Markup.Document.parse k.text).errors.map
        (Diagnostic.ofSyntaxError s.file (.ofText k.text)) := rfl
    rw [hdiagnostics, h.ofFile]

/-- **An update makes of a snapshot what it makes of the ledger.** -/
theorem updated (h : l.Shows a file s) (t : Text) (version : Version) :
    (l.updated a.settings.evaluation t version).Shows a file
      ((updateSnapshot a s t version).getD s) := by
  unfold updateSnapshot rebuild Ledger.updated
  dsimp only
  rw [h.version]
  by_cases hlater : l.version < version
  · have hnot : ¬ version ≤ l.version := Int.not_le.2 hlater
    rw [if_pos hlater, if_neg hnot, Option.getD_some]
    cases hpolicy : a.settings.evaluation with
    | onEveryChange =>
      rw [if_pos rfl, if_pos (decide_eq_true rfl), h.ofFile, h.path]
      exact of_evaluated a file (l := ⟨l.path, t, version, t, true⟩) rfl (by rw [hpolicy]; rfl)
    | onSave =>
      rw [if_neg (by decide), if_neg (by decide)]
      exact h.of_parsed (k := ⟨l.path, t, version, l.evaluated, true⟩) rfl rfl (by rw [hpolicy]; rfl)
  · have hle : version ≤ l.version := Int.not_lt.1 hlater
    rw [if_neg hlater, if_pos hle, Option.getD_none]
    exact h

/-- **So does a save.** -/
theorem saved (h : l.Shows a file s) :
    (l.saved a.settings.evaluation).Shows a file ((saveSnapshot a s).getD s) := by
  have hstale : s.isStale = l.isStale a.settings.evaluation := by
    rw [Bool.eq_iff_iff, h.stale_iff, isStale_eq_true]
  unfold saveSnapshot rebuild Ledger.saved
  dsimp only
  rw [hstale]
  split
  · rw [Option.getD_some, if_pos rfl, h.ofFile, h.path, h.text, h.version]
    exact of_evaluated a file (l := ⟨l.path, l.text, l.version, l.text, false⟩) rfl
      (Bool.and_false _)
  · exact h

end Shows

end Ledger

/-! ## Runs -/

namespace Host

variable {h : Host} {file : FileId} {l : Option Ledger}

/-- **A call keeps snapshot and ledger together.** -/
theorem perform_shows (hl : Option.Rel (Ledger.Shows h.analysis file) l (h.snapshot? file))
    (call : Call) :
    Option.Rel (Ledger.Shows h.analysis file)
      (Ledger.next h.analysis.settings.evaluation h.files file l call)
      ((h.perform call).1.snapshot? file) := by
  -- A change of the document goes the same way in the ledger, if the file is open.
  have hchange (addressed : FileId) {next : Snapshot → Option Snapshot} {next' : Ledger → Ledger}
      (hnext : ∀ l s, Ledger.Shows h.analysis file l s →
        Ledger.Shows h.analysis file (next' l) ((next s).getD s)) :
      Option.Rel (Ledger.Shows h.analysis file) (if file = addressed then l.map next' else l)
        ((h.change addressed next).1.snapshot? file) := by
    rw [snapshot?_change]
    split
    · generalize h.snapshot? file = s at hl
      cases hl with
      | none => exact .none
      | some hshows => exact .some (hnext _ _ hshows)
    · exact hl
  cases call with
  | openDocument path t version =>
    have hopen := h.snapshot?_openDocument path t version file
    by_cases hfile : file = (h.files.fileId path).2
    · rw [if_pos hfile, ← hfile] at hopen
      rw [Ledger.next, if_pos hfile]
      show Option.Rel _ _ ((h.openDocument path t version).1.snapshot? file)
      rw [hopen]
      exact .some (.of_evaluated h.analysis file (l := .opened path t version) rfl (Bool.and_false _))
    · rw [if_neg hfile] at hopen
      rw [Ledger.next, if_neg hfile]
      show Option.Rel _ _ ((h.openDocument path t version).1.snapshot? file)
      rw [hopen]
      exact hl
  | update addressed t version => exact hchange addressed fun _ _ hshows => hshows.updated t version
  | save addressed => exact hchange addressed fun _ _ hshows => hshows.saved
  | close addressed =>
    have hclose := h.snapshot?_close addressed file
    show Option.Rel _ _ ((h.close addressed).1.snapshot? file)
    rw [hclose, Ledger.next]
    split
    · exact .none
    · exact hl

/-- So does a run. -/
theorem run_shows (hl : Option.Rel (Ledger.Shows h.analysis file) l (h.snapshot? file))
    (calls : List Call) :
    Option.Rel (Ledger.Shows h.analysis file)
      (Ledger.after h.analysis.settings.evaluation file h.files l calls)
      ((h.run calls).snapshot? file) := by
  induction calls generalizing h l with
  | nil => exact hl
  | cons call calls ih =>
    have hcall := perform_shows hl call
    rw [← analysis_perform h call] at hcall
    have hrun := ih hcall
    rw [analysis_perform, files_perform] at hrun
    exact hrun

/-- **At the end of every run a file is open exactly if it has a ledger, and its snapshot is what the
ledger tells of.** -/
theorem run_shows_ledger (a : Analysis) (schema : SchemaHelp) (calls : List Call) (file : FileId) :
    Option.Rel (Ledger.Shows a file) (Ledger.after a.settings.evaluation file .empty none calls)
      (((empty a schema).run calls).snapshot? file) := by
  have hnone : Option.Rel (Ledger.Shows a file) none ((empty a schema).snapshot? file) := .none
  exact run_shows (h := empty a schema) hnone calls

/-- An update that waits for a save, and one of an old version that is not accepted. -/
example : Ledger.after .onSave ⟨0⟩ .empty none
    [.openDocument ⟨"/a".toList⟩ "<a/>".toList 1, .update ⟨0⟩ "<b/>".toList 3,
      .update ⟨0⟩ "<c/>".toList 2] =
    some ⟨⟨"/a".toList⟩, "<b/>".toList, 3, "<a/>".toList, true⟩ := by decide

end Host

end ProjectFile.Workspace
