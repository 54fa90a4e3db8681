import ProjectFile.Source.FileTable
import ProjectFile.Workspace.Snapshot

/-!
The open documents of an editor. Each document is its current snapshot; documents do not depend on
one another.
-/

namespace ProjectFile.Workspace

open Evaluation

/-- What opening, updating or saving a document did. -/
structure Outcome where
  /-- Whether the call changed the document. -/
  applied : Bool
  /-- Whether the text has not been evaluated yet. -/
  isStale : Bool
  errors : List Markup.SyntaxError

/-- The outcome of a call that leaves the given snapshot. -/
def Outcome.ofSnapshot (applied : Bool) (s : Snapshot) : Outcome :=
  ⟨applied, s.isStale, s.document.errors⟩

/-- The snapshot that replaces `current`, if any: of a new text, which must have a later version, or
of the same text, if its evaluation is stale. -/
def rebuild (a : Analysis) (current : Snapshot) (text : Option Text) (version : Version)
    (evaluate : Bool) : Option Snapshot :=
  let build (t : Text) : Snapshot :=
    if evaluate then .evaluated a current.file current.path t version
    else .parsed current t version
  match text with
  | some t => if version ≤ current.version then none else some (build t)
  | none => if current.isStale then some (build current.text) else none

/-- Takes in a new text. -/
def updateSnapshot (a : Analysis) (current : Snapshot) (t : Text) (version : Version) :
    Option Snapshot :=
  rebuild a current (some t) version (decide (a.settings.evaluation = .onEveryChange))

/-- Evaluates the current text, if its evaluation is stale. -/
def saveSnapshot (a : Analysis) (current : Snapshot) : Option Snapshot :=
  rebuild a current none current.version true

/-- The open documents, in the order in which they were first opened, and the files known so far. -/
structure Host where
  analysis : Analysis
  schema : SchemaHelp
  files : FileTable
  documents : List (FileId × Snapshot)

namespace Host

/-- A host without documents. -/
def empty (analysis : Analysis) (schema : SchemaHelp) : Host := ⟨analysis, schema, .empty, []⟩

/-- The current snapshot of a file, if it is open. -/
def snapshot? (h : Host) (file : FileId) : Option Snapshot := h.documents.lookup file

def openFiles (h : Host) : List FileId := h.documents.map Prod.fst

/-- Sets the snapshot of a file: in the file's place if it is open, and else at the end. -/
def publish (file : FileId) (s : Snapshot) : List (FileId × Snapshot) → List (FileId × Snapshot)
  | [] => [(file, s)]
  | d :: rest => if d.1 = file then (file, s) :: rest else d :: publish file s rest

/-- Opens a document, in place of one that is open at the same path, and evaluates it whatever the
policy is. -/
def openDocument (h : Host) (path : FilePath) (t : Text) (version : Version) :
    Host × FileId × Outcome :=
  let (files, file) := h.files.fileId path
  let s := Snapshot.evaluated h.analysis file path t version
  ({ h with files := files, documents := publish file s h.documents }, file, .ofSnapshot true s)

/-- Replaces the snapshot of an open file by what `next` makes of it, if anything. -/
def change (h : Host) (file : FileId) (next : Snapshot → Option Snapshot) : Host × Option Outcome :=
  match h.snapshot? file with
  | none => (h, none)
  | some current =>
    match next current with
    | none => (h, some (.ofSnapshot false current))
    | some s => ({ h with documents := publish file s h.documents }, some (.ofSnapshot true s))

/-- Updates the text of an open file. -/
def update (h : Host) (file : FileId) (t : Text) (version : Version) : Host × Option Outcome :=
  h.change file fun current => updateSnapshot h.analysis current t version

/-- Saves an open file. -/
def save (h : Host) (file : FileId) : Host × Option Outcome :=
  h.change file (saveSnapshot h.analysis)

/-- Closes a file, and tells whether it was open. -/
def close (h : Host) (file : FileId) : Host × Bool :=
  ({ h with documents := h.documents.filter fun d => d.1 != file }, (h.snapshot? file).isSome)

end Host

end ProjectFile.Workspace
