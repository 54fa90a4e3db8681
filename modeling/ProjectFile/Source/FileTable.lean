import ProjectFile.Source.FilePath

/-!
The numbers by which files are known. Each path gets the next number when it is first seen and
keeps it; paths with the same components are one file.

The table keeps two maps, from paths to files and from files to paths, each in the order of
insertion, and the number that is given next.
-/

namespace ProjectFile

/-- The number by which a file is known. -/
structure FileId where
  number : Nat
  deriving DecidableEq, Repr

/-- The text form. -/
def FileId.text (f : FileId) : String := "doc#" ++ toString f.number

/-- Sets what a key stands for: in the place of the key that is the same, which stays as it is
written, and else at the end. -/
def setEntry {κ ν : Type} (same : κ → κ → Bool) (key : κ) (value : ν) :
    List (κ × ν) → List (κ × ν)
  | [] => [(key, value)]
  | e :: rest => if same e.1 key then (e.1, value) :: rest else e :: setEntry same key value rest

/-- The paths seen so far with their files, the files with their paths, and the next number. -/
structure FileTable where
  fileOfPath : List (FilePath × FileId)
  pathOfFile : List (FileId × FilePath)
  next : UInt32
  deriving Repr

namespace FileTable

/-- The table before any path. -/
def empty : FileTable := ⟨[], [], 0⟩

def lookup (t : FileTable) (p : FilePath) : Option FileId :=
  (t.fileOfPath.find? fun e => e.1.same p).map Prod.snd

/-- The file of a path, which counts as seen from now on. -/
def fileId (t : FileTable) (p : FilePath) : FileTable × FileId :=
  match t.lookup p with
  | some f => (t, f)
  | none =>
    let f : FileId := ⟨t.next.toNat⟩
    ({ fileOfPath := setEntry FilePath.same p f t.fileOfPath
       pathOfFile := setEntry (fun g h => g == h) f p t.pathOfFile
       next := t.next + 1 }, f)

/-- The path of a file, as it was first written. -/
def path? (t : FileTable) (f : FileId) : Option FilePath := t.pathOfFile.lookup f

/-- The number of files. -/
def size (t : FileTable) : Nat := t.fileOfPath.length

/-- Whether no path has been seen. -/
def isEmpty (t : FileTable) : Bool := t.size == 0

/-- All files, in the order in which their paths were first seen. -/
def files (t : FileTable) : List FileId := t.pathOfFile.map Prod.fst

end FileTable

end ProjectFile
