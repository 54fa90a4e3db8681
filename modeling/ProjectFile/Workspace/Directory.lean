import ProjectFile.Workspace.Host

/-!
The opening of all project files in a directory. A directory is given as the files below it.
-/

namespace ProjectFile

/-- Whether a path names a project file: by an extension that ends with `proj`, or by `props` or
`targets`, in any letter case. -/
def FilePath.isProjectFile (p : FilePath) : Bool :=
  match p.extension? with
  | none => false
  | some extension =>
    let extension := Text.fold extension
    "proj".toList.isSuffixOf extension || extension == "props".toList ||
      extension == "targets".toList

namespace Workspace

/-- Files below a root directory, with their texts; a file that is not text has none. -/
structure FileTree where
  files : List (FilePath × Option Text)

namespace FileTree

/-- The tree with a file written to it, in place of one that is there. -/
def write (t : FileTree) (p : FilePath) (contents : Option Text) : FileTree :=
  ⟨(t.files.filter fun f => !f.1.same p) ++ [(p, contents)]⟩

/-- Whether components are a directory of the tree: the root, or with a file below. -/
def isDirectory (t : FileTree) (here : List FilePath.Component) : Bool :=
  here.length ≤ 1 || t.files.any fun f =>
    here.isPrefixOf f.1.components && here.length < f.1.components.length

/-- Where the pieces of a path lead from a directory. Only a directory leads anywhere, and the root
is above itself. -/
def follow (t : FileTree) (here : List FilePath.Component) :
    List Text → Option (List FilePath.Component)
  | [] => some here
  | piece :: rest =>
    if t.isDirectory here then
      match FilePath.ofPiece piece with
      | none => t.follow here rest
      | some .parent => t.follow (if here.length ≤ 1 then here else here.dropLast) rest
      | some component => t.follow (here ++ [component]) rest
    else none

/-- Where a path leads, from the root. -/
def resolve (t : FileTree) (p : FilePath) : Option (List FilePath.Component) :=
  t.follow [.root] (Text.splitOn '/' p.text)

def read (t : FileTree) (p : FilePath) : Option Text :=
  (t.resolve p).bind fun here =>
    (t.files.find? fun f => f.1.components == here).bind Prod.snd

/-- The files below a directory, each named from the directory; none if it is not a directory. -/
def filesBelow? (t : FileTree) (dir : FilePath) : Option (List FilePath) :=
  ((t.resolve dir).filter t.isDirectory).map fun here =>
    (t.files.filter fun f => here.isPrefixOf f.1.components).map fun f =>
      dir.join ⟨FilePath.joinPieces
        ((f.1.components.drop here.length).map FilePath.Component.name)⟩

/-- The project files below a directory, in the order of their paths. -/
def projectFiles? (t : FileTree) (dir : FilePath) : Option (List FilePath) :=
  (t.filesBelow? dir).map fun files =>
    (files.filter FilePath.isProjectFile).mergeSort FilePath.atMost

end FileTree

/-- Why a file or directory is not loaded. -/
inductive LoadError where
  | unreadable (path : FilePath)
  | notADirectory (path : FilePath)
  deriving DecidableEq, Repr

namespace Host

/-- Opens a file at version zero. -/
def loadFile (h : Host) (tree : FileTree) (p : FilePath) : Except LoadError (Host × FileId) :=
  match tree.read p with
  | none => .error (.unreadable p)
  | some t =>
    let (h, file, _) := h.openDocument p t 0
    .ok (h, file)

/-- What has been loaded so far: the host, the files that were opened and the errors of the others. -/
structure Loaded where
  host : Host
  files : List FileId
  errors : List LoadError

/-- Opens one more file. -/
def Loaded.add (tree : FileTree) (l : Loaded) (p : FilePath) : Loaded :=
  match l.host.loadFile tree p with
  | .ok (h, file) => { l with host := h, files := l.files ++ [file] }
  | .error e => { l with errors := l.errors ++ [e] }

/-- Opens every project file below a directory. A file that cannot be read does not stop the
others. -/
def loadDirectory (h : Host) (tree : FileTree) (dir : FilePath) : Except LoadError Loaded :=
  match tree.projectFiles? dir with
  | some files => .ok (files.foldl (Loaded.add tree) ⟨h, [], []⟩)
  | none => .error (.notADirectory dir)

end Host

end Workspace

end ProjectFile
