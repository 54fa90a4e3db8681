import ProjectFile.Text.Basic

/-!
File paths with `/` as the separator. A path keeps the text it was written as, but two paths are the
same if their components are: repeated and trailing separators and `.` components other than a
leading one do not count, while `..` is kept and letter case matters.
-/

namespace ProjectFile

/-- A path as it is written. -/
structure FilePath where
  text : Text
  deriving DecidableEq, Repr

namespace FilePath

/-- One component of a path. -/
inductive Component where
  | root
  /-- A leading `.` of a relative path. -/
  | current
  | parent
  | normal (name : Text)
  deriving DecidableEq, Repr

/-- Whether the path begins with a separator. -/
def isAbsolute (p : FilePath) : Bool := p.text.head? == some '/'

/-- The first component, if it is the root or a leading `.`, and the text after it. -/
def split (p : FilePath) : Option Component × Text :=
  match p.text with
  | '/' :: rest => (some .root, rest)
  | ['.'] => (some .current, [])
  | '.' :: '/' :: rest => (some .current, '/' :: rest)
  | t => (none, t)

/-- The component that a piece between separators is, if it counts. -/
def ofPiece (piece : Text) : Option Component :=
  if piece.isEmpty || piece == ['.'] then none
  else if piece == ['.', '.'] then some .parent
  else some (.normal piece)

def components (p : FilePath) : List Component :=
  p.split.1.toList ++ (Text.splitOn '/' p.split.2).filterMap ofPiece

/-- Whether two paths have the same components. -/
def same (p q : FilePath) : Bool := p.components == q.components

/-- The pieces without those at the end that do not count. -/
def dropEmptyEnd (pieces : List Text) : List Text :=
  (pieces.reverse.dropWhile fun piece => (ofPiece piece).isNone).reverse

/-- Pieces with a separator between every two. -/
def joinPieces : List Text → Text
  | [] => []
  | [piece] => piece
  | piece :: rest => piece ++ '/' :: joinPieces rest

def headText : Option Component → Text
  | some .root => ['/']
  | some .current => ['.']
  | _ => []

/-- The path without its last component; the root and the empty path have none. -/
def parent? (p : FilePath) : Option FilePath :=
  match dropEmptyEnd (Text.splitOn '/' p.split.2) with
  | [] => if p.split.1 = some .current then some ⟨[]⟩ else none
  | pieces => some ⟨headText p.split.1 ++ joinPieces (dropEmptyEnd pieces.dropLast)⟩

/-- The last component, if it is a name. -/
def fileName? (p : FilePath) : Option Text :=
  match p.components.getLast? with
  | some (.normal name) => some name
  | _ => none

/-- The parts of a file name before and after its last dot. A dot in front does not count. -/
def splitExtension (name : Text) : Text × Option Text :=
  match Text.cutAt '.' name.reverse with
  | some (extension, stem) => if stem.isEmpty then (name, none) else (stem.reverse, some extension.reverse)
  | none => (name, none)

/-- The file name without its extension. -/
def stem? (p : FilePath) : Option Text := p.fileName?.map fun name => (splitExtension name).1

/-- The extension of the file name, without its dot. -/
def extension? (p : FilePath) : Option Text := p.fileName?.bind fun name => (splitExtension name).2

/-- The path `q` seen from the directory `p`. -/
def join (p q : FilePath) : FilePath :=
  if q.isAbsolute || p.text.isEmpty then q
  else if p.text.getLast? = some '/' then ⟨p.text ++ q.text⟩
  else ⟨p.text ++ '/' :: q.text⟩

/-! ## Order -/

namespace Component

/-- A number for each kind of component; components of a smaller number come first. -/
def rank : Component → Nat
  | .root => 0
  | .current => 1
  | .parent => 2
  | .normal _ => 3

/-- The name of a component, if it has one. -/
def name : Component → Text
  | .normal name => name
  | _ => []

/-- Whether a component comes before another or is the same. -/
def atMost (a b : Component) : Bool :=
  decide (a.rank < b.rank) || (a.rank == b.rank && Text.atMost a.name b.name)

end Component

/-- Whether a list of components comes before another or is the same, component by component. -/
def componentsAtMost : List Component → List Component → Bool
  | [], _ => true
  | _ :: _, [] => false
  | a :: s, b :: t => if a = b then componentsAtMost s t else a.atMost b

/-- Whether a path comes before another or is the same. -/
def atMost (p q : FilePath) : Bool := componentsAtMost p.components q.components

end FilePath

end ProjectFile
