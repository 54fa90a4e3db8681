import ProjectFile.Workspace.Snapshot

/-!
Links from imports to the files they import. The evaluated path is used if the import was
evaluated, and else the path as it is written; a path with a wildcard or with a reference that is
left in it gets no link.
-/

namespace ProjectFile.Features

open Evaluation Workspace

/-- A link from a stretch of the document to a file. -/
structure DocumentLink where
  start : Place
  stop : Place
  target : FilePath
  deriving DecidableEq, Repr

def DocumentLink.tooltip (l : DocumentLink) : Text := "Open ".toList ++ l.target.text

def evaluatedImport? (s : Snapshot) (e : Markup.Element) : Option Text :=
  match s.locator with
  | .error _ => none
  | .ok locator =>
    ((locator.find? e.start).filter fun o => o.kind == .importedProject && o.span == e.span).bind
      LocatedObject.value?

/-- Whether a text has a property reference left in it. -/
def hasReference : Text → Bool
  | [] => false
  | c :: t => ['$', '('].isPrefixOf (c :: t) || hasReference t

def isLinkable (path : Text) : Bool :=
  !path.isEmpty && !path.contains '*' && !hasReference path

def importLink? (s : Snapshot) (e : Markup.Element) : Option DocumentLink :=
  (e.attribute? "Project".toList).bind fun a =>
    a.valueSpan.bind fun span =>
      ((evaluatedImport? s e).or a.value).bind fun written =>
        let path := Text.trim written
        if isLinkable path then
          let base := s.path.parent?.getD ⟨[]⟩
          let target := base.join ⟨path.map fun c => if c = '\\' then '/' else c⟩
          some ⟨s.index.place span.start, s.index.place span.stop, target⟩
        else none

/-- The links of a document, in document order. -/
def documentLinks (s : Snapshot) : List DocumentLink :=
  (s.document.elements.filter fun e => e.name == "Import".toList).filterMap (importLink? s)

end ProjectFile.Features
