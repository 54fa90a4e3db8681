import ProjectFile.Editor.Location

/-!
What may be inserted at a location: a child element, or an attribute with the spaces it needs
around it.
-/

namespace ProjectFile.Editor

open Markup

/-- A place for a new element. -/
structure ElementCompletion where
  /-- The element that the new one goes into, if not at the top of the document. -/
  parent : Option View
  /-- The element that the new one replaces, which may be malformed. -/
  replaced : Option View

/-- The spaces that a new attribute needs. -/
structure Padding where
  leading : Bool
  trailing : Bool
  deriving DecidableEq, Repr

/-- A place for a new attribute. -/
structure AttributeCompletion where
  element : View
  /-- The attribute that the new one replaces. -/
  replaced : Option View
  padding : Padding

/-- Whether a pattern, if there is one, stands for the path of an element, or of the document. -/
def accepts (pattern : Option NodePath) (element : Option View) : Bool :=
  match pattern with
  | none => true
  | some p => p.accepts ((element.map View.path).getD .root)

namespace Location

/-- The place for a new element under a parent that the pattern accepts. On the opening name of an
element that element is replaced; in blank content or a gap the new one is inserted. -/
def completeElement? (l : Location) (pattern : Option NodePath) : Option ElementCompletion :=
  let found : Option ElementCompletion :=
    match l.kind, l.node with
    | .elementName false, some v =>
      v.item.element?.map fun _ => ⟨v.parent?, some v⟩
    | .elementContent, some v =>
      match v.item with
      | .content .blank _ _ => some ⟨v.parent?, none⟩
      | _ => none
    | .gap .content, _ => some ⟨l.container?, none⟩
    | _, _ => none
  found.filter fun c => accepts pattern c.parent

/-- The spaces that an attribute inserted at the location needs: one before it unless a space is
there, and one after it if a name follows. -/
def padding (l : Location) : Padding :=
  { leading := l.left.any fun leaf => leaf.kind != .space
    trailing := l.right.any fun leaf => leaf.kind == .name }

/-- The place for a new attribute of an element that the pattern accepts. -/
def completeAttribute? (l : Location) (pattern : Option NodePath) : Option AttributeCompletion :=
  let found : Option AttributeCompletion :=
    match l.kind with
    | .attributeName =>
      l.attribute?.bind fun a => a.parent?.map fun e => ⟨e, some a, ⟨false, false⟩⟩
    | .gap .attributes => l.container?.map fun e => ⟨e, none, l.padding⟩
    | _ => none
  found.filter fun c => accepts pattern (some c.element)

end Location

end ProjectFile.Editor
