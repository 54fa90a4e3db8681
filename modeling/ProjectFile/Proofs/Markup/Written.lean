import ProjectFile.Markup.View

/-!
Documents before they are text: trees of elements, texts, comments and CDATA sections, how they are
written down, and what it means for an item of the view to show one.

`Written.WellFormed` is what it takes for a tree to survive being written: names are names, the
attributes of an element have distinct names, values and bodies do not hold what ends them, and no
two texts stand side by side.
-/

namespace ProjectFile

/-- Whether a text has no control characters but tab, line feed and carriage return. -/
def Text.IsPlain (t : Text) : Prop :=
  ∀ c ∈ t, isControl c = true → c = '\t' ∨ c = '\n' ∨ c = '\r'

namespace Markup

/-- The characters that may stand around the value of an attribute. -/
inductive QuoteMark where
  | double
  | single
  deriving DecidableEq, Repr

/-- The character itself. -/
def QuoteMark.char : QuoteMark → Char
  | .double => '"'
  | .single => '\''

/-- An attribute to be written. -/
structure WrittenAttribute where
  name : Text
  quote : QuoteMark
  value : Text
  deriving DecidableEq, Repr

/-- A tree to be written. -/
inductive Written where
  /-- An element that is all start tag. -/
  | empty (name : Text) (attributes : List WrittenAttribute)
  | element (name : Text) (attributes : List WrittenAttribute) (content : List Written)
  | text (t : Text)
  | comment (body : Text)
  | cdata (body : Text)
  deriving Repr

/-! ## Writing -/

/-- The text in front of a comment. -/
def commentOpener : Text := ['<', '!', '-', '-']

/-- The text in front of a CDATA section. -/
def sectionOpener : Text := ['<', '!', '[', 'C', 'D', 'A', 'T', 'A', '[']

/-- The attribute as it stands in a tag, with the space in front of it. -/
def WrittenAttribute.print (a : WrittenAttribute) : Text :=
  ' ' :: (a.name ++ '=' :: a.quote.char :: (a.value ++ [a.quote.char]))

namespace Written

/-- A start tag up to its last attribute. -/
def printOpening (name : Text) (attributes : List WrittenAttribute) : Text :=
  '<' :: (name ++ attributes.flatMap WrittenAttribute.print)

mutual

/-- The tree as text. -/
def print : Written → Text
  | .empty name attributes => printOpening name attributes ++ ['/', '>']
  | .element name attributes content =>
    printOpening name attributes ++ '>' :: (printAll content ++ '<' :: '/' :: (name ++ ['>']))
  | .text t => t
  | .comment body => commentOpener ++ (body ++ ['-', '-', '>'])
  | .cdata body => sectionOpener ++ (body ++ [']', ']', '>'])

/-- Trees that follow one another as text. -/
def printAll : List Written → Text
  | [] => []
  | w :: ws => w.print ++ printAll ws

end

/-! ## Well-formed trees -/

/-- Whether the tree is an element. -/
def isElement : Written → Bool
  | .empty .. => true
  | .element .. => true
  | _ => false

/-- Whether the tree is a text. -/
def isText : Written → Bool
  | .text _ => true
  | _ => false

end Written

/-- Whether an attribute can be written. -/
structure WrittenAttribute.WellFormed (a : WrittenAttribute) : Prop where
  name : Text.isName a.name = true
  plain : Text.IsPlain a.value
  noAngle : '<' ∉ a.value
  noQuote : a.quote.char ∉ a.value

/-- Whether the name and the attributes of an element can be written. -/
structure Written.OpeningWellFormed (name : Text) (attributes : List WrittenAttribute) : Prop where
  named : Text.isName name = true
  each : ∀ a ∈ attributes, a.WellFormed
  distinct : (attributes.map WrittenAttribute.name).Nodup

namespace Written

mutual

/-- Whether a tree can be written. -/
def WellFormed : Written → Prop
  | .empty name attributes => OpeningWellFormed name attributes
  | .element name attributes content =>
    OpeningWellFormed name attributes ∧ WellFormedAll content
  | .text t => Text.IsPlain t ∧ t ≠ [] ∧ '<' ∉ t
  | .comment body => Text.IsPlain body ∧ ¬ ['-', '-', '>'] <:+: body
  | .cdata body => Text.IsPlain body ∧ ¬ [']', ']', '>'] <:+: body

/-- Whether trees can be written one after the other: no text comes right after a text. -/
def WellFormedAll : List Written → Prop
  | [] => True
  | w :: ws =>
    w.WellFormed ∧ (w.isText = true → ∀ next ∈ ws.head?, next.isText = false) ∧ WellFormedAll ws

end

end Written

theorem Document.isBinary_eq_false_iff {t : Text} : isBinary t = false ↔ Text.IsPlain t := by
  rw [isBinary, List.any_eq_false]
  apply forall₂_congr
  intro c _
  cases Text.isControl c <;> simp [Decidable.or_iff_not_imp_left]

instance (t : Text) : Decidable (Text.IsPlain t) :=
  decidable_of_iff (Document.isBinary t = false) Document.isBinary_eq_false_iff

instance (a : WrittenAttribute) : Decidable a.WellFormed :=
  decidable_of_iff (Text.isName a.name = true ∧ Text.IsPlain a.value ∧ '<' ∉ a.value ∧
      a.quote.char ∉ a.value)
    ⟨fun h => ⟨h.1, h.2.1, h.2.2.1, h.2.2.2⟩, fun h => ⟨h.name, h.plain, h.noAngle, h.noQuote⟩⟩

instance (name : Text) (attributes : List WrittenAttribute) :
    Decidable (Written.OpeningWellFormed name attributes) :=
  decidable_of_iff (Text.isName name = true ∧ (∀ a ∈ attributes, a.WellFormed) ∧
      (attributes.map WrittenAttribute.name).Nodup)
    ⟨fun h => ⟨h.1, h.2.1, h.2.2⟩, fun h => ⟨h.named, h.each, h.distinct⟩⟩

namespace Written

mutual

/-- Decides whether a tree can be written. -/
def decideWellFormed : (w : Written) → Decidable w.WellFormed
  | .empty name attributes => inferInstanceAs (Decidable (OpeningWellFormed name attributes))
  | .element name attributes content =>
    have := decideWellFormedAll content
    inferInstanceAs (Decidable (OpeningWellFormed name attributes ∧ WellFormedAll content))
  | .text t => inferInstanceAs (Decidable (Text.IsPlain t ∧ t ≠ [] ∧ '<' ∉ t))
  | .comment body =>
    inferInstanceAs (Decidable (Text.IsPlain body ∧ ¬ ['-', '-', '>'] <:+: body))
  | .cdata body =>
    inferInstanceAs (Decidable (Text.IsPlain body ∧ ¬ [']', ']', '>'] <:+: body))

/-- Decides whether all trees can be written. -/
def decideWellFormedAll : (ws : List Written) → Decidable (WellFormedAll ws)
  | [] => .isTrue trivial
  | w :: ws =>
    have := decideWellFormed w
    have := decideWellFormedAll ws
    inferInstanceAs (Decidable (w.WellFormed ∧
      (w.isText = true → ∀ next ∈ ws.head?, next.isText = false) ∧ WellFormedAll ws))

end

instance (w : Written) : Decidable w.WellFormed := decideWellFormed w

/-! ## What the view shows -/

mutual

/-- Whether an item of the view shows a tree: its name, its attributes with their values, whether
it is all start tag, what it contains, and its text. A text is shown as blank if it is nothing but
spaces, tabs, carriage returns and line feeds. -/
def ShownBy : Written → Item → Prop
  | .empty name attributes, .element e =>
    e.name = name ∧
      e.attributes.map (fun a => (a.name, a.value)) = attributes.map (fun a => (a.name, some a.value)) ∧
      e.isSelfClosing = true ∧ e.children = []
  | .element name attributes content, .element e =>
    e.name = name ∧
      e.attributes.map (fun a => (a.name, a.value)) = attributes.map (fun a => (a.name, some a.value)) ∧
      e.isSelfClosing = false ∧ ShownByAll content e.children
  | .text t, .content kind _ s =>
    s = t ∧ (kind = .blank ∨ kind = .text) ∧
      (kind = .blank ↔ ∀ c ∈ t, c ∈ [' ', '\t', '\r', '\n'])
  | .comment body, .content kind _ s =>
    kind = .comment ∧ s = commentOpener ++ (body ++ ['-', '-', '>'])
  | .cdata body, .content kind _ s => kind = .cdata ∧ sectionValue s = body
  | _, _ => False

/-- Whether items of the view show trees that follow one another, one each. -/
def ShownByAll : List Written → List Item → Prop
  | [], [] => True
  | w :: ws, i :: is => w.ShownBy i ∧ ShownByAll ws is
  | _, _ => False

end

end Written

end Markup

end ProjectFile
