import ProjectFile.Proofs.Markup.Determined
import ProjectFile.Proofs.Markup.Locality
import ProjectFile.Proofs.Markup.RoundTrip

/-!
Nodes that are well formed by themselves.

`Node.Sound` says of a node, without regard to what is around it, that every element in it is closed
by an end tag of its name or is all start tag, that nothing is out of place, and that every run has
its terminator.

1. A nested node has no errors exactly when it is sound (`Node.sound_iff_flawless`), and a sound
   node is nested wherever it stands (`Node.Sound.nested`): nothing around it matters to it.
2. A text without errors has sound nodes (`Document.exists_reading`), and any sound nodes with the
   pieces of a text are its nodes (`Document.Reading.parse_eq`).
3. Where there is one root and no text beside it, the errors of a document are those of its nodes
   (`Document.topErrors_eq_errorsOfAll`).
-/

namespace ProjectFile.Markup

/-- Whether an end tag is well formed and closes the element of a start tag. -/
structure EndTag.Fits (closer : EndTag) (tag : StartTag) : Prop where
  name : closer.name = tag.name
  clean : ∀ f ∈ closer.fillers, f.isJunk = false
  closed : closer.closed = true

/-- A tag that has a name is not empty. -/
theorem StartTag.Sound.width_pos {tag : StartTag} (h : tag.Sound) : 0 < tag.text.width := by
  obtain ⟨n, hname, hn⟩ := h.name
  obtain ⟨⟨c, rest, rfl, -⟩, -⟩ := Text.isName_spec hn
  have hc := c.utf8Size_pos
  rw [StartTag.text, hname, Option.getD_some, Text.width_append, Text.width_append, Text.width_cons]
  omega

namespace Node

mutual

/-- Whether a node is well formed by itself. -/
def Sound : Node → Prop
  | .element tag content (some closer) =>
    tag.Sound ∧ tag.opens = true ∧ closer.Fits tag ∧ SoundAll content
  | .element tag content none => tag.Sound ∧ tag.ending = .selfClosed ∧ content = []
  | .strayEnd _ => False
  | .run kind t => kind.isTerminated t = true

/-- Whether nodes are well formed by themselves. -/
def SoundAll : List Node → Prop
  | [] => True
  | n :: ns => n.Sound ∧ SoundAll ns

end

/-- So are the tag and the content of an element that is. -/
theorem Sound.inside {tag : StartTag} {content : List Node} {endTag : Option EndTag}
    (h : (element tag content endTag).Sound) : tag.Sound ∧ SoundAll content := by
  cases endTag with
  | none => exact ⟨h.1, h.2.2 ▸ trivial⟩
  | some closer => exact ⟨h.1, h.2.2.2⟩

theorem soundAll_append {ms ns : List Node} : SoundAll (ms ++ ns) ↔ SoundAll ms ∧ SoundAll ns := by
  induction ms with
  | nil => simp [SoundAll]
  | cons m ms ih => simp [SoundAll, ih, and_assoc]

theorem soundAll_cons {n : Node} {ns : List Node} : SoundAll (n :: ns) ↔ n.Sound ∧ SoundAll ns :=
  Iff.rfl

mutual

/-- **A nested node is sound exactly when it is flawless.** -/
theorem sound_iff_flawless {around : List StartTag} {next : Next} : ∀ n : Node,
    n.Nested around next → (n.Sound ↔ n.Flawless)
  | .run kind t, _ => Iff.rfl
  | .strayEnd tag, _ => Iff.rfl
  | .element tag content none, hnested => by
    rw [Sound, Flawless, Element.sound_iff]
    rw [Nested] at hnested
    constructor
    · intro h
      obtain ⟨⟨hname, hitems, -⟩, hending, rfl⟩ := h
      exact ⟨⟨hname, hitems, .inl hending⟩, nofun, trivial⟩
    · intro h
      obtain ⟨⟨hname, hitems, hclosed⟩, -, -⟩ := h
      have hending : tag.ending = .selfClosed := hclosed.resolve_right (by simp)
      have hopens : ¬ tag.opens = true := by simp [StartTag.opens, hending]
      rw [if_neg hopens] at hnested
      refine ⟨⟨hname, hitems, ?_⟩, hending, hnested⟩
      rw [hending]
      nofun
  | .element tag content (some closer), hnested => by
    obtain ⟨hopens, -, hcontent⟩ := hnested
    have hending : tag.ending = .content := by
      rw [StartTag.opens, Bool.and_eq_true, beq_iff_eq] at hopens
      exact hopens.2
    rw [Sound, Flawless, Element.sound_iff, soundAll_iff_flawlessAll content hcontent]
    constructor
    · intro h
      obtain ⟨⟨hname, hitems, -⟩, -, hfits, hcontent⟩ := h
      refine ⟨⟨hname, hitems, .inr ⟨closer, rfl, hfits.closed, hfits.name⟩⟩, ?_, hcontent⟩
      intro c hc
      cases hc
      exact hfits.clean
    · intro h
      obtain ⟨⟨hname, hitems, hclosed⟩, hclean, hcontent⟩ := h
      have hmissing : tag.ending ≠ .missing := by
        rw [hending]
        nofun
      have hself : tag.ending ≠ .selfClosed := by
        rw [hending]
        nofun
      obtain ⟨c, hc, hclosed, hname'⟩ := hclosed.resolve_left hself
      cases hc
      exact ⟨⟨hname, hitems, hmissing⟩, hopens, ⟨hname', hclean closer rfl, hclosed⟩, hcontent⟩

theorem soundAll_iff_flawlessAll {around : List StartTag} {next : Next} : ∀ ns : List Node,
    NestedAll around next ns → (SoundAll ns ↔ FlawlessAll ns)
  | [], _ => Iff.rfl
  | n :: ns, hnested => by
    rw [SoundAll, FlawlessAll, sound_iff_flawless n hnested.1,
      soundAll_iff_flawlessAll ns hnested.2]

end

mutual

/-- **A sound node is nested wherever it stands.** -/
theorem Sound.nested (around : List StartTag) (next : Next) : ∀ n : Node, n.Sound →
    n.Nested around next
  | .run kind t, _ => trivial
  | .element tag content none, h => by
    obtain ⟨-, hending, hcontent⟩ := h
    have hopens : ¬ tag.opens = true := by simp [StartTag.opens, hending]
    rw [Nested, if_neg hopens]
    exact hcontent
  | .element tag content (some closer), h => by
    obtain ⟨-, hopens, hfits, hcontent⟩ := h
    exact ⟨hopens, .inr hfits.name, SoundAll.nestedAll _ _ content hcontent⟩

theorem SoundAll.nestedAll (around : List StartTag) (next : Next) : ∀ ns : List Node, SoundAll ns →
    NestedAll around next ns
  | [], _ => trivial
  | n :: ns, h => ⟨Sound.nested around _ n h.1, SoundAll.nestedAll around next ns h.2⟩

end

theorem SoundAll.errorsOfAll {ns : List Node} (h : SoundAll ns) (length offset : Nat) :
    Node.errorsOfAll length offset ns = [] := by
  have hnested := SoundAll.nestedAll [] .nothing ns h
  rw [errorsOfAll_eq_nil_iff length offset ns hnested]
  exact (soundAll_iff_flawlessAll ns hnested).1 h

mutual

/-- The pieces of a sound node are closed. -/
theorem Sound.isClosed : ∀ n : Node, n.Sound → ∀ p ∈ n.pieces, p.IsClosed
  | .run kind t, _ => by
    intro p hp
    rw [List.mem_singleton.1 hp]
    trivial
  | .element tag content none, h => by
    obtain ⟨hsound, -, rfl⟩ := h
    intro p hp
    rw [List.mem_singleton.1 hp]
    exact hsound.ending
  | .element tag content (some closer), h => by
    obtain ⟨hsound, -, hfits, hcontent⟩ := h
    rw [pieces, List.forall_mem_cons, List.forall_mem_append]
    refine ⟨hsound.ending, SoundAll.isClosed content hcontent, fun p hp => ?_⟩
    rw [List.mem_singleton.1 hp]
    exact hfits.closed

theorem SoundAll.isClosed : ∀ ns : List Node, SoundAll ns → ∀ p ∈ piecesOfAll ns, p.IsClosed
  | [], _ => nofun
  | n :: ns, h => by
    rw [piecesOfAll, List.forall_mem_append]
    exact ⟨Sound.isClosed n h.1, SoundAll.isClosed ns h.2⟩

end

end Node

/-! ## Texts without errors -/

namespace Document

/-- A document with one root and no text beside it has the errors of its nodes and no others. -/
theorem topErrors_eq_errorsOfAll {length : Nat} {ns : List Node} (roots offset : Nat)
    (htext : ∀ n ∈ ns, n.concrete.kind ≠ .inr (.run .text))
    (hroots : roots + ns.countP Node.isElement = 1) :
    topErrors length roots offset ns = Node.errorsOfAll length offset ns := by
  induction ns generalizing roots offset with
  | nil =>
    have hone : roots = 1 := hroots
    subst hone
    rfl
  | cons n ns ih =>
    rw [List.forall_mem_cons] at htext
    rw [List.countP_cons] at hroots
    rw [Node.errorsOfAll, topErrors.eq_def]
    dsimp only
    cases n with
    | element tag content endTag =>
      have hnone : roots = 0 := by
        simp [Node.isElement] at hroots
        omega
      subst hnone
      have hrest := ih 1 (offset + (Node.element tag content endTag).width) htext.2
        (by simpa [Node.isElement, Nat.add_comm] using hroots)
      simp [Node.isElement, hrest, SyntaxError.when]
    | strayEnd tag =>
      have hrest := ih roots (offset + (Node.strayEnd tag).width) htext.2
        (by simpa [Node.isElement] using hroots)
      simp [Node.isElement, hrest]
    | run kind t =>
      have hrest := ih roots (offset + (Node.run kind t).width) htext.2
        (by simpa [Node.isElement] using hroots)
      cases kind with
      | text => exact absurd rfl htext.1
      | _ => simp [Node.isElement, hrest]

/-- What it means for sound nodes to be all of a text. -/
structure Reading (t : Text) (ns : List Node) : Prop where
  plain : Text.IsPlain t
  pieces : Piece.ofText t = Node.piecesOfAll ns
  sound : Node.SoundAll ns
  noText : ∀ n ∈ ns, n.concrete.kind ≠ .inr (.run .text)
  oneRoot : ns.countP Node.isElement = 1

/-- Nodes that follow the rules of nesting and have the pieces of a text are its nodes. -/
theorem parse_eq_markup {t : Text} {ns : List Node} (hplain : Text.IsPlain t)
    (hpieces : Piece.ofText t = Node.piecesOfAll ns) (hnested : Node.NestedAll [] .nothing ns) :
    parse t = .markup ns := by
  rw [parse, isBinary_eq_false_iff.2 hplain, hpieces, Node.ofPieces_piecesOfAll hnested]
  rfl

theorem Reading.parse_eq {t : Text} {ns : List Node} (h : Reading t ns) : parse t = .markup ns :=
  parse_eq_markup h.plain h.pieces (Node.SoundAll.nestedAll [] .nothing ns h.sound)

theorem Reading.errors_eq_nil {t : Text} {ns : List Node} (h : Reading t ns) :
    (parse t).errors = [] := by
  rw [h.parse_eq, errors, topErrors_eq_errorsOfAll 0 0 h.noText (by rw [h.oneRoot]),
    h.sound.errorsOfAll]

theorem Reading.text_eq {t : Text} {ns : List Node} (h : Reading t ns) : Node.textOfAll ns = t := by
  rw [Node.textOfAll_eq, ← h.pieces, Piece.flatMap_text_ofText]

/-- **A text without errors has sound nodes.** -/
theorem exists_reading {t : Text} (h : (parse t).errors = []) : ∃ ns, Reading t ns := by
  have hbinary : isBinary t = false := by
    cases hbinary : isBinary t with
    | false => rfl
    | true =>
      rw [parse, hbinary] at h
      cases h
  have hnested := Node.nestedAll_ofPieces (Piece.ofText t)
  rw [parse, hbinary] at h
  obtain ⟨hflawless, htext, hroot⟩ := (topErrors_eq_nil_iff (Nat.zero_le 1) hnested).1 h
  exact ⟨Node.ofPieces (Piece.ofText t), isBinary_eq_false_iff.1 hbinary,
    (Node.piecesOfAll_ofPieces _).symm, (Node.soundAll_iff_flawlessAll _ hnested).2 hflawless, htext,
    by rw [← hroot, Nat.zero_add]⟩

end Document

end ProjectFile.Markup
