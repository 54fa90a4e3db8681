import Mathlib.Data.List.Chain
import ProjectFile.Proofs.Markup.Nesting
import ProjectFile.Proofs.Markup.Seam

/-!
Character data comes in runs that are as long as they can be.

A run of character data goes up to the next `<`, so no two of them follow one another among the
pieces of a text (`Piece.isChain_ofText`). The nodes side by side in an element are made of pieces
that follow one another, and none is empty, so two runs of character data among them have something
else between them and do not touch (`Item.pairwise_ofNodes`).
-/

namespace ProjectFile.Markup

/-! ## Pieces -/

/-- Whether a run is character data, blank or not. -/
def RunKind.isData : RunKind → Bool
  | .text => true
  | .blank => true
  | _ => false

namespace Piece

/-- Whether a piece is a run of character data. -/
def isData : Piece → Bool
  | .run kind _ => kind.isData
  | _ => false

/-- Whether two pieces are not both character data. -/
def Apart (p q : Piece) : Prop := p.isData = true → q.isData = false

theorem isData_readMarkup (mode : Mode) (t : Text) : (readMarkup mode t).1.isData = false := by
  unfold readMarkup
  repeat' split
  all_goals rfl

/-- A piece at a `<` is no character data. -/
theorem isData_of_head? {mode : Mode} {t : Text} (ht : ∀ c ∈ t.head?, c = '<') {p : Piece}
    (hp : (readAll mode 0 t).head? = some p) : p.isData = false := by
  cases t with
  | nil => simp [readAll] at hp
  | cons c rest =>
    obtain rfl := ht c rfl
    rw [readAll, if_pos rfl, List.head?_cons, Option.some.injEq] at hp
    rw [← hp]
    exact isData_readMarkup mode _

/-- Behind a run of character data the text ends, or goes on with a `<`. -/
theorem head?_behind_data {mode : Mode} {c : Char} {rest after : Text}
    (hdata : (readNext mode c rest).1.isData = true)
    (h : (readNext mode c rest).1.text ++ after = c :: rest) : ∀ d ∈ after.head?, d = '<' := by
  let data : Char → Bool := fun c => c != '<'
  unfold readNext at hdata h
  split at hdata
  · rw [isData_readMarkup] at hdata
    cases hdata
  · next hc =>
    have htext : (readData (c :: rest)).text = (c :: rest).takeWhile data := Text.take_lengthWhile _ _
    rw [if_neg hc, htext] at h
    have hafter : after = (c :: rest).dropWhile data := by
      have hwhole := List.takeWhile_append_dropWhile (p := data) (l := c :: rest)
      exact List.append_cancel_left (h.trans hwhole.symm)
    intro d hd
    have hhead := List.head?_dropWhile_not data (c :: rest)
    rw [← hafter, Option.mem_def.1 hd] at hhead
    simpa [data] using hhead

theorem isChain_readAll (mode : Mode) (t : Text) : (readAll mode 0 t).IsChain Apart := by
  induction hlen : t.length using Nat.strongRecOn generalizing mode t with
  | ind n ih =>
    cases t with
    | nil => simp [readAll]
    | cons c rest =>
      obtain ⟨⟨after, hafter⟩, hsolid⟩ := isFront_readNext mode c rest
      have hpos := List.length_pos_iff.2 (text_ne_nil hsolid)
      have hshort : after.length < n := by
        rw [← hlen, ← hafter, List.length_append]
        omega
      have hrest := ih after.length hshort (readNext mode c rest).2 after rfl
      rw [readAll_cons mode hafter.symm, List.isChain_cons]
      refine ⟨fun q hq hdata => ?_, hrest⟩
      exact isData_of_head? (head?_behind_data hdata hafter) hq

/-- **No two runs of character data follow one another among the pieces of a text.** -/
theorem isChain_ofText (t : Text) : (ofText t).IsChain Apart := isChain_readAll .content t

end Piece

/-! ## Nodes -/

namespace Node

/-- Whether a node is a run of character data. -/
def isData : Node → Bool
  | .run kind _ => kind.isData
  | _ => false

/-- Whether two nodes are not both character data. -/
def Apart (m n : Node) : Prop := m.isData = true → n.isData = false

theorem pieces_of_isData {n : Node} (h : n.isData = true) : ∃ kind t, n = .run kind t ∧
    kind.isData = true := by
  match n with
  | .element .. => cases h
  | .strayEnd _ => cases h
  | .run kind t => exact ⟨kind, t, rfl, h⟩

theorem infix_pieces_of_mem {n : Node} {ns : List Node} (h : n ∈ ns) :
    n.pieces <:+: piecesOfAll ns := by
  obtain ⟨front, back, rfl⟩ := List.mem_iff_append.1 h
  refine ⟨piecesOfAll front, piecesOfAll back, ?_⟩
  rw [piecesOfAll_append, piecesOfAll, List.append_assoc]

/-- Nodes are apart where their pieces are. -/
theorem isChain_of_pieces {ns : List Node} (h : (piecesOfAll ns).IsChain Piece.Apart) :
    ns.IsChain Apart := by
  induction ns with
  | nil => exact .nil
  | cons n ns ih =>
    rw [List.isChain_cons]
    constructor
    · intro m hm hn
      obtain ⟨rest, rfl⟩ := List.head?_eq_some_iff.1 (Option.mem_def.1 hm)
      by_contra hdata
      rw [Bool.not_eq_false] at hdata
      obtain ⟨kind, t, rfl, hkind⟩ := pieces_of_isData hn
      obtain ⟨kind', t', rfl, hkind'⟩ := pieces_of_isData hdata
      have hpair : [Piece.run kind t, .run kind' t'] <:+: piecesOfAll (.run kind t :: .run kind' t' :: rest) :=
        ⟨[], piecesOfAll rest, rfl⟩
      have hchain := List.IsChain.infix h hpair
      have hapart := List.isChain_pair.1 hchain hkind
      have hdata : (Piece.run kind' t').isData = true := hkind'
      rw [hdata] at hapart
      cases hapart
    · have hrest : piecesOfAll ns <:+: piecesOfAll (n :: ns) :=
        ⟨n.pieces, [], by rw [piecesOfAll, List.append_nil]⟩
      exact ih <| List.IsChain.infix h hrest

theorem pieces_ne_nil (n : Node) : n.pieces ≠ [] := by
  cases n <;> simp [pieces]

/-- A node of pieces that are not empty is not empty. -/
theorem width_pos_of_solid {n : Node} (h : ∀ p ∈ n.pieces, p.Solid) : 0 < n.width := by
  obtain ⟨p, ps, hp⟩ := List.exists_cons_of_ne_nil n.pieces_ne_nil
  have hne := Piece.text_ne_nil (h p (by simp [hp]))
  have hpos := Text.width_pos hne
  rw [width_eq, text_eq, hp, List.flatMap_cons, Text.width_append]
  omega

/-- Nodes that are apart do not touch one another where they are character data. -/
theorem pairwise_placed_of_apart (offset : Nat) {ns : List Node} (hapart : ns.IsChain Apart)
    (hsolid : ∀ n ∈ ns, 0 < n.width) :
    (placed offset ns).Pairwise fun a b =>
      a.2.isData = true → b.2.isData = true → a.1 + a.2.width < b.1 := by
  induction ns generalizing offset with
  | nil => exact .nil
  | cons n ns ih =>
    rw [List.isChain_cons] at hapart
    rw [List.forall_mem_cons] at hsolid
    refine .cons ?_ (ih _ hapart.2 hsolid.2)
    intro b hb hn hdata
    cases ns with
    | nil => cases hb
    | cons m ns =>
      rcases List.mem_cons.1 hb with rfl | hb
      · have hm := hapart.1 m rfl hn
        rw [hm] at hdata
        cases hdata
      · have hpos := hsolid.2 m (by simp)
        have hbehind := (span_of_mem_placed hb).1
        dsimp only
        omega

end Node

/-! ## Items -/

/-- Whether an item is character data. -/
def Item.isData : Item → Bool
  | .content .text _ _ => true
  | .content .blank _ _ => true
  | _ => false

theorem Item.isData_of_ofNode? {placed : Nat × Node} {i : Item} (h : ofNode? placed = some i) :
    i.isData = placed.2.isData := by
  obtain ⟨start, n⟩ := placed
  match n with
  | .element .. =>
    cases h
    rfl
  | .strayEnd _ => cases h
  | .run kind t =>
    obtain ⟨k, hk, rfl⟩ := Option.map_eq_some_iff.1 h
    cases kind <;> cases hk <;> rfl

/-- **Runs of character data side by side do not touch.** -/
theorem Item.pairwise_ofNodes (offset : Nat) {ns : List Node} (hapart : ns.IsChain Node.Apart)
    (hsolid : ∀ n ∈ ns, 0 < n.width) :
    (ofNodes offset ns).Pairwise fun i j =>
      i.isData = true → j.isData = true → i.span.stop < j.span.start := by
  rw [ofNodes, List.pairwise_filterMap]
  refine (Node.pairwise_placed_of_apart offset hapart hsolid).imp ?_
  intro a b hab i hi j hj hidata hjdata
  rw [isData_of_ofNode? hi] at hidata
  rw [isData_of_ofNode? hj] at hjdata
  have hispan := span_of_ofNode? hi
  have hjspan := span_of_ofNode? hj
  have hlt := hab hidata hjdata
  rw [hispan, hjspan]
  exact hlt

end ProjectFile.Markup
