import ProjectFile.Proofs.Markup.Nesting

/-!
The rules of nesting determine the nodes.

Nodes that follow the rules are the only ones with their pieces: putting the pieces together gives
the same nodes back (`Node.ofPieces_piecesOfAll`). With `Node.nestedAll_ofPieces` this makes
`Node.ofPieces` the one way to nest a list of pieces, so the nodes of a text are known as soon as
some nodes with its pieces are shown to follow the rules.

Taking in the pieces of a node may leave elements open that only what comes next ends.
`Draft.LeadsTo` says that, and the induction over the nodes carries it.
-/

namespace ProjectFile.Markup

namespace Draft

theorem abandon_succ (n : Nat) (d : Draft) : d.abandon (n + 1) = (d.abandon n).close none := by
  induction n generalizing d with
  | zero => rfl
  | succ n ih => exact ih (d.close none)

theorem abandon_of_opened_nil {d : Draft} (h : d.opened = []) (n : Nat) : d.abandon n = d := by
  induction n with
  | zero => rfl
  | succ n ih => rw [abandon_succ, ih, close, h]

/-- Abandoning every open element gives the same draft however many more are asked for. -/
theorem abandon_eq_of_drop_nil {d : Draft} {n : Nat} (h : d.opened.drop n = []) :
    d.abandon d.opened.length = d.abandon n := by
  have hlength := List.drop_eq_nil_iff.1 h
  obtain ⟨more, rfl⟩ := Nat.exists_eq_add_of_le hlength
  clear h hlength
  induction more with
  | zero => rfl
  | succ more ih =>
    have hopened : (d.abandon (d.opened.length + more)).opened = [] := by
      rw [opened_abandon]
      exact List.drop_eq_nil_of_le (Nat.le_add_right _ _)
    rw [← Nat.add_assoc, abandon_succ, ← ih, close, ih, hopened]

/-- An end tag closes the innermost open element that it may close. -/
theorem depthOf_of_drop {d : Draft} {name : Option Text} {depth : Nat} {o : OpenElement}
    {outer : List OpenElement} (hdrop : d.opened.drop depth = o :: outer)
    (hname : name = none ∨ name = o.tag.name)
    (hbefore : ∀ a ∈ d.opened.take depth, name ≠ none ∧ name ≠ a.tag.name) :
    d.depthOf name = some depth := by
  have hlt : depth < d.opened.length := by
    have hlength := congrArg List.length hdrop
    rw [List.length_drop, List.length_cons] at hlength
    omega
  unfold depthOf
  cases name with
  | none =>
    -- Nothing may be left behind by an end tag without a name.
    cases hopened : d.opened with
    | nil =>
      rw [hopened] at hlt
      cases hlt
    | cons a rest =>
      cases depth with
      | zero => rfl
      | succ depth =>
        rw [hopened] at hbefore
        exact absurd rfl (hbefore a List.mem_cons_self).1
  | some n =>
    have hget : d.opened[depth] = o := by
      rw [List.drop_eq_getElem_cons hlt, List.cons.injEq] at hdrop
      exact hdrop.1
    refine List.findIdx?_eq_some_iff_getElem.2 ⟨hlt, ?_, ?_⟩
    · rw [hget, beq_iff_eq]
      exact (hname.resolve_left nofun).symm
    · intro i hi heq
      have hmem : d.opened[i] ∈ d.opened.take depth :=
        List.mem_take_iff_getElem.2 ⟨i, by omega, rfl⟩
      exact (hbefore _ hmem).2 (beq_iff_eq.1 heq).symm

/-- An end tag that no open element may be closed by closes none. -/
theorem depthOf_of_forall {d : Draft} {name : Option Text}
    (h : ∀ a ∈ d.opened, name ≠ none ∧ name ≠ a.tag.name) : d.depthOf name = none := by
  cases hdepth : d.depthOf name with
  | none => rfl
  | some depth =>
    obtain ⟨o, outer, hdrop, hname, -⟩ := depthOf_eq_some hdepth
    have hmem : o ∈ d.opened := List.mem_of_mem_drop (hdrop ▸ List.mem_cons_self)
    obtain hname | hname := hname
    · exact absurd hname (h o hmem).1
    · exact absurd hname (h o hmem).2

/-- Whether a draft becomes `goal` once the innermost elements are abandoned that `next` ends. -/
def LeadsTo (next : Next) (d goal : Draft) : Prop :=
  ∃ depth, d.abandon depth = goal ∧ ∀ o ∈ d.opened.take depth, next.Leaves o.tag.name

theorem LeadsTo.refl (next : Next) (d : Draft) : LeadsTo next d d := ⟨0, rfl, nofun⟩

/-- Before a sibling nothing is abandoned. -/
theorem LeadsTo.eq_of_sibling {d goal : Draft} (h : LeadsTo .sibling d goal) : d = goal := by
  obtain ⟨depth, rfl, hleaves⟩ := h
  cases hopened : d.opened with
  | nil => rw [abandon_of_opened_nil hopened]
  | cons o outer =>
    cases depth with
    | zero => rfl
    | succ depth =>
      rw [hopened] at hleaves
      exact (hleaves o List.mem_cons_self).elim

/-- An end tag closes the element that its content was put together in. -/
theorem LeadsTo.step_stop {d e : Draft} {tag : StartTag} {done : List Node} {closer : EndTag}
    (h : LeadsTo (.endTag closer.name) e ⟨⟨tag, d.done⟩ :: d.opened, done⟩)
    (hname : closer.name = none ∨ closer.name = tag.name) :
    e.step (.stop closer) = d.add (.element tag done.reverse (some closer)) := by
  obtain ⟨depth, habandon, hleaves⟩ := h
  have hdrop : e.opened.drop depth = ⟨tag, d.done⟩ :: d.opened := by
    rw [← opened_abandon, habandon]
  rw [step, depthOf_of_drop hdrop hname hleaves]
  show (e.abandon depth).close (some closer) = _
  rw [habandon]
  rfl

/-- Where an element may lack its end tag, abandoning it is what is left to do. -/
theorem LeadsTo.close {next : Next} {d e : Draft} {tag : StartTag} {done : List Node}
    (h : LeadsTo next e ⟨⟨tag, d.done⟩ :: d.opened, done⟩) (hleaves : next.Leaves tag.name) :
    LeadsTo next e (d.add (.element tag done.reverse none)) := by
  obtain ⟨depth, habandon, hall⟩ := h
  have hdrop : e.opened.drop depth = ⟨tag, d.done⟩ :: d.opened := by
    rw [← opened_abandon, habandon]
  refine ⟨depth + 1, ?_, fun o ho => ?_⟩
  · rw [abandon_succ, habandon]
    rfl
  · have htake : e.opened.take (depth + 1) = e.opened.take depth ++ [⟨tag, d.done⟩] := by
      rw [List.take_add, hdrop]
      rfl
    rw [htake, List.mem_append, List.mem_singleton] at ho
    obtain ho | rfl := ho
    · exact hall o ho
    · exact hleaves

mutual

/-- Taking in the pieces of a nested node leads to the draft with the node. -/
theorem leadsTo_pieces (d : Draft) {next : Next} : ∀ n : Node,
    n.Nested (d.opened.map OpenElement.tag) next → LeadsTo next (n.pieces.foldl step d) (d.add n)
  | .run kind t, _ => .refl next _
  | .strayEnd tag, h => by
    have hdepth : d.depthOf tag.name = none :=
      depthOf_of_forall fun a ha => h a.tag (List.mem_map_of_mem ha)
    have hstep : d.step (.stop tag) = d.add (.strayEnd tag) := by rw [step, hdepth]
    rw [Node.pieces, List.foldl_cons, List.foldl_nil, hstep]
    exact .refl next _
  | .element tag content (some closer), h => by
    obtain ⟨hopens, hname, hcontent⟩ := h
    have hopened : d.step (.start tag) = d.openElement tag := if_pos hopens
    have hall := leadsTo_piecesOfAll (d.openElement tag) content hcontent
    rw [Node.pieces, List.foldl_cons, List.foldl_append, hopened]
    have hstep := LeadsTo.step_stop hall hname
    rw [List.reverse_append, List.reverse_reverse] at hstep
    show LeadsTo next (Draft.step _ (.stop closer)) _
    rw [hstep]
    exact .refl next _
  | .element tag content none, h => by
    rw [Node.Nested] at h
    rw [Node.pieces, Option.map_none, Option.toList_none, List.append_nil, List.foldl_cons]
    split at h
    · next hopens =>
      have hopened : d.step (.start tag) = d.openElement tag := if_pos hopens
      have hclosed := (leadsTo_piecesOfAll (d.openElement tag) content h.2).close h.1
      rw [List.reverse_append, List.reverse_reverse] at hclosed
      rw [hopened]
      exact hclosed
    · next hopens =>
      have hadded : d.step (.start tag) = d.add (.element tag [] none) := if_neg hopens
      rw [h, hadded]
      exact .refl next _

theorem leadsTo_piecesOfAll (d : Draft) {next : Next} : ∀ ns : List Node,
    Node.NestedAll (d.opened.map OpenElement.tag) next ns →
    LeadsTo next ((Node.piecesOfAll ns).foldl step d) ⟨d.opened, ns.reverse ++ d.done⟩
  | [], _ => .refl next d
  | [n], h => by
    rw [Node.piecesOfAll, Node.piecesOfAll, List.append_nil]
    exact leadsTo_pieces d n h.1
  | n :: m :: ns, h => by
    -- A sibling follows, so the node is finished when the next one begins.
    have hfinished := (leadsTo_pieces d n h.1).eq_of_sibling
    have hrest := leadsTo_piecesOfAll (d.add n) (m :: ns) h.2
    rw [Node.piecesOfAll, List.foldl_append, hfinished, List.reverse_cons, List.append_assoc]
    exact hrest

end

end Draft

/-- **Nodes that follow the rules of nesting are what their pieces make up.** -/
theorem Node.ofPieces_piecesOfAll {ns : List Node} (h : NestedAll [] .nothing ns) :
    ofPieces (piecesOfAll ns) = ns := by
  obtain ⟨depth, habandon, -⟩ := Draft.leadsTo_piecesOfAll .empty ns h
  have hdrop := congrArg Draft.opened habandon
  rw [Draft.opened_abandon] at hdrop
  rw [ofPieces, Draft.finish, Draft.abandon_eq_of_drop_nil hdrop, habandon]
  simp [Draft.empty]

end ProjectFile.Markup
