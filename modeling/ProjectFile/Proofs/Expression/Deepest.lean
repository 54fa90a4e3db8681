import ProjectFile.Proofs.Expression.Enclosed

/-!
The node at an offset.

The search goes down from the root to the first child that the offset touches, and never comes back
(`Descent`). Where it ends no child is touched, so the node is a deepest one as far as the children
enclose what is under them (`Expr.Encloses`). An item of a list does not: its span is trimmed, and the
text run in it is not. At an offset in the blanks that are cut off the search ends at the list, though
the text run under it is touched (`deepestAt_overlooks`); everywhere else it finds a deepest node
(`deepestAt_parse`).
-/

namespace ProjectFile.Expression

namespace Expr

variable {offset : Nat} {e n : Expr} {path : List Expr}

/-! ## Searching below a node -/

/-- What is found in the first of some trees, or else in the others. -/
theorem findSome?_deepestAt_cons (offset : Nat) (c : Expr) (cs : List Expr) :
    (c :: cs).findSome? (deepestAt offset) =
      (c.deepestAt offset).or (cs.findSome? (deepestAt offset)) := by
  rw [List.findSome?_cons]
  cases c.deepestAt offset <;> rfl

theorem deepestOfAll_eq (offset : Nat) (es : List Expr) :
    deepestOfAll offset es = es.findSome? (deepestAt offset) := by
  induction es with
  | nil => rfl
  | cons e es ih => rw [deepestOfAll, findSome?_deepestAt_cons, ih]

theorem deepestOfOption_eq (offset : Nat) (e : Option Expr) :
    deepestOfOption offset e = e.toList.findSome? (deepestAt offset) := by
  cases e with
  | none => rfl
  | some e => exact List.findSome?_singleton.symm

theorem symbolAt_eq (offset : Nat) (s : Option Symbol) :
    symbolAt offset s = (ofSymbol? s).findSome? (deepestAt offset) := by
  cases s with
  | none => rfl
  | some s => exact List.findSome?_singleton.symm

/-- All nodes are searched in one way, whatever their children are. -/
theorem deepestAt_eq (offset : Nat) (e : Expr) :
    e.deepestAt offset = found offset e (e.children.findSome? (deepestAt offset)) := by
  cases e with
  | call s function arguments =>
    rw [deepestAt, children, findSome?_deepestAt_cons, deepestOfAll_eq]
    rfl
  | _ =>
    simp only [deepestAt, children, deepestOfAll_eq, deepestOfOption_eq, symbolAt_eq,
      List.findSome?_append, findSome?_deepestAt_cons, List.findSome?_nil, Option.or_none]

theorem deepestAt_eq_none_iff {offset : Nat} {e : Expr} :
    e.deepestAt offset = none ↔ e.span.touches offset = false := by
  rw [deepestAt_eq, found]
  split
  · next htouches => simp [htouches]
  · next hmisses => simpa using hmisses

/-! ## Going down -/

/-- Whether nodes are those that are passed, from the root on, by going down to the first child that the
offset touches as long as there is one. -/
inductive Descent (offset : Nat) : Expr → List Expr → Prop
  | here {e : Expr} (htouches : e.span.touches offset = true)
    (hnone : ∀ c ∈ e.children, c.span.touches offset = false) : Descent offset e [e]
  | down {e c : Expr} {before after path : List Expr} (htouches : e.span.touches offset = true)
    (hchildren : e.children = before ++ c :: after)
    (hbefore : ∀ b ∈ before, b.span.touches offset = false) (h : Descent offset c path) :
    Descent offset e (e :: path)

/-- From every node that the offset touches there is a way down. -/
theorem exists_descent (e : Expr) (h : e.span.touches offset = true) :
    ∃ path, Descent offset e path := by
  induction e using children_induction with
  | step e ih =>
    cases hfind : e.children.find? fun c => c.span.touches offset with
    | none =>
      refine ⟨[e], .here h fun c hc => ?_⟩
      exact Bool.eq_false_iff.2 (List.find?_eq_none.1 hfind c hc)
    | some c =>
      obtain ⟨htouches, before, after, hchildren, hbefore⟩ := List.find?_eq_some_iff_append.1 hfind
      have hmem : c ∈ e.children := List.mem_of_find?_eq_some hfind
      obtain ⟨path, hpath⟩ := ih c hmem htouches
      refine ⟨e :: path, .down h hchildren (fun b hb => ?_) hpath⟩
      simpa using hbefore b hb

theorem Descent.subset (h : Descent offset e path) : ∀ n ∈ path, n ∈ e.descendants := by
  induction h with
  | here => exact List.forall_mem_singleton.2 (mem_descendants_self _)
  | @down e c before after path _ hchildren _ _ ih =>
    have hchild : c ∈ e.children := hchildren ▸ List.mem_append_cons_self
    exact List.forall_mem_cons.2
      ⟨mem_descendants_self e, fun n hn => mem_descendants_of_mem_children hchild (ih n hn)⟩

/-- **The node that is found is where the way down ends.** It is touched, and none of its children is. -/
theorem Descent.found (h : Descent offset e path) : ∃ n, path.getLast? = some n ∧
    e.deepestAt offset = some n ∧ n.span.touches offset = true ∧
      ∀ c ∈ n.children, c.span.touches offset = false := by
  induction h with
  | @here e htouches hnone =>
    have hbelow : e.children.findSome? (deepestAt offset) = none :=
      List.findSome?_eq_none_iff.2 fun c hc => deepestAt_eq_none_iff.2 (hnone c hc)
    refine ⟨e, rfl, ?_, htouches, hnone⟩
    rw [deepestAt_eq, Expr.found, hbelow, if_pos htouches]
    rfl
  | @down e c before after path htouches hchildren hbefore _ ih =>
    obtain ⟨n, hlast, hfound, hn⟩ := ih
    have hbelow : e.children.findSome? (deepestAt offset) = some n := by
      have hnone : before.findSome? (deepestAt offset) = none :=
        List.findSome?_eq_none_iff.2 fun b hb => deepestAt_eq_none_iff.2 (hbefore b hb)
      rw [hchildren, List.findSome?_append, hnone, findSome?_deepestAt_cons, hfound]
      rfl
    have hne : path ≠ [] := by
      rintro rfl
      cases hlast
    refine ⟨n, ?_, ?_, hn⟩
    · rw [List.getLast?_cons_of_ne_nil hne, hlast]
    · rw [deepestAt_eq, Expr.found, hbelow, if_pos htouches]
      rfl

/-! ## The deepest node -/

/-- Whether an offset touches the expression of an item of a node that is a list, and not the item. -/
def Overlooks (offset : Nat) (n : Expr) : Prop :=
  ∃ range segment value x, Expr.listItem range segment value x ∈ n.children ∧
    x.span.touches offset = true ∧ range.touches offset = false

theorem touches_of_within {s r : Span} (h : s.Within r) (hs : s.touches offset = true) :
    r.touches offset = true := by
  rw [Span.touches_iff] at hs ⊢
  exact ⟨Nat.le_trans h.1 hs.1, Nat.le_trans hs.2 h.2⟩

/-- Under a node that has no child at an offset there is no node at all there, unless one is
overlooked. -/
theorem forall_below_iff (hencloses : ∀ m ∈ n.descendants, m.Encloses)
    (hnone : ∀ c ∈ n.children, c.span.touches offset = false) :
    (∀ d ∈ n.children.flatMap descendants, d.span.touches offset = false) ↔ ¬ n.Overlooks offset := by
  constructor
  · rintro hall ⟨range, segment, value, x, hmem, htouches, -⟩
    have hx : x ∈ n.children.flatMap descendants :=
      List.mem_flatMap.2 ⟨_, hmem, List.mem_cons_of_mem _ (mem_descendants_self x)⟩
    exact absurd htouches (Bool.eq_false_iff.1 (hall x hx))
  · intro hnot d hd
    obtain ⟨c, hc, hd⟩ := List.mem_flatMap.1 hd
    have hmiss := hnone c hc
    refine Bool.eq_false_iff.2 fun htouches => ?_
    rcases (hencloses c (mem_descendants_of_mem_children hc (mem_descendants_self c))).holds with
      hholds | ⟨range, segment, value, x, rfl, hholds⟩
    · exact Bool.eq_false_iff.1 hmiss (touches_of_within (hholds d hd) htouches)
    · rcases List.mem_cons.1 hd with rfl | hd
      · exact Bool.eq_false_iff.1 hmiss htouches
      · exact hnot ⟨range, segment, value, x, hc, touches_of_within (hholds d hd) htouches, hmiss⟩

end Expr

/-! ## Whole texts -/

/-- **The search for the node at an offset.** It finds nothing exactly if no node of the tree is touched.
Else it finds a node that is, and no node under this one is, exactly if none is overlooked. -/
theorem deepestAt_parse (t : Text) {e : Expr} (h : parseValue t = .ok e ∨ parseCondition t = .ok e)
    (offset : Nat) :
    (e.deepestAt offset = none ↔ ∀ d ∈ e.descendants, d.span.touches offset = false) ∧
      ∀ n, e.deepestAt offset = some n → n ∈ e.descendants ∧ n.span.touches offset = true ∧
        ((∀ d ∈ n.children.flatMap Expr.descendants, d.span.touches offset = false) ↔
          ¬ n.Overlooks offset) := by
  obtain ⟨hholds, hencloses⟩ := encloses_parse h
  refine ⟨?_, fun n hn => ?_⟩
  · rw [Expr.deepestAt_eq_none_iff]
    refine ⟨fun hmiss d hd => ?_, fun hall => hall e (Expr.mem_descendants_self e)⟩
    exact Bool.eq_false_iff.2 fun htouches =>
      Bool.eq_false_iff.1 hmiss (Expr.touches_of_within (hholds d hd) htouches)
  · have htouches : e.span.touches offset = true := by
      rw [← Bool.not_eq_false, ← Expr.deepestAt_eq_none_iff, hn]
      exact nofun
    obtain ⟨path, hpath⟩ := Expr.exists_descent e htouches
    obtain ⟨n', hlast, hfound, htouches', hnone⟩ := hpath.found
    obtain rfl : n' = n := Option.some.inj (hfound.symm.trans hn)
    have hmem := hpath.subset n' (List.mem_of_getLast? hlast)
    exact ⟨hmem, htouches', Expr.forall_below_iff
      (fun m hm => hencloses m (Expr.mem_descendants_trans hmem hm)) hnone⟩

/-- What an answer that is computed says of the node that is found. -/
theorem exists_of_bind_deepestAt {α : Type} {t : Text} {offset : Nat} {f : Expr → Option α} {a : α}
    (h : ((parseValue t).toOption.bind (Expr.deepestAt offset)).bind f = some a) :
    ∃ e n, parseValue t = .ok e ∧ e.deepestAt offset = some n ∧ f n = some a := by
  obtain ⟨n, hn, hf⟩ := Option.bind_eq_some_iff.1 h
  obtain ⟨e, he, hfound⟩ := Option.bind_eq_some_iff.1 hn
  cases hparse : parseValue t with
  | error problem =>
    rw [hparse] at he
    cases he
  | ok e' =>
    rw [hparse] at he
    cases he
    exact ⟨e, n, rfl, hfound, hf⟩

theorem deepestAt_parse_reference : ∃ e n, parseValue "a; $(B)".toList = .ok e ∧
    e.deepestAt 5 = some n ∧ n.name? = some ['B'] ∧ n ∈ e.descendants ∧ n.span.touches 5 = true := by
  have hrun : ((parseValue "a; $(B)".toList).toOption.bind (Expr.deepestAt 5)).bind Expr.name? =
      some ['B'] := by decide +kernel
  obtain ⟨e, n, he, hn, hname⟩ := exists_of_bind_deepestAt hrun
  obtain ⟨hmem, htouches, -⟩ := (deepestAt_parse _ (.inl he) 5).2 n hn
  exact ⟨e, n, he, hn, hname, hmem, htouches⟩

/-- In the blank in front of an item the list is found, though the text run of the item is touched. -/
theorem deepestAt_overlooks : ∃ e n, parseValue "a; b".toList = .ok e ∧ e.deepestAt 2 = some n ∧
    ∃ d ∈ n.children.flatMap Expr.descendants, d.span.touches 2 = true := by
  have hrun : ((parseValue "a; b".toList).toOption.bind (Expr.deepestAt 2)).bind
      (fun n => some ((n.children.flatMap Expr.descendants).any fun d => d.span.touches 2)) =
        some true := by decide +kernel
  obtain ⟨e, n, he, hn, hany⟩ := exists_of_bind_deepestAt hrun
  exact ⟨e, n, he, hn, List.any_eq_true.1 (Option.some.inj hany)⟩

end ProjectFile.Expression
