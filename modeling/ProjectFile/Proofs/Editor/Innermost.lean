import ProjectFile.Proofs.Editor.Embedded

/-!
The reference at a location and the node there.

The node is where the way down from the root ends. On this way stand all references that the offset
touches, but for some that begin at the offset: they are to the right of a node that ends there, which
is the one that is taken (`Expr.Descent.references`). On the way each reference is shorter than those
around it (`Expr.Descent.shorter`), so the shortest of them is the innermost around the node. Only a
reference to the right may be shorter still (`ExpressionAt.Overtaken`). It is then the answer, though the
node is to the left of it (`reference?_of_expression?`, `reference?_overtakes`).
-/

namespace ProjectFile

namespace Expression.Expr

variable {offset : Nat} {e c : Expr} {path : List Expr}

/-! ## References on the way down -/

/-- Whether a node is a reference that an offset touches. -/
def refersAt (offset : Nat) (n : Expr) : Bool := n.isReference && n.span.touches offset

theorem refersAt_iff {n : Expr} :
    n.refersAt offset = true ↔ n.isReference = true ∧ n.span.touches offset = true := by
  rw [refersAt, Bool.and_eq_true]

/-- Under a node that is not touched no reference is, as nodes enclose their references. -/
theorem Encloses.filter_eq_nil (hc : c.Encloses) (h : c.span.touches offset = false) :
    c.descendants.filter (refersAt offset) = [] := by
  rw [List.filter_eq_nil_iff]
  intro r hr hrefers
  obtain ⟨href, htouches⟩ := refersAt_iff.1 hrefers
  exact Bool.eq_false_iff.1 h (touches_of_within (hc.references r hr href) htouches)

theorem filter_flatMap_eq_nil {cs : List Expr} (hcs : ∀ c ∈ cs, c.Encloses)
    (h : ∀ c ∈ cs, c.span.touches offset = false) :
    (cs.flatMap descendants).filter (refersAt offset) = [] := by
  rw [List.filter_flatMap, List.flatMap_eq_nil_iff]
  exact fun c hc => (hcs c hc).filter_eq_nil (h c hc)

theorem Descent.touches (h : Descent offset e path) : e.span.touches offset = true := by
  cases h <;> assumption

/-- **The references at an offset are those on the way down, and some that begin there.** -/
theorem Descent.references (h : Descent offset e path)
    (hencloses : ∀ n ∈ e.descendants, n.Encloses) :
    ∃ right, e.descendants.filter (refersAt offset) = path.filter isReference ++ right ∧
      ∀ r ∈ right, r.span.start = offset := by
  induction h with
  | @here e htouches hnone =>
    have hchildren : ∀ c ∈ e.children, c.Encloses := fun c hc =>
      hencloses c (mem_descendants_of_mem_children hc (mem_descendants_self c))
    refine ⟨[], ?_, nofun⟩
    rw [descendants_eq, List.filter_cons, List.filter_cons, filter_flatMap_eq_nil hchildren hnone,
      refersAt, htouches, Bool.and_true]
    split <;> rfl
  | @down e c before after path htouches hchildren hbefore hdown ih =>
    have hmem : ∀ d ∈ e.children, ∀ n ∈ d.descendants, n.Encloses := fun d hd n hn =>
      hencloses n (mem_descendants_of_mem_children hd hn)
    rw [hchildren, List.forall_mem_append, List.forall_mem_cons] at hmem
    obtain ⟨hfront, hself, hbehind⟩ := hmem
    obtain ⟨right, hright, hstart⟩ := ih hself
    have hordered := (hencloses e (mem_descendants_self e)).ordered
    rw [hchildren] at hordered
    have hnone : (before.flatMap descendants).filter (refersAt offset) = [] :=
      filter_flatMap_eq_nil (fun b hb => hfront b hb b (mem_descendants_self b)) hbefore
    refine ⟨right ++ (after.flatMap descendants).filter (refersAt offset), ?_, ?_⟩
    · rw [descendants_eq, hchildren, List.filter_cons, List.filter_cons, refersAt, htouches,
        Bool.and_true, List.flatMap_append, List.flatMap_cons, List.filter_append, hnone,
        List.filter_append, hright]
      split <;> simp
    · refine List.forall_mem_append.2 ⟨hstart, fun r hr => ?_⟩
      obtain ⟨hr, hrefers⟩ := List.mem_filter.1 hr
      obtain ⟨href, hrtouches⟩ := refersAt_iff.1 hrefers
      obtain ⟨b, hb, hr⟩ := List.mem_flatMap.1 hr
      -- The child that was taken reaches up to the offset, and those behind it begin there at least.
      have hle : c.span.stop ≤ b.span.start :=
        List.rel_of_pairwise_cons (List.pairwise_append.1 hordered).2.1 hb
      have hin := (hbehind b hb b (mem_descendants_self b)).references r hr href
      have hreach := (Span.touches_iff.1 hdown.touches).2
      exact Nat.le_antisymm (Span.touches_iff.1 hrtouches).1
        (Nat.le_trans hreach (Nat.le_trans hle hin.1))

/-- **On the way down each reference is shorter than those around it.** -/
theorem Descent.shorter (h : Descent offset e path) (hencloses : ∀ n ∈ e.descendants, n.Encloses) :
    (path.filter isReference).Pairwise fun outer inner => inner.span.size < outer.span.size := by
  induction h with
  | here =>
    rw [List.filter_cons]
    split
    · exact List.pairwise_singleton _ _
    · exact .nil
  | @down e c before after path htouches hchildren hbefore hdown ih =>
    have hchild : c ∈ e.children := hchildren ▸ List.mem_append_cons_self
    have hrest := ih fun n hn => hencloses n (mem_descendants_of_mem_children hchild hn)
    rw [List.filter_cons]
    split
    · next href =>
      refine .cons (fun n hn => ?_) hrest
      obtain ⟨hn, href'⟩ := List.mem_filter.1 hn
      have hbelow := hdown.subset n hn
      have hself := hencloses e (mem_descendants_self e)
      have hmem := mem_descendants_of_mem_children hchild hbelow
      have hinner := hself.inner href n (List.mem_flatMap.2 ⟨c, hchild, hbelow⟩)
      have hwithin := (hself.references n hmem href').2
      have hle := (hencloses n hmem).le
      rw [Span.size, Span.size]
      omega
    · exact hrest

end Expression.Expr

namespace Editor

open Markup Expression

/-! ## The shortest node -/

theorem shortest_eq_none_iff {es : List Expr} : shortest es = none ↔ es = [] := by
  cases es with
  | nil => exact iff_of_true rfl rfl
  | cons e es =>
    refine iff_of_false (fun h => ?_) nofun
    rw [shortest] at h
    split at h
    · cases h
    · split at h <;> cases h

theorem shortest_spec {es : List Expr} {r : Expr} (h : shortest es = some r) :
    r ∈ es ∧ ∀ e ∈ es, r.span.size ≤ e.span.size := by
  induction es generalizing r with
  | nil => cases h
  | cons e es ih =>
    rw [shortest] at h
    rw [List.forall_mem_cons]
    split at h
    · next hnone =>
      obtain rfl := Option.some.inj h
      rw [shortest_eq_none_iff.1 hnone]
      exact ⟨List.mem_cons_self, Nat.le_refl _, List.forall_mem_nil _⟩
    · next f hf =>
      obtain ⟨hmem, hall⟩ := ih hf
      split at h
      · next hlt =>
        obtain rfl := Option.some.inj h
        exact ⟨List.mem_cons_of_mem _ hmem, Nat.le_of_lt hlt, hall⟩
      · next hnot =>
        obtain rfl := Option.some.inj h
        exact ⟨List.mem_cons_self, Nat.le_refl _,
          fun x hx => Nat.le_trans (Nat.le_of_not_lt hnot) (hall x hx)⟩

/-- A node is the shortest if it is shorter than those before it and not longer than those behind. -/
theorem shortest_append_cons {before after : List Expr} {p : Expr}
    (hbefore : ∀ b ∈ before, p.span.size < b.span.size)
    (hafter : ∀ a ∈ after, p.span.size ≤ a.span.size) : shortest (before ++ p :: after) = some p := by
  induction before with
  | nil =>
    rw [List.nil_append, shortest]
    split
    · rfl
    · next f hf => exact if_neg (Nat.not_lt_of_le (hafter f (shortest_spec hf).1))
  | cons b before ih =>
    rw [List.forall_mem_cons] at hbefore
    rw [List.cons_append, shortest, ih hbefore.2]
    exact if_pos hbefore.1

/-- Where nodes get shorter and shorter, the last of them is the shortest unless one of the others is
shorter than all of them. -/
theorem shortest_append_iff {front right : List Expr}
    (h : front.Pairwise fun outer inner => inner.span.size < outer.span.size) :
    shortest (front ++ right) = front.getLast? ↔
      ¬ ∃ r ∈ right, ∀ n ∈ front, r.span.size < n.span.size := by
  rcases List.eq_nil_or_concat' front with rfl | ⟨front, p, rfl⟩
  · rw [List.nil_append, List.getLast?_nil, shortest_eq_none_iff]
    simp [List.eq_nil_iff_forall_not_mem]
  · obtain ⟨-, -, hpairs⟩ := List.pairwise_append.1 h
    have hbefore : ∀ b ∈ front, p.span.size < b.span.size := fun b hb =>
      hpairs b hb p (List.mem_singleton_self p)
    rw [List.getLast?_concat, List.append_assoc, List.singleton_append]
    constructor
    · rintro hshortest ⟨r, hr, hlt⟩
      have hle := (shortest_spec hshortest).2 r
        (List.mem_append_right _ (List.mem_cons_of_mem _ hr))
      have hlt := hlt p (List.mem_append_right _ (List.mem_singleton_self p))
      omega
    · intro hnone
      refine shortest_append_cons hbefore fun r hr => Nat.le_of_not_lt fun hlt => ?_
      refine hnone ⟨r, hr, fun n hn => ?_⟩
      rcases List.mem_append.1 hn with hn | hn
      · exact Nat.lt_trans hlt (hbefore n hn)
      · rw [List.mem_singleton.1 hn]
        exact hlt

/-! ## The innermost reference -/

/-- The innermost reference among a node and those around it, outermost first. -/
def innermost? (path : List Expr) : Option Expr := path.reverse.find? Expr.isReference

theorem innermost?_eq (path : List Expr) : innermost? path = (path.filter Expr.isReference).getLast? := by
  rw [innermost?, ← List.head?_filter, List.filter_reverse, List.head?_reverse]

/-- Whether a reference that begins at the offset is shorter than all those around the node. -/
def ExpressionAt.Overtaken (e : ExpressionAt) (path : List Expr) : Prop :=
  ∃ r ∈ e.root.descendants, r.isReference = true ∧ r.span.start = e.offset ∧
    ∀ n ∈ path, n.isReference = true → r.span.size < n.span.size

/-- **The reference at a location is the innermost around the node there**, exactly if it is not overtaken
by a shorter one to the right. -/
theorem reference?_of_expression? (t : Text) (offset : Nat) {e : ExpressionAt}
    (h : (inspect (Document.parse t) offset).expression? = some e) :
    ∃ path, Expr.Descent e.offset e.root path ∧ path.getLast? = some e.node ∧
      (e.reference? = innermost? path ↔ ¬ e.Overtaken path) := by
  obtain ⟨source, -, hread, -, -, -, hroot⟩ := Location.exists_embedded_of_expression? h
  obtain ⟨-, hencloses⟩ := encloses_parse hread
  obtain ⟨path, hpath, hlast, -⟩ := ExpressionAt.exists_descent hroot
  obtain ⟨right, hrefs, hstart⟩ := hpath.references hencloses
  refine ⟨path, hpath, hlast, ?_⟩
  have hreference : e.reference? = shortest (path.filter Expr.isReference ++ right) := by
    rw [← hrefs]
    rfl
  rw [hreference, innermost?_eq, shortest_append_iff (hpath.shorter hencloses)]
  refine not_congr ⟨?_, ?_⟩
  · rintro ⟨r, hr, hlt⟩
    have hmem : r ∈ e.root.descendants.filter (Expr.refersAt e.offset) := by
      rw [hrefs]
      exact List.mem_append_right _ hr
    obtain ⟨hmem, hrefers⟩ := List.mem_filter.1 hmem
    exact ⟨r, hmem, (Expr.refersAt_iff.1 hrefers).1, hstart r hr,
      fun n hn href => hlt n (List.mem_filter.2 ⟨hn, href⟩)⟩
  · rintro ⟨r, hmem, href, hbegins, hlt⟩
    have htouches : r.span.touches e.offset = true :=
      Span.touches_iff.2 ⟨Nat.le_of_eq hbegins, hbegins ▸ (hencloses r hmem).le⟩
    have hall : r ∈ path.filter Expr.isReference ++ right := by
      rw [← hrefs]
      exact List.mem_filter.2 ⟨hmem, Expr.refersAt_iff.2 ⟨href, htouches⟩⟩
    rcases List.mem_append.1 hall with hon | hr
    · obtain ⟨hon, -⟩ := List.mem_filter.1 hon
      exact absurd (hlt r hon href) (Nat.lt_irrefl _)
    · exact ⟨r, hr, fun n hn => hlt n (List.mem_filter.1 hn).1 (List.mem_filter.1 hn).2⟩

theorem reference?_of_expression?_nested : ∃ e path,
    (inspect (Document.parse "<P>@(A->'$(B)')</P>".toList) 12).expression? = some e ∧
      Expr.Descent e.offset e.root path ∧ path.getLast? = some e.node ∧
        (e.reference? = innermost? path ↔ ¬ e.Overtaken path) := by
  have hsome : (inspect (Document.parse "<P>@(A->'$(B)')</P>".toList) 12).expression?.isSome = true := by
    decide +kernel
  obtain ⟨e, he⟩ := Option.isSome_iff_exists.1 hsome
  obtain ⟨path, hpath, hlast, hiff⟩ := reference?_of_expression? _ 12 he
  exact ⟨e, path, he, hpath, hlast, hiff⟩

/-- Between two references the node is the left one, and the answer is the right one if it is shorter. -/
theorem reference?_overtakes : ∃ e,
    (inspect (Document.parse "<P>$(AA)$(B)</P>".toList) 8).expression? = some e ∧
      e.node.isReference = true ∧ e.reference? ≠ some e.node := by
  have hrun : (inspect (Document.parse "<P>$(AA)$(B)</P>".toList) 8).expression?.map
      (fun e => (e.node.isReference, e.node.name?, e.reference?.bind Expr.name?)) =
        some (true, some ['A', 'A'], some ['B']) := by decide +kernel
  obtain ⟨e, he, hanswers⟩ := Option.map_eq_some_iff.1 hrun
  obtain ⟨hnode, hnames⟩ := Prod.mk.inj hanswers
  obtain ⟨hname, hreference⟩ := Prod.mk.inj hnames
  refine ⟨e, he, hnode, fun heq => ?_⟩
  rw [heq, Option.bind_some, hname] at hreference
  exact absurd hreference (by decide)

end Editor

end ProjectFile
