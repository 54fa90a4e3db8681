import ProjectFile.Proofs.Evaluation.Conditions
import ProjectFile.Proofs.Evaluation.Unplaced

/-!
Declarations that the evaluation does not depend on.

A property that is given keeps its value, so what an element that declares it has as its content is
of no account: from a project in which the property is given, a declaration with other content leads
to the same project (`sameOutcome_evaluateProperty`).

`Indifferent` says so of lists of nodes. It holds of the children of a group that differ in such a
declaration, and is handed on from the content of a group, a branch or a choice to the nodes that it
stands among (`Indifferent.around`), up to the root. So the outcome of the evaluation of a file is
the same, but for positions, whatever the content of the declaration is
(`sameOutcome_evaluate_refilled`).
-/

namespace ProjectFile.Evaluation

open Markup

/-! ## Outcomes -/

/-- Whether evaluations have the same outcome but for positions. -/
def SameOutcome (x y : Except EvaluationError EvaluatedProject) : Prop :=
  erase EvaluatedProject.unplaced x = erase EvaluatedProject.unplaced y

theorem SameOutcome.trans {x y z : Except EvaluationError EvaluatedProject} (h : SameOutcome x y)
    (h' : SameOutcome y z) : SameOutcome x z := Eq.trans h h'

/-- A step, and what is done after it. -/
theorem sameOutcome_bind {α : Type} {x : Except EvaluationError α}
    {next next' : α → Except EvaluationError EvaluatedProject}
    (h : ∀ a, x = .ok a → SameOutcome (next a) (next' a)) :
    SameOutcome (x >>= next) (x >>= next') := by
  cases x with
  | error e => rfl
  | ok a => exact h a rfl

/-- Nodes are evaluated alike wherever they stand. -/
theorem sameOutcome_evaluateContent {s s' : Source} (hs : s.unplaced = s'.unplaced)
    {p q : EvaluatedProject} (h : p.unplaced = q.unplaced) (a b : Nat) (ns : List Node) :
    SameOutcome (evaluateContent s a p ns) (evaluateContent s' b q ns) := by
  rw [SameOutcome, ← erase_evaluateContent s a 0, ← erase_evaluateContent s' b 0, hs, h]

theorem sameOutcome_evaluateBranches (s : Source) {p q : EvaluatedProject}
    (h : p.unplaced = q.unplaced) (a b : Nat) (ns : List Node) :
    SameOutcome (evaluateBranches s a p ns) (evaluateBranches s b q ns) := by
  rw [SameOutcome, ← erase_evaluateBranches s a 0, ← erase_evaluateBranches s b 0, h]

section

variable (s : Source) (p : EvaluatedProject) {e f : Element} (h : e.Alike f)

include h

/-- Elements that are alike are taken alike. -/
theorem erase_holds_congr : erase id (s.holds p e) = erase id (s.holds p f) := by
  rw [← erase_holds s p h, ← erase_holds s p ⟨rfl, rfl⟩]

theorem erase_branchApplies_congr :
    erase id (branchApplies s p e) = erase id (branchApplies s p f) := by
  rw [← erase_branchApplies s p h, ← erase_branchApplies s p ⟨rfl, rfl⟩]

end

/-! ## Declarations -/

/-- A declaration of a given property is recorded, whatever its value. -/
theorem exists_declareProperty_eq {p : EvaluatedProject} {name value : Text}
    (h : Fixed p name value) : ∃ history : History, ∀ own place at',
      declareProperty p ⟨.property, name, own, place, []⟩ at' =
        p.insertProperty (history.ignore at') := by
  obtain ⟨history, hget, hgiven, -⟩ := h
  refine ⟨history, fun own place at' => ?_⟩
  rw [declareProperty, hget]
  dsimp only
  rw [hgiven]
  rfl

/-- **The content of a declaration of a given property is of no account.** -/
theorem sameOutcome_evaluateProperty (s : Source) {p : EvaluatedProject} {e f : Element}
    {value : Text} (halike : e.Alike f) (h : Fixed p e.name value) :
    SameOutcome (evaluateProperty s p e) (evaluateProperty s p f) := by
  obtain ⟨history, hdeclare⟩ := exists_declareProperty_eq h
  refine erase_bind_congr (erase_holds_congr s p halike) fun b c _ hb => ?_
  obtain rfl : b = c := hb
  cases b with
  | false => rfl
  | true =>
    dsimp only
    rw [← halike.name]
    simp only [if_true, hdeclare]
    refine congrArg Except.ok ?_
    rw [EvaluatedProject.unplaced_insertProperty, EvaluatedProject.unplaced_insertProperty,
      History.unplaced_ignore, History.unplaced_ignore]
    rfl

theorem sameOutcome_evaluateProperty_of_node (s : Source) {p q : EvaluatedProject} {c d : Element}
    (h : c.node = d.node) (hpq : p.unplaced = q.unplaced) :
    SameOutcome (evaluateProperty s p c) (evaluateProperty s q d) := by
  rw [SameOutcome, ← erase_evaluateProperty s p h, ← erase_evaluateProperty s q rfl, hpq]

theorem Fixed.of_evaluateProperty {s : Source} {p q : EvaluatedProject} {c : Element}
    {name value : Text} (h : Fixed p name value) (hc : evaluateProperty s p c = .ok q) :
    Fixed q name value := by
  rcases leads_of_evaluateProperty hc [] with rfl | hleads
  · exact h
  · exact h.leads hleads

/-- The children of a property group, one of them a declaration of a given property. -/
theorem sameOutcome_foldlM (s : Source) {e f : Element} {value : Text} (halike : e.Alike f)
    (before after : List Node) {cs ds : List Element}
    (hcs : cs.map Element.node = before ++ e.node :: after)
    (hds : ds.map Element.node = before ++ f.node :: after) {p q : EvaluatedProject}
    (h : Fixed p e.name value) (hpq : p.unplaced = q.unplaced) :
    SameOutcome (cs.foldlM (evaluateProperty s) p) (ds.foldlM (evaluateProperty s) q) := by
  induction before generalizing cs ds p q with
  | nil =>
    obtain ⟨c, cs, rfl, hc, hcs⟩ := List.map_eq_cons_iff.1 hcs
    obtain ⟨d, ds, rfl, hd, hds⟩ := List.map_eq_cons_iff.1 hds
    rw [List.foldlM_cons, List.foldlM_cons]
    have hfirst : SameOutcome (evaluateProperty s p c) (evaluateProperty s q d) :=
      (sameOutcome_evaluateProperty_of_node s hc rfl).trans <|
        (sameOutcome_evaluateProperty s halike h).trans <|
        sameOutcome_evaluateProperty_of_node s hd.symm hpq
    refine erase_bind_congr hfirst fun a b _ hab => ?_
    have hall {es fs : List Element} (hnodes : es.map Element.node = fs.map Element.node)
        (r : EvaluatedProject) := erase_foldlM EvaluatedProject.unplaced (R := SameNode)
      (fun r _ _ hc => erase_evaluateProperty s r hc) (forall₂_of_map_node hnodes) r
    rw [← hall (hcs.trans hds.symm), hab, hall rfl]
  | cons n before ih =>
    obtain ⟨c, cs, rfl, hc, hcs⟩ := List.map_eq_cons_iff.1 hcs
    obtain ⟨d, ds, rfl, hd, hds⟩ := List.map_eq_cons_iff.1 hds
    rw [List.foldlM_cons, List.foldlM_cons]
    refine erase_bind_congr (sameOutcome_evaluateProperty_of_node s (hc.trans hd.symm) hpq) ?_
    intro a b ha hab
    exact ih hcs hds (h.of_evaluateProperty ha) hab

/-! ## Nodes -/

theorem sameOutcome_evaluateElement_of_node (s : Source) {p q : EvaluatedProject} {c d : Element}
    (h : c.node = d.node) (hpq : p.unplaced = q.unplaced) :
    SameOutcome (evaluateElement s p c) (evaluateElement s q d) := by
  rw [evaluateElement, evaluateElement, (alike_of_node h).name]
  split
  · rw [content_eq_of_node h]
    exact sameOutcome_evaluateBranches s hpq _ _ _
  · rw [SameOutcome, ← erase_evaluateChild_of_elements s p (.of_node h),
      ← erase_evaluateChild_of_elements s q (.of_node rfl), hpq]

theorem evaluateChild_of_branch (s : Source) (p : EvaluatedProject) {e : Element}
    (h : e.name = "When".toList ∨ e.name = "Otherwise".toList) : evaluateChild s p e = .ok p := by
  rw [evaluateChild]
  rcases h with h | h <;> rw [h] <;> rfl

/-- A value that is given stays, whatever the element does. -/
theorem Fixed.of_evaluateElement {s : Source} {p q : EvaluatedProject} {c : Element}
    {name value : Text} (h : Fixed p name value) (hsound : c.node.Sound)
    (hc : evaluateElement s p c = .ok q) : Fixed q name value := by
  -- What is visited does not depend on the root that the element is in.
  let root : Element := ⟨0, ⟨[], some "Project".toList, [], .content⟩, [], none⟩
  have hcontent : evaluateContent s c.start p [c.node] = .ok q := by
    rw [evaluateContent_element s c.start p c rfl]
    change evaluateElement s p c >>= _ = _
    rw [hc]
    exact evaluateContent.eq_1 s _ q
  obtain ⟨visits, hwalk, -⟩ := exists_walk_content [] []
    (show Entered ([Enclosure.mk root [] []].map Enclosure.element) from .root rfl) c.start [c.node]
    ⟨hsound, trivial⟩ hcontent
  exact hwalk.run.fixed h

/-! Nodes among which one element is another one. -/

section

variable {s : Source} {e f : Element}

/-- If the elements are evaluated alike from the projects that come before them, so are the nodes. -/
theorem sameOutcome_content_around {Inv : EvaluatedProject → Prop}
    (helement : ∀ p, Inv p → SameOutcome (evaluateElement s p e) (evaluateElement s p f))
    {before : List Node}
    (hbefore : ∀ c : Element, c.node ∈ before → ∀ p q, Inv p → evaluateElement s p c = .ok q → Inv q)
    (after : List Node) {p : EvaluatedProject} (hp : Inv p) (a : Nat) :
    SameOutcome (evaluateContent s a p (before ++ e.node :: after))
      (evaluateContent s a p (before ++ f.node :: after)) := by
  induction before generalizing p a with
  | nil =>
    let c : Element := { e with start := a }
    let d : Element := { f with start := a }
    change SameOutcome (evaluateContent s a p (c.node :: after))
      (evaluateContent s a p (d.node :: after))
    rw [evaluateContent_element s a p c rfl, evaluateContent_element s a p d rfl]
    have hfirst : SameOutcome (evaluateElement s p c) (evaluateElement s p d) :=
      (sameOutcome_evaluateElement_of_node s (show c.node = e.node from rfl) rfl).trans <|
        (helement p hp).trans <|
        sameOutcome_evaluateElement_of_node s (show f.node = d.node from rfl) rfl
    exact erase_bind_congr hfirst fun q r _ hqr => sameOutcome_evaluateContent rfl hqr _ _ _
  | cons n before ih =>
    have hrest {q : EvaluatedProject} (hq : Inv q) :=
      ih (fun c hc => hbefore c (List.mem_cons_of_mem n hc)) hq
    cases n with
    | element tag content endTag =>
      let c : Element := ⟨a, tag, content, endTag⟩
      change SameOutcome (evaluateContent s a p (c.node :: _)) (evaluateContent s a p (c.node :: _))
      rw [evaluateContent_element s a p c rfl, evaluateContent_element s a p c rfl]
      exact sameOutcome_bind fun q hq => hrest (hbefore c List.mem_cons_self p q hp hq) _
    | strayEnd tag =>
      rw [List.cons_append, List.cons_append, evaluateContent_skip s a p rfl,
        evaluateContent_skip s a p rfl]
      exact hrest hp _
    | run kind t =>
      rw [List.cons_append, List.cons_append, evaluateContent_skip s a p rfl,
        evaluateContent_skip s a p rfl]
      exact hrest hp _

/-- If the elements are branches with contents that are evaluated alike, so are the nodes of the
choice. -/
theorem sameOutcome_branches_around (halike : e.Alike f) {p : EvaluatedProject}
    (hbranch : e.name = "When".toList ∨ e.name = "Otherwise".toList →
      ∀ a, SameOutcome (evaluateContent s a p e.content) (evaluateContent s a p f.content))
    (before after : List Node) (a : Nat) :
    SameOutcome (evaluateBranches s a p (before ++ e.node :: after))
      (evaluateBranches s a p (before ++ f.node :: after)) := by
  induction before generalizing a with
  | nil =>
    let c : Element := { e with start := a }
    let d : Element := { f with start := a }
    change SameOutcome (evaluateBranches s a p (c.node :: after))
      (evaluateBranches s a p (d.node :: after))
    rw [evaluateBranches_element s a p c rfl, evaluateBranches_element s a p d rfl]
    have hcd : c.Alike d := (alike_of_node (show c.node = e.node from rfl)).trans <|
      halike.trans <| alike_of_node (show f.node = d.node from rfl)
    refine erase_bind_congr (erase_branchApplies_congr s p hcd) fun x y hx hxy => ?_
    obtain rfl : x = y := hxy
    cases x with
    | true =>
      have hname := name_of_branchApplies hx
      exact (hbranch hname _).trans (sameOutcome_evaluateContent rfl rfl _ _ _)
    | false => exact sameOutcome_evaluateBranches s rfl _ _ _
  | cons n before ih =>
    cases n with
    | element tag content endTag =>
      let c : Element := ⟨a, tag, content, endTag⟩
      change SameOutcome (evaluateBranches s a p (c.node :: _)) (evaluateBranches s a p (c.node :: _))
      rw [evaluateBranches_element s a p c rfl, evaluateBranches_element s a p c rfl]
      refine sameOutcome_bind fun applies _ => ?_
      cases applies with
      | true => rfl
      | false => exact ih _
    | strayEnd tag =>
      rw [List.cons_append, List.cons_append, evaluateBranches_skip s a p rfl,
        evaluateBranches_skip s a p rfl]
      exact ih _
    | run kind t =>
      rw [List.cons_append, List.cons_append, evaluateBranches_skip s a p rfl,
        evaluateBranches_skip s a p rfl]
      exact ih _

end

/-- Whether nodes and others are evaluated alike from every project in which a property is given,
both as the content of a branch and as that of a choice. -/
structure Indifferent (s : Source) (name value : Text) (ms ns : List Node) : Prop where
  content : ∀ p a, Fixed p name value →
    SameOutcome (evaluateContent s a p ms) (evaluateContent s a p ns)
  branches : ∀ p a, Fixed p name value →
    SameOutcome (evaluateBranches s a p ms) (evaluateBranches s a p ns)

/-- A member of sound nodes is sound. -/
theorem sound_of_mem {n : Node} {ns : List Node} (h : Node.SoundAll ns) (hn : n ∈ ns) : n.Sound := by
  obtain ⟨ms, rest, rfl⟩ := List.append_of_mem hn
  exact (Node.soundAll_cons.1 (Node.soundAll_append.1 h).2).1

namespace Indifferent

variable {s : Source} {name value : Text} {e f : Element} {ms ns : List Node}

/-- **Elements that are evaluated alike make the nodes around them so.** -/
theorem around (halike : e.Alike f) {before : List Node} (hbefore : Node.SoundAll before)
    (after : List Node)
    (helement : ∀ p, Fixed p name value →
      SameOutcome (evaluateElement s p e) (evaluateElement s p f))
    (hbranch : e.name = "When".toList ∨ e.name = "Otherwise".toList →
      Indifferent s name value e.content f.content) :
    Indifferent s name value (before ++ e.node :: after) (before ++ f.node :: after) where
  content p a hp := by
    refine sameOutcome_content_around helement (fun c hc p q hp hq => ?_) after hp a
    exact hp.of_evaluateElement (sound_of_mem hbefore hc) hq
  branches p a hp := sameOutcome_branches_around halike
    (fun hname a => (hbranch hname).content p a hp) before after a

/-- A choice and its branches hand on what holds of their content. -/
theorem choice (halike : e.Alike f)
    (hname : e.name = "Choose".toList ∨ e.name = "When".toList ∨ e.name = "Otherwise".toList)
    (h : Indifferent s name value e.content f.content) {before : List Node}
    (hbefore : Node.SoundAll before) (after : List Node) :
    Indifferent s name value (before ++ e.node :: after) (before ++ f.node :: after) := by
  refine around halike hbefore after (fun p hp => ?_) fun _ => h
  rw [evaluateElement, evaluateElement, ← halike.name]
  split
  · exact (h.branches p _ hp).trans (sameOutcome_evaluateBranches s rfl _ _ _)
  · next hchoose =>
    -- Outside of a choice a branch means nothing.
    have hbranch := hname.resolve_left hchoose
    rw [evaluateChild_of_branch s p hbranch, evaluateChild_of_branch s p (halike.name ▸ hbranch)]
    rfl

/-- So does a property group in which a declaration of the property has other content. -/
theorem group {c d : Element} (halike : e.Alike f) (hname : e.name = "PropertyGroup".toList)
    (hdeclaration : c.Alike d) {pre post : List Node} (he : e.content = pre ++ c.node :: post)
    (hf : f.content = pre ++ d.node :: post) {before : List Node} (hbefore : Node.SoundAll before)
    (after : List Node) :
    Indifferent s c.name value (before ++ e.node :: after) (before ++ f.node :: after) := by
  refine around halike hbefore after (fun p hp => ?_) fun hbranch => ?_
  · have hchoose : ¬ e.name = "Choose".toList := by
      rw [hname]
      decide +kernel
    rw [evaluateElement, evaluateElement, ← halike.name, if_neg hchoose, if_neg hchoose,
      evaluateChild, evaluateChild, ← halike.name, if_pos hname, if_pos hname]
    refine erase_bind_congr (erase_holds_congr s p halike) fun x y _ hxy => ?_
    obtain rfl : x = y := hxy
    cases x with
    | false => rfl
    | true =>
      refine sameOutcome_foldlM s hdeclaration (pre.filter Node.isElement)
        (post.filter Node.isElement) ?_ ?_ hp rfl
      · rw [map_node_childElements, he, List.filter_append]
        rfl
      · rw [map_node_childElements, hf, List.filter_append]
        rfl
  · refine absurd hbranch ?_
    rw [hname]
    decide +kernel

/-- **What holds inside choices holds around them.** -/
theorem plug (h : Indifferent s name value ms ns) {fs : List Frame} (hsound : ∀ f ∈ fs, f.Sound)
    (hnames : ∀ f ∈ fs, f.name = "Choose".toList ∨ f.name = "When".toList ∨
      f.name = "Otherwise".toList) :
    Indifferent s name value (Frame.plug fs ms) (Frame.plug fs ns) := by
  induction fs with
  | nil => exact h
  | cons f fs ih =>
    obtain ⟨hf, hsound⟩ := List.forall_mem_cons.1 hsound
    obtain ⟨hname, hnames⟩ := List.forall_mem_cons.1 hnames
    let c : Element := ⟨0, f.tag, Frame.plug fs ms, some f.closer⟩
    let d : Element := ⟨0, f.tag, Frame.plug fs ns, some f.closer⟩
    exact choice (show c.Alike d from ⟨rfl, rfl⟩) hname (ih hsound hnames) hf.before f.after

end Indifferent

/-! ## Project files -/

/-- Whether an element is a child of a property group that stands in a project, be it in choices or
not, by the names of the elements around it, innermost first. -/
inductive Grouped : List Text → Prop
  | intro {choices : List Text}
    (hchoices : ∀ c ∈ choices, c = "Choose".toList ∨ c = "When".toList ∨ c = "Otherwise".toList) :
    Grouped ("PropertyGroup".toList :: (choices ++ ["Project".toList]))

/-- The frames of such an element: those of the root, of the choices and of the group. -/
theorem Grouped.exists_frames {fs : List Frame} (h : Grouped (fs.map Frame.name).reverse) :
    ∃ root choices group, fs = root :: (choices ++ [group]) ∧ root.name = "Project".toList ∧
      group.name = "PropertyGroup".toList ∧ ∀ f ∈ choices, f.name = "Choose".toList ∨
        f.name = "When".toList ∨ f.name = "Otherwise".toList := by
  generalize hnames : (fs.map Frame.name).reverse = names at h
  obtain ⟨hchoices⟩ := h
  rename_i choices
  rw [List.reverse_eq_iff, List.reverse_cons, List.reverse_append] at hnames
  obtain ⟨root, fs, rfl, hroot, hfs⟩ := List.map_eq_cons_iff.1 hnames
  obtain ⟨inner, last, rfl, hinner, hlast⟩ := List.map_eq_append_iff.1 hfs
  obtain ⟨group, rfl, hgroup⟩ := List.map_eq_singleton_iff.1 hlast
  refine ⟨root, inner, group, rfl, hroot, hgroup, fun f hf => hchoices f.name ?_⟩
  rw [← List.mem_reverse]
  have hmem : f.name ∈ inner.map Frame.name := List.mem_map_of_mem hf
  rwa [hinner] at hmem

/-- A name that has an entry is given a value. -/
theorem exists_givenValue? {path : FilePath} {globals : GlobalProperties} {name : Text}
    (h : ∃ entry ∈ reservedProperties path ++ globals, Text.sameName entry.1 name = true) :
    ∃ value, givenValue? path globals name = some value := by
  rw [← Option.isSome_iff_exists, givenValue?, Option.isSome_map, Option.isSome_iff_ne_none, Ne,
    entryGiven?_eq_none_iff]
  obtain ⟨entry, hmem, hsame⟩ := h
  intro hnone
  rw [hnone entry hmem] at hsame
  cases hsame

/-- The first element at the top of a document is its root. -/
theorem root?_markup {before after : List Node} (h : ∀ n ∈ before, n.isElement = false)
    {e : Element} (hstart : e.start = Node.widthOfAll before) :
    (Document.markup (before ++ e.node :: after)).root? = some e := by
  have hfind (offset : Nat) (hat : e.start = offset + Node.widthOfAll before) :
      (Item.ofNodes offset (before ++ e.node :: after)).findSome? Item.element? = some e := by
    clear hstart
    induction before generalizing offset with
    | nil =>
      obtain rfl : e.start = offset := hat
      rfl
    | cons n before ih =>
      obtain ⟨hn, hbefore⟩ := List.forall_mem_cons.1 h
      have hrest := ih hbefore (offset + n.width) (by rw [hat, Node.widthOfAll, Nat.add_assoc])
      cases n with
      | element tag content endTag => cases hn
      | strayEnd tag => exact hrest
      | run kind t =>
        cases hkind : kind.content? with
        | none => simpa [Item.ofNodes, Node.placed, Item.ofNode?, hkind] using hrest
        | some k =>
          simp only [Item.ofNodes, List.cons_append, Node.placed, List.filterMap_cons, Item.ofNode?,
            hkind, Option.map_some]
          exact hrest
  exact hfind 0 (by rw [hstart, Nat.zero_add])

/-- The element of the outermost frame of a text without errors is its root. -/
theorem root?_plug {t : Text} {ns : List Node} (h : Document.Reading t ns) {root : Frame}
    {fs : List Frame} {inner : List Node} (hns : ns = Frame.plug (root :: fs) inner) :
    (Document.parse t).root? =
      some ⟨Node.widthOfAll root.before, root.tag, Frame.plug fs inner, some root.closer⟩ := by
  let e : Element := ⟨Node.widthOfAll root.before, root.tag, Frame.plug fs inner, some root.closer⟩
  have hone := h.oneRoot
  have hnodes : ns = root.before ++ e.node :: root.after := hns
  have helement : e.node.isElement = true := rfl
  rw [hnodes, List.countP_append, List.countP_cons, if_pos helement] at hone
  have hbefore : ∀ n ∈ root.before, n.isElement = false := by
    have hzero : root.before.countP Node.isElement = 0 := by omega
    simpa [List.countP_eq_zero] using hzero
  rw [h.parse_eq, hnodes]
  exact root?_markup hbefore rfl

/-- A project file is evaluated from what is in the frame of its root. -/
theorem exists_evaluate_eq (exists? : FilePath → Bool) (path : FilePath) (globals : GlobalProperties)
    {t : Text} {ns : List Node} (h : Document.Reading t ns) {root : Frame}
    (hname : root.name = "Project".toList) {fs : List Frame} {inner : List Node}
    (hns : ns = Frame.plug (root :: fs) inner) : ∃ offset, evaluate exists? path t globals =
      evaluateContent ⟨path, .ofText t, exists?⟩ offset (initialProject path globals)
        (Frame.plug fs inner) :=
  ⟨_, evaluate_eq exists? path globals h.errors_eq_nil (root?_plug h hns) hname⟩

/-- **Given properties cannot be influenced by the file.** The content of a declaration of a property
that has a global or a reserved value does not change the outcome of an evaluation, but for
positions. -/
theorem sameOutcome_evaluate_refilled (exists? : FilePath → Bool) (path : FilePath)
    (globals : GlobalProperties) {t t' : Text} {v : View} {e e' : Element}
    (herrors : (Document.parse t).errors = []) (hv : v ∈ (Document.parse t).views)
    (hitem : v.item = .element e) (hgrouped : Grouped (v.enclosing.map fun c => c.element.name))
    (hgiven : ∃ entry ∈ reservedProperties path ++ globals, Text.sameName entry.1 e.name = true)
    (herrors' : (Document.parse t').errors = []) (hrefilled : Refilled t e t' e') :
    SameOutcome (evaluate exists? path t globals) (evaluate exists? path t' globals) := by
  obtain ⟨ns, hreading⟩ := Document.exists_reading herrors
  obtain ⟨ns', hreading'⟩ := Document.exists_reading herrors'
  -- The element in its frames, before and after the change.
  obtain ⟨fs, pre, post, hns, hstart, haround⟩ := hreading.exists_frames_of_view hv hitem
  have hnames : (v.enclosing.map fun c => c.element.name) = (fs.map Frame.name).reverse := by
    have helements := congrArg (List.map Element.name) haround
    rwa [List.map_map, List.map_reverse, Frame.map_name_elements] at helements
  rw [hnames] at hgrouped
  obtain ⟨root, choices, group, rfl, hroot, hgroup, hchoices⟩ := hgrouped.exists_frames
  have hns' : ns' = Frame.plug (root :: (choices ++ [group])) (pre ++ e'.node :: post) := by
    have hparse := hreading.parse_refilled hns hstart hrefilled herrors'
    rw [hreading'.parse_eq] at hparse
    exact Document.markup.inj hparse
  obtain ⟨a, hbefore⟩ := exists_evaluate_eq exists? path globals hreading hroot hns
  obtain ⟨b, hafter⟩ := exists_evaluate_eq exists? path globals hreading' hroot hns'
  -- The group is indifferent to the change, so the choices around it are.
  obtain ⟨value, hvalue⟩ : ∃ value, givenValue? path globals e.name = some value :=
    exists_givenValue? hgiven
  have hsound := (hreading.sound_at hns).1
  rw [List.forall_mem_cons, List.forall_mem_append, List.forall_mem_singleton] at hsound
  obtain ⟨-, hchoicesSound, hgroupSound⟩ := hsound
  let c : Element := ⟨0, group.tag, pre ++ e.node :: post, some group.closer⟩
  let d : Element := ⟨0, group.tag, pre ++ e'.node :: post, some group.closer⟩
  let s : Source := ⟨path, .ofText t, exists?⟩
  let s' : Source := ⟨path, .ofText t', exists?⟩
  have hinside : Indifferent s e.name value
      (Frame.plug (choices ++ [group]) (pre ++ e.node :: post))
      (Frame.plug (choices ++ [group]) (pre ++ e'.node :: post)) := by
    rw [Frame.plug_append, Frame.plug_append]
    exact (Indifferent.group (show c.Alike d from ⟨rfl, rfl⟩) hgroup hrefilled.alike rfl rfl
      hgroupSound.before group.after).plug hchoicesSound hchoices
  rw [hbefore, hafter]
  exact (hinside.content _ a (fixed_initialProject hvalue)).trans
    (sameOutcome_evaluateContent (show s.unplaced = s'.unplaced from rfl) rfl a b _)

/-- A file that declares a property in a choice, with some content, and uses it. -/
def secluded (content : Text) : Text :=
  "<Project><Choose><Otherwise><PropertyGroup><g Label='>'>".toList ++ (content ++
    "</g><h>$(G)</h></PropertyGroup></Otherwise></Choose></Project>".toList)

def secludedLabel : Attribute := ⟨"Label".toList, .value [] [] ⟨'\'', ['>'], true⟩⟩

/-- The property is global in other letters, and gets an element with a reference as its content. -/
theorem sameOutcome_evaluate_secluded :
    SameOutcome
      (evaluate (fun _ => false) ⟨"/p".toList⟩ (secluded ['1']) [(['G'], ['7'])])
      (evaluate (fun _ => false) ⟨"/p".toList⟩ (secluded "<a>$(h)</a>".toList) [(['G'], ['7'])]) := by
  obtain ⟨v, hv, hitem, haround⟩ : ∃ v ∈ (Document.parse (secluded ['1'])).views,
      (v.item.element?.map fun e => (e.name, e.span, e.attributes.map PlacedAttribute.attr)) =
        some (['g'], ⟨43, 61⟩, [secludedLabel]) ∧
      (v.enclosing.map fun c => c.element.name) =
        "PropertyGroup".toList :: (["Otherwise".toList, "Choose".toList] ++ ["Project".toList]) := by
    decide +kernel
  obtain ⟨e', he', hstart', hname', hattributes', htext'⟩ :
      ∃ e' ∈ (Document.parse (secluded "<a>$(h)</a>".toList)).elements, e'.start = 43 ∧
        e'.name = ['g'] ∧ e'.attributes.map PlacedAttribute.attr = [secludedLabel] ∧
        secluded "<a>$(h)</a>".toList = (secluded ['1']).splice ⟨43, 61⟩ e'.node.text := by
    decide +kernel
  obtain ⟨e, he, hshown⟩ := Option.map_eq_some_iff.1 hitem
  obtain ⟨hname, hspan, hattributes⟩ : e.name = ['g'] ∧ e.span = ⟨43, 61⟩ ∧
      e.attributes.map PlacedAttribute.attr = [secludedLabel] := by simpa using hshown
  have hstart : e.start = 43 := congrArg Span.start hspan
  refine sameOutcome_evaluate_refilled (fun _ => false) ⟨"/p".toList⟩ [(['G'], ['7'])]
    (by decide +kernel) hv (Item.element?_eq_some he) ?_ ⟨(['G'], ['7']), ?_, ?_⟩ (by decide +kernel)
    ⟨?_, he', ?_, ⟨?_, ?_⟩⟩
  · rw [haround]
    exact .intro (by decide +kernel)
  · exact List.mem_append_right _ List.mem_cons_self
  · rw [hname]
    decide +kernel
  · rw [hspan]
    exact htext'
  · rw [hstart', hstart]
  · rw [hname, hname']
  · rw [hattributes, hattributes']

end ProjectFile.Evaluation
