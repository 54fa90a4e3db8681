import ProjectFile.Evaluation.Evaluator
import ProjectFile.Proofs.Markup.Children

/-!
Which elements an evaluation visits.

An evaluation that succeeds is a run of visits (`Run`): each takes one element whose condition holds
and declares what it declares. `exists_walk` says of the visits of a project file that

1. each is of an element of the text in the place where such things are declared
   (`Visit.Reached`): a child of a group, a target or an import whose containers are evaluated;
2. their elements stand one behind the other in the text, so none is visited twice.

Of the branches of a choice one at most is entered, so all visits in a choice are in one of its
children (`Unforked`, `exists_walk_unforked`).

What an evaluation does to the project is thereby what the visits do one after the other, whatever
groups and choices the elements stand in.
-/

namespace ProjectFile.Evaluation

open Markup

/-! ## Visits -/

/-- An element that is evaluated for what it declares, with the elements around it, innermost
first. -/
structure Visit where
  kind : ObjectKind
  element : Element
  around : List Element

/-- What a visit makes of the project. All but targets are visited only if their condition holds. -/
inductive Visit.Leads (s : Source) (p : EvaluatedProject) : Visit → EvaluatedProject → Prop
  | property {e : Element} {around : List Element} (hholds : s.holds p e = .ok true) :
    Leads s p ⟨.property, e, around⟩
      (declareProperty p
        ⟨.property, e.name, expand p (unescape e.innerText), some (s.provenance e), []⟩
        (s.provenance e))
  | item {e : Element} {around : List Element} {q : EvaluatedProject}
    (hholds : s.holds p e = .ok true) (heval : evaluateItem s p e = .ok q) :
    Leads s p ⟨.item, e, around⟩ q
  | target {e : Element} {around : List Element} :
    Leads s p ⟨.target, e, around⟩ (evaluateTarget s p e)
  | importedProject {e : Element} {around : List Element} (hholds : s.holds p e = .ok true) :
    Leads s p ⟨.importedProject, e, around⟩ (evaluateImport s p e)

/-- Visits one after the other. -/
inductive Run (s : Source) : EvaluatedProject → List Visit → EvaluatedProject → Prop
  | done (p : EvaluatedProject) : Run s p [] p
  | visit {p q r : EvaluatedProject} {v : Visit} {visits : List Visit} (hstep : v.Leads s p q)
    (hrest : Run s q visits r) : Run s p (v :: visits) r

theorem Run.append {s : Source} {p q r : EvaluatedProject} {visits more : List Visit}
    (h : Run s p visits q) (hmore : Run s q more r) : Run s p (visits ++ more) r := by
  induction h with
  | done => exact hmore
  | visit hstep _ ih => exact .visit hstep (ih hmore)

/-- What every visit preserves, a run preserves. -/
theorem Run.preserves {s : Source} {p q : EvaluatedProject} {visits : List Visit}
    (h : Run s p visits q) (Inv : EvaluatedProject → Prop)
    (hstep : ∀ p (v : Visit) q, v.Leads s p q → Inv p → Inv q) (hp : Inv p) : Inv q := by
  induction h with
  | done => exact hp
  | visit hvisit _ ih => exact ih (hstep _ _ _ hvisit hp)

/-! ## Where visits are made -/

/-- Whether an element with these elements around it, itself first, is one whose content is
evaluated: the root or, at any depth, a branch of a choice. -/
inductive Entered : List Element → Prop
  | root {e : Element} (hname : e.name = "Project".toList) : Entered [e]
  | branch {e choice : Element} {around : List Element}
    (hname : e.name = "When".toList ∨ e.name = "Otherwise".toList)
    (hchoice : choice.name = "Choose".toList) (haround : Entered around) :
    Entered (e :: choice :: around)

/-- Whether things of the kind of a visit are declared where its element stands. -/
def Visit.Reached : Visit → Prop
  | ⟨.property, _, group :: around⟩ => group.name = "PropertyGroup".toList ∧ Entered around
  | ⟨.item, _, group :: around⟩ => group.name = "ItemGroup".toList ∧ Entered around
  | ⟨.target, e, around⟩ => e.name = "Target".toList ∧ Entered around
  | ⟨.importedProject, e, around⟩ => e.name = "Import".toList ∧ Entered around
  | _ => False

/-- Whether some views show the element of a visit with the elements around it. -/
def Visit.SeenIn (v : Visit) (views : List View) : Prop :=
  ∃ view ∈ views, view.item = .element v.element ∧
    view.enclosing.map Enclosure.element = v.around

/-- The visits of a part of a text that has these views and lies between two offsets. -/
structure Walk (s : Source) (views : List View) (start stop : Nat) (p : EvaluatedProject)
    (visits : List Visit) (q : EvaluatedProject) : Prop where
  run : Run s p visits q
  seen : ∀ v ∈ visits, v.SeenIn views
  reached : ∀ v ∈ visits, v.Reached
  within : ∀ v ∈ visits, start ≤ v.element.start ∧ v.element.start < stop
  ascending : visits.Pairwise fun v w => v.element.start < w.element.start

namespace Walk

variable {s : Source} {p q r : EvaluatedProject} {views more : List View} {visits rest : List Visit}
  {a b c : Nat}

theorem nil : Walk s views a b p [] p :=
  ⟨.done p, by simp, by simp, by simp, .nil⟩

/-- A part of a larger part. -/
theorem mono (h : Walk s views b c p visits q) {start stop : Nat} (hviews : views ⊆ more)
    (hstart : start ≤ b) (hstop : c ≤ stop) : Walk s more start stop p visits q where
  run := h.run
  seen := by
    intro v hv
    obtain ⟨view, hview, hseen⟩ := h.seen v hv
    exact ⟨view, hviews hview, hseen⟩
  reached := h.reached
  within := by
    intro v hv
    have hwithin := h.within v hv
    omega
  ascending := h.ascending

/-- One part behind another. -/
theorem append (h : Walk s views a b p visits q) (hrest : Walk s more b c q rest r) (hab : a ≤ b)
    (hbc : b ≤ c) : Walk s (views ++ more) a c p (visits ++ rest) r where
  run := h.run.append hrest.run
  seen := by
    rw [List.forall_mem_append]
    exact ⟨(h.mono (List.subset_append_left _ _) (Nat.le_refl a) hbc).seen,
      (hrest.mono (List.subset_append_right _ _) hab (Nat.le_refl c)).seen⟩
  reached := List.forall_mem_append.2 ⟨h.reached, hrest.reached⟩
  within := by
    rw [List.forall_mem_append]
    exact ⟨(h.mono (List.subset_append_left _ more) (Nat.le_refl a) hbc).within,
      (hrest.mono (List.subset_append_right views _) hab (Nat.le_refl c)).within⟩
  ascending := by
    refine List.pairwise_append.2 ⟨h.ascending, hrest.ascending, ?_⟩
    intro v hv w hw
    exact Nat.lt_of_lt_of_le (h.within v hv).2 (hrest.within w hw).1

/-- What is visited among some nodes has around it what is around the nodes, and elements that start
among the nodes and no later than what is visited. -/
theorem exists_around_eq {enclosing : List Enclosure} {before items : List Item} {offset : Nat}
    {ns : List Node} (hsound : Node.SoundAll ns)
    (h : Walk s (Node.viewsOfAll enclosing before items offset ns) a b p visits q) {v : Visit}
    (hv : v ∈ visits) : ∃ inner : List Element,
      v.around = inner ++ enclosing.map Enclosure.element ∧
      ∀ x ∈ inner, offset ≤ x.start ∧ x.start ≤ v.element.start := by
  obtain ⟨view, hview, hitem, haround⟩ := h.seen v hv
  rw [← haround]
  exact Node.exists_enclosing_eq hitem enclosing before items offset hsound hview

end Walk

/-! ## Visits in choices -/

/-- Whether the visits in any choice, but for some elements around all of them, are in one and the
same child of it. -/
def Unforked (outer : List Element) (visits : List Visit) : Prop :=
  ∀ choice : Element, choice.name = "Choose".toList → choice ∉ outer → ∃ branch, ∀ v ∈ visits,
    choice ∈ v.around → branch ∈ choice.childElements ∧ branch ∈ v.around

namespace Unforked

variable {outer : List Element} {visits more : List Visit}

/-- Visits in no other choice. -/
theorem of_around (h : ∀ v ∈ visits, ∀ x ∈ v.around, x.name = "Choose".toList → x ∈ outer) :
    Unforked outer visits :=
  fun choice hname houter => ⟨choice, fun v hv hin => absurd (h v hv choice hin hname) houter⟩

theorem nil : Unforked outer [] := .of_around (by simp)

theorem self {kind : ObjectKind} {e : Element} : Unforked outer [⟨kind, e, outer⟩] :=
  .of_around (List.forall_mem_singleton.2 fun _ hx _ => hx)

/-- Visits before an offset and others behind it have no choice in common. -/
theorem append (hvisits : Unforked outer visits) (hmore : Unforked outer more) {b : Nat}
    (hbefore : ∀ v ∈ visits, ∀ x ∈ v.around, x ∈ outer ∨ x.start < b)
    (hbehind : ∀ v ∈ more, ∀ x ∈ v.around, x ∈ outer ∨ b ≤ x.start) :
    Unforked outer (visits ++ more) := by
  intro choice hname houter
  rcases Nat.lt_or_ge choice.start b with hlt | hge
  · obtain ⟨branch, hbranch⟩ := hvisits choice hname houter
    refine ⟨branch, fun v hv hin => ?_⟩
    rcases List.mem_append.1 hv with hv | hv
    · exact hbranch v hv hin
    · have hstart := (hbehind v hv choice hin).resolve_left houter
      omega
  · obtain ⟨branch, hbranch⟩ := hmore choice hname houter
    refine ⟨branch, fun v hv hin => ?_⟩
    rcases List.mem_append.1 hv with hv | hv
    · have hstart := (hbefore v hv choice hin).resolve_left houter
      omega
    · exact hbranch v hv hin

/-- Visits in a branch of a choice, which may thereby be among the choices that they are in. -/
theorem branch {e choice : Element} (h : Unforked (e :: choice :: outer) visits)
    (hname : e.name = "When".toList ∨ e.name = "Otherwise".toList) (he : e ∈ choice.childElements)
    (haround : ∀ v ∈ visits, e ∈ v.around) : Unforked outer visits := by
  intro other hother houter
  by_cases hsame : other = choice
  · exact ⟨e, fun v hv _ => ⟨hsame ▸ he, haround v hv⟩⟩
  · refine h other hother ?_
    rw [List.mem_cons, List.mem_cons]
    rintro (rfl | hin | hin)
    · rw [hother] at hname
      revert hname
      decide +kernel
    · exact hsame hin
    · exact houter hin

end Unforked

/-! ## Evaluations that succeed -/

/-- A sequence of two computations succeeds only if both do. -/
theorem exists_of_bind_eq_ok {ε α β : Type} {x : Except ε α} {f : α → Except ε β} {b : β}
    (h : (x >>= f) = .ok b) : ∃ a, x = .ok a ∧ f a = .ok b := by
  cases x with
  | error => cases h
  | ok a => exact ⟨a, rfl, h⟩

/-- What is done only under a condition is done, or nothing changes. -/
theorem done_or_unchanged {ε α : Type} {condition : Except ε Bool} {action : Except ε α} {p q : α}
    (h : (do if ← condition then action else return p) = .ok q) :
    (condition = .ok true ∧ action = .ok q) ∨ q = p := by
  obtain ⟨b, hcondition, h⟩ := exists_of_bind_eq_ok h
  cases b with
  | false => cases h; exact .inr rfl
  | true => exact .inl ⟨hcondition, h⟩

theorem leads_of_evaluateProperty {s : Source} {p q : EvaluatedProject} {e : Element}
    (h : evaluateProperty s p e = .ok q) (around : List Element) :
    q = p ∨ Visit.Leads s p ⟨.property, e, around⟩ q := by
  rcases done_or_unchanged h with ⟨hholds, hdone⟩ | rfl
  · cases hdone
    exact .inr (.property hholds)
  · exact .inl rfl

theorem leads_of_evaluateItem {s : Source} {p q : EvaluatedProject} {e : Element}
    (h : evaluateItem s p e = .ok q) (around : List Element) :
    q = p ∨ Visit.Leads s p ⟨.item, e, around⟩ q := by
  rcases done_or_unchanged h with ⟨hholds, -⟩ | rfl
  · exact .inr (.item hholds h)
  · exact .inl rfl

/-- The children of a group that lead on are visited in order. -/
theorem exists_run_of_foldlM {s : Source} {kind : ObjectKind} {around : List Element}
    {step : EvaluatedProject → Element → Except EvaluationError EvaluatedProject}
    (hstep : ∀ p e q, step p e = .ok q → q = p ∨ Visit.Leads s p ⟨kind, e, around⟩ q)
    {es : List Element} {p q : EvaluatedProject} (h : es.foldlM step p = .ok q) :
    ∃ taken : List Element, taken.Sublist es ∧ Run s p (taken.map fun e => ⟨kind, e, around⟩) q := by
  induction es generalizing p with
  | nil => cases h; exact ⟨[], .slnil, .done _⟩
  | cons e es ih =>
    rw [List.foldlM_cons] at h
    obtain ⟨p', hfirst, h⟩ := exists_of_bind_eq_ok h
    obtain ⟨taken, hsub, hrun⟩ := ih h
    rcases hstep p e p' hfirst with rfl | hleads
    · exact ⟨taken, hsub.cons e, hrun⟩
    · exact ⟨e :: taken, hsub.cons_cons e, .visit hleads hrun⟩

/-- The visits of the children of a group. -/
theorem exists_walk_group {s : Source} {kind : ObjectKind} {group : Element}
    {step : EvaluatedProject → Element → Except EvaluationError EvaluatedProject}
    (enclosing : List Enclosure) (before items : List Item)
    (hstep : ∀ p e q, step p e = .ok q → q = p ∨
      Visit.Leads s p ⟨kind, e, enclosing.map Enclosure.element⟩ q)
    (hreached : ∀ e, Visit.Reached ⟨kind, e, enclosing.map Enclosure.element⟩)
    (hsound : Node.SoundAll group.content) {p q : EvaluatedProject}
    (h : group.childElements.foldlM step p = .ok q) : ∃ visits,
      Walk s (Node.viewsOfAll enclosing before items group.startTagSpan.stop group.content)
        group.startTagSpan.stop group.contentStop p visits q ∧
      ∀ v ∈ visits, v.around = enclosing.map Enclosure.element := by
  obtain ⟨taken, hsub, hrun⟩ := exists_run_of_foldlM hstep h
  refine ⟨_, ⟨hrun, ?_, ?_, ?_, ?_⟩, List.forall_mem_map.2 fun _ _ => rfl⟩
  · rw [List.forall_mem_map]
    intro e he
    obtain ⟨v, hv, hitem, henclosing⟩ :=
      Element.exists_view_childElements (hsub.subset he) enclosing before items
    exact ⟨v, hv, hitem, by rw [henclosing]⟩
  · rw [List.forall_mem_map]
    exact fun e _ => hreached e
  · rw [List.forall_mem_map]
    intro e he
    have hwithin := Element.within_childElements (hsub.subset he)
    have hpos := (Element.sound_of_mem_childElements hsound (hsub.subset he)).width_pos
    change 0 < e.node.width at hpos
    dsimp only
    omega
  · rw [List.pairwise_map]
    exact (Element.pairwise_childElements hsound).sublist hsub

/-- An element with nothing that is visited but itself. -/
theorem walk_self {s : Source} {kind : ObjectKind} {e : Element} {enclosing : List Enclosure}
    (before after : List Item) (hsound : e.node.Sound) {p q : EvaluatedProject}
    (hstep : Visit.Leads s p ⟨kind, e, enclosing.map Enclosure.element⟩ q)
    (hreached : Visit.Reached ⟨kind, e, enclosing.map Enclosure.element⟩) :
    Walk s (e.node.views enclosing before after e.start) e.start (e.start + e.node.width) p
      [⟨kind, e, enclosing.map Enclosure.element⟩] q where
  run := .visit hstep (.done q)
  seen := by
    rw [List.forall_mem_singleton]
    exact ⟨⟨.element e, before, after, enclosing⟩, List.mem_cons_self, rfl, rfl⟩
  reached := List.forall_mem_singleton.2 hreached
  within := by
    have hpos : 0 < e.node.width := hsound.width_pos
    rw [List.forall_mem_singleton]
    dsimp only
    omega
  ascending := List.pairwise_singleton _ _

/-- What is visited inside an element is visited in the element. -/
theorem Walk.inside {s : Source} {e : Element} {enclosing : List Enclosure} {before after : List Item}
    {p q : EvaluatedProject} {visits : List Visit}
    (h : Walk s (Node.viewsOfAll (⟨e, before, after⟩ :: enclosing) [] e.children e.startTagSpan.stop
      e.content) e.startTagSpan.stop e.contentStop p visits q) :
    Walk s (e.node.views enclosing before after e.start) e.start (e.start + e.node.width) p visits
      q := by
  refine h.mono ?_ (Nat.le_add_right _ _) ?_
  · exact fun v hv => List.mem_cons_of_mem _ (List.mem_append_right _ hv)
  · have hwidth : e.node.width = e.tag.text.width + (Node.widthOfAll e.content +
      ((e.endTag.map EndTag.text).getD []).width) := rfl
    have hopen : e.startTagSpan.stop = e.start + e.tag.text.width := rfl
    rw [Element.contentStop]
    omega

/-- Visits of the children of a group are in no choice but those that the group is in. -/
theorem Unforked.of_group {e : Element} {outer : List Element} {visits : List Visit}
    (hname : e.name ≠ "Choose".toList) (h : ∀ v ∈ visits, v.around = e :: outer) :
    Unforked outer visits := by
  refine .of_around fun v hv x hx hchoice => ?_
  rw [h v hv, List.mem_cons] at hx
  refine hx.resolve_left ?_
  rintro rfl
  exact hname hchoice

/-- The visits of an element that is not a choice. -/
theorem exists_walk_child {s : Source} {e : Element} {enclosing : List Enclosure}
    (before after : List Item) (hsound : e.node.Sound)
    (hentered : Entered (enclosing.map Enclosure.element)) {p q : EvaluatedProject}
    (h : evaluateChild s p e = .ok q) : ∃ visits,
      Walk s (e.node.views enclosing before after e.start) e.start (e.start + e.node.width) p visits
        q ∧ Unforked (enclosing.map Enclosure.element) visits := by
  rw [evaluateChild] at h
  split at h
  · next hname =>
    rcases done_or_unchanged h with ⟨-, hdone⟩ | rfl
    · obtain ⟨visits, hwalk, haround⟩ := exists_walk_group (⟨e, before, after⟩ :: enclosing) []
        e.children (fun p c q hc => leads_of_evaluateProperty hc _) (fun c => ⟨hname, hentered⟩)
        hsound.inside.2 hdone
      exact ⟨visits, hwalk.inside, .of_group (hname ▸ by decide +kernel) haround⟩
    · exact ⟨[], .nil, .nil⟩
  split at h
  · next hname =>
    rcases done_or_unchanged h with ⟨-, hdone⟩ | rfl
    · obtain ⟨visits, hwalk, haround⟩ := exists_walk_group (⟨e, before, after⟩ :: enclosing) []
        e.children (fun p c q hc => leads_of_evaluateItem hc _) (fun c => ⟨hname, hentered⟩)
        hsound.inside.2 hdone
      exact ⟨visits, hwalk.inside, .of_group (hname ▸ by decide +kernel) haround⟩
    · exact ⟨[], .nil, .nil⟩
  split at h
  · next hname =>
    cases h
    exact ⟨_, walk_self before after hsound .target ⟨hname, hentered⟩, .self⟩
  split at h
  · next hname =>
    rcases done_or_unchanged h with ⟨hholds, hdone⟩ | rfl
    · cases hdone
      exact ⟨_, walk_self before after hsound (.importedProject hholds) ⟨hname, hentered⟩, .self⟩
    · exact ⟨[], .nil, .nil⟩
  · cases h
    exact ⟨[], .nil, .nil⟩

/-! ## Contents -/

/-- What an element of a root or of a branch does to the project. -/
def evaluateElement (s : Source) (p : EvaluatedProject) (e : Element) :
    Except EvaluationError EvaluatedProject :=
  if e.name = "Choose".toList then evaluateBranches s e.startTagSpan.stop p e.content
  else evaluateChild s p e

theorem evaluateContent_element (s : Source) (offset : Nat) (p : EvaluatedProject) (e : Element)
    (hstart : e.start = offset) (rest : List Node) :
    evaluateContent s offset p (e.node :: rest) =
      (if e.name = "Choose".toList then evaluateBranches s e.startTagSpan.stop p e.content
        else evaluateChild s p e) >>= fun q => evaluateContent s (offset + e.node.width) q rest := by
  subst hstart
  rw [Element.node, evaluateContent]
  split <;> rfl

/-- Only elements are evaluated. -/
theorem evaluateContent_skip (s : Source) (offset : Nat) (p : EvaluatedProject) {n : Node}
    (h : n.isElement = false) (rest : List Node) :
    evaluateContent s offset p (n :: rest) = evaluateContent s (offset + n.width) p rest := by
  rw [evaluateContent]
  rintro tag content endTag rfl
  cases h

/-- Whether an element is a branch that is taken. -/
def branchApplies (s : Source) (p : EvaluatedProject) (e : Element) : Except EvaluationError Bool :=
  if e.name = "When".toList then s.holds p e else .ok (decide (e.name = "Otherwise".toList))

theorem evaluateBranches_element (s : Source) (offset : Nat) (p : EvaluatedProject) (e : Element)
    (hstart : e.start = offset) (rest : List Node) :
    evaluateBranches s offset p (e.node :: rest) =
      branchApplies s p e >>= fun applies =>
        if applies then evaluateContent s e.startTagSpan.stop p e.content
        else evaluateBranches s (offset + e.node.width) p rest := by
  subst hstart
  rw [Element.node, evaluateBranches, branchApplies]
  split <;> rfl

theorem evaluateBranches_skip (s : Source) (offset : Nat) (p : EvaluatedProject) {n : Node}
    (h : n.isElement = false) (rest : List Node) :
    evaluateBranches s offset p (n :: rest) = evaluateBranches s (offset + n.width) p rest := by
  rw [evaluateBranches]
  rintro tag content endTag rfl
  cases h

/-- Only branches are taken. -/
theorem name_of_branchApplies {s : Source} {p : EvaluatedProject} {e : Element}
    (h : branchApplies s p e = .ok true) :
    e.name = "When".toList ∨ e.name = "Otherwise".toList := by
  rw [branchApplies] at h
  split at h
  · next hname => exact .inl hname
  · rw [Except.ok.injEq, decide_eq_true_eq] at h
    exact .inr h

namespace Walk

variable {s : Source} {enclosing : List Enclosure} {before items : List Item} {offset : Nat}
  {n : Node} {rest : List Node} {p q r : EvaluatedProject} {visits more : List Visit}

/-- The visits of a node and of those behind it. -/
theorem cons
    (h : Walk s (n.views enclosing before (items.drop (Item.ofNode? (offset, n)).toList.length)
      offset) offset (offset + n.width) p visits q)
    (hrest : Walk s (Node.viewsOfAll enclosing ((Item.ofNode? (offset, n)).toList ++ before)
      (items.drop (Item.ofNode? (offset, n)).toList.length) (offset + n.width) rest)
      (offset + n.width) (offset + n.width + Node.widthOfAll rest) q more r) :
    Walk s (Node.viewsOfAll enclosing before items offset (n :: rest)) offset
      (offset + Node.widthOfAll (n :: rest)) p (visits ++ more) r := by
  rw [Node.viewsOfAll, Node.widthOfAll, ← Nat.add_assoc]
  exact h.append hrest (Nat.le_add_right _ _) (Nat.le_add_right _ _)

/-- Nothing is visited in a node that is passed over. -/
theorem skip
    (hrest : Walk s (Node.viewsOfAll enclosing ((Item.ofNode? (offset, n)).toList ++ before)
      (items.drop (Item.ofNode? (offset, n)).toList.length) (offset + n.width) rest)
      (offset + n.width) (offset + n.width + Node.widthOfAll rest) p visits q) :
    Walk s (Node.viewsOfAll enclosing before items offset (n :: rest)) offset
      (offset + Node.widthOfAll (n :: rest)) p visits q :=
  cons nil hrest

end Walk

/-- The visits of a node and of those behind it have no choice in common. -/
theorem Unforked.cons {s : Source} {enclosing : List Enclosure} {before items : List Item}
    {offset : Nat} {n : Node} {rest : List Node} {p q r : EvaluatedProject}
    {visits more : List Visit} (hn : n.Sound) (hsound : Node.SoundAll rest)
    (h : Walk s (n.views enclosing before (items.drop (Item.ofNode? (offset, n)).toList.length)
      offset) offset (offset + n.width) p visits q)
    (hrest : Walk s (Node.viewsOfAll enclosing ((Item.ofNode? (offset, n)).toList ++ before)
      (items.drop (Item.ofNode? (offset, n)).toList.length) (offset + n.width) rest)
      (offset + n.width) (offset + n.width + Node.widthOfAll rest) q more r)
    (hvisits : Unforked (enclosing.map Enclosure.element) visits)
    (hmore : Unforked (enclosing.map Enclosure.element) more) :
    Unforked (enclosing.map Enclosure.element) (visits ++ more) := by
  have hfirst : Walk s (Node.viewsOfAll enclosing before items offset [n]) offset
      (offset + n.width) p visits q := by
    rw [Node.viewsOfAll, Node.viewsOfAll, List.append_nil]
    exact h
  have hone : Node.SoundAll [n] := ⟨hn, trivial⟩
  refine hvisits.append hmore (b := offset + n.width) ?_ ?_
  · intro v hv x hx
    obtain ⟨inner, haround, hwithin⟩ := hfirst.exists_around_eq hone hv
    rw [haround, List.mem_append] at hx
    refine hx.symm.imp_right fun hx => ?_
    exact Nat.lt_of_le_of_lt (hwithin x hx).2 (h.within v hv).2
  · intro v hv x hx
    obtain ⟨inner, haround, hwithin⟩ := hrest.exists_around_eq hsound hv
    rw [haround, List.mem_append] at hx
    exact hx.symm.imp_right fun hx => (hwithin x hx).1

mutual

/-- The visits of the content of a root or a branch. -/
theorem exists_walk_content {s : Source} {enclosing : List Enclosure} (before items : List Item)
    (hentered : Entered (enclosing.map Enclosure.element)) (offset : Nat) {p q : EvaluatedProject} :
    ∀ ns : List Node, Node.SoundAll ns → evaluateContent s offset p ns = .ok q → ∃ visits,
      Walk s (Node.viewsOfAll enclosing before items offset ns) offset
        (offset + Node.widthOfAll ns) p visits q ∧
      Unforked (enclosing.map Enclosure.element) visits
  | [], _, h => by
    rw [evaluateContent] at h
    cases h
    exact ⟨[], .nil, .nil⟩
  | .element tag content endTag :: rest, hsound, h => by
    -- A choice is entered in place of its branches; any other element is a child by itself.
    let e : Element := ⟨offset, tag, content, endTag⟩
    have hnode : e.node.Sound := hsound.1
    change evaluateContent s offset p (e.node :: rest) = .ok q at h
    rw [evaluateContent_element s offset p e rfl] at h
    obtain ⟨p', hfirst, h⟩ := exists_of_bind_eq_ok h
    obtain ⟨more, hmore, hforkMore⟩ :=
      exists_walk_content _ _ hentered (offset + e.node.width) rest hsound.2 h
    split at hfirst
    · next hname =>
      obtain ⟨visits, hvisits, hfork⟩ := exists_walk_branches [] e.children
        (show (Enclosure.mk e before _).element.name = _ from hname) hentered _ content
        hnode.inside.2 (fun _ hplaced => hplaced) hfirst
      exact ⟨_, Walk.cons hvisits.inside hmore,
        .cons hnode hsound.2 hvisits.inside hmore hfork hforkMore⟩
    · obtain ⟨visits, hvisits, hfork⟩ := exists_walk_child _ _ hnode hentered hfirst
      exact ⟨_, Walk.cons hvisits hmore, .cons hnode hsound.2 hvisits hmore hfork hforkMore⟩
  | .strayEnd tag :: rest, hsound, h => by
    rw [evaluateContent_skip s offset p rfl] at h
    obtain ⟨visits, hwalk, hfork⟩ := exists_walk_content _ _ hentered _ rest hsound.2 h
    exact ⟨visits, hwalk.skip, hfork⟩
  | .run kind t :: rest, hsound, h => by
    rw [evaluateContent_skip s offset p rfl] at h
    obtain ⟨visits, hwalk, hfork⟩ := exists_walk_content _ _ hentered _ rest hsound.2 h
    exact ⟨visits, hwalk.skip, hfork⟩
termination_by ns => sizeOf ns

/-- The visits of the content of a choice: those of one of its branches. -/
theorem exists_walk_branches {s : Source} {choice : Enclosure} {enclosing : List Enclosure}
    (before items : List Item) (hchoice : choice.element.name = "Choose".toList)
    (hentered : Entered (enclosing.map Enclosure.element)) (offset : Nat) {p q : EvaluatedProject} :
    ∀ ns : List Node, Node.SoundAll ns →
      Node.placed offset ns ⊆
        Node.placed choice.element.startTagSpan.stop choice.element.content →
      evaluateBranches s offset p ns = .ok q → ∃ visits,
      Walk s (Node.viewsOfAll (choice :: enclosing) before items offset ns) offset
        (offset + Node.widthOfAll ns) p visits q ∧
      Unforked (enclosing.map Enclosure.element) visits
  | [], _, _, h => by
    rw [evaluateBranches] at h
    cases h
    exact ⟨[], .nil, .nil⟩
  | .element tag content endTag :: rest, hsound, hplaced, h => by
    let e : Element := ⟨offset, tag, content, endTag⟩
    have hnode : e.node.Sound := hsound.1
    change evaluateBranches s offset p (e.node :: rest) = .ok q at h
    rw [evaluateBranches_element s offset p e rfl] at h
    obtain ⟨applies, happlies, h⟩ := exists_of_bind_eq_ok h
    cases applies with
    | true =>
      let branch : Enclosure := ⟨e, before, items.drop 1⟩
      have hname := name_of_branchApplies happlies
      have hinside : Entered ((branch :: choice :: enclosing).map Enclosure.element) :=
        .branch hname hchoice hentered
      obtain ⟨visits, hvisits, hfork⟩ := exists_walk_content [] e.children hinside _ content
        hnode.inside.2 h
      have hbranch : e ∈ choice.element.childElements :=
        Element.mem_childElements.2 (hplaced List.mem_cons_self)
      -- The branches behind the one that is taken are not looked at.
      refine ⟨_, Walk.cons hvisits.inside .nil, ?_⟩
      rw [List.append_nil]
      refine Unforked.branch hfork hname hbranch fun v hv => ?_
      obtain ⟨inner, haround, -⟩ := hvisits.exists_around_eq hnode.inside.2 hv
      rw [haround]
      exact List.mem_append_right _ List.mem_cons_self
    | false =>
      obtain ⟨visits, hwalk, hfork⟩ := exists_walk_branches _ _ hchoice hentered _ rest hsound.2
        (List.Subset.trans (List.subset_cons_self _ _) hplaced) h
      exact ⟨visits, hwalk.skip, hfork⟩
  | .strayEnd tag :: rest, hsound, hplaced, h => by
    rw [evaluateBranches_skip s offset p rfl] at h
    obtain ⟨visits, hwalk, hfork⟩ := exists_walk_branches _ _ hchoice hentered _ rest hsound.2
      (List.Subset.trans (List.subset_cons_self _ _) hplaced) h
    exact ⟨visits, hwalk.skip, hfork⟩
  | .run kind t :: rest, hsound, hplaced, h => by
    rw [evaluateBranches_skip s offset p rfl] at h
    obtain ⟨visits, hwalk, hfork⟩ := exists_walk_branches _ _ hchoice hentered _ rest hsound.2
      (List.Subset.trans (List.subset_cons_self _ _) hplaced) h
    exact ⟨visits, hwalk.skip, hfork⟩
termination_by ns => sizeOf ns

end

/-! ## Project files -/

/-- What a file is evaluated as. -/
theorem evaluateContent_of_evaluate {exists? : FilePath → Bool} {path : FilePath} {t : Text}
    {globals : GlobalProperties} {q : EvaluatedProject}
    (h : evaluate exists? path t globals = .ok q) :
    (Document.parse t).errors = [] ∧ ∃ root, (Document.parse t).root? = some root ∧
      root.name = "Project".toList ∧
      evaluateContent ⟨path, .ofText t, exists?⟩ root.startTagSpan.stop (initialProject path globals)
        root.content = .ok q := by
  rw [evaluate] at h
  split at h
  · cases h
  · cases h
  · next root herrors hroot =>
    split at h
    · next hname => exact ⟨herrors, root, hroot, hname, h⟩
    · cases h

/-- **The visits of a project file**, and that those in a choice are in one of its children. -/
theorem exists_walk_unforked {exists? : FilePath → Bool} {path : FilePath} {t : Text}
    {globals : GlobalProperties} {q : EvaluatedProject}
    (h : evaluate exists? path t globals = .ok q) : ∃ visits,
      Walk ⟨path, .ofText t, exists?⟩ (Document.parse t).views 0 t.width
        (initialProject path globals) visits q ∧ Unforked [] visits := by
  obtain ⟨herrors, root, hroot, hname, h⟩ := evaluateContent_of_evaluate h
  obtain ⟨ns, hreading⟩ := Document.exists_reading herrors
  obtain ⟨pre, post, hnodes, hstart⟩ := Document.exists_of_root? hroot
  have hns : ns = pre ++ root.node :: post := by rw [← hnodes, hreading.parse_eq]; rfl
  have hsound : root.node.Sound :=
    (Node.soundAll_cons.1 (Node.soundAll_append.1 (hns ▸ hreading.sound)).2).1
  obtain ⟨before, after, hall⟩ := Node.exists_views_subset [] [] (Document.parse t).children 0 pre
    root.node post
  have hentered : Entered ([Enclosure.mk root before after].map Enclosure.element) := .root hname
  obtain ⟨visits, hwalk, hfork⟩ := exists_walk_content [] root.children hentered _ _
    hsound.inside.2 h
  refine ⟨visits, hwalk.inside.mono ?_ (Nat.zero_le _) ?_, fun choice hchoice _ => ?_⟩
  · intro v hv
    rw [Document.views, hnodes]
    exact hall v (hstart ▸ hv)
  · have hwidth : t.width = Node.widthOfAll (pre ++ root.node :: post) := by
      rw [← hns, Node.widthOfAll_eq, hreading.text_eq]
    rw [Node.widthOfAll_append, Node.widthOfAll] at hwidth
    omega
  · refine hfork choice hchoice fun hin => ?_
    -- The root is a project, and no choice.
    obtain rfl := List.mem_singleton.1 hin
    have hproject : "Choose".toList = "Project".toList := hchoice.symm.trans hname
    revert hproject
    decide +kernel

/-- The visits of a project file. -/
theorem exists_walk {exists? : FilePath → Bool} {path : FilePath} {t : Text}
    {globals : GlobalProperties} {q : EvaluatedProject}
    (h : evaluate exists? path t globals = .ok q) : ∃ visits,
      Walk ⟨path, .ofText t, exists?⟩ (Document.parse t).views 0 t.width
        (initialProject path globals) visits q :=
  (exists_walk_unforked h).imp fun _ => And.left

end ProjectFile.Evaluation
