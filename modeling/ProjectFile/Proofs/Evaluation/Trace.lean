import ProjectFile.Proofs.Evaluation.Walk

/-!
The trace of an evaluation.

`trace` evaluates a project file and records its visits in order, each with the project as the visit
finds it. If the evaluation succeeds, every step of the trace leads to the project that the next one
finds, and the last to the result (`steps_trace`).

So what an element sees when it is evaluated is the project of its step: `exists_step_property` finds
the step of a property whose group and whose own declaration are unconditional.
-/

namespace ProjectFile.Evaluation

open Markup

/-! ## Steps -/

/-- A visit with the project that it finds. -/
structure Step where
  before : EvaluatedProject
  visit : Visit

/-- Visits one after the other, each with the project that it finds. -/
inductive Steps (s : Source) : EvaluatedProject → List Step → EvaluatedProject → Prop
  | done (p : EvaluatedProject) : Steps s p [] p
  | step {p q r : EvaluatedProject} {v : Visit} {steps : List Step} (hstep : v.Leads s p q)
    (hrest : Steps s q steps r) : Steps s p (⟨p, v⟩ :: steps) r

namespace Steps

variable {s : Source} {p q r : EvaluatedProject} {steps more : List Step}

theorem append (h : Steps s p steps q) (hmore : Steps s q more r) : Steps s p (steps ++ more) r := by
  induction h with
  | done => exact hmore
  | step hstep _ ih => exact .step hstep (ih hmore)

theorem single {v : Visit} (h : v.Leads s p q) : Steps s p [⟨p, v⟩] q := .step h (.done q)

theorem run (h : Steps s p steps q) : Run s p (steps.map Step.visit) q := by
  induction h with
  | done => exact .done _
  | step hstep _ ih => exact .visit hstep ih

/-- Around a step there are those that lead to what it finds, and those that go on from it. -/
theorem exists_of_mem (h : Steps s p steps q) {step : Step} (hmem : step ∈ steps) :
    ∃ earlier later after, steps = earlier ++ step :: later ∧ Steps s p earlier step.before ∧
      step.visit.Leads s step.before after ∧ Steps s after later q := by
  induction h with
  | done => cases hmem
  | @step p q r v steps hstep hrest ih =>
    rcases List.mem_cons.1 hmem with rfl | hmem
    · exact ⟨[], steps, q, rfl, .done p, hstep, hrest⟩
    · obtain ⟨earlier, later, after, rfl, hearlier, hleads, hlater⟩ := ih hmem
      exact ⟨_ :: earlier, later, after, rfl, .step hstep hearlier, hleads, hlater⟩

end Steps

/-! ## Traces -/

/-- Whether the condition of an element is found to hold. -/
def Source.takes (s : Source) (p : EvaluatedProject) (e : Element) : Bool :=
  match s.holds p e with
  | .ok b => b
  | .error _ => false

theorem Source.takes_of_holds {s : Source} {p : EvaluatedProject} {e : Element} {b : Bool}
    (h : s.holds p e = .ok b) : s.takes p e = b := by
  rw [takes, h]

/-- The steps of the children of a group, each of which has some effect. -/
def traceGroup (s : Source) (kind : ObjectKind) (around : List Element)
    (effect : EvaluatedProject → Element → Except EvaluationError EvaluatedProject)
    (p : EvaluatedProject) : List Element → List Step
  | [] => []
  | e :: es =>
    (if s.takes p e then [⟨p, kind, e, around⟩] else []) ++
      match effect p e with
      | .ok q => traceGroup s kind around effect q es
      | .error _ => []

/-- The steps of an element that is not a choice. -/
def traceChild (s : Source) (around : List Element) (p : EvaluatedProject) (e : Element) :
    List Step :=
  if e.name = "PropertyGroup".toList then
    if s.takes p e then
      traceGroup s .property (e :: around) (evaluateProperty s) p e.childElements
    else []
  else if e.name = "ItemGroup".toList then
    if s.takes p e then traceGroup s .item (e :: around) (evaluateItem s) p e.childElements else []
  else if e.name = "Target".toList then [⟨p, .target, e, around⟩]
  else if e.name = "Import".toList then
    if s.takes p e then [⟨p, .importedProject, e, around⟩] else []
  else []

mutual

/-- The steps of the content of a root or a branch, itself the first of the elements around. -/
def traceContent (s : Source) (around : List Element) (offset : Nat) (p : EvaluatedProject) :
    List Node → List Step
  | [] => []
  | .element tag content endTag :: rest =>
    let e : Element := ⟨offset, tag, content, endTag⟩
    (if e.name = "Choose".toList then
        traceBranches s (e :: around) e.startTagSpan.stop p content
      else traceChild s around p e) ++
      match evaluateElement s p e with
      | .ok q => traceContent s around (offset + e.node.width) q rest
      | .error _ => []
  | n :: rest => traceContent s around (offset + n.width) p rest

/-- The steps of the content of a choice: those of the branch that is taken. -/
def traceBranches (s : Source) (around : List Element) (offset : Nat) (p : EvaluatedProject) :
    List Node → List Step
  | [] => []
  | .element tag content endTag :: rest =>
    let e : Element := ⟨offset, tag, content, endTag⟩
    match branchApplies s p e with
    | .ok true => traceContent s (e :: around) e.startTagSpan.stop p content
    | .ok false => traceBranches s around (offset + e.node.width) p rest
    | .error _ => []
  | n :: rest => traceBranches s around (offset + n.width) p rest

end

/-- The steps of the evaluation of a project file. -/
def trace (exists? : FilePath → Bool) (path : FilePath) (t : Text) (globals : GlobalProperties) :
    List Step :=
  match (Document.parse t).root? with
  | some root =>
    traceContent ⟨path, .ofText t, exists?⟩ [root] root.startTagSpan.stop
      (initialProject path globals) root.content
  | none => []

/-! ## What a trace records -/

section

variable {s : Source} {p q : EvaluatedProject}

theorem steps_traceGroup {kind : ObjectKind} {around : List Element}
    {effect : EvaluatedProject → Element → Except EvaluationError EvaluatedProject}
    (heffect : ∀ p e q, effect p e = .ok q →
      s.takes p e = true ∧ Visit.Leads s p ⟨kind, e, around⟩ q ∨ s.takes p e = false ∧ q = p)
    {es : List Element} (h : es.foldlM effect p = .ok q) :
    Steps s p (traceGroup s kind around effect p es) q := by
  induction es generalizing p with
  | nil => cases h; exact .done _
  | cons e es ih =>
    rw [List.foldlM_cons] at h
    obtain ⟨p', hfirst, hrest⟩ := exists_of_bind_eq_ok h
    rw [traceGroup, hfirst]
    rcases heffect p e p' hfirst with ⟨htakes, hleads⟩ | ⟨htakes, rfl⟩
    · rw [htakes]
      exact (Steps.single hleads).append (ih hrest)
    · rw [htakes]
      exact ih hrest

/-- What is done only under a condition is done with the condition, or nothing changes without. -/
theorem takes_or_unchanged {e : Element} {action : Except EvaluationError EvaluatedProject}
    (h : (do if ← s.holds p e then action else return p) = .ok q) :
    s.takes p e = true ∧ s.holds p e = .ok true ∧ action = .ok q ∨
      s.takes p e = false ∧ q = p := by
  obtain ⟨b, hcondition, h⟩ := exists_of_bind_eq_ok h
  have htakes := Source.takes_of_holds hcondition
  cases b with
  | true => exact .inl ⟨htakes, hcondition, h⟩
  | false => cases h; exact .inr ⟨htakes, rfl⟩

/-- The steps of a group are those of its children, if it is taken. -/
theorem steps_group {kind : ObjectKind} {around : List Element}
    {effect : EvaluatedProject → Element → Except EvaluationError EvaluatedProject} {group : Element}
    (heffect : ∀ p e q, effect p e = .ok q →
      s.takes p e = true ∧ Visit.Leads s p ⟨kind, e, group :: around⟩ q ∨ s.takes p e = false ∧ q = p)
    (h : (do if ← s.holds p group then group.childElements.foldlM effect p else return p) = .ok q) :
    Steps s p (if s.takes p group then
      traceGroup s kind (group :: around) effect p group.childElements else []) q := by
  rcases takes_or_unchanged h with ⟨htakes, -, h⟩ | ⟨htakes, rfl⟩
  · rw [htakes]
    exact steps_traceGroup heffect h
  · rw [htakes]
    exact .done _

theorem steps_traceChild (around : List Element) {e : Element} (h : evaluateChild s p e = .ok q) :
    Steps s p (traceChild s around p e) q := by
  rw [evaluateChild] at h
  rw [traceChild]
  split at h
  · next hname =>
    rw [if_pos hname]
    refine steps_group (fun p c q hc => ?_) h
    rcases takes_or_unchanged hc with ⟨htakes, hholds, hdone⟩ | hunchanged
    · cases hdone
      exact .inl ⟨htakes, .property hholds⟩
    · exact .inr hunchanged
  next hproperty =>
  rw [if_neg hproperty]
  split at h
  · next hname =>
    rw [if_pos hname]
    refine steps_group (fun p c q hc => ?_) h
    rcases takes_or_unchanged hc with ⟨htakes, hholds, -⟩ | hunchanged
    · exact .inl ⟨htakes, .item hholds hc⟩
    · exact .inr hunchanged
  next hitem =>
  rw [if_neg hitem]
  split at h
  · next hname =>
    rw [if_pos hname]
    cases h
    exact .single .target
  next htarget =>
  rw [if_neg htarget]
  split at h
  · next hname =>
    rw [if_pos hname]
    rcases takes_or_unchanged h with ⟨htakes, hholds, hdone⟩ | ⟨htakes, rfl⟩
    · rw [htakes]
      cases hdone
      exact .single (.importedProject hholds)
    · rw [htakes]
      exact .done _
  · next hname =>
    rw [if_neg hname]
    cases h
    exact .done _

/-- What a root or a branch does with an element, and then with what is behind it. -/
theorem evaluateContent_cons (s : Source) (offset : Nat) (p : EvaluatedProject) (e : Element)
    (hstart : e.start = offset) (rest : List Node) :
    evaluateContent s offset p (e.node :: rest) =
      evaluateElement s p e >>= fun q => evaluateContent s (offset + e.node.width) q rest :=
  evaluateContent_element s offset p e hstart rest

mutual

theorem steps_traceContent (around : List Element) (offset : Nat) {p q : EvaluatedProject} :
    ∀ ns : List Node, evaluateContent s offset p ns = .ok q →
      Steps s p (traceContent s around offset p ns) q
  | [], h => by
    rw [evaluateContent] at h
    cases h
    rw [traceContent]
    exact .done _
  | .element tag content endTag :: rest, h => by
    let e : Element := ⟨offset, tag, content, endTag⟩
    change evaluateContent s offset p (e.node :: rest) = .ok q at h
    rw [evaluateContent_cons s offset p e rfl] at h
    obtain ⟨p', hfirst, h⟩ := exists_of_bind_eq_ok h
    have hrest := steps_traceContent around (offset + e.node.width) rest h
    rw [traceContent, hfirst]
    refine Steps.append ?_ hrest
    rw [evaluateElement] at hfirst
    split at hfirst
    · next hname =>
      rw [if_pos hname]
      exact steps_traceBranches _ _ content hfirst
    · next hname =>
      rw [if_neg hname]
      exact steps_traceChild around hfirst
  | .strayEnd tag :: rest, h => by
    rw [evaluateContent_skip s offset p rfl] at h
    rw [traceContent]
    · exact steps_traceContent around _ rest h
    · nofun
  | .run kind t :: rest, h => by
    rw [evaluateContent_skip s offset p rfl] at h
    rw [traceContent]
    · exact steps_traceContent around _ rest h
    · nofun
termination_by ns => sizeOf ns

theorem steps_traceBranches (around : List Element) (offset : Nat) {p q : EvaluatedProject} :
    ∀ ns : List Node, evaluateBranches s offset p ns = .ok q →
      Steps s p (traceBranches s around offset p ns) q
  | [], h => by
    rw [evaluateBranches] at h
    cases h
    rw [traceBranches]
    exact .done _
  | .element tag content endTag :: rest, h => by
    let e : Element := ⟨offset, tag, content, endTag⟩
    change evaluateBranches s offset p (e.node :: rest) = .ok q at h
    rw [evaluateBranches_element s offset p e rfl] at h
    obtain ⟨applies, happlies, h⟩ := exists_of_bind_eq_ok h
    rw [traceBranches, happlies]
    cases applies with
    | true => exact steps_traceContent _ _ content h
    | false => exact steps_traceBranches around _ rest h
  | .strayEnd tag :: rest, h => by
    rw [evaluateBranches_skip s offset p rfl] at h
    rw [traceBranches]
    · exact steps_traceBranches around _ rest h
    · nofun
  | .run kind t :: rest, h => by
    rw [evaluateBranches_skip s offset p rfl] at h
    rw [traceBranches]
    · exact steps_traceBranches around _ rest h
    · nofun
termination_by ns => sizeOf ns

end

end

/-- **The trace of an evaluation leads from the given properties to the result.** -/
theorem steps_trace {exists? : FilePath → Bool} {path : FilePath} {t : Text}
    {globals : GlobalProperties} {q : EvaluatedProject}
    (h : evaluate exists? path t globals = .ok q) :
    Steps ⟨path, .ofText t, exists?⟩ (initialProject path globals) (trace exists? path t globals)
      q := by
  obtain ⟨-, root, hroot, -, h⟩ := evaluateContent_of_evaluate h
  rw [trace, hroot]
  exact steps_traceContent [root] _ root.content h

/-! ## The step of an element -/

section

variable {s : Source} {p q : EvaluatedProject} {e : Element}

/-- An element without a condition is always taken. -/
theorem Source.holds_of_condition_none (h : e.attribute? "Condition".toList = none) :
    s.holds p e = .ok true := by
  rw [holds, h]

/-- Every child of a group that is always taken has a step. -/
theorem exists_step_traceGroup {kind : ObjectKind} {around : List Element}
    {effect : EvaluatedProject → Element → Except EvaluationError EvaluatedProject}
    {es : List Element} (h : es.foldlM effect p = .ok q) (he : e ∈ es)
    (htakes : ∀ p, s.takes p e = true) :
    ∃ before, ⟨before, kind, e, around⟩ ∈ traceGroup s kind around effect p es := by
  induction es generalizing p with
  | nil => cases he
  | cons c es ih =>
    rw [List.foldlM_cons] at h
    obtain ⟨p', hfirst, hrest⟩ := exists_of_bind_eq_ok h
    rw [traceGroup, hfirst]
    rcases List.mem_cons.1 he with rfl | he
    · rw [htakes p]
      exact ⟨p, List.mem_append_left _ (List.mem_singleton.2 rfl)⟩
    · obtain ⟨before, hstep⟩ := ih hrest he
      exact ⟨before, List.mem_append_right _ hstep⟩

/-- So has every property that is always taken, in a group that is always taken. -/
theorem exists_step_traceChild {around : List Element} {group : Element}
    (h : evaluateChild s p group = .ok q) (hname : group.name = "PropertyGroup".toList)
    (hcondition : group.attribute? "Condition".toList = none) (he : e ∈ group.childElements)
    (hown : e.attribute? "Condition".toList = none) :
    ∃ before, ⟨before, .property, e, group :: around⟩ ∈ traceChild s around p group := by
  have hgroup := Source.holds_of_condition_none (s := s) (p := p) hcondition
  rw [evaluateChild, if_pos hname, hgroup] at h
  rw [traceChild, if_pos hname, Source.takes_of_holds hgroup]
  exact exists_step_traceGroup h he fun p =>
    Source.takes_of_holds (Source.holds_of_condition_none hown)

/-- Every element of a content that is not a choice is evaluated, and its steps are among those of the
content. -/
theorem exists_traceChild_subset {around : List Element} {offset : Nat} {ns : List Node}
    (h : evaluateContent s offset p ns = .ok q) {c : Element}
    (hc : (c.start, c.node) ∈ Node.placed offset ns) (hname : c.name ≠ "Choose".toList) :
    ∃ before after, evaluateChild s before c = .ok after ∧
      traceChild s around before c ⊆ traceContent s around offset p ns := by
  induction ns generalizing p offset with
  | nil => cases hc
  | cons n ns ih =>
    cases n with
    | element tag content endTag =>
      let first : Element := ⟨offset, tag, content, endTag⟩
      change evaluateContent s offset p (first.node :: ns) = .ok q at h
      rw [evaluateContent_cons s offset p first rfl] at h
      obtain ⟨p', hfirst, hrest⟩ := exists_of_bind_eq_ok h
      rw [traceContent, hfirst]
      rcases List.mem_cons.1 hc with hsame | hc
      · obtain rfl : c = first := by
          obtain ⟨start, tag', content', endTag'⟩ := c
          cases hsame
          rfl
        rw [evaluateElement, if_neg hname] at hfirst
        exact ⟨p, p', hfirst, (if_neg hname).symm ▸ List.subset_append_left _ _⟩
      · obtain ⟨before, after, hchild, hsubset⟩ := ih hrest hc
        exact ⟨before, after, hchild, List.subset_append_of_subset_right _ hsubset⟩
    | strayEnd tag =>
      rw [evaluateContent_skip s offset p rfl] at h
      rw [traceContent]
      · rcases List.mem_cons.1 hc with hsame | hc
        · cases hsame
        · exact ih h hc
      · intro _ _ _ hsame
        cases hsame
    | run kind t =>
      rw [evaluateContent_skip s offset p rfl] at h
      rw [traceContent]
      · rcases List.mem_cons.1 hc with hsame | hc
        · cases hsame
        · exact ih h hc
      · intro _ _ _ hsame
        cases hsame

end

/-- **A property without a condition, in a group without one, has a step**, if the group is a child of
the root. -/
theorem exists_step_property {exists? : FilePath → Bool} {path : FilePath} {t : Text}
    {globals : GlobalProperties} {q : EvaluatedProject}
    (h : evaluate exists? path t globals = .ok q) {root group e : Element}
    (hroot : (Document.parse t).root? = some root) (hgroup : group ∈ root.childElements)
    (hname : group.name = "PropertyGroup".toList)
    (hcondition : group.attribute? "Condition".toList = none) (he : e ∈ group.childElements)
    (hown : e.attribute? "Condition".toList = none) :
    ∃ before, ⟨before, .property, e, [group, root]⟩ ∈ trace exists? path t globals := by
  obtain ⟨-, root', hroot', -, hcontent⟩ := evaluateContent_of_evaluate h
  obtain rfl : root' = root := Option.some.inj (hroot'.symm.trans hroot)
  have hchoose : group.name ≠ "Choose".toList := by
    rw [hname]
    decide +kernel
  obtain ⟨found, after, hchild, hsubset⟩ :=
    exists_traceChild_subset hcontent (Element.mem_childElements.1 hgroup) hchoose
  obtain ⟨before, hstep⟩ := exists_step_traceChild hchild hname hcondition he hown
  rw [trace, hroot']
  exact ⟨before, hsubset hstep⟩

end ProjectFile.Evaluation
