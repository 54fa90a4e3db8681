import ProjectFile.Proofs.Evaluation.Given
import ProjectFile.Proofs.Source.LineIndex

/-!
Where the declarations of an evaluated project stand.

Each history is the declarations of its name in the order of the text, every one at an element that
declares the name; items and imports come in the order of the text as well; and a name that was given
keeps its value (`EvaluatedProject.Recorded`). `recorded_of_evaluate` says so of every project file.

The visits of an evaluation stand one behind the other (`exists_walk`), a history is what some of
them declared (`Run.observe`), and places come in the order of offsets
(`LineIndex.place_lt_place`).
-/

namespace ProjectFile.Evaluation

open Markup

/-! ## What is recorded -/

/-- Whether a declaration stands at an element of a text. -/
structure Provenance.Marks (o : Provenance) (path : FilePath) (t : Text) (e : Element) : Prop where
  file : o.file = path
  element : e ∈ (Document.parse t).elements
  start : (LineIndex.ofText t).offset o.position = .ok e.start

/-- Whether declarations stand one behind the other, each at an element that makes one. -/
structure Ascend (path : FilePath) (t : Text) (declares : Element → Prop) (os : List Provenance) :
    Prop where
  increasing : os.Pairwise fun a b => a.position.place < b.position.place
  marks : ∀ o ∈ os, ∃ e, o.Marks path t e ∧ declares e

/-- Whether an element of a text is a child of a property group and has a name. -/
def DeclaresProperty (t name : Text) (e : Element) : Prop :=
  ∃ v ∈ (Document.parse t).views, v.item = .element e ∧
    (∃ group, v.parentElement? = some group ∧ group.name = "PropertyGroup".toList) ∧
    Text.sameName e.name name = true

/-- Whether an element is a target of a name. -/
def DeclaresTarget (name : Text) (e : Element) : Prop :=
  e.name = "Target".toList ∧
    ∃ written, e.attributeValue? "Name".toList = some written ∧ Text.sameName written name = true

/-- What a project records of where and how things were declared. -/
structure EvaluatedProject.Recorded (p : EvaluatedProject) (path : FilePath) (t : Text)
    (globals : GlobalProperties) : Prop where
  properties : ∀ h ∈ p.properties, Ascend path t (DeclaresProperty t h.name) h.provenances
  targets : ∀ h ∈ p.targets, Ascend path t (DeclaresTarget h.name) h.provenances
  items : ∃ os : List Provenance,
    p.items.map EvaluatedObject.provenance = os.map some ∧
    os.Pairwise fun a b => a.position.place ≤ b.position.place
  imports : ∃ os : List Provenance,
    p.imports.map EvaluatedObject.provenance = os.map some ∧
    os.Pairwise fun a b => a.position.place < b.position.place
  given : ∀ name value, givenValue? path globals name = some value → Fixed p name value

/-! ## Names -/

/-- Whether no two properties have the same name, and no two targets. -/
structure Distinct (p : EvaluatedProject) : Prop where
  properties : p.properties.Distinct
  targets : p.targets.Distinct

theorem distinct_initialProject (path : FilePath) (globals : GlobalProperties) :
    Distinct (initialProject path globals) := by
  rw [initialProject]
  generalize reservedProperties path ++ globals = entries
  have hempty : Distinct (.empty path) := ⟨.nil, .nil⟩
  generalize EvaluatedProject.empty path = p at hempty
  induction entries generalizing p with
  | nil => exact hempty
  | cons entry entries ih => exact ih _ ⟨hempty.properties.insert _, hempty.targets⟩

theorem Distinct.leads {s : Source} {p q : EvaluatedProject} {v : Visit} (h : Distinct p)
    (hstep : v.Leads s p q) : Distinct q := by
  cases hstep with
  | property hholds => exact ⟨h.properties.insert _, h.targets⟩
  | item hholds heval =>
    rw [(evaluateItem_eq heval).1]
    exact ⟨h.properties, h.targets⟩
  | target =>
    unfold evaluateTarget
    split
    · exact h
    · exact ⟨h.properties, h.targets.insert _⟩
  | importedProject hholds =>
    unfold evaluateImport
    split
    · exact h
    · exact ⟨h.properties, h.targets⟩

/-! ## Before the first visit -/

theorem targets_initialProject (path : FilePath) (globals : GlobalProperties) :
    (initialProject path globals).targets = [] ∧ (initialProject path globals).items = [] ∧
      (initialProject path globals).imports = [] := by
  rw [initialProject]
  generalize reservedProperties path ++ globals = entries
  have hempty : (EvaluatedProject.empty path).targets = [] ∧
    (EvaluatedProject.empty path).items = [] ∧ (EvaluatedProject.empty path).imports = [] :=
      ⟨rfl, rfl, rfl⟩
  generalize EvaluatedProject.empty path = p at hempty
  induction entries generalizing p with
  | nil => exact hempty
  | cons entry entries ih => exact ih _ hempty

theorem trail_initialProject (path : FilePath) (globals : GlobalProperties) (name : Text) :
    (initialProject path globals).properties.trail name = [] := by
  rw [Register.trail, show (initialProject path globals).properties.get? name =
    (entryGiven? path globals name).map givenHistory from property?_initialProject path globals name]
  cases entryGiven? path globals name <;> rfl

/-! ## Items -/

/-- Items come in the order in which their elements were visited, whatever was removed in between. -/
theorem Run.exists_items {s : Source} {p q : EvaluatedProject} {visits : List Visit}
    (h : Run s p visits q) (hvisits : visits.Pairwise fun v w => v.element.start < w.element.start)
    (es : List Element) (hp : p.items.map EvaluatedObject.origin = es.map s.itemOrigin)
    (hes : es.Pairwise fun e f => e.start ≤ f.start)
    (hbefore : ∀ e ∈ es, ∀ v ∈ visits, e.start ≤ v.element.start) : ∃ fs : List Element,
      q.items.map EvaluatedObject.origin = fs.map s.itemOrigin ∧
      fs.Pairwise (fun e f => e.start ≤ f.start) ∧
      ∀ e ∈ fs, e ∈ es ∨ ∃ v ∈ visits, v.kind = .item ∧ e = v.element := by
  -- The items so far stand in order, and none of them behind an element that is visited later.
  induction h generalizing es with
  | done => exact ⟨es, hp, hes, fun e he => .inl he⟩
  | @visit p q r v visits hstep hrest ih =>
    obtain ⟨hfirst, hvisits⟩ := List.pairwise_cons.1 hvisits
    obtain ⟨kept, count, hq, hkept, hcount⟩ := hstep.exists_items
    rw [hp] at hkept
    obtain ⟨old, hold, rfl⟩ := List.sublist_map_iff.1 hkept
    have hmem : ∀ e ∈ old ++ List.replicate count v.element,
        e ∈ es ∨ v.kind = .item ∧ e = v.element := by
      intro e he
      rcases List.mem_append.1 he with he | he
      · exact .inl (hold.subset he)
      · have hne : count ≠ 0 := (List.mem_replicate.1 he).1
        exact .inr ⟨hcount.resolve_right hne, List.eq_of_mem_replicate he⟩
    have hnow : q.items.map EvaluatedObject.origin =
        (old ++ List.replicate count v.element).map s.itemOrigin := by
      rw [hq, List.map_append, List.map_replicate]
    have hordered : (old ++ List.replicate count v.element).Pairwise fun e f => e.start ≤ f.start := by
      refine List.pairwise_append.2 ⟨hes.sublist hold, ?_, ?_⟩
      · exact List.pairwise_replicate.2 (.inr (Nat.le_refl _))
      · intro e he f hf
        rw [List.eq_of_mem_replicate hf]
        exact hbefore e (hold.subset he) v List.mem_cons_self
    have hlater : ∀ e ∈ old ++ List.replicate count v.element, ∀ w ∈ visits,
        e.start ≤ w.element.start := by
      intro e he w hw
      rcases hmem e he with he | ⟨-, rfl⟩
      · exact hbefore e he w (List.mem_cons_of_mem _ hw)
      · exact Nat.le_of_lt (hfirst w hw)
    obtain ⟨fs, hr, hfs, hsource⟩ := ih hvisits _ hnow hordered hlater
    refine ⟨fs, hr, hfs, ?_⟩
    intro e he
    rcases hsource e he with he | ⟨w, hw, hsource⟩
    · exact (hmem e he).imp_right fun h => ⟨v, List.mem_cons_self, h⟩
    · exact .inr ⟨w, List.mem_cons_of_mem _ hw, hsource⟩

/-! ## Places -/

namespace Walk

variable {exists? : FilePath → Bool} {path : FilePath} {t : Text} {p q : EvaluatedProject}
  {visits : List Visit}

variable (h : Walk ⟨path, .ofText t, exists?⟩ (Document.parse t).views 0 t.width p visits q)

include h

theorem increasing : visits.Pairwise fun v w =>
    (LineIndex.ofText t).place v.element.start < (LineIndex.ofText t).place w.element.start := by
  refine h.ascending.imp_of_mem ?_
  intro v w _ hw hlt
  exact LineIndex.place_lt_place (LineIndex.ordered_ofText t) hlt (Nat.le_of_lt (h.within w hw).2)

theorem marks {v : Visit} (hv : v ∈ visits) :
    Provenance.Marks (Source.provenance ⟨path, .ofText t, exists?⟩ v.element) path t v.element where
  file := rfl
  element := by
    obtain ⟨view, hview, hitem, -⟩ := h.seen v hv
    exact Document.mem_elements_iff.2 ⟨view, hview, hitem⟩
  start :=
    LineIndex.offset_eq_ok (LineIndex.ordered_ofText t) (Nat.le_of_lt (h.within v hv).2) rfl

/-- Some of the visits stand one behind the other. -/
theorem ascend {chosen : Visit → Bool} {declares : Element → Prop}
    (hdeclares : ∀ v ∈ visits, chosen v = true → declares v.element) :
    Ascend path t declares ((visits.filter chosen).map fun v =>
      Source.provenance ⟨path, .ofText t, exists?⟩ v.element) where
  increasing := List.pairwise_map.2 (h.increasing.sublist List.filter_sublist)
  marks := by
    rw [List.forall_mem_map]
    intro v hv
    obtain ⟨hv, hchosen⟩ := List.mem_filter.1 hv
    exact ⟨v.element, h.marks hv, hdeclares v hv hchosen⟩

theorem declaresProperty {name : Text} {v : Visit} (hv : v ∈ visits)
    (hdeclares : v.declaresProperty name = true) : DeclaresProperty t name v.element := by
  obtain ⟨view, hview, hitem, haround⟩ := h.seen v hv
  have hreached := h.reached v hv
  obtain ⟨kind, e, around⟩ := v
  obtain ⟨hkind, hname⟩ := Bool.and_eq_true_iff.1 hdeclares
  obtain rfl : kind = .property := of_decide_eq_true hkind
  cases around with
  | nil => cases hreached
  | cons group around =>
    refine ⟨view, hview, hitem, ⟨group, ?_, hreached.1⟩, hname⟩
    rw [View.parentElement?, ← List.head?_map, haround]
    rfl

theorem declaresTarget {name : Text} {v : Visit} (hv : v ∈ visits)
    (hdeclares : v.declaresTarget name = true) : DeclaresTarget name v.element := by
  have hreached := h.reached v hv
  obtain ⟨kind, e, around⟩ := v
  obtain ⟨hkind, hname⟩ := Bool.and_eq_true_iff.1 hdeclares
  obtain rfl : kind = .target := of_decide_eq_true hkind
  refine ⟨hreached.1, ?_⟩
  exact (Option.any_eq_true _ _).1 hname

/-- The items are of elements that were visited, in the order of the text. -/
theorem exists_elements_items (hp : p.items = []) : ∃ es : List Element,
    q.items.map EvaluatedObject.origin =
      es.map (Source.itemOrigin ⟨path, .ofText t, exists?⟩) ∧
    es.Pairwise (fun e f => e.start ≤ f.start) ∧
    ∀ e ∈ es, ∃ v ∈ visits, v.kind = .item ∧ e = v.element := by
  obtain ⟨es, hitems, hordered, hsource⟩ :=
    h.run.exists_items h.ascending [] (by rw [hp]; rfl) .nil (by simp)
  refine ⟨es, hitems, hordered, fun e he => ?_⟩
  exact (hsource e he).resolve_left List.not_mem_nil

theorem exists_items (hp : p.items = []) : ∃ os : List Provenance,
    q.items.map EvaluatedObject.provenance = os.map some ∧
    os.Pairwise fun a b => a.position.place ≤ b.position.place := by
  obtain ⟨es, hitems, hordered, hsource⟩ := h.exists_elements_items hp
  refine ⟨es.map (Source.provenance ⟨path, .ofText t, exists?⟩), ?_, ?_⟩
  · have horigins := congrArg (List.map fun origin => origin.2.2) hitems
    rw [List.map_map, List.map_map] at horigins
    rw [List.map_map]
    exact horigins
  · refine List.pairwise_map.2 (hordered.imp_of_mem ?_)
    intro e f _ hf hle
    obtain ⟨v, hv, -, rfl⟩ := hsource f hf
    exact LineIndex.place_le_place (LineIndex.ordered_ofText t) hle
      (Nat.le_of_lt (h.within v hv).2)

end Walk

/-! ## Project files -/

/-- **Declarations are recorded where they stand.** -/
theorem recorded_of_evaluate {exists? : FilePath → Bool} {path : FilePath} {t : Text}
    {globals : GlobalProperties} {p : EvaluatedProject}
    (h : evaluate exists? path t globals = .ok p) : p.Recorded path t globals := by
  obtain ⟨visits, hwalk⟩ := exists_walk h
  obtain ⟨htargets, hitems, himports⟩ := targets_initialProject path globals
  have hdistinct : Distinct p := hwalk.run.preserves Distinct (fun _ _ _ hstep hp => hp.leads hstep)
    (distinct_initialProject path globals)
  refine ⟨?_, ?_, hwalk.exists_items hitems, ?_, ?_⟩
  · intro h hmem
    have htrail := hwalk.run.observe fun hstep => hstep.trail_properties h.name
    rw [trail_initialProject, List.nil_append,
      Register.trail_eq (hdistinct.properties.get?_eq hmem)] at htrail
    rw [htrail]
    exact hwalk.ascend fun v hv => hwalk.declaresProperty hv
  · intro h hmem
    have htrail := hwalk.run.observe fun hstep => hstep.trail_targets h.name
    rw [htargets, Register.trail_eq (hdistinct.targets.get?_eq hmem)] at htrail
    rw [htrail]
    exact hwalk.ascend fun v hv => hwalk.declaresTarget hv
  · have hadded := hwalk.run.observe fun hstep => hstep.map_provenance_imports
    rw [himports] at hadded
    refine ⟨(visits.filter Visit.declaresImport).map fun v =>
      Source.provenance ⟨path, .ofText t, exists?⟩ v.element, ?_, ?_⟩
    · rw [hadded, List.map_map]
      rfl
    · exact List.pairwise_map.2 (hwalk.increasing.sublist List.filter_sublist)
  · intro name value hgiven
    exact hwalk.run.fixed (fixed_initialProject hgiven)

/-- A project that declares a property, a target and a global property more than once. -/
def redeclared : Text :=
  "<Project><PropertyGroup><a>1</a><g>2</g><A>3</A></PropertyGroup><Target Name='t'/>\n<Target Name='T'/></Project>".toList

/-- Two declarations of each name are recorded, and the global property keeps its value. -/
theorem recorded_of_evaluate_redeclared : ∃ p,
    evaluate (fun _ => false) ⟨"/p".toList⟩ redeclared [(['G'], ['v'])] = .ok p ∧
      (p.properties.drop 5).map (fun h => (h.object.value, h.predecessors.length)) =
        [(['v'], 1), (['3'], 1)] ∧
      p.targets.map (fun h => (h.name, h.predecessors.length)) = [(['T'], 1)] ∧
      p.Recorded ⟨"/p".toList⟩ redeclared [(['G'], ['v'])] := by
  have hfound : (evaluate (fun _ => false) ⟨"/p".toList⟩ redeclared [(['G'], ['v'])]).toOption.map
      (fun p => ((p.properties.drop 5).map fun h => (h.object.value, h.predecessors.length),
        p.targets.map fun h => (h.name, h.predecessors.length))) =
      some ([(['v'], 1), (['3'], 1)], [(['T'], 1)]) := by decide +kernel
  cases h : evaluate (fun _ => false) ⟨"/p".toList⟩ redeclared [(['G'], ['v'])] with
  | error e =>
    rw [h] at hfound
    cases hfound
  | ok p =>
    rw [h] at hfound
    obtain ⟨hproperties, htargets⟩ := Prod.mk.inj (Option.some.inj hfound)
    exact ⟨p, rfl, hproperties, htargets, recorded_of_evaluate h⟩

end ProjectFile.Evaluation
