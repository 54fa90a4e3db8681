import ProjectFile.Proofs.Evaluation.Given
import ProjectFile.Proofs.Evaluation.Truth
import ProjectFile.Proofs.Markup.RoundTrip

/-!
Conditions on properties, from the text of the file to the project.

A file that declares one property under a condition (`conditionedProject`) is evaluated to the project
with the property if the condition holds, and to the one without it if it does not
(`evaluate_conditionedProject`). If the condition is a formula, the property is defined if and only if
the formula is true for the values that names are given (`propertyValue?_conditionedProject`).
-/

namespace ProjectFile.Evaluation

open Markup Expression

/-! ## The file -/

/-- The text of a file that declares one property, under a condition. -/
def conditionedProject (name condition : Text) : Text :=
  "<Project><PropertyGroup><".toList ++ (name ++ (" Condition=\"".toList ++ (condition ++
    ("\">yes</".toList ++ (name ++ "></PropertyGroup></Project>".toList)))))

example : conditionedProject ['R'] ['t'] =
    "<Project><PropertyGroup><R Condition=\"t\">yes</R></PropertyGroup></Project>".toList := by
  decide +kernel

/-- The file as a tree. -/
def conditionedTree (name condition : Text) : Written :=
  .element "Project".toList [] [.element "PropertyGroup".toList []
    [.element name [⟨"Condition".toList, .double, condition⟩] [.text "yes".toList]]]

/-- What stands between the name and the condition, for any names around them. -/
theorem print_nested {outer inner label value opening middle behind closing : Text}
    (hopening : opening = '<' :: (outer ++ '>' :: '<' :: (inner ++ ['>', '<'])))
    (hmiddle : middle = ' ' :: (label ++ ['=', '"']))
    (hbehind : behind = '"' :: '>' :: (value ++ ['<', '/']))
    (hclosing : closing = '>' :: '<' :: '/' :: (inner ++ '>' :: '<' :: '/' :: (outer ++ ['>'])))
    (name condition : Text) :
    (Written.element outer [] [.element inner []
      [.element name [⟨label, .double, condition⟩] [.text value]]]).print =
      opening ++ (name ++ (middle ++ (condition ++ (behind ++ (name ++ closing))))) := by
  rw [hopening, hmiddle, hbehind, hclosing]
  simp [Written.print, Written.printAll, Written.printOpening, WrittenAttribute.print, QuoteMark.char]

theorem print_conditionedTree (name condition : Text) :
    (conditionedTree name condition).print = conditionedProject name condition :=
  print_nested (by decide +kernel) (by decide +kernel) (by decide +kernel) (by decide +kernel) name
    condition

/-- A condition that can stand between quotes. -/
structure Attributable (condition : Text) : Prop where
  plain : Text.IsPlain condition
  noAngle : '<' ∉ condition
  noQuote : '"' ∉ condition

theorem wellFormed_conditionedTree {name condition : Text} (hname : Text.isName name = true)
    (h : Attributable condition) : (conditionedTree name condition).WellFormed := by
  have hcondition : Text.isName "Condition".toList = true := by decide +kernel
  have hattribute : WrittenAttribute.WellFormed ⟨"Condition".toList, .double, condition⟩ :=
    ⟨hcondition, h.plain, h.noAngle, h.noQuote⟩
  have hopening : Written.OpeningWellFormed name [⟨"Condition".toList, .double, condition⟩] :=
    ⟨hname, List.forall_mem_singleton.2 hattribute, List.pairwise_singleton _ _⟩
  have hproject : Written.OpeningWellFormed "Project".toList [] := by decide +kernel
  have hgroup : Written.OpeningWellFormed "PropertyGroup".toList [] := by decide +kernel
  have hvalue : (Written.text "yes".toList).WellFormed := by decide +kernel
  exact ⟨hproject, ⟨hgroup, ⟨hopening, hvalue, nofun, trivial⟩, nofun, trivial⟩, nofun, trivial⟩

/-- The elements of the file: the root, the group in it, and the property in that. -/
theorem exists_elements (name condition : Text) : ∃ root group child : Element,
    ((Document.markup [(conditionedTree name condition).node]).root? = some root ∧
      root.name = "Project".toList ∧ root.content = [group.node]) ∧
    (group.start = root.startTagSpan.stop ∧ group.name = "PropertyGroup".toList ∧
      group.attributes = [] ∧ group.childElements = [child]) ∧
    (child.name = name ∧ child.innerText = "yes".toList ∧
      child.attributes.map (fun a => (a.name, a.value)) = [("Condition".toList, some condition)]) :=
  ⟨⟨_, _, _, _⟩, ⟨_, _, _, _⟩, ⟨_, _, _, _⟩, ⟨rfl, rfl, rfl⟩, ⟨rfl, rfl, rfl, rfl⟩, rfl,
    List.append_nil _, Written.map_attributes⟩

/-! ## Its evaluation -/

/-- A file without errors is evaluated from the content of its root. -/
theorem evaluate_eq (exists? : FilePath → Bool) (path : FilePath) (globals : GlobalProperties)
    {t : Text} {root : Element} (herrors : (Document.parse t).errors = [])
    (hroot : (Document.parse t).root? = some root) (hname : root.name = "Project".toList) :
    evaluate exists? path t globals = evaluateContent ⟨path, .ofText t, exists?⟩ root.startTagSpan.stop
      (initialProject path globals) root.content := by
  rw [evaluate, herrors, hroot]
  exact if_pos hname

/-- An element without attributes is always taken. -/
theorem Source.holds_of_attributes_eq_nil (s : Source) (p : EvaluatedProject) {e : Element}
    (h : e.attributes = []) : s.holds p e = .ok true := by
  rw [holds, Element.attribute?, h]
  rfl

/-- An element whose only attribute is a condition is taken if the condition holds. -/
theorem Source.holds_of_condition {s : Source} {p : EvaluatedProject} {e : Element} {condition : Text}
    {b : Bool}
    (hattributes : e.attributes.map (fun a => (a.name, a.value)) = [("Condition".toList, some condition)])
    (h : conditionHolds ⟨p, s.exists?⟩ (unescape condition) = .ok b) : s.holds p e = .ok b := by
  obtain ⟨a, ha, hpair⟩ := List.map_eq_singleton_iff.1 hattributes
  obtain ⟨hname, hvalue⟩ := Prod.mk.inj hpair
  have hattribute : e.attribute? "Condition".toList = some a := by
    rw [Element.attribute?, ha, List.find?_singleton, if_pos (beq_iff_eq.2 hname)]
  rw [holds, hattribute]
  dsimp only
  rw [hvalue, Option.getD_some, h]

/-- The project after an element that declares a property if it is taken. -/
def declareIf (b : Bool) (p : EvaluatedProject) (name value : Text) (place : Provenance) :
    EvaluatedProject :=
  if b then declareProperty p ⟨.property, name, value, some place, []⟩ place else p

theorem evaluateProperty_of_holds {s : Source} {p : EvaluatedProject} {e : Element} {b : Bool}
    (h : s.holds p e = .ok b) : evaluateProperty s p e =
      .ok (declareIf b p e.name (expand p (unescape e.innerText)) (s.provenance e)) := by
  rw [evaluateProperty, h]
  cases b <;> rfl

/-- A group of one property that is always taken, and alone in the root. -/
theorem evaluateContent_group {s : Source} {offset : Nat} {p q : EvaluatedProject} {group child : Element}
    (hstart : group.start = offset) (hname : group.name = "PropertyGroup".toList)
    (hattributes : group.attributes = []) (hchildren : group.childElements = [child])
    (h : evaluateProperty s p child = .ok q) : evaluateContent s offset p [group.node] = .ok q := by
  have hchoose : ¬ group.name = "Choose".toList := by
    rw [hname]
    decide +kernel
  have hchild : evaluateChild s p group = .ok q := by
    rw [evaluateChild, if_pos hname, s.holds_of_attributes_eq_nil p hattributes, hchildren]
    show [child].foldlM (evaluateProperty s) p = _
    rw [List.foldlM_cons, h]
    rfl
  rw [evaluateContent_element _ _ _ _ hstart, if_neg hchoose, hchild]
  exact evaluateContent.eq_1 s _ q

/-- **The file is evaluated to the project with the property if the condition holds**, and else to the
one without it. -/
theorem evaluate_conditionedProject {exists? : FilePath → Bool} {path : FilePath} {name condition : Text}
    {globals : GlobalProperties} {b : Bool} (hname : Text.isName name = true)
    (hcondition : Attributable condition)
    (h : conditionHolds ⟨initialProject path globals, exists?⟩ (unescape condition) = .ok b) :
    ∃ place, evaluate exists? path (conditionedProject name condition) globals =
      .ok (declareIf b (initialProject path globals) name
        (expand (initialProject path globals) (unescape "yes".toList)) place) := by
  have hwell := wellFormed_conditionedTree hname hcondition
  have herrors := Document.errors_parse_print hwell rfl
  have hparse := Document.parse_print hwell rfl
  rw [print_conditionedTree] at herrors hparse
  obtain ⟨root, group, child, ⟨hroot, hproject, hcontent⟩, ⟨hstart, hgroup, hnone, hchildren⟩, hchild,
    hvalue, hattributes⟩ := exists_elements name condition
  let s : Source := ⟨path, .ofText (conditionedProject name condition), exists?⟩
  have hproperty := evaluateProperty_of_holds (s := s) (Source.holds_of_condition hattributes h)
  rw [hchild, hvalue] at hproperty
  refine ⟨s.provenance child, ?_⟩
  rw [evaluate_eq exists? path globals herrors (hparse ▸ hroot) hproject, hcontent]
  exact evaluateContent_group hstart hgroup hnone hchildren hproperty

/-! ## Formulas -/

/-- Unescaping leaves a text as it is that has no `&`. -/
theorem unescape_eq_self {t : Text} (h : '&' ∉ t) : unescape t = t := by
  rw [unescape]
  induction t with
  | nil => rfl
  | cons c t ih =>
    rw [List.mem_cons, not_or] at h
    rw [unescapeFrom, if_neg (Ne.symm h.1), ih h.2]

/-- The value of the property is a word, which stands for itself. -/
theorem expand_yes (p : EvaluatedProject) : expand p (unescape "yes".toList) = "yes".toList := by
  let yes : Word := ⟨'y', ['e', 's'], rfl, rfl⟩
  have htext : "yes".toList = yes.text := by decide +kernel
  have hamp : '&' ∉ yes.text := by decide
  rw [htext, unescape_eq_self hamp, expand_word]

theorem isControl_of_isSign {c : Char} (h : Formula.IsSign c) : Text.isControl c = false := by
  rcases h with h | h
  · have hcode := code_of_isWordChar h
    refine Text.isControl_eq_false ?_
    unfold Text.IsNameCode
    omega
  · simp only [List.mem_cons, List.not_mem_nil, or_false] at h
    rcases h with rfl | rfl | rfl | rfl | rfl | rfl | rfl <;> rfl

theorem attributable_print (f : Formula) : Attributable f.print where
  plain c hc hcontrol := by
    rw [isControl_of_isSign (f.isSign_print c hc)] at hcontrol
    cases hcontrol
  noAngle h := absurd (f.isSign_print _ h) (by decide)
  noQuote h := absurd (f.isSign_print _ h) (by decide)

theorem unescape_print (f : Formula) : unescape f.print = f.print :=
  unescape_eq_self fun h => absurd (f.isSign_print _ h) (by decide)

/-- **A condition means what it says.** A property that is declared under a formula, and whose name is
neither that of a reserved property nor of a global one, is defined if and only if the formula is true
where each name has the value that it is given: that of the global property, else of the reserved one,
else nothing. -/
theorem propertyValue?_conditionedProject (exists? : FilePath → Bool) (path : FilePath)
    (globals : GlobalProperties) (f : Formula) {name : Text} (hname : Text.isName name = true)
    (hfree : ∀ entry ∈ reservedProperties path ++ globals, Text.sameName entry.1 name = false) :
    ∃ p, evaluate exists? path (conditionedProject name f.print) globals = .ok p ∧
      p.propertyValue? name =
        if f.meaning fun property => (givenValue? path globals property).getD [] then
          some "yes".toList
        else none := by
  have hnone : (initialProject path globals).property? name = none := by
    rw [property?_initialProject, entryGiven?_eq_none_iff.2 hfree]
    rfl
  have hholds := f.conditionHolds_print ⟨initialProject path globals, exists?⟩
  simp only [propertyValue?_initialProject] at hholds
  rw [← unescape_print f] at hholds
  obtain ⟨place, hevaluate⟩ := evaluate_conditionedProject hname (attributable_print f) hholds
  refine ⟨_, hevaluate, ?_⟩
  rw [expand_yes, declareIf, EvaluatedProject.propertyValue?]
  split
  · rw [property?_declareProperty_of_none _ (o := ⟨.property, name, _, _, _⟩) hnone]
    rfl
  · rw [hnone]
    rfl

/-- A formula that needs parentheses. -/
def sampleFormula : Formula :=
  .junction .conjunction ⟨['A', 'n', 'd'], by decide⟩
    (.junction .disjunction ⟨['o', 'r'], by decide⟩
      (.atom ⟨'C', ['o', 'l', 'o', 'r'], rfl, rfl⟩ true ⟨'R', ['E', 'D'], rfl, rfl⟩)
      (.atom ⟨'_', ['s', '1'], rfl, rfl⟩ false ⟨'m', [], rfl, rfl⟩))
    (.negation (.atom ⟨'m', "SBuildProjectName".toList, rfl, by decide +kernel⟩ true
      ⟨'l', ['i', 'b'], rfl, rfl⟩))

example : sampleFormula.print =
    "('$(Color)' == 'RED' or '$(_s1)' != 'm') And !'$(mSBuildProjectName)' == 'lib'".toList := by
  decide +kernel

/-- The global property has the value in other letters, and the reserved one has another value. -/
theorem propertyValue?_conditionedProject_sample : ∃ p,
    evaluate (fun _ => false) ⟨"/src/app.proj".toList⟩ (conditionedProject ['R'] sampleFormula.print)
      [("COLOR".toList, "red".toList)] = .ok p ∧
    p.propertyValue? ['R'] = some "yes".toList := by
  have hmeaning : sampleFormula.meaning (fun property => (givenValue? ⟨"/src/app.proj".toList⟩
      [("COLOR".toList, "red".toList)] property).getD []) = true := by
    decide +kernel
  have hdefined := propertyValue?_conditionedProject (fun _ => false) ⟨"/src/app.proj".toList⟩
    [("COLOR".toList, "red".toList)] sampleFormula (by decide +kernel : Text.isName ['R'] = true)
    (by decide +kernel)
  rwa [hmeaning] at hdefined

end ProjectFile.Evaluation
