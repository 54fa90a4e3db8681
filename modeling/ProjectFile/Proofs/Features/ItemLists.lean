import ProjectFile.Proofs.Editor.Values
import ProjectFile.Proofs.Evaluation.ItemElements
import ProjectFile.Proofs.Expression.Splitting
import ProjectFile.Proofs.Markup.Tiles

/-!
The list of an item element as the editor shows it and as it is evaluated.

Where a project has one item element and this only includes, the evaluator gives an item for each piece of
the value between two `;` (`values_of_evaluate`), and the editor shows at every offset in the value the
list that the value is read as (`listItem?_of_touches`). The one is a list of files, whatever they are
named, and the other an expression, in which quotes and parentheses keep a `;` from separating. So the
two agree if and only if no `;` stands in quotes or parentheses (`listItem?_agrees_iff`).
-/

namespace ProjectFile.Features

open Editor Evaluation Expression Markup

variable {t : Text} {e : Element} {a : PlacedAttribute}

/-- The attributes of an only item element are in views. -/
theorem exists_view_of_isOnlyItem (he : IsOnlyItem t e) (ha : a ∈ e.attributes) :
    ∃ v ∈ (Document.parse t).views, v.item = .attribute a := by
  obtain ⟨root, group, hroot, hgroup, -, -, hmem⟩ := he.group
  obtain ⟨v, hv, hitem⟩ := Document.exists_view_root hroot
  obtain ⟨v, hv, hitem⟩ := Document.exists_view_child hv hitem hgroup
  obtain ⟨v, hv, hitem⟩ := Document.exists_view_child hv hitem hmem
  exact Document.exists_view_attribute hv hitem ha

/-- At every offset in a value the editor shows the list that the value is read as. -/
theorem listItem?_of_touches {v : View} (hv : v ∈ (Document.parse t).views)
    (hitem : v.item = .attribute a) {w : Text} (hvalue : a.value = some w) {s : Span}
    (hs : a.valueSpan = some s) {offset : Nat} (hin : s.touches offset = true) :
    ∃ i, (inspect (Document.parse t) offset).listItem? = some i ∧ i.list = parseList w := by
  have hread := embedded?_of_touches hv hitem hs hvalue hin
  obtain ⟨item, -, -, -, hfound⟩ := exists_listItem?_of_embedded? t offset hread
  exact ⟨_, hfound, rfl⟩

/-- **The editor and the evaluator split the value of an only item element alike** exactly if none of its
`;` stands in quotes or parentheses. -/
theorem listItem?_agrees_iff {exists? : FilePath → Bool} {path : FilePath} {globals : GlobalProperties}
    {q : EvaluatedProject} (h : evaluate exists? path t globals = .ok q) (he : IsOnlyItem t e)
    (ha : e.attribute? "Include".toList = some a) {w : Text} (hvalue : a.value = some w)
    (hplain : '&' ∉ w) (hfree : Unreferenced w) {s : Span} (hs : a.valueSpan = some s)
    {offset : Nat} (hin : s.touches offset = true) :
    ∃ i, (inspect (Document.parse t) offset).listItem? = some i ∧
      (q.items.map EvaluatedObject.value = i.list.values ↔ Nesting.outside.separates w = true) := by
  have hmem : a ∈ e.attributes := List.mem_of_find?_eq_some ha
  obtain ⟨v, hv, hitem⟩ := exists_view_of_isOnlyItem he hmem
  obtain ⟨i, hi, hlist⟩ := listItem?_of_touches hv hitem hvalue hs hin
  have hinclude : e.attributeValue? "Include".toList = some w := by
    rw [Element.attributeValue?, ha, Option.bind_some, hvalue]
  refine ⟨i, hi, ?_⟩
  rw [values_of_evaluate h he hinclude hplain hfree, hlist, eq_comm]
  exact values_eq_splitList_iff hplain hfree

/-! ## Two lists -/

/-- Whether a text has an only item element that includes a value which stands at a span. -/
def includesAt (t value : Text) (span : Span) : Bool :=
  decide ((itemElementsOf (Document.parse t)).length = 1) &&
  (Document.parse t).root?.any fun root => root.childElements.any fun group =>
    decide (group.name = "ItemGroup".toList ∧ group.attribute? "Condition".toList = none) &&
      group.childElements.any fun e =>
        decide (e.attribute? "Condition".toList = none ∧ e.attribute? "Remove".toList = none ∧
          e.attribute? "Update".toList = none ∧ e.attribute? "Exclude".toList = none) &&
        (e.attribute? "Include".toList).any fun a =>
          decide (a.value = some value ∧ a.valueSpan = some span)

theorem exists_of_includesAt {value : Text} {span : Span} (h : includesAt t value span = true) :
    ∃ e a, IsOnlyItem t e ∧ e.attribute? "Include".toList = some a ∧ a.value = some value ∧
      a.valueSpan = some span := by
  obtain ⟨hlength, h⟩ := Bool.and_eq_true_iff.1 h
  obtain ⟨root, hroot, h⟩ := (Option.any_eq_true _ _).1 h
  obtain ⟨group, hgroup, h⟩ := List.any_eq_true.1 h
  obtain ⟨hown, h⟩ := Bool.and_eq_true_iff.1 h
  obtain ⟨hname, hcondition⟩ := of_decide_eq_true hown
  obtain ⟨e, he, h⟩ := List.any_eq_true.1 h
  obtain ⟨honly, h⟩ := Bool.and_eq_true_iff.1 h
  obtain ⟨htaken, hremove, hupdate, hexclude⟩ := of_decide_eq_true honly
  obtain ⟨a, ha, h⟩ := (Option.any_eq_true _ _).1 h
  obtain ⟨hvalue, hspan⟩ := of_decide_eq_true h
  exact ⟨e, a, ⟨⟨htaken, hremove, hupdate, hexclude⟩, of_decide_eq_true hlength,
    root, group, hroot, hgroup, hname, hcondition, he⟩, ha, hvalue, hspan⟩

/-- A file name with parentheses and one with an apostrophe. -/
def markedNames : Text :=
  "<Project><ItemGroup><A Include=\"a(1).cs ;; b's.cs\"/></ItemGroup></Project>".toList

/-- Both sides have these two files, as the marks are not around the separators. -/
theorem listItem?_agrees_iff_markedNames : ∃ q i,
    evaluate (fun _ => false) ⟨"/p".toList⟩ markedNames [] = .ok q ∧
    (inspect (Document.parse markedNames) 34).listItem? = some i ∧
    q.items.map EvaluatedObject.value = ["a(1).cs".toList, "b's.cs".toList] ∧
    q.items.map EvaluatedObject.value = i.list.values := by
  have hincludes : includesAt markedNames "a(1).cs ;; b's.cs".toList ⟨32, 49⟩ = true := by
    decide +kernel
  obtain ⟨e, a, he, ha, hvalue, hs⟩ := exists_of_includesAt hincludes
  have hitems : (evaluate (fun _ => false) ⟨"/p".toList⟩ markedNames []).toOption.map
      (fun q => q.items.map EvaluatedObject.value) = some ["a(1).cs".toList, "b's.cs".toList] := by
    decide +kernel
  cases h : evaluate (fun _ => false) ⟨"/p".toList⟩ markedNames [] with
  | error problem =>
    rw [h] at hitems
    cases hitems
  | ok q =>
    rw [h] at hitems
    have hin : Span.touches ⟨32, 49⟩ 34 = true := by decide
    obtain ⟨i, hi, hagrees⟩ := listItem?_agrees_iff h he ha hvalue (by decide +kernel)
      (by decide +kernel) hs hin
    exact ⟨q, i, rfl, hi, Option.some.inj hitems, hagrees.2 (by decide +kernel)⟩

/-- Two file names with an apostrophe in each. -/
def quotedSeparator : Text :=
  "<Project><ItemGroup><A Include=\"a'b;c'd\"/></ItemGroup></Project>".toList

/-- Where the separator stands between the apostrophes the evaluator has two items and the editor one. -/
theorem listItem?_agrees_fails : ¬ ∀ (exists? : FilePath → Bool) (path : FilePath) (t : Text)
    (globals : GlobalProperties) (q : EvaluatedProject), (Document.parse t).errors = [] →
    evaluate exists? path t globals = .ok q →
    ∀ e, IsOnlyItem t e → ∀ a, e.attribute? "Include".toList = some a →
    ∀ w, a.value = some w → '&' ∉ w → Unreferenced w → ∀ s, a.valueSpan = some s →
    ∀ offset, s.touches offset = true → ∀ i,
    (inspect (Document.parse t) offset).listItem? = some i →
    q.items.map EvaluatedObject.value = i.list.values := by
  intro hall
  have herrors : (Document.parse quotedSeparator).errors = [] := by decide +kernel
  have hincludes : includesAt quotedSeparator "a'b;c'd".toList ⟨32, 39⟩ = true := by decide +kernel
  obtain ⟨e, a, he, ha, hvalue, hs⟩ := exists_of_includesAt hincludes
  have hitems : (evaluate (fun _ => false) ⟨"/p".toList⟩ quotedSeparator []).toOption.map
      (fun q => q.items.map EvaluatedObject.value) = some ["a'b".toList, "c'd".toList] := by
    decide +kernel
  have hlist : (inspect (Document.parse quotedSeparator) 32).listItem?.map (fun i => i.list.values) =
      some ["a'b;c'd".toList] := by decide +kernel
  cases h : evaluate (fun _ => false) ⟨"/p".toList⟩ quotedSeparator [] with
  | error problem =>
    rw [h] at hitems
    cases hitems
  | ok q =>
    rw [h] at hitems
    have htwo : q.items.map EvaluatedObject.value = ["a'b".toList, "c'd".toList] :=
      Option.some.inj hitems
    obtain ⟨i, hi, hvalues⟩ := Option.map_eq_some_iff.1 hlist
    have hagree := hall _ _ _ _ q herrors h e he a ha _ hvalue (by decide +kernel)
      (by decide +kernel) _ hs 32 (by decide) i hi
    rw [hvalues, htwo] at hagree
    exact absurd hagree (by decide +kernel)

end ProjectFile.Features
