import ProjectFile.Markup.NodePath
import ProjectFile.Proofs.Markup.Rows
import ProjectFile.Proofs.Markup.Shown
import ProjectFile.Proofs.Markup.Sound
import ProjectFile.Proofs.Text.Trim

/-!
Paths and their written form.

A segment that is not empty and has neither a `/` nor a blank in it is read back as it is, and so is
an absolute path of such segments (`NodePath.parse_text`). The names in a document without errors are
such segments (`IsSegment.of_isName`), at every level of it, so the path of everything that the
document shows survives being written (`Document.pathSurvives_views`). How deep the path is can be
counted in the concrete tree, where the view stands at `Document.siteOf`.
-/

namespace ProjectFile

namespace Markup

/-! ## Segments -/

namespace NodePath

/-- Whether a text is read back as it is when it stands in a path. -/
structure IsSegment (s : Text) : Prop where
  ne_nil : s ≠ []
  noSlash : '/' ∉ s
  notBlank : ∀ c ∈ s, Text.isBlank c = false

/-- A name is a segment. -/
theorem IsSegment.of_isName {n : Text} (h : Text.isName n = true) : IsSegment n := by
  obtain ⟨⟨c, rest, hn, -⟩, hcodes⟩ := Text.isName_spec h
  refine ⟨by simp [hn], ?_, Text.isBlank_of_mem_name h⟩
  intro hslash
  exact absurd (hcodes '/' hslash) (by decide)

/-- So is a name after an `@`. -/
theorem IsSegment.at_of_isName {n : Text} (h : Text.isName n = true) : IsSegment ('@' :: n) := by
  obtain ⟨-, hslash, hblank⟩ := IsSegment.of_isName h
  refine ⟨by simp, ?_, ?_⟩
  · simpa using hslash
  · rw [List.forall_mem_cons]
    exact ⟨by decide, hblank⟩

variable {segments : List Text}

theorem mem_joined {c : Char} (h : c ∈ joined segments) : c = '/' ∨ ∃ s ∈ segments, c ∈ s := by
  fun_induction joined segments with
  | case1 => simp at h
  | case2 s => exact .inr ⟨s, by simp, h⟩
  | case3 s rest _ ih =>
    rw [List.mem_append, List.mem_cons] at h
    rcases h with hs | rfl | hrest
    · exact .inr ⟨s, by simp, hs⟩
    · exact .inl rfl
    · rcases ih hrest with hslash | ⟨s', hs', hc⟩
      · exact .inl hslash
      · exact .inr ⟨s', List.mem_cons_of_mem s hs', hc⟩

/-- Segments come apart where they were joined. -/
theorem splitOn_joined (hne : segments ≠ []) (h : ∀ s ∈ segments, '/' ∉ s) :
    Text.splitOn '/' (joined segments) = segments := by
  fun_induction joined segments with
  | case1 => exact absurd rfl hne
  | case2 s =>
    rw [Text.splitOn_eq]
    exact List.splitOn_eq_singleton (h s (by simp))
  | case3 s rest hrest ih =>
    rw [List.forall_mem_cons] at h
    rw [Text.splitOn_eq, List.splitOn_append_cons_self_of_not_mem h.1, ← Text.splitOn_eq,
      ih hrest h.2]

/-! ## Reading a path back -/

variable {p q : NodePath}

/-- **An absolute path of such segments is read back as it is.** -/
theorem parse_text (habsolute : p.absolute = true) (h : ∀ s ∈ p.segments, IsSegment s) :
    parse p.text = p := by
  have htext : p.text = '/' :: joined p.segments := by simp [text, habsolute]
  have hblank : ∀ c ∈ p.text, Text.isBlank c = false := by
    intro c hc
    rw [htext, List.mem_cons] at hc
    have hslash : Text.isBlank '/' = false := by decide
    rcases hc with rfl | hc
    · exact hslash
    rcases mem_joined hc with rfl | ⟨s, hs, hcs⟩
    · exact hslash
    · exact (h s hs).notBlank c hcs
  have htrim : Text.trim p.text = p.text := by
    apply Text.trim_eq_self
    · exact fun c hc => hblank c (List.mem_of_mem_head? hc)
    · exact fun c hc => hblank c (List.mem_of_getLast? hc)
  -- In front of the first `/` there is an empty segment; without segments there is one behind it too.
  have hsegments : (Text.splitOn '/' p.text).filter (fun s => !s.isEmpty) = p.segments := by
    have hsplit : Text.splitOn '/' p.text = [] :: Text.splitOn '/' (joined p.segments) := by
      rw [htext, Text.splitOn]
      exact if_pos rfl
    have hkeep : p.segments.filter (fun s => !s.isEmpty) = p.segments := by
      rw [List.filter_eq_self]
      intro s hs
      simpa using (h s hs).ne_nil
    rw [hsplit, List.filter_cons_of_neg (by simp)]
    by_cases hne : p.segments = []
    · rw [hne]
      rfl
    · rw [splitOn_joined hne fun s hs => (h s hs).noSlash, hkeep]
  rw [parse, htrim, hsegments, htext]
  cases p
  simp at habsolute
  simp [habsolute]

/-- An absolute pattern stands for one absolute path. -/
theorem accepts_iff (hp : p.absolute = true) (hq : q.absolute = true) :
    p.accepts q = true ↔ q = p := by
  obtain ⟨segments, absolute⟩ := p
  obtain ⟨segments', absolute'⟩ := q
  dsimp only at hp hq
  subst hp hq
  rw [accepts, if_pos rfl, beq_iff_eq, NodePath.mk.injEq, and_iff_left rfl]
  exact eq_comm

end NodePath

/-! ## The paths of a document -/

/-- A path is as deep as the elements around its end, and one deeper if it ends in a name. -/
theorem View.depth_path (v : View) :
    v.path.depth = v.enclosing.length + if v.item.name?.isSome then 1 else 0 := by
  obtain ⟨item, before, after, enclosing⟩ := v
  match item with
  | .element e => simp [path, enclosingPath, NodePath.child, NodePath.depth, NodePath.ofSegments,
      Item.name?]
  | .attribute a => simp [path, enclosingPath, NodePath.child, NodePath.depth, NodePath.ofSegments,
      Item.name?]
  | .content kind start t => simp [path, enclosingPath, NodePath.depth, NodePath.ofSegments,
      Item.name?]

theorem View.absolute_path (v : View) : v.path.absolute = true := by
  unfold path
  split <;> rfl

/-- Whether a tree is an element. -/
def Placed.isElement (p : Placed) : Bool := decide (p.tree.kind = .inr .element)

/-- The number of elements at a site: the tree that stands there, if it is one, and those around. -/
def Site.elementCount (s : Site) : Nat := (s.here :: s.around).countP Placed.isElement

theorem Enclosure.countP_placedAll (enclosing : List Enclosure) :
    (placedAll enclosing).countP Placed.isElement = enclosing.length := by
  rw [placedAll, List.countP_map, List.countP_eq_length]
  intro x _
  rfl

namespace Document

variable {d : Document} {v : View} {t : Text}

/-- The elements at the place of a view are those around it, and its own. -/
theorem elementCount_siteOf (d : Document) (v : View) : (d.siteOf v).elementCount =
    v.enclosing.length + if v.item.element?.isSome then 1 else 0 := by
  have hdocument : [(⟨0, d.concrete⟩ : Placed)].countP Placed.isElement = 0 := by
    cases d <;> rfl
  have htag (e : Option Element) :
      (e.map Element.placedTag).toList.countP Placed.isElement = 0 := by
    cases e <;> rfl
  obtain ⟨item, before, after, enclosing⟩ := v
  rw [siteOf, View.site, Site.elementCount, List.countP_cons, List.countP_append,
    List.countP_append, Enclosure.countP_placedAll, hdocument]
  match item with
  | .element e => simp [View.tagAround, Item.placed, Element.placed, Placed.isElement,
      Element.node, Node.concrete, Concrete.kind, Item.element?]
  | .attribute a => simp [View.tagAround, Item.placed, Placed.isElement, TagItem.concrete,
      Concrete.kind, Item.element?, htag]
  | .content kind start t => simp [View.tagAround, Item.placed, Placed.isElement, Node.concrete,
      Concrete.kind, Item.element?]

/-- A path is as deep as the elements at the place that it leads to; an attribute is one step below
its element. -/
theorem depth_path (d : Document) (v : View) : v.path.depth =
    (d.siteOf v).elementCount + if v.item.attribute?.isSome then 1 else 0 := by
  rw [v.depth_path, elementCount_siteOf]
  match v.item with
  | .element _ => rfl
  | .attribute _ => rfl
  | .content .. => rfl

/-- The elements of a document without errors have names. -/
theorem isName_of_mem_elements (h : (parse t).errors = []) {e : Element}
    (he : e ∈ (parse t).elements) : Text.isName e.name = true :=
  (((errors_eq_nil_iff_wellFormed t).1 h).valid e he).2

/-- So have their attributes. -/
theorem isName_of_mem_attributes (h : (parse t).errors = []) {e : Element}
    (he : e ∈ (parse t).elements) {a : PlacedAttribute} (ha : a ∈ e.attributes) :
    Text.isName a.name = true := by
  have hvalid := (((errors_eq_nil_iff_wellFormed t).1 h).valid e he).1
  have hattr : a.attr ∈ e.tag.attributes := by
    have hmem := List.mem_map_of_mem (f := PlacedAttribute.attr) ha
    rwa [e.map_attr_attributes] at hmem
  have hattribute := (Element.isValid_iff.1 hvalid).2.2.1 a.attr hattr
  rw [Attribute.isValid, Bool.and_eq_true] at hattribute
  exact hattribute.1

/-- In a document without errors a path has only segments that are read back as they are. -/
theorem isSegment_path (h : (parse t).errors = []) (hv : v ∈ (parse t).views) :
    ∀ s ∈ v.path.segments, NodePath.IsSegment s := by
  have hname {e : Element} (he : e ∈ (parse t).elements) : NodePath.IsSegment e.name :=
    .of_isName (isName_of_mem_elements h he)
  have henclosing : ∀ s ∈ v.enclosingPath.segments, NodePath.IsSegment s := by
    intro s hs
    rw [View.enclosingPath, NodePath.ofSegments, List.mem_reverse, List.mem_map] at hs
    obtain ⟨x, hx, rfl⟩ := hs
    exact hname (element_mem_of_enclosing hv hx)
  rw [View.path]
  split
  · next e hitem =>
    have he : e ∈ (parse t).elements := mem_elements_iff.2 ⟨v, hv, hitem⟩
    exact List.forall_mem_append.2 ⟨henclosing, List.forall_mem_singleton.2 (hname he)⟩
  · next a hitem =>
    obtain ⟨p, hp, e, he, -, ha⟩ := exists_parent_of_attribute hv hitem
    have hmem : e ∈ (parse t).elements := List.mem_filterMap.2 ⟨p, hp, by rw [he]; rfl⟩
    have hsegment := NodePath.IsSegment.at_of_isName (isName_of_mem_attributes h hmem ha)
    exact List.forall_mem_append.2 ⟨henclosing, List.forall_mem_singleton.2 hsegment⟩
  · exact henclosing

/-- What survives when the path of a view of a document is written and read again. -/
structure PathSurvives (d : Document) (v : View) : Prop where
  /-- The path itself. -/
  parse_text : NodePath.parse v.path.text = v.path
  /-- Its depth, which is that of the place in the tree. -/
  depth : (NodePath.parse v.path.text).depth =
    (d.siteOf v).elementCount + if v.item.attribute?.isSome then 1 else 0
  /-- What it leads to: of what the document shows, all that has the same path. -/
  accepts : ∀ w ∈ d.views, (NodePath.parse v.path.text).accepts w.path = true ↔ w.path = v.path

/-- **In a document without errors the paths of all that is shown survive being written.** What is
shown are the views, which stand at the shown sites of the concrete tree, one by one. -/
theorem pathSurvives_views (t : Text) (h : (parse t).errors = []) :
    (parse t).views.map (parse t).siteOf = Site.shown (parse t).sites ∧
      ∀ v ∈ (parse t).views, (parse t).PathSurvives v := by
  refine ⟨map_siteOf_views _, fun v hv => ?_⟩
  have hparse := NodePath.parse_text v.absolute_path (isSegment_path h hv)
  constructor
  · exact hparse
  · rw [hparse]
    exact depth_path _ v
  · intro w _
    rw [hparse]
    exact NodePath.accepts_iff v.absolute_path w.absolute_path

/-- Elements and attributes with signs and letters of many kinds in their names. -/
def namesInPaths : Text := "<a:b é='/'>\n<_.c-1 x='@y'/><![CDATA[z]]></a:b><!--/-->".toList

theorem pathSurvives_views_namesInPaths :
    (parse namesInPaths).errors = [] ∧
      (parse namesInPaths).views.map (fun v => v.path.text) =
        ["/a:b".toList, "/a:b/@é".toList, "/a:b".toList, "/a:b/_.c-1".toList,
          "/a:b/_.c-1/@x".toList, "/a:b".toList, "/".toList] ∧
      (parse namesInPaths).views.map (parse namesInPaths).siteOf =
        Site.shown (parse namesInPaths).sites ∧
      ∀ v ∈ (parse namesInPaths).views, (parse namesInPaths).PathSurvives v :=
  ⟨by decide +kernel, by decide +kernel, pathSurvives_views namesInPaths (by decide +kernel)⟩

end Document

end Markup

end ProjectFile
