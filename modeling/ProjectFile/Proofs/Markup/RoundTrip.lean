import ProjectFile.Proofs.Markup.Rescan
import ProjectFile.Proofs.Markup.WellFormed

/-!
Reading undoes writing.

A well-formed tree that is written and read again is the same tree: the text has no errors, and its
root shows the tree, item for item. The scan was settled before; here

1. the pieces of a written tree make up one node, `Written.node` (`Draft.foldl_pieces`), which is
   all that the text is read as (`Document.parse_print`),
2. that node is flawless, so by `Document.topErrors_eq_nil_iff` the text has no errors, and
3. the items of the view that its nodes are show the tree (`Written.shownByAll_nodesOfAll`).
-/

namespace ProjectFile.Markup

open Written (startTag endTag printOpening print printAll pieces piecesOfAll WellFormedAll)

/-! ## Control characters -/

theorem Text.isPlain_append {s t : Text} :
    Text.IsPlain (s ++ t) ↔ Text.IsPlain s ∧ Text.IsPlain t := List.forall_mem_append

theorem Text.isPlain_name {name : Text} (h : Text.isName name = true) : Text.IsPlain name := by
  intro c hc hcontrol
  rw [Text.isControl_eq_false ((Text.isName_spec h).2 c hc)] at hcontrol
  cases hcontrol

theorem WrittenAttribute.isPlain_print {a : WrittenAttribute} (h : a.WellFormed) :
    Text.IsPlain a.print := by
  have hsigns : Text.IsPlain [' '] ∧ Text.IsPlain ['=', a.quote.char] ∧
      Text.IsPlain [a.quote.char] := by
    cases a.quote <;> decide
  have hprint : a.print = [' '] ++ (a.name ++ (['=', a.quote.char] ++ (a.value ++ [a.quote.char]))) := by
    simp [print]
  rw [hprint, Text.isPlain_append, Text.isPlain_append, Text.isPlain_append, Text.isPlain_append]
  exact ⟨hsigns.1, Text.isPlain_name h.name, hsigns.2.1, h.plain, hsigns.2.2⟩

theorem Written.isPlain_printOpening {name : Text} {attributes : List WrittenAttribute}
    (h : OpeningWellFormed name attributes) : Text.IsPlain (printOpening name attributes) := by
  have hattributes : Text.IsPlain (attributes.flatMap WrittenAttribute.print) := by
    intro c hc
    obtain ⟨a, ha, hca⟩ := List.mem_flatMap.1 hc
    exact WrittenAttribute.isPlain_print (h.each a ha) c hca
  have hangle : Text.IsPlain ['<'] := by decide
  have hopening : printOpening name attributes =
      ['<'] ++ (name ++ attributes.flatMap WrittenAttribute.print) := rfl
  rw [hopening, Text.isPlain_append, Text.isPlain_append]
  exact ⟨hangle, Text.isPlain_name h.named, hattributes⟩

namespace Written

mutual

theorem isPlain_print : ∀ w : Written, w.WellFormed → Text.IsPlain w.print
  | .empty name attributes, h => by
    rw [print, Text.isPlain_append]
    exact ⟨isPlain_printOpening h, by decide⟩
  | .element name attributes content, h => by
    have hprint : (element name attributes content).print = printOpening name attributes ++
        (['>'] ++ (printAll content ++ (['<', '/'] ++ (name ++ ['>'])))) := by
      simp [print]
    rw [hprint, Text.isPlain_append, Text.isPlain_append, Text.isPlain_append, Text.isPlain_append,
      Text.isPlain_append]
    exact ⟨isPlain_printOpening h.1, by decide, isPlain_printAll content h.2,
      by decide, Text.isPlain_name h.1.named, by decide⟩
  | .text t, h => h.1
  | .comment body, h => by
    rw [print, Text.isPlain_append, Text.isPlain_append]
    exact ⟨by decide, h.1, by decide⟩
  | .cdata body, h => by
    rw [print, Text.isPlain_append, Text.isPlain_append]
    exact ⟨by decide, h.1, by decide⟩

/-- Written trees hold no control characters that show a text not to be markup. -/
theorem isPlain_printAll : ∀ ws : List Written, WellFormedAll ws → Text.IsPlain (printAll ws)
  | [], _ => nofun
  | w :: ws, h => by
    rw [printAll, Text.isPlain_append]
    exact ⟨isPlain_print w h.1, isPlain_printAll ws h.2.2⟩

end

/-! ## The nodes of written trees -/

mutual

/-- The node that a written tree is read as. -/
def node : Written → Node
  | .empty name attributes => .element (startTag name attributes .selfClosed) [] none
  | .element name attributes content =>
    .element (startTag name attributes .content) (nodesOfAll content) (some (endTag name))
  | .text t => .run (if Text.isMarkupBlank t then .blank else .text) t
  | .comment body => .run .comment (comment body).print
  | .cdata body => .run .cdata (cdata body).print

/-- The nodes that written trees are read as. -/
def nodesOfAll : List Written → List Node
  | [] => []
  | w :: ws => w.node :: nodesOfAll ws

end

end Written

namespace Draft

/-- An end tag that names the innermost open element closes it. -/
theorem step_innermost {d : Draft} {o : OpenElement} {outer : List OpenElement} {tag : EndTag}
    {n : Text} (hopened : d.opened = o :: outer) (ho : o.tag.name = some n)
    (htag : tag.name = some n) : d.step (.stop tag) = d.close (some tag) := by
  have hdepth : d.depthOf tag.name = some 0 := by
    simp [depthOf, hopened, htag, ho, List.findIdx?_cons]
  rw [step, hdepth]
  rfl

mutual

/-- Taking in the pieces of a written tree adds its node. -/
theorem foldl_pieces (d : Draft) : ∀ w : Written, w.pieces.foldl step d = d.add w.node
  | .empty name attributes => rfl
  | .element name attributes content => by
    have hopened : d.step (.start (startTag name attributes .content)) =
        d.openElement (startTag name attributes .content) := rfl
    have hcontent := foldl_piecesOfAll (d.openElement (startTag name attributes .content)) content
    -- The innermost open element is again the one that the first piece opened.
    rw [Written.pieces, List.foldl_cons, List.foldl_append, hopened, hcontent, List.foldl_cons,
      step_innermost rfl rfl rfl]
    simp [openElement, close, add, Written.node]
  | .text t => rfl
  | .comment body => rfl
  | .cdata body => rfl

theorem foldl_piecesOfAll (d : Draft) : ∀ ws : List Written,
    (piecesOfAll ws).foldl step d = ⟨d.opened, (Written.nodesOfAll ws).reverse ++ d.done⟩
  | [] => rfl
  | w :: ws => by
    rw [piecesOfAll, List.foldl_append, foldl_pieces d w, foldl_piecesOfAll (d.add w.node) ws]
    simp [add, Written.nodesOfAll]

end

end Draft

/-- **A written element is read as its node alone.** -/
theorem Node.ofPieces_print {w : Written} (hwell : w.WellFormed) (helement : w.isElement = true) :
    ofPieces (Piece.ofText w.print) = [w.node] := by
  have htext : w.isText = true → ([] : Text).head? = some '<' := by
    intro htext
    cases w with
    | text t => cases helement
    | _ => cases htext
  -- An element needs no `<` after it, so it may be all of the text.
  have hpieces := Piece.readAll_print w hwell [] htext
  rw [List.append_nil, Piece.readAll, List.append_nil] at hpieces
  rw [Piece.ofText, hpieces, ofPieces, Draft.foldl_pieces]
  rfl

theorem Document.parse_print {w : Written} (hwell : w.WellFormed) (helement : w.isElement = true) :
    parse w.print = .markup [w.node] := by
  have hbinary := isBinary_eq_false_iff.2 (w.isPlain_print hwell)
  rw [parse, hbinary, Node.ofPieces_print hwell helement]
  rfl

/-! ## No errors -/

namespace Written

theorem attributes_items (attributes : List WrittenAttribute) :
    TagItem.attributes (attributes.flatMap WrittenAttribute.items) =
      attributes.map WrittenAttribute.attr := by
  induction attributes with
  | nil => rfl
  | cons a attributes ih => exact congrArg (a.attr :: ·) ih

theorem allSound_items {name : Text} {attributes : List WrittenAttribute}
    (h : OpeningWellFormed name attributes) :
    TagItem.AllSound [] (attributes.flatMap WrittenAttribute.items) where
  notJunk := by
    intro i hi
    obtain ⟨a, -, hia⟩ := List.mem_flatMap.1 hi
    simp only [WrittenAttribute.items, List.mem_cons, List.not_mem_nil, or_false] at hia
    obtain rfl | rfl := hia <;> rfl
  valid := by
    rw [attributes_items, List.forall_mem_map]
    intro a ha
    rw [Attribute.isValid, Bool.and_eq_true]
    exact ⟨(h.each a ha).name, rfl⟩
  distinct := by
    rw [attributes_items, List.map_map]
    exact h.distinct
  unseen _ _ := List.not_mem_nil

theorem sound_node {name : Text} {attributes : List WrittenAttribute} (content : List Node)
    {ending : TagEnding} {closer : Option EndTag} (h : OpeningWellFormed name attributes)
    (hclosed : ending = .selfClosed ∨ closer = some (endTag name)) :
    Element.Sound ⟨0, startTag name attributes ending, content, closer⟩ := by
  refine Element.sound_iff.2 ⟨⟨name, rfl, h.named⟩, allSound_items h, ?_⟩
  exact hclosed.imp_right fun hcloser => ⟨endTag name, hcloser, rfl, rfl⟩

/-- A run is terminated if its terminator stands behind an opener that is long enough. -/
theorem isTerminated_of_suffix {kind : RunKind} {least : Nat} {stop opener : Text}
    (hkind : ∀ t, kind.isTerminated t = (decide (least ≤ Text.width t) && stop.isSuffixOf t))
    (hleast : least ≤ opener.width + stop.width) (body : Text) :
    kind.isTerminated (opener ++ (body ++ stop)) = true := by
  have hsuffix : stop <:+ opener ++ (body ++ stop) := by
    rw [← List.append_assoc]
    exact List.suffix_append _ _
  have hwidth : least ≤ Text.width (opener ++ (body ++ stop)) := by
    rw [Text.width_append, Text.width_append]
    omega
  rw [hkind, Bool.and_eq_true, decide_eq_true_eq, List.isSuffixOf_iff_suffix]
  exact ⟨hwidth, hsuffix⟩

mutual

theorem flawless_node : ∀ w : Written, w.WellFormed → w.node.Flawless
  | .empty name attributes, h => ⟨sound_node [] h (.inl rfl), nofun, trivial⟩
  | .element name attributes content, h => by
    refine ⟨sound_node _ h.1 (.inr rfl), ?_, flawless_nodesOfAll content h.2⟩
    -- The end tag is written without fillers, so none of them can be junk.
    intro closer hcloser f hf
    cases hcloser
    cases hf
  | .text t, _ => by
    unfold node Node.Flawless
    split <;> rfl
  | .comment body, _ => by
    rw [node, print, Node.Flawless]
    exact isTerminated_of_suffix (fun _ => rfl) (by decide) body
  | .cdata body, _ => by
    rw [node, print, Node.Flawless]
    exact isTerminated_of_suffix (fun _ => rfl) (by decide) body

theorem flawless_nodesOfAll : ∀ ws : List Written, WellFormedAll ws → Node.FlawlessAll (nodesOfAll ws)
  | [], _ => trivial
  | w :: ws, h => ⟨flawless_node w h.1, flawless_nodesOfAll ws h.2.2⟩

end

/-! ## What is shown -/

theorem map_attributes {offset : Nat} {name : Text} {attributes : List WrittenAttribute}
    {ending : TagEnding} {content : List Node} {closer : Option EndTag} :
    (Element.attributes ⟨offset, startTag name attributes ending, content, closer⟩).map
        (fun a => (a.name, a.value)) = attributes.map fun a => (a.name, some a.value) := by
  have hattrs := Element.map_attr_attributes
    ⟨offset, startTag name attributes ending, content, closer⟩
  rw [startTag, attributes_items] at hattrs
  have hpairs := congrArg (List.map fun a : Attribute => (a.name, a.value)) hattrs
  rw [List.map_map, List.map_map] at hpairs
  exact hpairs

theorem sectionValue_print (body : Text) : sectionValue (cdata body).print = body := by
  have hopener : "<![CDATA[".toList = sectionOpener := by decide
  have hprefix : sectionOpener.isPrefixOf (cdata body).print = true := by
    rw [List.isPrefixOf_iff_prefix, print]
    exact List.prefix_append _ _
  have hinner : (cdata body).print.drop 9 = body ++ [']', ']', '>'] := rfl
  have hsuffix : [']', ']', '>'].isSuffixOf (body ++ [']', ']', '>']) = true := by
    rw [List.isSuffixOf_iff_suffix]
    exact List.suffix_append _ _
  have hlength : (body ++ [']', ']', '>']).length - 3 = body.length := by simp
  rw [sectionValue, hopener, if_pos hprefix, hinner, if_pos hsuffix, hlength, List.take_left]

theorem shownBy_text (t : Text) (offset : Nat) :
    ∃ i, Item.ofNode? (offset, (text t).node) = some i ∧ (text t).ShownBy i := by
  -- The reader chose the kind of the run by the same test that `ShownBy` states.
  have hblank : Text.isMarkupBlank t = true ↔ ∀ c ∈ t, c ∈ [' ', '\t', '\r', '\n'] := by
    simp [Text.isMarkupBlank, Text.isMarkupSpace, or_assoc]
  by_cases h : Text.isMarkupBlank t = true
  · refine ⟨.content .blank offset t, ?_, rfl, .inl rfl, iff_of_true rfl (hblank.1 h)⟩
    rw [node, if_pos h]
    rfl
  · refine ⟨.content .text offset t, ?_, rfl, .inr rfl, iff_of_false (by decide) (mt hblank.2 h)⟩
    rw [node, if_neg h]
    rfl

mutual

/-- The node of a written tree is shown as an item that shows the tree. -/
theorem shownBy_node (offset : Nat) : ∀ w : Written,
    ∃ i, Item.ofNode? (offset, w.node) = some i ∧ w.ShownBy i
  | .empty name attributes => ⟨_, rfl, rfl, map_attributes, rfl, rfl⟩
  | .element name attributes content => by
    refine ⟨_, rfl, rfl, map_attributes, rfl, ?_⟩
    exact shownByAll_nodesOfAll _ content
  | .text t => shownBy_text t offset
  | .comment body => ⟨_, rfl, rfl, rfl⟩
  | .cdata body => ⟨_, rfl, rfl, sectionValue_print body⟩

theorem shownByAll_nodesOfAll (offset : Nat) : ∀ ws : List Written,
    ShownByAll ws (Item.ofNodes offset (nodesOfAll ws))
  | [] => trivial
  | w :: ws => by
    obtain ⟨i, hi, hshown⟩ := shownBy_node offset w
    have hitems : Item.ofNodes offset (nodesOfAll (w :: ws)) =
        i :: Item.ofNodes (offset + w.node.width) (nodesOfAll ws) := by
      rw [Item.ofNodes, nodesOfAll, Node.placed, List.filterMap_cons_some hi]
      rfl
    rw [hitems]
    exact ⟨hshown, shownByAll_nodesOfAll _ ws⟩

end

/-! ## The whole document -/

theorem exists_node_of_isElement {w : Written} (h : w.isElement = true) :
    ∃ tag content closer, w.node = .element tag content closer := by
  cases w with
  | empty name attributes => exact ⟨_, _, _, rfl⟩
  | element name attributes content => exact ⟨_, _, _, rfl⟩
  | _ => cases h

end Written

/-- That there are no errors is read off the node, for which it has to be known to nest. -/
theorem Document.errors_parse_print {w : Written} (hwell : w.WellFormed) (helement : w.isElement = true) :
    (parse w.print).errors = [] := by
  have hnested := Node.nestedAll_ofPieces (Piece.ofText w.print)
  have hflawless := w.flawless_node hwell
  obtain ⟨tag, content, closer, hnode⟩ := Written.exists_node_of_isElement helement
  rw [Node.ofPieces_print hwell helement, hnode] at hnested
  rw [hnode] at hflawless
  rw [parse_print hwell helement, hnode]
  refine (topErrors_eq_nil_iff (Nat.zero_le 1) hnested).2 ⟨⟨hflawless, trivial⟩, ?_, rfl⟩
  intro n hn
  rw [List.mem_singleton.1 hn]
  nofun

/-- **Reading undoes writing.** A well-formed element that is written and read has no errors, and
the root of the document shows it. -/
theorem Document.root?_parse_print (root : Written) (hwell : root.WellFormed)
    (helement : root.isElement = true) :
    (parse root.print).errors = [] ∧
      ∃ e, (parse root.print).root? = some e ∧ root.ShownBy (.element e) := by
  obtain ⟨i, hi, hshown⟩ := root.shownBy_node 0
  obtain ⟨tag, content, closer, hnode⟩ := Written.exists_node_of_isElement helement
  refine ⟨errors_parse_print hwell helement, ?_⟩
  rw [hnode] at hi
  rw [parse_print hwell helement, hnode]
  cases hi
  exact ⟨_, rfl, hshown⟩

/-- A tree whose strings hold every sign of markup that they may. -/
def Written.crowded : Written :=
  .element ['a', ':', 'b'] [⟨['v'], .double, "x>'/=".toList⟩, ⟨['w'], .single, "\"&".toList⟩]
    [.text "\n\t".toList,
      .empty ['n'] [⟨['_', '-', '.'], .double, []⟩],
      .text "é ]]> --> />".toList,
      .comment "</a:b><!-".toList,
      .cdata "<n/>]]".toList,
      .element ['a', ':', 'b'] [] [.comment "]]>-".toList, .cdata "-->".toList]]

/-- The crowded tree is read back, two bodies that end like the start of a terminator included. -/
theorem Document.root?_parse_print_crowded :
    Written.crowded.WellFormed ∧ Written.crowded.isElement = true ∧
      (parse Written.crowded.print).errors = [] ∧
      ∃ e, (parse Written.crowded.print).root? = some e ∧ Written.crowded.ShownBy (.element e) := by
  have hwell : Written.crowded.WellFormed := by decide +kernel
  exact ⟨hwell, rfl, root?_parse_print Written.crowded hwell rfl⟩

end ProjectFile.Markup
