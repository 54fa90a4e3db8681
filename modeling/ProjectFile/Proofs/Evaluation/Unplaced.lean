import ProjectFile.Proofs.Evaluation.Walk
import ProjectFile.Proofs.Markup.Refilled
import Mathlib.Data.List.Forall2

/-!
Evaluation without positions.

`EvaluatedProject.unplaced` forgets where the declarations of a project stand, and `erase` does so
for an outcome, its errors included. Evaluation takes positions from the line index of its source and
never looks at one. So what is left of an evaluation when its positions are forgotten is the
evaluation by a source that has one position only (`Source.unplaced`), wherever the nodes stand
(`erase_evaluateContent`).

Each step of the evaluator has a lemma that says so of the step. They are put together by
`erase_bind`.
-/

namespace ProjectFile.Evaluation

open Markup Expression

/-! ## Forgetting positions -/

/-- The position of everything that has lost its own. -/
def nowhere : Position := ⟨1, 1, .oneBased⟩

def Provenance.unplaced (o : Provenance) : Provenance := { o with position := nowhere }

def EvaluatedObject.unplaced (o : EvaluatedObject) : EvaluatedObject :=
  { o with provenance := o.provenance.map Provenance.unplaced }

def Declaration.unplaced (d : Declaration) : Declaration :=
  { d with provenance := d.provenance.unplaced }

def History.unplaced (h : History) : History :=
  ⟨h.object.unplaced, h.predecessors.map Declaration.unplaced⟩

namespace EvaluatedProject

def unplaced (p : EvaluatedProject) : EvaluatedProject :=
  { path := p.path
    properties := p.properties.map History.unplaced
    items := p.items.map EvaluatedObject.unplaced
    targets := p.targets.map History.unplaced
    imports := p.imports.map EvaluatedObject.unplaced }

end EvaluatedProject

def EvaluationError.unplaced : EvaluationError → EvaluationError
  | .invalidXml message position => .invalidXml message (position.map fun _ => nowhere)
  | .invalidCondition condition message _ => .invalidCondition condition message nowhere
  | .failed message => .failed message

/-- An outcome without positions; `forget` says what is left of an answer. -/
def erase {α β : Type} (forget : α → β) : Except EvaluationError α → Except EvaluationError β
  | .ok a => .ok (forget a)
  | .error e => .error e.unplaced

/-- What is done after a step can be done after the erased step. -/
theorem erase_bind {α α' β β' : Type} {forget : α → α'} {forget' : β → β'}
    {next : α → Except EvaluationError β} {next' : α' → Except EvaluationError β'}
    (hnext : ∀ a, next' (forget a) = erase forget' (next a)) (x : Except EvaluationError α) :
    erase forget x >>= next' = erase forget' (x >>= next) := by
  cases x with
  | error e => rfl
  | ok a => exact hnext a

/-- Steps that are alike, and what is done after them. -/
theorem erase_bind_congr {α α' β β' : Type} {forget : α → α'} {forget' : β → β'}
    {x y : Except EvaluationError α} {next next' : α → Except EvaluationError β}
    (h : erase forget x = erase forget y)
    (hnext : ∀ a b, x = .ok a → forget a = forget b →
      erase forget' (next a) = erase forget' (next' b)) :
    erase forget' (x >>= next) = erase forget' (y >>= next') := by
  cases x with
  | error e =>
    cases y with
    | error d => exact congrArg Except.error (Except.error.inj h)
    | ok b => cases h
  | ok a =>
    cases y with
    | error d => cases h
    | ok b => exact hnext a b rfl (Except.ok.inj h)

/-- What is done only under a condition. -/
theorem erase_guard {α β : Type} (forget : α → β) {condition : Except EvaluationError Bool}
    {action : Except EvaluationError α} {action' : Except EvaluationError β} (p : α)
    (haction : action' = erase forget action) :
    (do if ← erase id condition then action' else return forget p) =
      erase forget (do if ← condition then action else return p) := by
  refine erase_bind (fun b => ?_) condition
  cases b with
  | false => rfl
  | true => exact haction

/-- Elements that correspond to one another are evaluated one after the other. -/
theorem erase_foldlM {α β : Type} (forget : α → β) {R : Element → Element → Prop}
    {step : α → Element → Except EvaluationError α} {step' : β → Element → Except EvaluationError β}
    (hstep : ∀ a c d, R c d → step' (forget a) d = erase forget (step a c))
    {cs ds : List Element} (hall : List.Forall₂ R cs ds) (a : α) :
    ds.foldlM step' (forget a) = erase forget (cs.foldlM step a) := by
  induction hall generalizing a with
  | nil => rfl
  | cons hfirst _ ih =>
    rw [List.foldlM_cons, List.foldlM_cons, hstep a _ _ hfirst]
    exact erase_bind (fun b => ih b) (step a _)

/-! ## Sources -/

/-- The source with the same position for every offset. -/
def Source.unplaced (s : Source) : Source := { s with index := ⟨[0], 0⟩ }

theorem position_unplaced (s : Source) (offset : Nat) :
    (s.unplaced.index.position offset).toOneBased = nowhere := by
  simp [Source.unplaced, LineIndex.position, LineIndex.place, LineIndex.clamp, Position.toOneBased,
    Position.place, Position.ofPlace, nowhere]

theorem provenance_unplaced (s : Source) (e f : Element) :
    s.unplaced.provenance f = (s.provenance e).unplaced := by
  rw [Source.provenance, position_unplaced]
  rfl

/-! ## Registers -/

namespace Register

theorem get?_map_unplaced (r : Register) (name : Text) :
    get? (r.map History.unplaced) name = (r.get? name).map History.unplaced := List.find?_map

theorem insert_map_unplaced (h : History) (r : Register) :
    Register.insert h.unplaced (r.map History.unplaced) = (r.insert h).map History.unplaced := by
  induction r with
  | nil => rfl
  | cons g r ih =>
    rw [List.map_cons, insert, insert, ih]
    change (if Text.sameName g.name h.name = true then _ else _) = _
    split <;> rfl

end Register

namespace History

theorem unplaced_redefine (h : History) (o : EvaluatedObject) :
    (h.redefine o).unplaced = h.unplaced.redefine o.unplaced := by
  cases hwinner : h.object.provenance <;>
    simp [redefine, unplaced, EvaluatedObject.unplaced, Declaration.unplaced, hwinner]

theorem unplaced_ignore (h : History) (o : Provenance) :
    (h.ignore o).unplaced = h.unplaced.ignore o.unplaced := by
  simp [ignore, unplaced, EvaluatedObject.unplaced, Declaration.unplaced]

end History

/-! ## Values -/

namespace EvaluatedProject

variable (p : EvaluatedProject) (name : Text)

theorem property?_unplaced :
    p.unplaced.property? name = (p.property? name).map History.unplaced :=
  Register.get?_map_unplaced p.properties name

theorem target?_unplaced : p.unplaced.target? name = (p.target? name).map History.unplaced :=
  Register.get?_map_unplaced p.targets name

theorem propertyValue?_unplaced : p.unplaced.propertyValue? name = p.propertyValue? name := by
  rw [propertyValue?, propertyValue?, property?_unplaced, Option.map_map]
  rfl

theorem map_value_itemsOfType_unplaced :
    (p.unplaced.itemsOfType name).map EvaluatedObject.value =
      (p.itemsOfType name).map EvaluatedObject.value := by
  rw [itemsOfType, itemsOfType, unplaced, List.filter_map, List.map_map]
  rfl

theorem unplaced_insertProperty (h : History) :
    (p.insertProperty h).unplaced = p.unplaced.insertProperty h.unplaced := by
  rw [insertProperty, insertProperty, unplaced, ← Register.insert_map_unplaced]
  rfl

end EvaluatedProject

theorem referenceValue_unplaced (p : EvaluatedProject) :
    referenceValue p.unplaced = referenceValue p := by
  funext reference raw
  cases reference <;>
    simp only [referenceValue, EvaluatedProject.propertyValue?_unplaced,
      EvaluatedProject.map_value_itemsOfType_unplaced]

@[simp] theorem expand_unplaced (p : EvaluatedProject) (t : Text) :
    expand p.unplaced t = expand p t := by
  rw [expand, expand, referenceValue_unplaced]

@[simp] theorem operandText_unplaced (p : EvaluatedProject) (t : Text) (e : Expr) :
    operandText p.unplaced t e = operandText p t e := by
  cases e <;> simp only [operandText, expand_unplaced]

theorem truth_unplaced (p : EvaluatedProject) (exists? : FilePath → Bool) (t : Text) (e : Expr) :
    truth ⟨p.unplaced, exists?⟩ t e = truth ⟨p, exists?⟩ t e := by
  induction e using truth.induct with
  | case1 span operand ih => rw [truth, truth, ih]
  | case2 span left right ihl ihr => rw [truth, truth, ihl, ihr]
  | case3 span left right ihl ihr => rw [truth, truth, ihl, ihr]
  | case4 span inner ih => rw [truth, truth, ih]
  | case5 span op left right => simp only [truth, operandText_unplaced]
  | case6 span function argument => simp only [truth, operandText_unplaced]; rfl
  | case7 span function arguments hother => simp only [truth]
  | case8 e => rw [truth, truth, operandText_unplaced] <;> assumption

theorem conditionHolds_unplaced (p : EvaluatedProject) (exists? : FilePath → Bool) (t : Text) :
    conditionHolds ⟨p.unplaced, exists?⟩ t = conditionHolds ⟨p, exists?⟩ t := by
  simp only [conditionHolds, truth_unplaced]

/-! ## Projects -/

section

variable (p : EvaluatedProject)

theorem unplaced_declareProperty (o : EvaluatedObject) (at' : Provenance) :
    (declareProperty p o at').unplaced = declareProperty p.unplaced o.unplaced at'.unplaced := by
  rw [declareProperty, declareProperty, EvaluatedProject.unplaced_insertProperty,
    EvaluatedProject.property?_unplaced, show o.unplaced.name = o.name from rfl]
  congr 1
  cases p.property? o.name with
  | none => rfl
  | some h =>
    simp only [Option.map_some]
    rw [show h.unplaced.object.provenance.isNone = h.object.provenance.isNone from
      Option.isNone_map]
    split
    · exact h.unplaced_ignore at'
    · exact h.unplaced_redefine o

theorem unplaced_defineTarget (o : EvaluatedObject) :
    (p.defineTarget o).unplaced = p.unplaced.defineTarget o.unplaced := by
  rw [EvaluatedProject.defineTarget, EvaluatedProject.defineTarget, EvaluatedProject.target?_unplaced,
    show o.unplaced.name = o.name from rfl, EvaluatedProject.unplaced]
  dsimp only
  rw [← Register.insert_map_unplaced]
  cases p.target? o.name with
  | none => rfl
  | some h =>
    simp only [Option.map_some, ← h.unplaced_redefine o]
    rfl

theorem unplaced_removeItems (itemType : Text) (values : List Text) :
    (removeItems p itemType values).unplaced = removeItems p.unplaced itemType values := by
  simp [removeItems, EvaluatedProject.unplaced, List.filter_map, EvaluatedObject.unplaced,
    Function.comp_def]

theorem unplaced_updateItems (itemType : Text) (values : List Text) (metadata : Table) :
    (updateItems p itemType values metadata).unplaced =
      updateItems p.unplaced itemType values metadata := by
  have hone (o : EvaluatedObject) :
      (if Text.sameName o.name itemType && listed values o.value then
        { o with metadata := Table.update o.metadata metadata } else o).unplaced =
      if Text.sameName o.unplaced.name itemType && listed values o.unplaced.value then
        { o.unplaced with metadata := Table.update o.unplaced.metadata metadata }
      else o.unplaced := by
    change _ = if Text.sameName o.name itemType && listed values o.value then _ else _
    split <;> rfl
  simp only [updateItems, EvaluatedProject.unplaced, List.map_map, Function.comp_def, hone]

end

/-! ## Elements -/

theorem map_node_childElements (e : Element) :
    e.childElements.map Element.node = e.content.filter Node.isElement := by
  rw [Element.childElements]
  generalize e.startTagSpan.stop = offset
  induction e.content generalizing offset with
  | nil => rfl
  | cons n ns ih => cases n <;> simp [Node.placed, List.filter_cons, Node.isElement, Element.node, ih]

/-! Elements that are alike have the same values under each name. -/

section

variable {e f : Element} (h : e.Alike f)

include h

theorem map_attr_attribute?_of_alike (name : Text) :
    (e.attribute? name).map PlacedAttribute.attr = (f.attribute? name).map PlacedAttribute.attr := by
  have hfind (g : Element) : (g.attribute? name).map PlacedAttribute.attr =
      (g.attributes.map PlacedAttribute.attr).find? fun a => a.name == name := by
    rw [List.find?_map]
    rfl
  rw [hfind, hfind, h.attributes]

theorem attributeValue?_eq_of_alike (name : Text) :
    e.attributeValue? name = f.attributeValue? name := by
  have hbind (g : Element) : g.attributeValue? name =
      ((g.attribute? name).map PlacedAttribute.attr).bind Attribute.value := by
    rw [Option.bind_map]
    rfl
  rw [hbind, hbind, map_attr_attribute?_of_alike h]

end

section

variable {e f : Element} (h : e.node = f.node)

include h

theorem tag_eq_of_node : e.tag = f.tag := (Node.element.inj h).1

theorem alike_of_node : e.Alike f where
  name := by rw [Element.name, Element.name, tag_eq_of_node h]
  attributes := by rw [Element.map_attr_attributes, Element.map_attr_attributes, tag_eq_of_node h]

theorem content_eq_of_node : e.content = f.content := (Node.element.inj h).2.1

theorem innerText_eq_of_node : e.innerText = f.innerText := by
  rw [Element.innerText, Element.innerText, tag_eq_of_node h, content_eq_of_node h]

end

/-- Whether elements are the same but for where they stand. -/
def SameNode (e f : Element) : Prop := e.node = f.node

/-- Whether elements are the same but for where they stand and what is between the elements in
them. -/
structure SameElements (e f : Element) : Prop where
  tag : e.tag = f.tag
  inside : e.content.filter Node.isElement = f.content.filter Node.isElement

section

variable {e f : Element}

theorem SameElements.of_node (h : e.node = f.node) : SameElements e f :=
  ⟨tag_eq_of_node h, by rw [content_eq_of_node h]⟩

theorem SameElements.alike (h : SameElements e f) : e.Alike f where
  name := by rw [Element.name, Element.name, h.tag]
  attributes := by rw [Element.map_attr_attributes, Element.map_attr_attributes, h.tag]

theorem forall₂_of_map_node {cs ds : List Element}
    (h : cs.map Element.node = ds.map Element.node) : List.Forall₂ SameNode cs ds := by
  rw [← List.forall₂_eq_eq_eq, List.forall₂_map_left_iff, List.forall₂_map_right_iff] at h
  exact h

theorem SameElements.children (h : SameElements e f) :
    List.Forall₂ SameNode e.childElements f.childElements :=
  forall₂_of_map_node (by rw [map_node_childElements, map_node_childElements, h.inside])

end

/-! ## Steps -/

section

variable (s : Source) (p : EvaluatedProject) {e f : Element}

theorem erase_holds (h : e.Alike f) :
    s.unplaced.holds p.unplaced f = erase id (s.holds p e) := by
  have hattribute := map_attr_attribute?_of_alike h "Condition".toList
  rw [Source.holds, Source.holds]
  cases ha : e.attribute? "Condition".toList with
  | none =>
    rw [ha] at hattribute
    rw [Option.map_eq_none_iff.1 hattribute.symm]
    rfl
  | some a =>
    rw [ha] at hattribute
    obtain ⟨b, hb, hattr⟩ := Option.map_eq_some_iff.1 hattribute.symm
    have hvalue : b.value = a.value := congrArg Attribute.value hattr
    rw [hb]
    dsimp only
    rw [hvalue, show s.unplaced.exists? = s.exists? from rfl, conditionHolds_unplaced]
    cases conditionHolds ⟨p, s.exists?⟩ (unescape (a.value.getD [])) with
    | ok b => rfl
    | error problem => rw [position_unplaced]; rfl

theorem attributeValue?_unplaced (h : e.Alike f) (name : Text) :
    attributeValue? p.unplaced f name = attributeValue? p e name := by
  simp only [attributeValue?, attributeValue?_eq_of_alike h, expand_unplaced]

theorem erase_branchApplies (h : e.Alike f) :
    branchApplies s.unplaced p.unplaced f = erase id (branchApplies s p e) := by
  rw [branchApplies, branchApplies, erase_holds s p h, ← h.name]
  split <;> rfl

theorem erase_evaluateProperty (h : e.node = f.node) : evaluateProperty s.unplaced p.unplaced f =
    erase EvaluatedProject.unplaced (evaluateProperty s p e) := by
  rw [evaluateProperty, evaluateProperty, erase_holds s p (alike_of_node h), ← (alike_of_node h).name,
    ← innerText_eq_of_node h, expand_unplaced, provenance_unplaced s e f]
  refine erase_guard EvaluatedProject.unplaced p (congrArg Except.ok ?_)
  rw [unplaced_declareProperty]
  rfl

theorem attributeMetadata_unplaced (h : e.Alike f) :
    attributeMetadata p.unplaced f = attributeMetadata p e := by
  have hattributes (p : EvaluatedProject) (g : Element) : attributeMetadata p g =
      .ofList (((g.attributes.map PlacedAttribute.attr).filter fun a =>
        !reservedAttributes.contains a.name).map fun a =>
          (a.name, expand p (unescape (a.value.getD [])))) := by
    rw [attributeMetadata, List.filter_map, List.map_map]
    rfl
  rw [hattributes, hattributes, h.attributes]
  simp only [expand_unplaced]

theorem erase_itemMetadata (h : SameElements e f) :
    itemMetadata s.unplaced p.unplaced f = erase id (itemMetadata s p e) := by
  rw [itemMetadata, itemMetadata, attributeMetadata_unplaced p h.alike]
  refine erase_foldlM id (fun table c d hnode => ?_) h.children _
  rw [erase_holds s p (alike_of_node hnode), ← (alike_of_node hnode).name,
    ← innerText_eq_of_node hnode, expand_unplaced]
  exact erase_guard id table rfl

theorem unplaced_includeItems (h : e.Alike f) (metadata : Table) (included excluded : List Text) :
    (includeItems s p e metadata included excluded).unplaced =
      includeItems s.unplaced p.unplaced f metadata included excluded := by
  rw [includeItems, includeItems, ← h.name, provenance_unplaced s e f]
  generalize included.filter (fun value => !listed excluded value) = values
  induction values generalizing p with
  | nil => rfl
  | cons value values ih =>
    rw [List.foldl_cons, List.foldl_cons, ih]
    congr 1
    simp [EvaluatedProject.addItem, EvaluatedProject.unplaced, EvaluatedObject.unplaced]

/-- An item element is read for its start tag and for the elements in it. -/
theorem erase_evaluateItem (h : SameElements e f) : evaluateItem s.unplaced p.unplaced f =
    erase EvaluatedProject.unplaced (evaluateItem s p e) := by
  rw [evaluateItem, evaluateItem, erase_holds s p h.alike, erase_itemMetadata s p h]
  simp only [attributeValue?_unplaced p h.alike, ← h.alike.name]
  refine erase_guard EvaluatedProject.unplaced p (erase_bind (fun metadata => ?_) _)
  cases attributeValue? p e "Remove".toList with
  | some removed => exact congrArg Except.ok (unplaced_removeItems p _ _).symm
  | none =>
  cases attributeValue? p e "Update".toList with
  | some updated => exact congrArg Except.ok (unplaced_updateItems p _ _ _).symm
  | none =>
  cases attributeValue? p e "Include".toList with
  | some included => exact congrArg Except.ok (unplaced_includeItems s p h.alike _ _ _).symm
  | none => rfl

theorem unplaced_evaluateTarget (h : e.Alike f) : evaluateTarget s.unplaced p.unplaced f =
    (evaluateTarget s p e).unplaced := by
  rw [evaluateTarget, evaluateTarget, ← attributeValue?_eq_of_alike h,
    ← attributeValue?_eq_of_alike h, provenance_unplaced s e f]
  cases e.attributeValue? "Name".toList with
  | none => rfl
  | some name =>
    dsimp only
    rw [unplaced_defineTarget]
    rfl

theorem unplaced_evaluateImport (h : e.Alike f) : evaluateImport s.unplaced p.unplaced f =
    (evaluateImport s p e).unplaced := by
  rw [evaluateImport, evaluateImport, attributeValue?_unplaced p h, provenance_unplaced s e f]
  cases attributeValue? p e "Project".toList with
  | none => rfl
  | some project =>
    simp [EvaluatedProject.addImport, EvaluatedProject.unplaced, EvaluatedObject.unplaced]

/-- A child of a root or a branch is read for its start tag, if it is a property group for its
children, and if it is an item group for their start tags and the elements in them. -/
theorem erase_evaluateChild (h : e.Alike f)
    (hproperties : e.name = "PropertyGroup".toList →
      List.Forall₂ SameNode e.childElements f.childElements)
    (hitems : e.name = "ItemGroup".toList →
      List.Forall₂ SameElements e.childElements f.childElements) :
    evaluateChild s.unplaced p.unplaced f =
      erase EvaluatedProject.unplaced (evaluateChild s p e) := by
  rw [evaluateChild, evaluateChild, erase_holds s p h, ← h.name]
  split
  · next hname =>
    refine erase_guard _ p (erase_foldlM _ (fun q _ _ hc => ?_) (hproperties hname) p)
    exact erase_evaluateProperty s q hc
  split
  · next hname =>
    refine erase_guard _ p (erase_foldlM _ (fun q _ _ hc => ?_) (hitems hname) p)
    exact erase_evaluateItem s q hc
  split
  · exact congrArg Except.ok (unplaced_evaluateTarget s p h)
  split
  · exact erase_guard _ p (congrArg Except.ok (unplaced_evaluateImport s p h))
  · rfl

theorem erase_evaluateChild_of_elements (h : SameElements e f) :
    evaluateChild s.unplaced p.unplaced f =
      erase EvaluatedProject.unplaced (evaluateChild s p e) :=
  erase_evaluateChild s p h.alike (fun _ => h.children)
    (fun _ => h.children.imp fun _ _ => .of_node)

end

/-! ## Contents -/

mutual

/-- **Forgetting the positions of an evaluation is evaluating without them**, wherever the nodes
stand. -/
theorem erase_evaluateContent (s : Source) (offset offset' : Nat) (p : EvaluatedProject) :
    ∀ ns : List Node, evaluateContent s.unplaced offset' p.unplaced ns =
      erase EvaluatedProject.unplaced (evaluateContent s offset p ns)
  | [] => by
    rw [evaluateContent, evaluateContent]
    rfl
  | .element tag content endTag :: rest => by
    let e : Element := ⟨offset, tag, content, endTag⟩
    let f : Element := ⟨offset', tag, content, endTag⟩
    change evaluateContent s.unplaced offset' p.unplaced (f.node :: rest) =
      erase _ (evaluateContent s offset p (e.node :: rest))
    rw [evaluateContent_element s.unplaced offset' p.unplaced f rfl,
      evaluateContent_element s offset p e rfl]
    have hfirst : (if f.name = "Choose".toList then
          evaluateBranches s.unplaced f.startTagSpan.stop p.unplaced content
        else evaluateChild s.unplaced p.unplaced f) =
        erase EvaluatedProject.unplaced (if e.name = "Choose".toList then
          evaluateBranches s e.startTagSpan.stop p content else evaluateChild s p e) := by
      change (if e.name = "Choose".toList then _ else _) = _
      split
      · exact erase_evaluateBranches s _ _ p content
      · exact erase_evaluateChild_of_elements s p (.of_node rfl)
    exact (congrArg (· >>= _) hfirst).trans
      (erase_bind (fun q => erase_evaluateContent s _ _ q rest) _)
  | .strayEnd tag :: rest => by
    rw [evaluateContent_skip _ _ _ rfl, evaluateContent_skip _ _ _ rfl]
    exact erase_evaluateContent s _ _ p rest
  | .run kind t :: rest => by
    rw [evaluateContent_skip _ _ _ rfl, evaluateContent_skip _ _ _ rfl]
    exact erase_evaluateContent s _ _ p rest
termination_by ns => sizeOf ns

theorem erase_evaluateBranches (s : Source) (offset offset' : Nat) (p : EvaluatedProject) :
    ∀ ns : List Node, evaluateBranches s.unplaced offset' p.unplaced ns =
      erase EvaluatedProject.unplaced (evaluateBranches s offset p ns)
  | [] => by
    rw [evaluateBranches, evaluateBranches]
    rfl
  | .element tag content endTag :: rest => by
    let e : Element := ⟨offset, tag, content, endTag⟩
    let f : Element := ⟨offset', tag, content, endTag⟩
    change evaluateBranches s.unplaced offset' p.unplaced (f.node :: rest) =
      erase _ (evaluateBranches s offset p (e.node :: rest))
    rw [evaluateBranches_element s.unplaced offset' p.unplaced f rfl,
      evaluateBranches_element s offset p e rfl,
      erase_branchApplies s p (alike_of_node (show e.node = f.node from rfl))]
    refine erase_bind (fun applies => ?_) _
    cases applies with
    | true => exact erase_evaluateContent s _ _ p content
    | false => exact erase_evaluateBranches s _ _ p rest
  | .strayEnd tag :: rest => by
    rw [evaluateBranches_skip _ _ _ rfl, evaluateBranches_skip _ _ _ rfl]
    exact erase_evaluateBranches s _ _ p rest
  | .run kind t :: rest => by
    rw [evaluateBranches_skip _ _ _ rfl, evaluateBranches_skip _ _ _ rfl]
    exact erase_evaluateBranches s _ _ p rest
termination_by ns => sizeOf ns

end

end ProjectFile.Evaluation
