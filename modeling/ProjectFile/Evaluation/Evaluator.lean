import ProjectFile.Evaluation.Condition
import ProjectFile.Evaluation.Entity
import ProjectFile.Markup.Problem
import ProjectFile.Markup.View
import ProjectFile.Source.LineIndex

/-!
The evaluation of a single project file: properties, items, targets and imports in document order,
without following imports and without running targets.
-/

namespace ProjectFile.Evaluation

open Markup

/-- The file that is evaluated. -/
structure Source where
  path : FilePath
  index : LineIndex
  /-- Which paths exist. -/
  exists? : FilePath → Bool

/-- The properties that every project has, from the path of its file. -/
def reservedProperties (path : FilePath) : List (Text × Text) :=
  [("MSBuildProjectFullPath".toList, path.text),
   ("MSBuildProjectDirectory".toList, (path.parent?.map FilePath.text).getD []),
   ("MSBuildProjectFile".toList, path.fileName?.getD []),
   ("MSBuildProjectName".toList, path.stem?.getD []),
   ("MSBuildProjectExtension".toList, (path.extension?.map fun e => '.' :: e).getD [])]

/-- Defines a property that is declared nowhere. -/
def defineGiven (p : EvaluatedProject) (entry : Text × Text) : EvaluatedProject :=
  p.insertProperty (.ofObject ⟨.property, entry.1, entry.2, none, []⟩)

/-- The project before the first element of the file: its reserved properties, then the global
ones. -/
def initialProject (path : FilePath) (globals : GlobalProperties) : EvaluatedProject :=
  (reservedProperties path ++ globals).foldl defineGiven (.empty path)

namespace Source

/-- The place of an element, counted from one. -/
def provenance (s : Source) (e : Element) : Provenance :=
  ⟨s.path, (s.index.position e.start).toOneBased⟩

/-- Whether the condition of an element holds. An element without one is always taken. -/
def holds (s : Source) (p : EvaluatedProject) (e : Element) : Except EvaluationError Bool :=
  match e.attribute? "Condition".toList with
  | none => .ok true
  | some a =>
    let condition := unescape (a.value.getD [])
    match conditionHolds ⟨p, s.exists?⟩ condition with
    | .ok b => .ok b
    | .error problem =>
      let start := (a.valueSpan.getD a.span).start
      .error (.invalidCondition condition problem.message (s.index.position start).toOneBased)

end Source

def attributeValue? (p : EvaluatedProject) (e : Element) (name : Text) : Option Text :=
  (e.attributeValue? name).map fun value => expand p (unescape value)

/-- The items of a list: the trimmed pieces between semicolons that are not blank. -/
def splitList (t : Text) : List Text :=
  ((Text.splitOn ';' t).map Text.trim).filter fun piece => !piece.isEmpty

/-- Whether one of the values is `t`, without regard to the case of letters. -/
def listed (values : List Text) (t : Text) : Bool := values.any fun v => Text.sameName v t

/-! ## Properties -/

/-- Declares a property. A global or reserved one keeps its value. -/
def declareProperty (p : EvaluatedProject) (o : EvaluatedObject) (provenance : Provenance) :
    EvaluatedProject :=
  p.insertProperty <|
    match p.property? o.name with
    | none => .ofObject o
    | some h => if h.object.provenance.isNone then h.ignore provenance else h.redefine o

/-- Declares the property of a child of a property group. -/
def evaluateProperty (s : Source) (p : EvaluatedProject) (e : Element) :
    Except EvaluationError EvaluatedProject := do
  if ← s.holds p e then
    let value := expand p (unescape e.innerText)
    return declareProperty p ⟨.property, e.name, value, some (s.provenance e), []⟩ (s.provenance e)
  else return p

/-! ## Items -/

/-- The attributes of an item element that are not metadata. -/
def reservedAttributes : List Text :=
  ["Include".toList, "Exclude".toList, "Remove".toList, "Update".toList, "Condition".toList,
   "KeepMetadata".toList]

/-- The metadata that the attributes of an item element set. -/
def attributeMetadata (p : EvaluatedProject) (e : Element) : Table :=
  .ofList <| (e.attributes.filter fun a => !reservedAttributes.contains a.name).map fun a =>
    (a.name, expand p (unescape (a.value.getD [])))

/-- The metadata of an item element: its attributes, then its children whose conditions hold. -/
def itemMetadata (s : Source) (p : EvaluatedProject) (e : Element) : Except EvaluationError Table :=
  e.childElements.foldlM
    (fun table child => do
      if ← s.holds p child then
        return Table.insert child.name (expand p (unescape child.innerText)) table
      else return table)
    (attributeMetadata p e)

/-- Removes the items of a type that have one of the values. -/
def removeItems (p : EvaluatedProject) (itemType : Text) (values : List Text) : EvaluatedProject :=
  { p with items := p.items.filter fun o =>
      !(Text.sameName o.name itemType && listed values o.value) }

/-- Sets metadata of the items of a type that have one of the values. -/
def updateItems (p : EvaluatedProject) (itemType : Text) (values : List Text) (metadata : Table) :
    EvaluatedProject :=
  { p with items := p.items.map fun o =>
      if Text.sameName o.name itemType && listed values o.value then
        { o with metadata := Table.update o.metadata metadata }
      else o }

def includeItems (s : Source) (p : EvaluatedProject) (e : Element) (metadata : Table)
    (included excluded : List Text) : EvaluatedProject :=
  (included.filter fun value => !listed excluded value).foldl
    (fun p value => p.addItem ⟨.item, e.name, value, some (s.provenance e), metadata⟩) p

/-- Evaluates a child of an item group. It removes, updates or includes items, by the first of these
attributes that it has. -/
def evaluateItem (s : Source) (p : EvaluatedProject) (e : Element) :
    Except EvaluationError EvaluatedProject := do
  if ← s.holds p e then
    let metadata ← itemMetadata s p e
    match attributeValue? p e "Remove".toList with
    | some removed => return removeItems p e.name (splitList removed)
    | none =>
      match attributeValue? p e "Update".toList with
      | some updated => return updateItems p e.name (splitList updated) metadata
      | none =>
        match attributeValue? p e "Include".toList with
        | some included =>
          let excluded := splitList ((attributeValue? p e "Exclude".toList).getD [])
          return includeItems s p e metadata (splitList included) excluded
        | none => return p
  else return p

/-! ## Targets and imports -/

/-- Defines the target of a target element. Its attributes are taken as they are written. -/
def evaluateTarget (s : Source) (p : EvaluatedProject) (e : Element) : EvaluatedProject :=
  match e.attributeValue? "Name".toList with
  | none => p
  | some name =>
    let dependsOn := (e.attributeValue? "DependsOnTargets".toList).getD []
    p.defineTarget ⟨.target, name, dependsOn, some (s.provenance e), []⟩

def evaluateImport (s : Source) (p : EvaluatedProject) (e : Element) : EvaluatedProject :=
  match attributeValue? p e "Project".toList with
  | none => p
  | some project =>
    p.addImport ⟨.importedProject, project, project, some (s.provenance e), []⟩

/-! ## Whole files -/

/-- Evaluates what a child of the root, of a `When` or of an `Otherwise` declares, but not what is
inside a `Choose`. -/
def evaluateChild (s : Source) (p : EvaluatedProject) (e : Element) :
    Except EvaluationError EvaluatedProject := do
  if e.name = "PropertyGroup".toList then
    if ← s.holds p e then e.childElements.foldlM (evaluateProperty s) p else return p
  else if e.name = "ItemGroup".toList then
    if ← s.holds p e then e.childElements.foldlM (evaluateItem s) p else return p
  else if e.name = "Target".toList then return evaluateTarget s p e
  else if e.name = "Import".toList then
    if ← s.holds p e then return evaluateImport s p e else return p
  else return p

mutual

/-- Evaluates the content of the root, of a `When` or of an `Otherwise`, from `offset` on. -/
def evaluateContent (s : Source) (offset : Nat) (p : EvaluatedProject) :
    List Node → Except EvaluationError EvaluatedProject
  | [] => .ok p
  | .element tag content endTag :: rest => do
    let e : Element := ⟨offset, tag, content, endTag⟩
    let p ←
      if e.name = "Choose".toList then evaluateBranches s e.startTagSpan.stop p content
      else evaluateChild s p e
    evaluateContent s (offset + e.node.width) p rest
  | n :: rest => evaluateContent s (offset + n.width) p rest

/-- Evaluates the first branch of a `Choose` that applies, in its content from `offset` on: a `When`
whose condition holds, or an `Otherwise`. -/
def evaluateBranches (s : Source) (offset : Nat) (p : EvaluatedProject) :
    List Node → Except EvaluationError EvaluatedProject
  | [] => .ok p
  | .element tag content endTag :: rest => do
    let e : Element := ⟨offset, tag, content, endTag⟩
    let applies ←
      if e.name = "When".toList then s.holds p e
      else pure (decide (e.name = "Otherwise".toList))
    if applies then evaluateContent s e.startTagSpan.stop p content
    else evaluateBranches s (offset + e.node.width) p rest
  | n :: rest => evaluateBranches s (offset + n.width) p rest

end

/-- Evaluates a project file. -/
def evaluate (exists? : FilePath → Bool) : Engine := fun path t globals =>
  let d := Document.parse t
  let index := LineIndex.ofText t
  match d.errors, d.root? with
  | error :: _, _ =>
    .error (.invalidXml error.problem.message
      (some (index.position error.span.start).toOneBased))
  | [], none => .error (.invalidXml Problem.noRoot.message none)
  | [], some root =>
    if root.name = "Project".toList then
      evaluateContent ⟨path, index, exists?⟩ root.startTagSpan.stop (initialProject path globals)
        root.content
    else
      .error (.invalidXml ("root element is `" ++ root.name.toString ++ "`, expected `Project`")
        (some (index.position root.start).toOneBased))

end ProjectFile.Evaluation
