import ProjectFile.Proofs.Evaluation.Histories
import ProjectFile.Proofs.Evaluation.Trace
import ProjectFile.Proofs.Text.Table
import Mathlib.Data.List.Find

/-!
Where the metadata of items comes from.

An item has the metadata that the element which included it wrote, and then what later updates of the
item wrote, one after the other (`WrittenBy`). Each step of an evaluation keeps this of every item
(`WrittenBy.leads`), so it holds of the items of every project file (`Steps.writtenBy`).

Writes are kept by their exact keys, but metadata is looked up without regard to the case of letters.
So the value that is found is the last one that was written in the spelling of the first write of the
name, and of all writes of the name only if they are spelled alike (`FoundIn`,
`metadata?_of_evaluate`).
-/

namespace ProjectFile.Evaluation

open Markup

/-! ## Writes of an item element -/

/-- What the attributes of an item element write, but for the reserved ones. -/
def attributeWrites (p : EvaluatedProject) (e : Element) : List (Text × Text) :=
  (e.attributes.filter fun a => !reservedAttributes.contains a.name).map fun a =>
    (a.name, expand p (unescape (a.value.getD [])))

/-- What the children of an item element write whose conditions hold. -/
def childWrites (s : Source) (p : EvaluatedProject) (e : Element) : List (Text × Text) :=
  (e.childElements.filter fun child => s.takes p child).map fun child =>
    (child.name, expand p (unescape child.innerText))

/-- The metadata that an item element writes: that of its attributes, then that of its children. -/
def metadataWrites (s : Source) (p : EvaluatedProject) (e : Element) : List (Text × Text) :=
  attributeWrites p e ++ childWrites s p e

/-- The metadata of an item element is what it writes. -/
theorem itemMetadata_eq {s : Source} {p : EvaluatedProject} {e : Element} {table : Table}
    (h : itemMetadata s p e = .ok table) : table = .ofList (metadataWrites s p e) := by
  rw [metadataWrites, Table.ofList_append, childWrites]
  change table = (attributeMetadata p e).update _
  rw [itemMetadata] at h
  generalize attributeMetadata p e = start at h ⊢
  generalize e.childElements = children at h ⊢
  induction children generalizing start with
  | nil => cases h; rfl
  | cons child children ih =>
    rw [List.foldlM_cons] at h
    obtain ⟨next, hfirst, h⟩ := exists_of_bind_eq_ok h
    obtain ⟨b, hholds, hfirst⟩ := exists_of_bind_eq_ok hfirst
    have htakes := Source.takes_of_holds hholds
    rw [ih next h]
    cases b with
    | true =>
      cases hfirst
      rw [List.filter_cons_of_pos htakes]
      rfl
    | false =>
      cases hfirst
      rw [List.filter_cons_of_neg (by simp [htakes])]

/-! ## Steps that write -/

namespace Step

/-- What the element of a step writes. -/
def writes (s : Source) (step : Step) : List (Text × Text) :=
  metadataWrites s step.before step.visit.element

/-- The value of an attribute of the element of a step, in the project that the step finds. -/
def value? (step : Step) (name : Text) : Option Text :=
  attributeValue? step.before step.visit.element name

/-- Whether a step includes an item: its element is an item element that neither removes nor updates,
and lists the value of the item, but not among those that it excludes. -/
structure Creates (s : Source) (step : Step) (o : EvaluatedObject) : Prop where
  kind : step.visit.kind = .item
  remove : step.value? "Remove".toList = none
  update : step.value? "Update".toList = none
  included : ∃ included, step.value? "Include".toList = some included ∧ o.value ∈ splitList included
  excluded : listed (splitList ((step.value? "Exclude".toList).getD [])) o.value = false
  origin : o.origin = s.itemOrigin step.visit.element

/-- Whether a step updates the items of a type and value: its element is an item element of the type
that does not remove, and lists the value among those that it updates. -/
def updates (step : Step) (itemType value : Text) : Bool :=
  decide (step.visit.kind = .item) && (step.value? "Remove".toList).isNone &&
    match step.value? "Update".toList with
    | some updated =>
      Text.sameName itemType step.visit.element.name && listed (splitList updated) value
    | none => false

end Step

/-- What is written to an item of a type and value: by the step that includes it, and by those behind
that update it. -/
def itemWrites (s : Source) (created : Step) (later : List Step) (itemType value : Text) :
    List (Text × Text) :=
  created.writes s ++ (later.filter fun step => step.updates itemType value).flatMap (Step.writes s)

/-- Whether an item is included by one of some steps, and has the metadata that this one and those
behind it write. -/
def WrittenBy (s : Source) (steps : List Step) (o : EvaluatedObject) : Prop :=
  ∃ earlier created later, steps = earlier ++ created :: later ∧ created.Creates s o ∧
    o.metadata = .ofList (itemWrites s created later o.name o.value)

namespace WrittenBy

variable {s : Source} {steps : List Step} {step : Step} {o : EvaluatedObject}

/-- A step that does not update an item writes nothing to it. -/
theorem append_other (h : WrittenBy s steps o) (hother : step.updates o.name o.value = false) :
    WrittenBy s (steps ++ [step]) o := by
  obtain ⟨earlier, created, later, rfl, hcreates, hmetadata⟩ := h
  refine ⟨earlier, created, later ++ [step], by simp, hcreates, ?_⟩
  simp [hmetadata, itemWrites, hother]

/-- One that updates it makes its writes behind all others. -/
theorem append_update (h : WrittenBy s steps o) (hupdates : step.updates o.name o.value = true) :
    WrittenBy s (steps ++ [step])
      { o with metadata := Table.update o.metadata (.ofList (step.writes s)) } := by
  obtain ⟨earlier, created, later, rfl, hcreates, hmetadata⟩ := h
  refine ⟨earlier, created, later ++ [step], by simp, ⟨hcreates.kind, hcreates.remove,
    hcreates.update, hcreates.included, hcreates.excluded, hcreates.origin⟩, ?_⟩
  dsimp only
  simp [hmetadata, Table.update_ofList, itemWrites, hupdates]

/-- One that includes it makes the first. -/
theorem of_creates (h : step.Creates s o) (hmetadata : o.metadata = .ofList (step.writes s)) :
    WrittenBy s (steps ++ [step]) o := by
  refine ⟨steps, step, [], rfl, h, ?_⟩
  rw [hmetadata, itemWrites]
  simp

end WrittenBy

section

variable {s : Source} {p q : EvaluatedProject} {steps : List Step}

theorem writtenBy_of_evaluateItem {e : Element} {around : List Element}
    (hp : ∀ o ∈ p.items, WrittenBy s steps o) (hholds : s.holds p e = .ok true)
    (h : evaluateItem s p e = .ok q) :
    ∀ o ∈ q.items, WrittenBy s (steps ++ [⟨p, .item, e, around⟩]) o := by
  let step : Step := ⟨p, .item, e, around⟩
  have hsame (hnone : ∀ itemType value, step.updates itemType value = false) :
      ∀ o ∈ p.items, WrittenBy s (steps ++ [step]) o :=
    fun o ho => (hp o ho).append_other (hnone o.name o.value)
  obtain ⟨b, hcondition, h⟩ := exists_of_bind_eq_ok h
  obtain rfl : true = b := Except.ok.inj (hholds.symm.trans hcondition)
  obtain ⟨metadata, hmetadata, h⟩ := exists_of_bind_eq_ok h
  obtain rfl := itemMetadata_eq hmetadata
  split at h
  · next removed hremove =>
    cases h
    have hremove : step.value? "Remove".toList = some removed := hremove
    intro o ho
    refine hsame (fun _ _ => ?_) o (List.mem_filter.1 ho).1
    rw [Step.updates, hremove]
    simp
  next hremove =>
  have hremove : step.value? "Remove".toList = none := hremove
  split at h
  · next updated hupdate =>
    cases h
    have hupdate : step.value? "Update".toList = some updated := hupdate
    have hupdates (itemType value : Text) : step.updates itemType value =
        (Text.sameName itemType e.name && listed (splitList updated) value) := by
      rw [Step.updates, hremove, hupdate]
      simp [step]
    intro o ho
    obtain ⟨old, hold, rfl⟩ := List.mem_map.1 ho
    split
    · next hmatches => exact (hp old hold).append_update ((hupdates _ _).trans hmatches)
    · next hother =>
      exact (hp old hold).append_other ((hupdates _ _).trans (Bool.not_eq_true _ ▸ hother))
  next hupdate =>
  have hupdate : step.value? "Update".toList = none := hupdate
  have hnone (itemType value : Text) : step.updates itemType value = false := by
    rw [Step.updates, hupdate, Bool.and_false]
  split at h
  · next included hinclude =>
    cases h
    have hinclude : step.value? "Include".toList = some included := hinclude
    rw [includeItems_eq]
    intro o ho
    rcases List.mem_append.1 ho with ho | ho
    · exact hsame hnone o ho
    · obtain ⟨value, hvalue, rfl⟩ := List.mem_map.1 ho
      obtain ⟨hvalue, hexcluded⟩ := List.mem_filter.1 hvalue
      refine .of_creates ⟨rfl, hremove, hupdate, ⟨included, hinclude, hvalue⟩, ?_, rfl⟩ rfl
      exact Bool.not_eq_true' _ ▸ hexcluded
  · cases h
    exact hsame hnone

/-- **A step of an evaluation keeps what is known of the metadata of every item.** -/
theorem writtenBy_of_leads {v : Visit} (hstep : v.Leads s p q)
    (hp : ∀ o ∈ p.items, WrittenBy s steps o) :
    ∀ o ∈ q.items, WrittenBy s (steps ++ [⟨p, v⟩]) o := by
  have hother (hkind : v.kind ≠ .item) (hitems : q.items = p.items) :
      ∀ o ∈ q.items, WrittenBy s (steps ++ [⟨p, v⟩]) o := by
    rw [hitems]
    refine fun o ho => (hp o ho).append_other ?_
    rw [Step.updates, decide_eq_false hkind, Bool.false_and, Bool.false_and]
  cases hstep with
  | property hholds => exact hother nofun rfl
  | item hholds heval => exact writtenBy_of_evaluateItem hp hholds heval
  | target => exact hother nofun (by unfold evaluateTarget; split <;> rfl)
  | importedProject hholds => exact hother nofun (by unfold evaluateImport; split <;> rfl)

theorem Steps.writtenBy {more : List Step} (h : Steps s p more q)
    (hp : ∀ o ∈ p.items, WrittenBy s steps o) : ∀ o ∈ q.items, WrittenBy s (steps ++ more) o := by
  induction h generalizing steps with
  | done => simpa using hp
  | step hstep _ ih =>
    have hrest := ih (writtenBy_of_leads hstep hp)
    rwa [List.append_assoc] at hrest

end

/-! ## What is found -/

/-- Whether the metadata of a name that an object has is what some writes left there. -/
structure FoundIn (o : EvaluatedObject) (writes : List (Text × Text)) (name : Text) : Prop where
  /-- Nothing is found exactly if nothing was written. -/
  none_iff : o.metadata? name = none ↔ ∀ w ∈ writes, Text.sameName w.1 name = false
  /-- What is found was written last in the spelling in which the name was written first. -/
  found : o.metadata? name =
    ((writes.find? fun w => Text.sameName w.1 name).bind fun first =>
      Table.lastWrite? writes first.1).map Prod.snd
  /-- If the name is always spelled alike, it was written last of all. -/
  last : (∀ w ∈ writes, ∀ w' ∈ writes, Text.sameName w.1 name = true →
      Text.sameName w'.1 name = true → w.1 = w'.1) →
    o.metadata? name = (lastNamed? writes name).map Prod.snd

/-- If a name is always spelled alike, its last write is that of the spelling. -/
theorem lastWrite?_eq_lastNamed? {writes : List (Text × Text)} {name : Text} {first : Text × Text}
    (hmem : first ∈ writes) (hfirst : Text.sameName first.1 name = true)
    (halike : ∀ w ∈ writes, ∀ w' ∈ writes, Text.sameName w.1 name = true →
      Text.sameName w'.1 name = true → w.1 = w'.1) :
    Table.lastWrite? writes first.1 = lastNamed? writes name := by
  refine List.find?_congr fun w hw => ?_
  rw [List.mem_reverse] at hw
  rw [Bool.eq_iff_iff, decide_eq_true_eq]
  constructor
  · intro hspelled
    rw [hspelled]
    exact hfirst
  · exact fun hsame => halike w hw first hmem hsame hfirst

theorem foundIn_of_metadata {o : EvaluatedObject} {writes : List (Text × Text)}
    (h : o.metadata = .ofList writes) (name : Text) : FoundIn o writes name := by
  have hfound : o.metadata? name =
      ((writes.find? fun w => Text.sameName w.1 name).bind fun first =>
        Table.lastWrite? writes first.1).map Prod.snd := by
    rw [EvaluatedObject.metadata?, h, Table.find?_ofList fun key => Text.sameName key name]
  cases hfirst : writes.find? fun w => Text.sameName w.1 name with
  | none =>
    have hnone : ∀ w ∈ writes, Text.sameName w.1 name = false := by
      simpa using List.find?_eq_none.1 hfirst
    have hlast : lastNamed? writes name = none := by simpa [lastNamed?] using hnone
    rw [hfirst] at hfound
    exact ⟨iff_of_true hfound hnone, by rw [hfirst]; exact hfound, fun _ => by rw [hlast]; exact hfound⟩
  | some first =>
    have hmem := List.mem_of_find?_eq_some hfirst
    have hsame : Text.sameName first.1 name = true :=
      List.find?_some (p := fun w : Text × Text => Text.sameName w.1 name) hfirst
    have hwritten : (Table.lastWrite? writes first.1).isSome = true := by
      rw [Table.lastWrite?, List.find?_isSome]
      exact ⟨first, List.mem_reverse.2 hmem, decide_eq_true rfl⟩
    rw [hfirst] at hfound
    refine ⟨iff_of_false ?_ ?_, by rw [hfirst]; exact hfound, fun halike => ?_⟩
    · rw [hfound, Option.map_eq_none_iff, Option.bind_some]
      exact Option.isSome_iff_ne_none.1 hwritten
    · intro hnone
      rw [hnone first hmem] at hsame
      cases hsame
    · rw [hfound, Option.bind_some, lastWrite?_eq_lastNamed? hmem hsame halike]

/-! ## Project files -/

/-- **The metadata of an item is what was written last in the first spelling.** Every item was
included by a step of the evaluation, and what is found under a name is what that step and the later
ones that update the item wrote. -/
theorem metadata?_of_evaluate {exists? : FilePath → Bool} {path : FilePath} {t : Text}
    {globals : GlobalProperties} {q : EvaluatedProject}
    (h : evaluate exists? path t globals = .ok q) {o : EvaluatedObject} (ho : o ∈ q.items) :
    ∃ earlier created later,
      trace exists? path t globals = earlier ++ created :: later ∧
      created.Creates ⟨path, .ofText t, exists?⟩ o ∧
      ∀ name, FoundIn o
        (itemWrites ⟨path, .ofText t, exists?⟩ created later o.name o.value) name := by
  have hnone : ∀ o ∈ (initialProject path globals).items,
      WrittenBy ⟨path, .ofText t, exists?⟩ [] o := by
    rw [(targets_initialProject path globals).2.1]
    exact fun o ho => absurd ho List.not_mem_nil
  obtain ⟨earlier, created, later, hsteps, hcreates, hmetadata⟩ :=
    (steps_trace h).writtenBy hnone o ho
  exact ⟨earlier, created, later, hsteps, hcreates, foundIn_of_metadata hmetadata⟩

/-- An item whose metadata is written by its element and by an update. -/
def relinked : Text :=
  "<Project><ItemGroup><A Include='a' L='x'/><a Update='A' l='y'><M>z</M></a></ItemGroup></Project>".toList

/-- The update writes in another spelling, so what is found under the name is the value before it. -/
theorem metadata?_of_evaluate_relinked : ∃ q o,
    evaluate (fun _ => false) ⟨"/p".toList⟩ relinked [] = .ok q ∧ q.items = [o] ∧
      o.metadata? ['l'] = some ['x'] ∧ o.metadata? ['m'] = some ['z'] ∧
      ∃ earlier created later,
        trace (fun _ => false) ⟨"/p".toList⟩ relinked [] = earlier ++ created :: later ∧
        created.Creates ⟨⟨"/p".toList⟩, .ofText relinked, fun _ => false⟩ o ∧
        ∀ name, FoundIn o (itemWrites ⟨⟨"/p".toList⟩, .ofText relinked, fun _ => false⟩ created later
          o.name o.value) name := by
  have hfound : (evaluate (fun _ => false) ⟨"/p".toList⟩ relinked []).toOption.map (fun q =>
      q.items.map fun o => (o.metadata? ['l'], o.metadata? ['m'])) =
      some [(some ['x'], some ['z'])] := by decide +kernel
  cases h : evaluate (fun _ => false) ⟨"/p".toList⟩ relinked [] with
  | error e =>
    rw [h] at hfound
    cases hfound
  | ok q =>
    rw [h] at hfound
    obtain ⟨o, hitems, hvalues⟩ := List.map_eq_singleton_iff.1 (Option.some.inj hfound)
    obtain ⟨hl, hm⟩ := Prod.mk.inj hvalues
    have hmem : o ∈ q.items := hitems ▸ List.mem_singleton_self o
    exact ⟨q, o, rfl, hitems, hl, hm, metadata?_of_evaluate h hmem⟩

/-- An item whose element writes metadata of one name in two spellings. -/
def respelled : Text :=
  "<Project><ItemGroup><A Include='a' Link='x'><link>y</link></A></ItemGroup></Project>".toList

/-- The last write of a name, in any spelling, is not always what is found. -/
theorem metadata?_ne_last :
    ¬ ∀ (exists? : FilePath → Bool) (path : FilePath) (t : Text) (globals : GlobalProperties)
      (q : EvaluatedProject), evaluate exists? path t globals = .ok q → ∀ o ∈ q.items,
        ∃ earlier created later,
          trace exists? path t globals = earlier ++ created :: later ∧
          created.Creates ⟨path, .ofText t, exists?⟩ o ∧
          ∀ name, o.metadata? name =
            (lastNamed? (itemWrites ⟨path, .ofText t, exists?⟩ created later o.name o.value)
              name).map Prod.snd := by
  intro hlast
  let s : Source := ⟨⟨"/p".toList⟩, .ofText respelled, fun _ => false⟩
  have hfound : (evaluate (fun _ => false) ⟨"/p".toList⟩ respelled []).toOption.map (fun q =>
      q.items.map fun o => o.metadata? ['l', 'i', 'n', 'k']) = some [some ['x']] := by
    decide +kernel
  have hwrites : (trace (fun _ => false) ⟨"/p".toList⟩ respelled []).map (Step.writes s) =
      [[("Link".toList, ['x']), ("link".toList, ['y'])]] := by decide +kernel
  cases h : evaluate (fun _ => false) ⟨"/p".toList⟩ respelled [] with
  | error e =>
    rw [h] at hfound
    cases hfound
  | ok q =>
    rw [h] at hfound
    obtain ⟨o, hitems, hvalue⟩ := List.map_eq_singleton_iff.1 (Option.some.inj hfound)
    obtain ⟨earlier, created, later, htrace, -, hname⟩ :=
      hlast _ _ _ _ q h o (hitems ▸ List.mem_singleton_self o)
    -- The trace has one step, which makes both writes.
    obtain ⟨step, hstep, hboth⟩ := List.map_eq_singleton_iff.1 hwrites
    rw [hstep] at htrace
    obtain ⟨rfl, rfl, rfl⟩ : earlier = [] ∧ created = step ∧ later = [] := by
      cases earlier with
      | nil => simpa [eq_comm] using htrace
      | cons => simp at htrace
    have hboth' : itemWrites s created [] o.name o.value =
        [("Link".toList, ['x']), ("link".toList, ['y'])] := by
      rw [itemWrites, hboth]
      rfl
    have hlink := hname ['l', 'i', 'n', 'k']
    rw [hvalue, hboth'] at hlink
    revert hlink
    decide +kernel

end ProjectFile.Evaluation
