import ProjectFile.Proofs.Evaluation.Register
import ProjectFile.Proofs.Evaluation.Walk

/-!
What visits change.

A visit adds at most one declaration: to the trail of one property or target
(`Visit.Leads.trail_properties`, `Visit.Leads.trail_targets`), to the imports
(`Visit.Leads.map_provenance_imports`) or, with as many items as it includes, to what it keeps of
the items (`Visit.Leads.exists_items`). Everything else stays as it is, so what a run adds is read
off its visits (`Run.observe`).
-/

namespace ProjectFile.Evaluation

open Markup

variable {s : Source} {p q : EvaluatedProject} {e : Element} {v : Visit} {visits : List Visit}

/-! ## Elements -/

theorem trail_declareProperty (p : EvaluatedProject) {o : EvaluatedObject} {at' : Provenance}
    (ho : o.provenance = some at') (name : Text) :
    (declareProperty p o at').properties.trail name =
      p.properties.trail name ++ if Text.sameName o.name name then [at'] else [] := by
  unfold declareProperty EvaluatedProject.property?
  dsimp only [EvaluatedProject.insertProperty]
  split
  · next hnone =>
    apply Register.trail_insert (h := .ofObject o)
    rw [History.provenances_ofObject ho, Register.trail]
    rw [show (History.ofObject o).name = o.name from rfl, hnone]
    rfl
  · next h hsome =>
    have hsame := Register.sameName_of_get? hsome
    split
    · next hgiven =>
      have hwinner := Option.isNone_iff_eq_none.1 hgiven
      have hself : p.properties.get? (h.ignore at').name = some h := by
        rw [← hsome]
        exact Register.get?_congr hsame _
      rw [Register.trail_insert (o := at') (by rw [History.provenances_ignore hwinner, Register.trail_eq hself])]
      rw [Text.sameName, Text.sameName, show (h.ignore at').name = h.name from rfl,
        Text.sameName_iff.1 hsame]
    · refine Register.trail_insert (h := h.redefine o) ?_ name
      rw [History.provenances_redefine h ho, ← Register.trail_eq hsome]
      rfl

/-- The first declaration of a name defines it. -/
theorem property?_declareProperty_of_none (p : EvaluatedProject) {o : EvaluatedObject}
    (hnone : p.property? o.name = none) (at' : Provenance) :
    (declareProperty p o at').property? o.name = some (.ofObject o) := by
  rw [declareProperty, hnone]
  exact (Register.get?_insert (.ofObject o) p.properties o.name).trans (if_pos (Text.sameName_iff.2 rfl))

/-- A declaration leaves properties of other names alone. -/
theorem property?_declareProperty_of_ne (p : EvaluatedProject) {o : EvaluatedObject} {name : Text}
    (hne : ¬ Text.sameName o.name name = true) (at' : Provenance) :
    (declareProperty p o at').property? name = p.property? name := by
  have hinsert (h : History) (hname : Text.sameName h.name o.name = true) :
      (p.insertProperty h).property? name = p.property? name := by
    refine (Register.get?_insert h p.properties name).trans (if_neg ?_)
    rw [Text.sameName, Text.sameName_iff.1 hname]
    exact hne
  rw [declareProperty]
  apply hinsert
  split
  · exact Text.sameName_iff.2 rfl
  · next h hsome =>
    split
    · exact Register.sameName_of_get? (h := h) hsome
    · exact Text.sameName_iff.2 rfl

theorem trail_defineTarget (p : EvaluatedProject) {o : EvaluatedObject} {at' : Provenance}
    (ho : o.provenance = some at') (name : Text) :
    (p.defineTarget o).targets.trail name =
      p.targets.trail name ++ if Text.sameName o.name name then [at'] else [] := by
  unfold EvaluatedProject.defineTarget EvaluatedProject.target?
  dsimp only
  split
  · next h hsome =>
    refine Register.trail_insert (h := h.redefine o) ?_ name
    rw [History.provenances_redefine h ho, ← Register.trail_eq hsome]
    rfl
  · next hnone =>
    refine Register.trail_insert (h := .ofObject o) ?_ name
    rw [History.provenances_ofObject ho, Register.trail]
    rw [show (History.ofObject o).name = o.name from rfl, hnone]
    rfl

theorem includeItems_eq (s : Source) (p : EvaluatedProject) (e : Element) (metadata : Table)
    (included excluded : List Text) :
    includeItems s p e metadata included excluded =
      { p with
        items := p.items ++ (included.filter fun value => !listed excluded value).map fun value =>
          ⟨.item, e.name, value, some (s.provenance e), metadata⟩ } := by
  rw [includeItems]
  generalize included.filter (fun value => !listed excluded value) = values
  induction values generalizing p with
  | nil => simp
  | cons value values ih =>
    rw [List.foldl_cons, ih]
    simp [EvaluatedProject.addItem]

/-- What an object is whatever metadata it is given: its kind, its name and where it was declared. -/
def EvaluatedObject.origin (o : EvaluatedObject) : ObjectKind × Text × Option Provenance :=
  (o.kind, o.name, o.provenance)

/-- The origin of the items that an element includes. -/
def Source.itemOrigin (s : Source) (e : Element) : ObjectKind × Text × Option Provenance :=
  (.item, e.name, some (s.provenance e))

theorem map_origin_updateItems (p : EvaluatedProject) (itemType : Text) (values : List Text)
    (metadata : Table) :
    (updateItems p itemType values metadata).items.map EvaluatedObject.origin =
      p.items.map EvaluatedObject.origin := by
  rw [updateItems, List.map_map]
  apply List.map_congr_left
  intro o _
  dsimp only [Function.comp_apply]
  split <;> rfl

/-- **What an item element does to the project:** it keeps some of the items and adds others behind
them. -/
theorem evaluateItem_eq (h : evaluateItem s p e = .ok q) :
    q = { p with items := q.items } ∧ ∃ kept count,
      q.items.map EvaluatedObject.origin = kept ++ List.replicate count (s.itemOrigin e) ∧
      kept.Sublist (p.items.map EvaluatedObject.origin) := by
  have hsame : p = { p with items := p.items } ∧ ∃ kept count,
      p.items.map EvaluatedObject.origin = kept ++ List.replicate count (s.itemOrigin e) ∧
      kept.Sublist (p.items.map EvaluatedObject.origin) :=
    ⟨rfl, _, 0, (List.append_nil _).symm, List.Sublist.refl _⟩
  rcases done_or_unchanged h with ⟨-, h⟩ | rfl
  · obtain ⟨metadata, -, h⟩ := exists_of_bind_eq_ok h
    split at h
    · next removed _ =>
      cases h
      exact ⟨rfl, _, 0, (List.append_nil _).symm, List.filter_sublist.map _⟩
    split at h
    · next updated _ =>
      cases h
      refine ⟨rfl, _, 0, (List.append_nil _).symm, ?_⟩
      simp only [map_origin_updateItems, List.Sublist.refl]
    split at h
    · next included _ =>
      cases h
      rw [includeItems_eq]
      let values := (splitList included).filter fun value =>
        !listed (splitList ((attributeValue? p e "Exclude".toList).getD [])) value
      refine ⟨rfl, p.items.map EvaluatedObject.origin, values.length, ?_, List.Sublist.refl _⟩
      have hnew : (EvaluatedObject.origin ∘ fun value : Text =>
          ⟨.item, e.name, value, some (s.provenance e), metadata⟩) = fun _ => s.itemOrigin e := rfl
      rw [List.map_append, List.map_map, hnew, List.map_const']
    · cases h
      exact hsame
  · exact hsame

/-! ## Visits -/

/-- Whether a visit declares a property of a name. -/
def Visit.declaresProperty (name : Text) (v : Visit) : Bool :=
  decide (v.kind = .property) && Text.sameName v.element.name name

/-- Whether a visit declares a target of a name. -/
def Visit.declaresTarget (name : Text) (v : Visit) : Bool :=
  decide (v.kind = .target) &&
    (v.element.attributeValue? "Name".toList).any fun written => Text.sameName written name

/-- Whether a visit declares an import. -/
def Visit.declaresImport (v : Visit) : Bool :=
  decide (v.kind = .importedProject) && (v.element.attributeValue? "Project".toList).isSome

namespace Visit.Leads

theorem trail_properties (h : v.Leads s p q) (name : Text) :
    q.properties.trail name = p.properties.trail name ++
      if v.declaresProperty name then [s.provenance v.element] else [] := by
  cases h with
  | property hholds => exact trail_declareProperty p rfl name
  | item hholds heval =>
    rw [(evaluateItem_eq heval).1]
    exact (List.append_nil _).symm
  | target =>
    unfold evaluateTarget
    split <;> exact (List.append_nil _).symm
  | importedProject hholds =>
    unfold evaluateImport
    split <;> exact (List.append_nil _).symm

theorem trail_targets (h : v.Leads s p q) (name : Text) :
    q.targets.trail name = p.targets.trail name ++
      if v.declaresTarget name then [s.provenance v.element] else [] := by
  cases h with
  | property hholds => exact (List.append_nil _).symm
  | item hholds heval =>
    rw [(evaluateItem_eq heval).1]
    exact (List.append_nil _).symm
  | @target e around =>
    unfold evaluateTarget
    split
    · next hnone =>
      rw [Visit.declaresTarget, hnone]
      exact (List.append_nil _).symm
    · next written hsome =>
      rw [Visit.declaresTarget, hsome]
      exact trail_defineTarget p rfl name
  | importedProject hholds =>
    unfold evaluateImport
    split <;> exact (List.append_nil _).symm

theorem map_provenance_imports (h : v.Leads s p q) :
    q.imports.map EvaluatedObject.provenance = p.imports.map EvaluatedObject.provenance ++
      if v.declaresImport then [some (s.provenance v.element)] else [] := by
  cases h with
  | property hholds => exact (List.append_nil _).symm
  | item hholds heval =>
    rw [(evaluateItem_eq heval).1]
    exact (List.append_nil _).symm
  | target =>
    unfold evaluateTarget
    split <;> exact (List.append_nil _).symm
  | @importedProject e around hholds =>
    unfold evaluateImport attributeValue?
    rw [Visit.declaresImport]
    cases e.attributeValue? "Project".toList with
    | none => exact (List.append_nil _).symm
    | some project => exact List.map_append

/-- A visit keeps some of the items and adds others of its own behind them. -/
theorem exists_items (h : v.Leads s p q) : ∃ kept count,
    q.items.map EvaluatedObject.origin = kept ++ List.replicate count (s.itemOrigin v.element) ∧
    kept.Sublist (p.items.map EvaluatedObject.origin) ∧ (v.kind = .item ∨ count = 0) := by
  cases h with
  | property hholds => exact ⟨_, 0, (List.append_nil _).symm, List.Sublist.refl _, .inr rfl⟩
  | item hholds heval =>
    obtain ⟨-, kept, count, hitems, hkept⟩ := evaluateItem_eq heval
    exact ⟨kept, count, hitems, hkept, .inl rfl⟩
  | target =>
    unfold evaluateTarget
    split <;> exact ⟨_, 0, (List.append_nil _).symm, List.Sublist.refl _, .inr rfl⟩
  | importedProject hholds =>
    unfold evaluateImport
    split <;> exact ⟨_, 0, (List.append_nil _).symm, List.Sublist.refl _, .inr rfl⟩

end Visit.Leads

/-! ## Runs -/

/-- Where every visit of some adds an entry, a run adds the entries of those among its visits. -/
theorem Run.observe {α : Type} {observed : EvaluatedProject → List α} {adds : Visit → Bool}
    {entry : Visit → α}
    (hstep : ∀ {p : EvaluatedProject} {v : Visit} {q : EvaluatedProject}, v.Leads s p q →
      observed q = observed p ++ if adds v then [entry v] else [])
    (h : Run s p visits q) : observed q = observed p ++ (visits.filter adds).map entry := by
  induction h with
  | done => exact (List.append_nil _).symm
  | @visit p q r v visits hvisit hrest ih =>
    rw [ih, hstep hvisit, List.append_assoc, List.filter_cons]
    split <;> simp

end ProjectFile.Evaluation
