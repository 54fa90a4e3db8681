import ProjectFile.Features.Definition
import ProjectFile.Features.Hover
import ProjectFile.Proofs.Features.Outline

/-!
What the editor says about a reference to a property.

Hovering shows the value that the project has for the name; the definition is looked up among the
entries of the locator. The two agree (`agree_on_reference`): there is a definition exactly if the
property was declared in the file, it is the element of the one winning entry, and the value there
is the one that is shown.
-/

namespace ProjectFile.Features

open Evaluation Workspace Editor

/-! ## Locations of expressions -/

/-- Expressions are read in attribute values and in the content of elements. -/
theorem kind_of_expression? {l : Location} {e : ExpressionAt} (h : l.expression? = some e) :
    l.kind = .attributeValue ∨ l.kind = .elementContent := by
  obtain ⟨source, hsource, -⟩ := Option.bind_eq_some_iff.1 h
  rw [Location.embedded?] at hsource
  split at hsource
  · next hkind _ => exact .inl hkind
  · next hkind _ => exact .inr hkind
  · cases hsource

/-- What is hovered over is the reference. -/
theorem hoverOn_eq_referenceHover {l : Location} {e : ExpressionAt} (h : l.expression? = some e)
    (s : Snapshot) (help : SchemaHelp) : hoverOn s help l = referenceHover s l := by
  rw [hoverOn]
  rcases kind_of_expression? h with hkind | hkind <;> rw [hkind]

/-- A property that is referenced is named by a reference at the location. -/
theorem exists_of_referencedProperty? {l : Location} {name : Text}
    (h : referencedProperty? l = some name) : ∃ e span symbol, l.expression? = some e ∧
      e.reference? = some (.property span (some symbol) false) ∧ symbol.name = name := by
  obtain ⟨e, he, h⟩ := Option.bind_eq_some_iff.1 h
  split at h
  · next span found hreference =>
    obtain ⟨symbol, rfl, hname⟩ := Option.map_eq_some_iff.1 h
    exact ⟨e, span, symbol, he, hreference, hname⟩
  · cases h

/-! ## Documents with a locator -/

/-- A document that has a locator has been evaluated. -/
theorem exists_of_locator {exists? : FilePath → Bool} {path : FilePath} {t : Text}
    {settings : Settings} {file : FileId} {version : Version} {l : ObjectLocator}
    (h : (Snapshot.evaluated ⟨evaluate exists?, settings⟩ file path t version).locator = .ok l) :
    ∃ p, evaluate exists? path t settings.globalProperties = .ok p := by
  rw [Snapshot.evaluated] at h
  dsimp only at h
  split at h
  · split at h
    · next p hp => exact ⟨p, hp⟩
    · cases h
  · cases h

/-! ## Definitions of properties -/

section

variable {s : Snapshot} {l : ObjectLocator} {p : EvaluatedProject} (hproject : s.project = some p)
  (hlocator : s.locator = .ok l) (hl : l.Complete p s.path s.text) {name : Text}

include hproject hlocator hl

/-- What is declared nowhere has no definition. -/
theorem resolve_of_undeclared
    (hnone : ∀ h, p.property? name = some h → h.object.provenance = none) :
    resolve s .property name = none := by
  rw [resolve, hproject, hlocator]
  cases hget : p.property? name with
  | none => simp [hget]
  | some h =>
    have hwinner := hnone h hget
    have hhere := (hl.properties.declared name h hget).filter_isWinning_of_none hwinner
    simp [hget, hhere, reportedTarget, hwinner]

/-- The definition of a property is the element of its winning entry. -/
theorem resolve_of_declared {h : History} (hget : p.property? name = some h) {winner : Provenance}
    (hwinner : h.object.provenance = some winner) : ∃ o e,
      (l.declarations .property name).filter LocatedObject.isWinning = [o] ∧
      o.declaration.Marks s.path s.text e ∧ DeclaresProperty s.text name e ∧ o.span = e.span ∧
      o.valueAtDeclaration = h.object.value ∧
      resolve s .property name = some ⟨.property, name, [⟨s.path, s.index.region o.span⟩]⟩ := by
  obtain ⟨e, hmarks, hdeclares, hhere⟩ := (hl.properties.declared name h hget).exists_winning hwinner
  refine ⟨_, e, hhere, hmarks, hdeclares, rfl, rfl, ?_⟩
  rw [resolve, hproject, hlocator]
  simp [hget, hhere]

end

/-! ## References -/

/-- What hovering and the definition say about a reference to a property: the value of the
property, and the element of its one winning entry, if it has one. -/
structure Agree (s : Snapshot) (l : ObjectLocator) (p : EvaluatedProject) (name : Text)
    (region : Region) (hover : Option Hover) (definition : Option Definition) : Prop where
  hover : hover = some ⟨valueLine name ((p.propertyValue? name).getD []), region⟩
  undefined : definition = none ↔ ∀ h, p.property? name = some h → h.object.provenance = none
  defined : ∀ found, definition = some found → ∃ o e,
    found = ⟨.property, name, [⟨s.path, s.index.region o.span⟩]⟩ ∧
    (l.declarations .property name).filter LocatedObject.isWinning = [o] ∧
    o.declaration.Marks s.path s.text e ∧ DeclaresProperty s.text name e ∧ o.span = e.span ∧
    p.propertyValue? name = some o.valueAtDeclaration

/-- A name was declared in the file, or it is given from outside or nothing at all. -/
theorem undeclared_or_declared (p : EvaluatedProject) (name : Text) :
    (∀ h, p.property? name = some h → h.object.provenance = none) ∨
      ∃ h winner, p.property? name = some h ∧ h.object.provenance = some winner := by
  cases hget : p.property? name with
  | none => exact .inl nofun
  | some h =>
    cases hwinner : h.object.provenance with
    | none => exact .inl fun k hk => Option.some.inj hk ▸ hwinner
    | some winner => exact .inr ⟨h, winner, rfl, hwinner⟩

/-- **Hovering over a reference and going to its definition agree.** -/
theorem agree_on_reference {exists? : FilePath → Bool} {settings : Settings} {file : FileId}
    {path : FilePath} {t : Text} {version : Version} {s : Snapshot} {l : ObjectLocator}
    (hs : s = Snapshot.evaluated ⟨evaluate exists?, settings⟩ file path t version)
    (hlocator : s.locator = .ok l) {position : Position} {location : Location}
    (hlocation : s.inspect position = .ok location) {e : ExpressionAt}
    (he : location.expression? = some e) {span : Span} {symbol : Expression.Symbol}
    (hreference : e.reference? = some (.property span (some symbol) false)) (help : SchemaHelp) :
    ∃ p, evaluate exists? path t settings.globalProperties = .ok p ∧
      Agree s l p symbol.name (s.index.region (span.shift e.base)) (hoverAt s help position)
        (definitionAt s position) := by
  subst hs
  obtain ⟨p, hp⟩ := exists_of_locator hlocator
  have hsnapshot := snapshot_of_evaluate hp file version
  generalize Snapshot.evaluated ⟨evaluate exists?, settings⟩ file path t version = s at *
  have hproject : s.project = some p := by rw [hsnapshot]
  have hl : l.Complete p s.path s.text := by
    rw [hsnapshot] at hlocator ⊢
    cases hlocator
    exact complete_build hp
  have hdefinition : definitionAt s position = resolve s .property symbol.name := by
    simp [definitionAt, hlocation, referencedProperty?, he, hreference]
  have hhover : hoverAt s help position =
      some ⟨valueLine symbol.name ((p.propertyValue? symbol.name).getD []),
        s.index.region (span.shift e.base)⟩ := by
    rw [hoverAt, hlocation]
    dsimp only
    rw [hoverOn_eq_referenceHover he, referenceHover, he]
    simp [hreference, hproject, Hover.ofSections, joinSections]
  refine ⟨p, hp, ?_⟩
  rw [hdefinition]
  rcases undeclared_or_declared p symbol.name with hnone | ⟨h, winner, hget, hwinner⟩
  · have hresolve := resolve_of_undeclared hproject hlocator hl hnone
    exact ⟨hhover, iff_of_true hresolve hnone, fun found hfound => by
      rw [hresolve] at hfound; cases hfound⟩
  · obtain ⟨o, e, hhere, hmarks, hdeclares, hspan, hvalue, hresolve⟩ :=
      resolve_of_declared hproject hlocator hl hget hwinner
    refine ⟨hhover, iff_of_false ?_ ?_, fun found hfound => ?_⟩
    · rw [hresolve]
      exact Option.some_ne_none _
    · intro hnone
      rw [hnone h hget] at hwinner
      cases hwinner
    · rw [hresolve, Option.some.injEq] at hfound
      refine ⟨o, e, hfound.symm, hhere, hmarks, hdeclares, hspan, ?_⟩
      rw [EvaluatedProject.propertyValue?, hget, hvalue]
      rfl

/-- A property and a reference to it. -/
def referring : Text :=
  "<Project><PropertyGroup><a>1</a><b>$(A)</b></PropertyGroup></Project>".toList

/-- The document of this text when it is opened. -/
def referringSnapshot : Snapshot :=
  .evaluated ⟨evaluate fun _ => false, .default⟩ ⟨0⟩ ⟨"/p".toList⟩ referring 1

/-- The reference shows the value of the property and leads to it. -/
theorem agree_on_reference_referring : ∃ p l region,
    p.propertyValue? ['A'] = some ['1'] ∧ referringSnapshot.locator = .ok l ∧
      Agree referringSnapshot l p ['A'] region
        (hoverAt referringSnapshot .builtin ⟨0, 37, .zeroBased⟩)
        (definitionAt referringSnapshot ⟨0, 37, .zeroBased⟩) := by
  have hvalue : (evaluate (fun _ => false) ⟨"/p".toList⟩ referring
      Settings.default.globalProperties).toOption.bind (fun p => p.propertyValue? ['A']) =
      some ['1'] := by decide +kernel
  have hoffset : (LineIndex.ofText referring).offset ⟨0, 37, .zeroBased⟩ = .ok 37 := by
    decide +kernel
  have hname : referencedProperty? (inspect (.parse referring) 37) = some ['A'] := by
    decide +kernel
  obtain ⟨p, hp, hvalue⟩ := Option.bind_eq_some_iff.1 hvalue
  have hevaluate : evaluate (fun _ => false) ⟨"/p".toList⟩ referring
      Settings.default.globalProperties = .ok p := by
    cases h : evaluate (fun _ => false) ⟨"/p".toList⟩ referring
        Settings.default.globalProperties with
    | error => rw [h] at hp; cases hp
    | ok q => rw [h] at hp; rw [Option.some.inj hp]
  have hsnapshot := snapshot_of_evaluate hevaluate ⟨0⟩ 1
  rw [← referringSnapshot] at hsnapshot
  have hlocator : referringSnapshot.locator =
      .ok (.build p (.parse referring) (.ofText referring)) := by rw [hsnapshot]
  have hlocation : referringSnapshot.inspect ⟨0, 37, .zeroBased⟩ =
      .ok (inspect (.parse referring) 37) := by
    have hindex : referringSnapshot.index = .ofText referring := by rw [hsnapshot]
    have hdocument : referringSnapshot.document = .parse referring := by rw [hsnapshot]
    rw [Snapshot.inspect, hindex, hdocument, hoffset]
    rfl
  obtain ⟨e, span, symbol, he, hreference, hsymbol⟩ := exists_of_referencedProperty? hname
  obtain ⟨q, hq, hagree⟩ :=
    agree_on_reference referringSnapshot.eq_1 hlocator hlocation he hreference .builtin
  obtain rfl : p = q := Except.ok.inj (hevaluate.symm.trans hq)
  rw [hsymbol] at hagree
  exact ⟨p, _, _, hvalue, hlocator, hagree⟩

end ProjectFile.Features
