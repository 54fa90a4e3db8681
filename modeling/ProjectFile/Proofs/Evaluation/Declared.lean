import ProjectFile.Proofs.Evaluation.Histories
import ProjectFile.Proofs.Evaluation.Located
import ProjectFile.Proofs.Markup.Openers

/-!
The elements of what a project reports.

An evaluation is a run of visits (`exists_walk`), and everything that the project reports was
declared by one of them. The element of a visit is found again from the position that was reported
(`Walk.elementOf?_provenance`), so the sites of what is reported are the elements that were visited
(`Walk.sites_of_map_provenance`).

Visits have different elements, one kind and at most one name each. So the sites of one register
are apart (`Walk.sitesOf_register`), and so are those of different kinds (`SitesOf.append`):
`Walk.apart_sites` says so of all that a project reports.
-/

namespace ProjectFile.Evaluation

open Markup
open ReportedDeclaration (ofRegister ofObjects)

/-! ## The file of a project -/

theorem path_initialProject (path : FilePath) (globals : GlobalProperties) :
    (initialProject path globals).path = path := by
  rw [initialProject]
  generalize reservedProperties path ++ globals = entries
  have hempty : (EvaluatedProject.empty path).path = path := rfl
  generalize EvaluatedProject.empty path = p at hempty
  induction entries generalizing p with
  | nil => exact hempty
  | cons entry entries ih => exact ih _ hempty

/-- A visit leaves a project with its file. -/
theorem Visit.Leads.path_eq {s : Source} {p q : EvaluatedProject} {v : Visit}
    (h : v.Leads s p q) : q.path = p.path := by
  cases h with
  | property => rfl
  | item hholds heval => rw [(evaluateItem_eq heval).1]
  | target =>
    unfold evaluateTarget
    split <;> rfl
  | importedProject hholds =>
    unfold evaluateImport
    split <;> rfl

/-! ## Declarations of a history -/

namespace History

/-- The declarations of a name with the value right after each, oldest first: those that were
overridden and the winner, if it was declared. -/
def declarations (h : History) : List Declaration :=
  h.predecessors ++ (h.object.provenance.map fun p => ⟨p, h.object.value⟩).toList

theorem map_provenance_declarations (h : History) :
    h.declarations.map Declaration.provenance = h.provenances := by
  rw [declarations, provenances, List.map_append]
  cases h.object.provenance <;> rfl

theorem ofHistory_eq (kind : ObjectKind) (h : History) : ReportedDeclaration.ofHistory kind h =
    h.declarations.map fun d => ⟨kind, h.object, d.provenance, d.value⟩ := by
  rw [ReportedDeclaration.ofHistory, ReportedDeclaration.ofObject, declarations, List.map_append]
  cases h.object.provenance <;> rfl

theorem map_provenance_ofHistory (kind : ObjectKind) (h : History) :
    (ReportedDeclaration.ofHistory kind h).map ReportedDeclaration.provenance = h.provenances := by
  rw [ofHistory_eq, List.map_map, ← map_provenance_declarations]
  rfl

theorem of_mem_ofHistory {kind : ObjectKind} {h : History} {d : ReportedDeclaration}
    (hd : d ∈ ReportedDeclaration.ofHistory kind h) : d.kind = kind ∧ d.object = h.object := by
  rw [ofHistory_eq] at hd
  obtain ⟨_, -, rfl⟩ := List.mem_map.1 hd
  exact ⟨rfl, rfl⟩

end History

/-! ## Visits and what they declare -/

/-- Whether a test of visits by name is one of visits of a kind, each of which has one name. -/
structure Visit.Names (kind : ObjectKind) (declares : Text → Visit → Bool) : Prop where
  kind : ∀ {name : Text} {v : Visit}, declares name v = true → v.kind = kind
  name : ∀ {m n : Text} {v : Visit}, declares m v = true → declares n v = true →
    Text.sameName m n = true

theorem Visit.names_declaresProperty : Visit.Names .property Visit.declaresProperty where
  kind h := of_decide_eq_true (Bool.and_eq_true_iff.1 h).1
  name hm hn := by
    have hm := Text.sameName_iff.1 (Bool.and_eq_true_iff.1 hm).2
    have hn := Text.sameName_iff.1 (Bool.and_eq_true_iff.1 hn).2
    exact Text.sameName_iff.2 (hm.symm.trans hn)

theorem Visit.names_declaresTarget : Visit.Names .target Visit.declaresTarget where
  kind h := of_decide_eq_true (Bool.and_eq_true_iff.1 h).1
  name hm hn := by
    obtain ⟨written, hwritten, hm⟩ := (Option.any_eq_true _ _).1 (Bool.and_eq_true_iff.1 hm).2
    obtain ⟨written', hwritten', hn⟩ := (Option.any_eq_true _ _).1 (Bool.and_eq_true_iff.1 hn).2
    obtain rfl : written = written' := Option.some.inj (hwritten.symm.trans hwritten')
    exact Text.sameName_iff.2 ((Text.sameName_iff.1 hm).symm.trans (Text.sameName_iff.1 hn))

/-- Whether sites are of visits of one kind. -/
structure SitesOf (visits : List Visit) (kind : ObjectKind) (sites : List Site) : Prop where
  of_kind : ∀ a ∈ sites, a.kind = kind
  visit : ∀ a ∈ sites, ∃ v ∈ visits, v.kind = kind ∧ a.element = v.element
  apart : sites.Pairwise Site.Apart

theorem SitesOf.visit_ne {visits : List Visit} {kind other : ObjectKind} {sites : List Site}
    (h : SitesOf visits kind sites) (hne : kind ≠ other) :
    ∀ a ∈ sites, ∃ v ∈ visits, v.kind ≠ other ∧ a.element = v.element := by
  intro a ha
  obtain ⟨v, hv, hkind, helement⟩ := h.visit a ha
  exact ⟨v, hv, hkind ▸ hne, helement⟩

/-- The sites of declarations in a text. -/
def sitesIn (t : Text) (ds : List ReportedDeclaration) : List Site :=
  ds.filterMap (site? (Document.parse t).leaves (Document.parse t).width (.ofText t))

theorem sitesIn_append (t : Text) (ds es : List ReportedDeclaration) :
    sitesIn t (ds ++ es) = sitesIn t ds ++ sitesIn t es := List.filterMap_append

theorem sitesIn_ofRegister (t : Text) (kind : ObjectKind) (r : Register) :
    sitesIn t (ofRegister kind r) =
      r.flatMap fun g => sitesIn t (ReportedDeclaration.ofHistory kind g) := List.filterMap_flatMap

theorem declaration_mem_of_mem_sitesIn {t : Text} {ds : List ReportedDeclaration} {a : Site}
    (ha : a ∈ sitesIn t ds) : a.declaration ∈ ds := by
  obtain ⟨d, hd, hsite⟩ := List.mem_filterMap.1 ha
  obtain ⟨e, -, rfl⟩ := Option.map_eq_some_iff.1 hsite
  exact hd

/-- The element of a site is the one where its declaration stands. -/
theorem elementOf?_of_mem_sitesIn {t : Text} {ds : List ReportedDeclaration} {a : Site}
    (ha : a ∈ sitesIn t ds) :
    elementOf? (Document.parse t).leaves (Document.parse t).width (.ofText t)
      a.declaration.provenance = some a.element := by
  obtain ⟨d, -, hsite⟩ := List.mem_filterMap.1 ha
  obtain ⟨e, he, rfl⟩ := Option.map_eq_some_iff.1 hsite
  exact he

theorem kind_sitesIn_ofObject {t : Text} {kind : ObjectKind} {os : List EvaluatedObject} {a : Site}
    (ha : a ∈ sitesIn t (ofObjects kind os)) : a.kind = kind := by
  obtain ⟨o, -, ho⟩ := List.mem_flatMap.1 (declaration_mem_of_mem_sitesIn ha)
  obtain ⟨_, -, hd⟩ := Option.map_eq_some_iff.1 (Option.mem_toList.1 ho)
  exact congrArg ReportedDeclaration.kind hd.symm

namespace Walk

variable {exists? : FilePath → Bool} {path : FilePath} {t : Text} {p q : EvaluatedProject}
  {visits : List Visit}

variable (h : Walk ⟨path, .ofText t, exists?⟩ (Document.parse t).views 0 t.width p visits q)

include h

/-- **The element of a visit is found where it was reported.** -/
theorem elementOf?_provenance {v : Visit} (hv : v ∈ visits) :
    elementOf? (Document.parse t).leaves (Document.parse t).width (.ofText t)
      (Source.provenance ⟨path, .ofText t, exists?⟩ v.element) = some v.element := by
  obtain ⟨view, hview, hitem, -⟩ := h.seen v hv
  have hwidth : v.element.start ≤ (Document.parse t).width :=
    Document.start_le_width hview hitem
  rw [elementOf?, (h.marks hv).start]
  dsimp only
  rw [Nat.min_eq_left hwidth, elementAt?, Document.find?_leaves_start hview hitem]
  simp [Element.opener, View.element?, hitem, Item.element?]

/-- Visits are told by the offsets of their elements. -/
theorem eq_of_start {v w : Visit} (hv : v ∈ visits) (hw : w ∈ visits)
    (hstart : v.element.start = w.element.start) : v = w := by
  by_contra hne
  have hsymm : Std.Symm fun v w : Visit => v.element.start ≠ w.element.start := ⟨fun _ _ => Ne.symm⟩
  have hapart : visits.Pairwise fun v w => v.element.start ≠ w.element.start :=
    h.ascending.imp Nat.ne_of_lt
  exact hapart.forall hv hw hne hstart

/-- Declarations that were made by visits have the elements of these as their sites. -/
theorem sites_of_map_provenance {ds : List ReportedDeclaration} {es : List Element}
    (hes : ∀ e ∈ es, ∃ v ∈ visits, e = v.element)
    (hds : ds.map ReportedDeclaration.provenance =
      es.map (Source.provenance ⟨path, .ofText t, exists?⟩)) :
    (sitesIn t ds).map Site.element = es ∧ (sitesIn t ds).map Site.declaration = ds := by
  induction ds generalizing es with
  | nil => exact ⟨(List.map_eq_nil_iff.1 hds.symm).symm, rfl⟩
  | cons d ds ih =>
    cases es with
    | nil => cases hds
    | cons e es =>
      rw [List.map_cons, List.map_cons, List.cons.injEq] at hds
      obtain ⟨hd, hds⟩ := hds
      rw [List.forall_mem_cons] at hes
      obtain ⟨⟨v, hv, rfl⟩, hes⟩ := hes
      obtain ⟨helements, hdeclarations⟩ := ih hes hds
      have hsite : site? (Document.parse t).leaves (Document.parse t).width (.ofText t) d =
          some ⟨d, v.element⟩ := by
        rw [site?, hd, h.elementOf?_provenance hv]
        rfl
      rw [sitesIn, List.filterMap_cons_some hsite, List.map_cons, List.map_cons]
      exact ⟨congrArg _ helements, congrArg _ hdeclarations⟩

/-! ## Sites of a register -/

omit h in
theorem map_provenance_ofHistory (kind : ObjectKind) {g : History} {declares : Visit → Bool}
    (hg : g.provenances = (visits.filter declares).map fun v =>
      Source.provenance ⟨path, .ofText t, exists?⟩ v.element) :
    (ReportedDeclaration.ofHistory kind g).map ReportedDeclaration.provenance =
      ((visits.filter declares).map Visit.element).map
        (Source.provenance ⟨path, .ofText t, exists?⟩) := by
  rw [History.map_provenance_ofHistory, hg, List.map_map]
  rfl

/-- The sites of a history are the visits that declare its name. -/
theorem sitesIn_ofHistory (kind : ObjectKind) {g : History} {declares : Visit → Bool}
    (hg : g.provenances = (visits.filter declares).map fun v =>
      Source.provenance ⟨path, .ofText t, exists?⟩ v.element) :
    (sitesIn t (ReportedDeclaration.ofHistory kind g)).map Site.element =
      (visits.filter declares).map Visit.element ∧
    (sitesIn t (ReportedDeclaration.ofHistory kind g)).map Site.declaration =
      ReportedDeclaration.ofHistory kind g := by
  refine h.sites_of_map_provenance ?_ (map_provenance_ofHistory kind hg)
  rw [List.forall_mem_map]
  exact fun v hv => ⟨v, (List.mem_filter.1 hv).1, rfl⟩

theorem increasing_ofHistory (kind : ObjectKind) {g : History} {declares : Visit → Bool}
    (hg : g.provenances = (visits.filter declares).map fun v =>
      Source.provenance ⟨path, .ofText t, exists?⟩ v.element) :
    (sitesIn t (ReportedDeclaration.ofHistory kind g)).Pairwise fun a b =>
      a.element.start < b.element.start := by
  have hstarts : ((sitesIn t (ReportedDeclaration.ofHistory kind g)).map Site.element).Pairwise
      fun a b => a.start < b.start := by
    rw [(h.sitesIn_ofHistory kind hg).1]
    exact List.pairwise_map.2 (h.ascending.sublist List.filter_sublist)
  rwa [List.pairwise_map] at hstarts

theorem exists_visit_ofHistory {kind : ObjectKind} {g : History} {declares : Visit → Bool}
    (hg : g.provenances = (visits.filter declares).map fun v =>
      Source.provenance ⟨path, .ofText t, exists?⟩ v.element) {a : Site}
    (ha : a ∈ sitesIn t (ReportedDeclaration.ofHistory kind g)) :
    ∃ v ∈ visits, declares v = true ∧ a.element = v.element := by
  have hmem : a.element ∈ (visits.filter declares).map Visit.element := by
    rw [← (h.sitesIn_ofHistory kind hg).1]
    exact List.mem_map_of_mem ha
  obtain ⟨v, hv, helement⟩ := List.mem_map.1 hmem
  obtain ⟨hv, hdeclares⟩ := List.mem_filter.1 hv
  exact ⟨v, hv, hdeclares, helement.symm⟩

/-- **No two declarations of a register have an element in common.** -/
theorem sitesOf_register {r : Register} (hr : r.Distinct) {kind : ObjectKind}
    {declares : Text → Visit → Bool} (hnames : Visit.Names kind declares)
    (hdeclares : ∀ g ∈ r, g.provenances = (visits.filter (declares g.name)).map fun v =>
      Source.provenance ⟨path, .ofText t, exists?⟩ v.element) :
    SitesOf visits kind (sitesIn t (ofRegister kind r)) where
  of_kind := by
    rw [sitesIn_ofRegister]
    intro a ha
    obtain ⟨g, hg, ha⟩ := List.mem_flatMap.1 ha
    exact (History.of_mem_ofHistory (declaration_mem_of_mem_sitesIn ha)).1
  visit := by
    rw [sitesIn_ofRegister]
    intro a ha
    obtain ⟨g, hg, ha⟩ := List.mem_flatMap.1 ha
    obtain ⟨v, hv, hname, helement⟩ := h.exists_visit_ofHistory (hdeclares g hg) ha
    exact ⟨v, hv, hnames.kind hname, helement⟩
  apart := by
    rw [sitesIn_ofRegister, List.pairwise_flatMap]
    refine ⟨?_, hr.imp_of_mem ?_⟩
    · intro g hg
      exact (h.increasing_ofHistory kind (hdeclares g hg)).imp fun hlt => .inl (Nat.ne_of_lt hlt)
    · -- Declarations of two names at one element would be of the same visit.
      intro g k hg hk hne a ha b hb
      obtain ⟨v, hv, hname, ha⟩ := h.exists_visit_ofHistory (hdeclares g hg) ha
      obtain ⟨w, hw, hname', hb⟩ := h.exists_visit_ofHistory (hdeclares k hk) hb
      refine .inl fun hstart => hne ?_
      rw [ha, hb] at hstart
      obtain rfl := h.eq_of_start hv hw hstart
      exact hnames.name hname hname'

/-- Sites of visits of one kind and of others have no element in common. -/
theorem apart_append {kind : ObjectKind} {sites rest : List Site}
    (hsites : SitesOf visits kind sites) (hrest : rest.Pairwise Site.Apart)
    (hothers : ∀ b ∈ rest, ∃ w ∈ visits, w.kind ≠ kind ∧ b.element = w.element) :
    (sites ++ rest).Pairwise Site.Apart := by
  refine List.pairwise_append.2 ⟨hsites.apart, hrest, ?_⟩
  intro a ha b hb
  obtain ⟨v, hv, hkind, ha⟩ := hsites.visit a ha
  obtain ⟨w, hw, hother, hb⟩ := hothers b hb
  refine .inl fun hstart => hother ?_
  rw [ha, hb] at hstart
  rw [← h.eq_of_start hv hw hstart]
  exact hkind

end Walk

/-! ## What a project reports -/

/-- What the visits of a project file leave in the project. -/
structure Account (s : Source) (visits : List Visit) (p : EvaluatedProject) : Prop where
  path : p.path = s.path
  distinct : Distinct p
  properties : ∀ g ∈ p.properties, g.provenances =
    (visits.filter (Visit.declaresProperty g.name)).map fun v => s.provenance v.element
  targets : ∀ g ∈ p.targets, g.provenances =
    (visits.filter (Visit.declaresTarget g.name)).map fun v => s.provenance v.element
  items : ∃ es : List Element, p.items.map EvaluatedObject.origin = es.map s.itemOrigin ∧
    es.Pairwise (fun e f => e.start ≤ f.start) ∧ ∀ e ∈ es, ∃ v ∈ visits, v.kind = .item ∧ e = v.element
  imports : p.imports.map EvaluatedObject.provenance =
    (visits.filter Visit.declaresImport).map fun v => some (s.provenance v.element)

theorem Walk.account {exists? : FilePath → Bool} {path : FilePath} {t : Text}
    {globals : GlobalProperties} {p : EvaluatedProject} {visits : List Visit}
    (h : Walk ⟨path, .ofText t, exists?⟩ (Document.parse t).views 0 t.width
      (initialProject path globals) visits p) : Account ⟨path, .ofText t, exists?⟩ visits p := by
  obtain ⟨htargets, hitems, himports⟩ := targets_initialProject path globals
  have hdistinct : Distinct p := h.run.preserves Distinct (fun _ _ _ hstep hp => hp.leads hstep)
    (distinct_initialProject path globals)
  refine ⟨?_, hdistinct, ?_, ?_, h.exists_elements_items hitems, ?_⟩
  · exact h.run.preserves (fun q => q.path = path) (fun _ _ _ hstep hp => hstep.path_eq.trans hp)
      (path_initialProject path globals)
  · intro g hg
    have htrail := h.run.observe fun hstep => hstep.trail_properties g.name
    rwa [trail_initialProject, List.nil_append,
      Register.trail_eq (hdistinct.properties.get?_eq hg)] at htrail
  · intro g hg
    have htrail := h.run.observe fun hstep => hstep.trail_targets g.name
    rwa [htargets, Register.trail_eq (hdistinct.targets.get?_eq hg)] at htrail
  · have hadded := h.run.observe fun hstep => hstep.map_provenance_imports
    rwa [himports] at hadded

/-- Every object that was declared is reported once, where it was declared. -/
theorem map_ofObjects (kind : ObjectKind) {s : Source} {os : List EvaluatedObject}
    {es : List Element}
    (h : os.map EvaluatedObject.provenance = es.map fun e => some (s.provenance e)) :
    (ofObjects kind os).map ReportedDeclaration.provenance =
        es.map s.provenance ∧
      (ofObjects kind os).map ReportedDeclaration.object = os := by
  induction os generalizing es with
  | nil => rw [List.map_eq_nil_iff.1 h.symm]; exact ⟨rfl, rfl⟩
  | cons o os ih =>
    cases es with
    | nil => cases h
    | cons e es =>
      rw [List.map_cons, List.map_cons, List.cons.injEq] at h
      obtain ⟨ho, h⟩ := h
      obtain ⟨hprovenances, hobjects⟩ := ih h
      have hfirst : ReportedDeclaration.ofObject kind o =
          [⟨kind, o, s.provenance e, o.value⟩] := by
        rw [ReportedDeclaration.ofObject, ho]
        rfl
      rw [ofObjects, List.flatMap_cons, hfirst]
      exact ⟨congrArg _ hprovenances, congrArg _ hobjects⟩

theorem exists_of_map_provenance {s : Source} {ds : List ReportedDeclaration} {es : List Element}
    (h : ds.map ReportedDeclaration.provenance = es.map s.provenance) {d : ReportedDeclaration}
    (hd : d ∈ ds) : ∃ e ∈ es, d.provenance = s.provenance e := by
  have hmem : d.provenance ∈ es.map s.provenance := h ▸ List.mem_map_of_mem hd
  obtain ⟨e, he, hprovenance⟩ := List.mem_map.1 hmem
  exact ⟨e, he, hprovenance.symm⟩

namespace Account

variable {exists? : FilePath → Bool} {path : FilePath} {t : Text} {p q : EvaluatedProject}
  {visits : List Visit}

variable (h : Walk ⟨path, .ofText t, exists?⟩ (Document.parse t).views 0 t.width p visits q)
  (hq : Account ⟨path, .ofText t, exists?⟩ visits q)

include h hq

/-! ## Sites of a project -/

theorem sitesOf_properties :
    SitesOf visits .property (sitesIn t (ofRegister .property q.properties)) :=
  h.sitesOf_register hq.distinct.properties Visit.names_declaresProperty hq.properties

theorem sitesOf_targets : SitesOf visits .target (sitesIn t (ofRegister .target q.targets)) :=
  h.sitesOf_register hq.distinct.targets Visit.names_declaresTarget hq.targets

omit h in
theorem map_provenance_imports : q.imports.map EvaluatedObject.provenance =
    ((visits.filter Visit.declaresImport).map Visit.element).map fun e =>
      some (Source.provenance ⟨path, .ofText t, exists?⟩ e) := by
  rw [hq.imports, List.map_map]
  rfl

/-- The sites of the imports are import elements, one behind the other. -/
theorem sitesIn_imports :
    (sitesIn t (ofObjects .importedProject q.imports)).map Site.element =
      (visits.filter Visit.declaresImport).map Visit.element ∧
    (sitesIn t (ofObjects .importedProject q.imports)).map Site.object = q.imports := by
  obtain ⟨hprovenances, hobjects⟩ := map_ofObjects .importedProject (map_provenance_imports hq)
  have hvisits : ∀ e ∈ (visits.filter Visit.declaresImport).map Visit.element,
      ∃ v ∈ visits, e = v.element := by
    rw [List.forall_mem_map]
    exact fun v hv => ⟨v, (List.mem_filter.1 hv).1, rfl⟩
  obtain ⟨helements, hdeclarations⟩ := h.sites_of_map_provenance hvisits hprovenances
  refine ⟨helements, ?_⟩
  rwa [← hdeclarations, List.map_map] at hobjects

theorem increasing_imports : (sitesIn t (ofObjects .importedProject q.imports)).Pairwise
    fun a b => a.element.start < b.element.start := by
  have hstarts : ((sitesIn t (ofObjects .importedProject q.imports)).map Site.element).Pairwise
      fun a b => a.start < b.start := by
    rw [(sitesIn_imports h hq).1]
    exact List.pairwise_map.2 (h.ascending.sublist List.filter_sublist)
  rwa [List.pairwise_map] at hstarts

theorem sitesOf_imports :
    SitesOf visits .importedProject (sitesIn t (ofObjects .importedProject q.imports)) where
  of_kind _ ha := kind_sitesIn_ofObject ha
  visit := by
    intro a ha
    have hmem : a.element ∈ (visits.filter Visit.declaresImport).map Visit.element := by
      rw [← (sitesIn_imports h hq).1]
      exact List.mem_map_of_mem ha
    obtain ⟨v, hv, helement⟩ := List.mem_map.1 hmem
    obtain ⟨hv, hdeclares⟩ := List.mem_filter.1 hv
    exact ⟨v, hv, of_decide_eq_true (Bool.and_eq_true_iff.1 hdeclares).1, helement.symm⟩
  apart := (increasing_imports h hq).imp fun hlt => .inl (Nat.ne_of_lt hlt)

omit h in
theorem exists_provenance_items : ∃ es : List Element,
    q.items.map EvaluatedObject.origin = es.map (Source.itemOrigin ⟨path, .ofText t, exists?⟩) ∧
    q.items.map EvaluatedObject.provenance =
      es.map (fun e => some (Source.provenance ⟨path, .ofText t, exists?⟩ e)) ∧
    es.Pairwise (fun e f => e.start ≤ f.start) ∧
    ∀ e ∈ es, ∃ v ∈ visits, v.kind = .item ∧ e = v.element := by
  obtain ⟨es, horigins, hordered, hvisits⟩ := hq.items
  have hprovenances := congrArg (List.map fun origin => origin.2.2) horigins
  rw [List.map_map, List.map_map] at hprovenances
  exact ⟨es, horigins, hprovenances, hordered, hvisits⟩

/-- The sites of the items are item elements in the order of the text, each of them as often as it
has items. -/
theorem sitesIn_items :
    (sitesIn t (ofObjects .item q.items)).map Site.object = q.items ∧
    (sitesIn t (ofObjects .item q.items)).Pairwise
      (fun a b => a.element.start ≤ b.element.start) ∧
    ∀ a ∈ sitesIn t (ofObjects .item q.items),
      a.object.origin = Source.itemOrigin ⟨path, .ofText t, exists?⟩ a.element ∧
        ∃ v ∈ visits, v.kind = .item ∧ a.element = v.element := by
  obtain ⟨es, horigins, hprovenances, hordered, hvisits⟩ := exists_provenance_items hq
  obtain ⟨hprovenances, hobjects⟩ := map_ofObjects .item hprovenances
  obtain ⟨helements, hdeclarations⟩ := h.sites_of_map_provenance
    (fun e he => (hvisits e he).imp fun v hv => ⟨hv.1, hv.2.2⟩) hprovenances
  rw [← hdeclarations, List.map_map] at hobjects
  refine ⟨hobjects, ?_, fun a ha => ⟨?_, ?_⟩⟩
  · rwa [← helements, List.pairwise_map] at hordered
  · rw [← hobjects, ← helements, List.map_map, List.map_map] at horigins
    exact List.map_inj_left.1 horigins a ha
  · exact hvisits _ (helements ▸ List.mem_map_of_mem ha)

theorem sitesOf_items : SitesOf visits .item (sitesIn t (ofObjects .item q.items)) where
  of_kind _ ha := kind_sitesIn_ofObject ha
  visit a ha := ((sitesIn_items h hq).2.2 a ha).2
  apart := by
    refine (sitesIn_items h hq).2.1.imp_of_mem fun {a b} ha hb _ => ?_
    obtain ⟨horigin, v, hv, -, helement⟩ := (sitesIn_items h hq).2.2 a ha
    obtain ⟨horigin', w, hw, -, helement'⟩ := (sitesIn_items h hq).2.2 b hb
    by_cases hstart : a.element.start = b.element.start
    · rw [helement, helement'] at hstart
      obtain rfl := h.eq_of_start hv hw hstart
      have hsame : b.element = a.element := helement'.trans helement.symm
      have hname : b.object.name = a.object.name :=
        congrArg (fun origin => origin.2.1) (horigin'.trans (horigin.trans (by rw [hsame])).symm)
      exact .inr ⟨kind_sitesIn_ofObject ha, kind_sitesIn_ofObject hb, hname, hsame⟩
    · exact .inl hstart

/-! ## All of them -/

omit h in
/-- Everything that a project holds was declared by a visit. -/
theorem exists_visit_of_mem {d : ReportedDeclaration}
    (hd : d ∈ ofRegister .property q.properties ++ (ofRegister .target q.targets ++
      (ofObjects .item q.items ++ ofObjects .importedProject q.imports))) :
    ∃ v ∈ visits, d.provenance = Source.provenance ⟨path, .ofText t, exists?⟩ v.element := by
  have hchosen {declares : Visit → Bool} {ds : List ReportedDeclaration}
      (hds : ds.map ReportedDeclaration.provenance = ((visits.filter declares).map
        Visit.element).map (Source.provenance ⟨path, .ofText t, exists?⟩)) (hd : d ∈ ds) :
      ∃ v ∈ visits, d.provenance = Source.provenance ⟨path, .ofText t, exists?⟩ v.element := by
    obtain ⟨e, he, hprovenance⟩ := exists_of_map_provenance hds hd
    obtain ⟨v, hv, rfl⟩ := List.mem_map.1 he
    exact ⟨v, (List.mem_filter.1 hv).1, hprovenance⟩
  simp only [List.mem_append] at hd
  rcases hd with hproperty | htarget | hitem | himport
  · obtain ⟨g, hg, hd⟩ := List.mem_flatMap.1 hproperty
    exact hchosen (Walk.map_provenance_ofHistory _ (hq.properties g hg)) hd
  · obtain ⟨g, hg, hd⟩ := List.mem_flatMap.1 htarget
    exact hchosen (Walk.map_provenance_ofHistory _ (hq.targets g hg)) hd
  · obtain ⟨es, -, hprovenances, -, hvisits⟩ := exists_provenance_items hq
    obtain ⟨e, he, hprovenance⟩ :=
      exists_of_map_provenance (map_ofObjects .item hprovenances).1 hitem
    obtain ⟨v, hv, -, rfl⟩ := hvisits e he
    exact ⟨v, hv, hprovenance⟩
  · exact hchosen (map_ofObjects .importedProject (map_provenance_imports hq)).1 himport

omit h in
/-- Everything that is reported is of the file itself. -/
theorem ofProject_eq : ReportedDeclaration.ofProject q =
    ofRegister .property q.properties ++ (ofRegister .target q.targets ++
      (ofObjects .item q.items ++ ofObjects .importedProject q.imports)) := by
  rw [ReportedDeclaration.ofProject, List.filter_eq_self]
  intro d hd
  obtain ⟨v, -, hprovenance⟩ := exists_visit_of_mem hq hd
  rw [hprovenance, hq.path]
  exact beq_self_eq_true _

/-- Every site is at the element that its declaration marks. -/
theorem marks_of_mem_sites {a : Site} (ha : a ∈ sitesIn t (ReportedDeclaration.ofProject q)) :
    a.declaration.provenance.Marks path t a.element := by
  have he := elementOf?_of_mem_sitesIn ha
  have hd := declaration_mem_of_mem_sitesIn ha
  rw [ofProject_eq hq] at hd
  obtain ⟨v, hv, hprovenance⟩ := exists_visit_of_mem hq hd
  rw [hprovenance, h.elementOf?_provenance hv, Option.some.injEq] at he
  rw [← he]
  exact hprovenance ▸ h.marks hv

omit h in
theorem sitesIn_ofProject : sitesIn t (ReportedDeclaration.ofProject q) =
    sitesIn t (ofRegister .property q.properties) ++ (sitesIn t (ofRegister .target q.targets) ++
      (sitesIn t (ofObjects .item q.items) ++ sitesIn t (ofObjects .importedProject q.imports))) := by
  rw [ofProject_eq hq, sitesIn_append, sitesIn_append, sitesIn_append]

/-- **No two declarations of a project have an element in common, but the items of one element.** -/
theorem apart_sites : (sitesIn t (ReportedDeclaration.ofProject q)).Pairwise Site.Apart := by
  have hitems := sitesOf_items h hq
  have himports := sitesOf_imports h hq
  have htargets := sitesOf_targets h hq
  rw [sitesIn_ofProject hq]
  refine h.apart_append (sitesOf_properties h hq) (h.apart_append htargets
    (h.apart_append hitems himports.apart ?_) ?_) ?_
  · exact himports.visit_ne (by decide)
  · exact List.forall_mem_append.2 ⟨hitems.visit_ne (by decide), himports.visit_ne (by decide)⟩
  · exact List.forall_mem_append.2 ⟨htargets.visit_ne (by decide),
      List.forall_mem_append.2 ⟨hitems.visit_ne (by decide), himports.visit_ne (by decide)⟩⟩

end Account

end ProjectFile.Evaluation
