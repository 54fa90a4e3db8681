import Mathlib.Data.List.Nodup
import ProjectFile.Proofs.Evaluation.Declared
import ProjectFile.Proofs.Markup.Laminar
import ProjectFile.Proofs.Source.Positions

/-!
The object locator as an index from offsets to declarations, whatever a project reports.

A declaration is placed at the innermost element around the token at its position
(`EvaluatedProject.Places`), and the sites of a project are its declarations at these elements
(`places_of_mem_sites`, `exists_site_of_places`). An engine may report any positions, so that many
declarations of any kind and name are placed at one element.

Those of one kind and name share an entry there. The module says once what adding a site does
(`Adds`), what one step keeps (`Collects.adds`) and what a whole run collects (`collects_foldl`).
Elements nest, so entries that are sorted follow one another (`Collects.follows`), and the last one
that holds a byte is the innermost (`ObjectLocator.within_of_find?`).
-/

namespace ProjectFile.Evaluation

open Markup
open ReportedDeclaration (ofProject)

/-! ## Where declarations are placed -/

/-- Whether a project declares an object as one of a kind. Every declaration of a name declares the
winner. -/
inductive EvaluatedProject.Declares (p : EvaluatedProject) :
    ObjectKind → EvaluatedObject → Declaration → Prop
  | property {h : History} {d : Declaration} (hmem : h ∈ p.properties) (hd : d ∈ h.declarations) :
    Declares p .property h.object d
  | target {h : History} {d : Declaration} (hmem : h ∈ p.targets) (hd : d ∈ h.declarations) :
    Declares p .target h.object d
  | item {o : EvaluatedObject} {origin : Provenance} (hmem : o ∈ p.items)
    (ho : o.provenance = some origin) : Declares p .item o ⟨origin, o.value⟩
  | importedProject {o : EvaluatedObject} {origin : Provenance} (hmem : o ∈ p.imports)
    (ho : o.provenance = some origin) : Declares p .importedProject o ⟨origin, o.value⟩

/-- Whether a project declares an object in its own file, and the position is one of the text with a
token whose innermost element has the given span. -/
structure EvaluatedProject.Places (p : EvaluatedProject) (t : Text) (kind : ObjectKind)
    (o : EvaluatedObject) (d : Declaration) (s : Span) : Prop where
  declares : p.Declares kind o d
  own : d.provenance.file.same p.path = true
  element : ∃ offset token, ∃ e : Element,
    (LineIndex.ofText t).offset d.provenance.position = .ok offset ∧
      (Document.parse t).TokenAt offset token ∧ e.Innermost (.parse t) token.span ∧ e.span = s

namespace ReportedDeclaration

/-- The declaration that is reported. -/
def declaration (r : ReportedDeclaration) : Declaration := ⟨r.provenance, r.value⟩

theorem mem_ofRegister {kind : ObjectKind} {r : Register} {x : ReportedDeclaration} :
    x ∈ ofRegister kind r ↔
      ∃ h ∈ r, ∃ d ∈ h.declarations, ⟨kind, h.object, d.provenance, d.value⟩ = x := by
  simp only [ofRegister, List.mem_flatMap, History.ofHistory_eq, List.mem_map]

theorem mem_ofObjects {kind : ObjectKind} {os : List EvaluatedObject} {x : ReportedDeclaration} :
    x ∈ ofObjects kind os ↔
      ∃ o ∈ os, ∃ origin, o.provenance = some origin ∧ ⟨kind, o, origin, o.value⟩ = x := by
  simp only [ofObjects, ofObject, List.mem_flatMap, Option.mem_toList, Option.map_eq_some_iff]

/-- What is reported of a project is what it declares in its own file. -/
theorem mem_ofProject {p : EvaluatedProject} {x : ReportedDeclaration} :
    x ∈ ofProject p ↔
      p.Declares x.kind x.object x.declaration ∧ x.provenance.file.same p.path = true := by
  rw [ofProject, List.mem_filter]
  refine and_congr_left fun _ => ?_
  simp only [List.mem_append, mem_ofRegister, mem_ofObjects]
  constructor
  · rintro (⟨h, hmem, d, hd, rfl⟩ | ⟨h, hmem, d, hd, rfl⟩ | ⟨o, hmem, origin, ho, rfl⟩ |
      ⟨o, hmem, origin, ho, rfl⟩)
    · exact .property hmem hd
    · exact .target hmem hd
    · exact .item hmem ho
    · exact .importedProject hmem ho
  · obtain ⟨kind, o, origin, value⟩ := x
    simp only [declaration]
    intro hdeclares
    cases hdeclares with
    | property hmem hd => exact .inl ⟨_, hmem, _, hd, rfl⟩
    | target hmem hd => exact .inr (.inl ⟨_, hmem, _, hd, rfl⟩)
    | item hmem ho => exact .inr (.inr (.inl ⟨_, hmem, _, ho, rfl⟩))
    | importedProject hmem ho => exact .inr (.inr (.inr ⟨_, hmem, _, ho, rfl⟩))

end ReportedDeclaration

/-- The element that is found at an offset is what the token there belongs to. -/
theorem elementAt?_eq_some_iff {d : Document} {offset : Nat} (hoffset : offset ≤ d.width)
    {e : Element} : elementAt? d.leaves offset = some e ↔
      ∃ token, d.TokenAt offset token ∧ token.element? = some e := by
  rw [elementAt?, Option.bind_assoc, Option.bind_eq_some_iff]
  simp only [Document.tokenAt_iff hoffset]
  rfl

/-- The element of a declaration is what the token at its position belongs to. -/
theorem elementOf?_eq_some_iff {t : Text} {origin : Provenance} {e : Element} :
    elementOf? (Document.parse t).leaves (Document.parse t).width (.ofText t) origin = some e ↔
      ∃ offset token, (LineIndex.ofText t).offset origin.position = .ok offset ∧
        (Document.parse t).TokenAt offset token ∧ token.element? = some e := by
  rw [elementOf?]
  cases hoffset : (LineIndex.ofText t).offset origin.position with
  | error => simp
  | ok offset =>
    have hwidth : (LineIndex.ofText t).length = (Document.parse t).width :=
      (Document.width_parse t).symm
    have hle : offset ≤ (Document.parse t).width :=
      hwidth ▸ ((LineIndex.ordered_ofText t).corresponds.position_offset _ _ hoffset).1
    simp only [Nat.min_eq_left hle, elementAt?_eq_some_iff hle, Except.ok.injEq, exists_and_left,
      exists_eq_left']

/-- The sites of a project are its declarations where they are placed. -/
theorem places_of_mem_sites {p : EvaluatedProject} {t : Text} {a : Site}
    (ha : a ∈ sitesIn t (ofProject p)) :
    p.Places t a.kind a.object a.declaration.declaration a.element.span := by
  obtain ⟨hdeclares, hown⟩ :=
    ReportedDeclaration.mem_ofProject.1 (declaration_mem_of_mem_sitesIn ha)
  obtain ⟨offset, token, hoffset, htoken, helement⟩ :=
    elementOf?_eq_some_iff.1 (elementOf?_of_mem_sitesIn ha)
  exact ⟨hdeclares, hown, offset, token, a.element, hoffset, htoken,
    Document.innermost_of_element? htoken.mem helement, rfl⟩

/-- Every declaration that is placed has a site. -/
theorem exists_site_of_places {p : EvaluatedProject} {t : Text} {kind : ObjectKind}
    {o : EvaluatedObject} {d : Declaration} {s : Span} (h : p.Places t kind o d s) :
    ∃ a ∈ sitesIn t (ofProject p), a.kind = kind ∧ a.object = o ∧ a.element.span = s := by
  obtain ⟨hdeclares, hown, offset, token, e, hoffset, htoken, hinnermost, rfl⟩ := h
  obtain ⟨f, hf, hspan⟩ := Document.element?_of_innermost htoken.mem hinnermost
  let r : ReportedDeclaration := ⟨kind, o, d.provenance, d.value⟩
  have hr : r ∈ ReportedDeclaration.ofProject p :=
    ReportedDeclaration.mem_ofProject.2 ⟨hdeclares, hown⟩
  refine ⟨⟨r, f⟩, List.mem_filterMap.2 ⟨r, hr, ?_⟩, rfl, rfl, hspan⟩
  rw [site?, elementOf?_eq_some_iff.2 ⟨offset, token, hoffset, htoken, hf⟩]
  rfl

/-! ## Adding a site -/

namespace LocatedObject

/-- What the declarations in one entry have in common. The case of letters does not count in the
name. -/
def key (o : LocatedObject) : ObjectKind × Span × Text := (o.kind, o.span, Text.fold o.name)

/-- The entry with one more object, unless it holds the object already. -/
def join (o : LocatedObject) (x : EvaluatedObject) : LocatedObject :=
  { o with objects := if ObjectLocator.holds o x then o.objects else o.objects ++ [x] }

@[simp] theorem key_join (o : LocatedObject) (x : EvaluatedObject) : (o.join x).key = o.key := rfl

theorem mem_objects_join {o : LocatedObject} {x y : EvaluatedObject} :
    y ∈ (o.join x).objects ↔ y ∈ o.objects ∨ y = x := by
  rw [join]
  dsimp only
  split
  · next hholds =>
    have hmem : x ∈ o.objects := by
      rw [ObjectLocator.holds, Bool.and_eq_true, decide_eq_true_eq] at hholds
      exact hholds.2
    constructor
    · exact .inl
    · rintro (hy | rfl)
      · exact hy
      · exact hmem
  · rw [List.mem_append, List.mem_singleton]

end LocatedObject

/-- What becomes of entries when a site is added: if one has the key of the site, the object joins
it, and else the site makes an entry of its own. -/
inductive Adds (s : Site) : List LocatedObject → List LocatedObject → Prop
  | joined (front : List LocatedObject) (o : LocatedObject) (back : List LocatedObject)
    (hkey : o.key = s.entry.key) :
    Adds s (front ++ o :: back) (front ++ o.join s.object :: back)
  | fresh {entries : List LocatedObject} (hkeys : s.entry.key ∉ entries.map LocatedObject.key) :
    Adds s entries (entries ++ [s.entry])

theorem adds_addSite (s : Site) (entries : List LocatedObject) :
    Adds s entries (ObjectLocator.addSite entries s) := by
  induction entries with
  | nil => exact .fresh List.not_mem_nil
  | cons o entries ih =>
    have hiff : (o.span = s.element.span ∧ o.kind = s.declaration.kind ∧
        Text.sameName o.name s.declaration.object.name = true) ↔ o.key = s.entry.key := by
      rw [Text.sameName_iff, LocatedObject.key, LocatedObject.key, Prod.mk.injEq, Prod.mk.injEq]
      exact and_left_comm
    rw [ObjectLocator.addSite, ObjectLocator.add]
    split
    · next hsame => exact .joined [] o entries (hiff.1 hsame)
    · next hother =>
      rw [hiff] at hother
      generalize hadded : ObjectLocator.addSite entries s = added at ih
      rw [ObjectLocator.addSite] at hadded
      rw [hadded]
      cases ih with
      | joined front u back hkey => exact .joined (o :: front) u back hkey
      | fresh hkeys =>
        refine .fresh ?_
        rw [List.map_cons, List.mem_cons, not_or]
        exact ⟨fun heq => hother heq.symm, hkeys⟩

/-- What entries collect of the sites that were added: one entry for each key, with the objects of
the sites of the key. -/
structure Collects (sites : List Site) (entries : List LocatedObject) : Prop where
  apart : (entries.map LocatedObject.key).Nodup
  /-- An entry is that of a site of its key, with more objects perhaps. -/
  entry : ∀ o ∈ entries, ∃ s ∈ sites,
    o = { s.entry with objects := o.objects } ∧ s.object ∈ o.objects
  objects : ∀ o ∈ entries, ∀ x ∈ o.objects, ∃ s ∈ sites, s.object = x ∧ o.key = s.entry.key
  held : ∀ s ∈ sites, ∃ o ∈ entries, o.key = s.entry.key ∧ s.object ∈ o.objects

namespace Collects

variable {sites : List Site} {entries entries' : List LocatedObject}

/-- The object of a site joins the entry of its key. -/
theorem joined {front back : List LocatedObject} {o : LocatedObject} {s : Site}
    (h : Collects sites (front ++ o :: back)) (hkey : o.key = s.entry.key) :
    Collects (sites ++ [s]) (front ++ o.join s.object :: back) := by
  have hold : ∀ r ∈ sites, r ∈ sites ++ [s] := fun r => List.mem_append_left _
  have hnew : s ∈ sites ++ [s] := List.mem_append_right _ (List.mem_singleton.2 rfl)
  have ho : o ∈ front ++ o :: back := List.mem_append_right _ List.mem_cons_self
  have hjoined : o.join s.object ∈ front ++ o.join s.object :: back :=
    List.mem_append_right _ List.mem_cons_self
  have hcases : ∀ u ∈ front ++ o.join s.object :: back,
      u = o.join s.object ∨ u ∈ front ++ o :: back := by
    intro u hu
    rcases List.mem_append.1 hu with hfront | hback
    · exact .inr (List.mem_append_left _ hfront)
    rcases List.mem_cons.1 hback with heq | hback
    · exact .inl heq
    · exact .inr (List.mem_append_right _ (List.mem_cons_of_mem _ hback))
  refine ⟨?_, ?_, ?_, ?_⟩
  · simpa using h.apart
  · intro u hu
    rcases hcases u hu with rfl | hu
    · obtain ⟨r, hr, hentry, hobject⟩ := h.entry o ho
      refine ⟨r, hold r hr, ?_, LocatedObject.mem_objects_join.2 (.inl hobject)⟩
      rw [LocatedObject.join, hentry]
    · obtain ⟨r, hr, hentry⟩ := h.entry u hu
      exact ⟨r, hold r hr, hentry⟩
  · intro u hu x hx
    rcases hcases u hu with rfl | hu
    · rcases LocatedObject.mem_objects_join.1 hx with hx | rfl
      · obtain ⟨r, hr, hobject⟩ := h.objects o ho x hx
        exact ⟨r, hold r hr, hobject⟩
      · exact ⟨s, hnew, rfl, hkey⟩
    · obtain ⟨r, hr, hobject⟩ := h.objects u hu x hx
      exact ⟨r, hold r hr, hobject⟩
  · refine List.forall_mem_append.2 ⟨?_, List.forall_mem_singleton.2 ?_⟩
    · intro r hr
      obtain ⟨u, hu, hheld, hobject⟩ := h.held r hr
      rcases List.mem_append.1 hu with hfront | hback
      · exact ⟨u, List.mem_append_left _ hfront, hheld, hobject⟩
      rcases List.mem_cons.1 hback with rfl | hback
      · exact ⟨_, hjoined, hheld, LocatedObject.mem_objects_join.2 (.inl hobject)⟩
      · exact ⟨u, List.mem_append_right _ (List.mem_cons_of_mem _ hback), hheld, hobject⟩
    · exact ⟨_, hjoined, hkey, LocatedObject.mem_objects_join.2 (.inr rfl)⟩

/-- A site of another key makes an entry of its own. -/
theorem fresh (h : Collects sites entries) {s : Site}
    (hkeys : s.entry.key ∉ entries.map LocatedObject.key) :
    Collects (sites ++ [s]) (entries ++ [s.entry]) := by
  have hold : ∀ r ∈ sites, r ∈ sites ++ [s] := fun r => List.mem_append_left _
  have hnew : s ∈ sites ++ [s] := List.mem_append_right _ (List.mem_singleton.2 rfl)
  have hself : s.object ∈ s.entry.objects := List.mem_singleton.2 rfl
  refine ⟨?_, List.forall_mem_append.2 ⟨?_, List.forall_mem_singleton.2 ⟨s, hnew, rfl, hself⟩⟩,
    List.forall_mem_append.2 ⟨?_, List.forall_mem_singleton.2 ?_⟩,
    List.forall_mem_append.2 ⟨?_, List.forall_mem_singleton.2 ?_⟩⟩
  · rw [List.map_append, List.map_singleton, List.nodup_append]
    refine ⟨h.apart, List.nodup_singleton _, ?_⟩
    intro k hk k' hk' heq
    rw [List.mem_singleton] at hk'
    exact hkeys (hk' ▸ heq ▸ hk)
  · intro o ho
    obtain ⟨r, hr, hentry⟩ := h.entry o ho
    exact ⟨r, hold r hr, hentry⟩
  · intro o ho x hx
    obtain ⟨r, hr, hobject⟩ := h.objects o ho x hx
    exact ⟨r, hold r hr, hobject⟩
  · intro x hx
    exact ⟨s, hnew, (List.mem_singleton.1 hx).symm, rfl⟩
  · intro r hr
    obtain ⟨o, ho, hheld⟩ := h.held r hr
    exact ⟨o, List.mem_append_left _ ho, hheld⟩
  · exact ⟨s.entry, List.mem_append_right _ (List.mem_singleton.2 rfl), rfl, hself⟩

/-- **Step: the entries that a site is added to collect it as well.** -/
theorem adds (h : Collects sites entries) {s : Site} (hadds : Adds s entries entries') :
    Collects (sites ++ [s]) entries' := by
  cases hadds with
  | joined front o back hkey => exact h.joined hkey
  | fresh hkeys => exact h.fresh hkeys

theorem perm (h : Collects sites entries) (hperm : entries'.Perm entries) :
    Collects sites entries' where
  apart := (hperm.map _).nodup_iff.2 h.apart
  entry o ho := h.entry o (hperm.mem_iff.1 ho)
  objects o ho := h.objects o (hperm.mem_iff.1 ho)
  held s hs := by
    obtain ⟨o, ho, hheld⟩ := h.held s hs
    exact ⟨o, hperm.mem_iff.2 ho, hheld⟩

end Collects

/-- **Run: sites that are added one after the other are collected.** -/
theorem collects_foldl (sites : List Site) :
    Collects sites (sites.foldl ObjectLocator.addSite []) := by
  induction sites using List.reverseRecOn with
  | nil => exact ⟨.nil, by simp, by simp, by simp⟩
  | append_singleton sites s ih =>
    rw [List.foldl_append]
    exact ih.adds (adds_addSite s _)

/-! ## What entries hold -/

namespace Collects

variable {sites : List Site} {entries : List LocatedObject} {p : EvaluatedProject} {t : Text}

/-- An entry is the only one of its key. -/
theorem filter_key (h : Collects sites entries) {x : LocatedObject} (hx : x ∈ entries) :
    (entries.filter fun y => decide (y.key = x.key)) = [x] := by
  have hnodup : (entries.filter fun y => decide (y.key = x.key)).Nodup :=
    (List.Nodup.of_map _ h.apart).filter _
  refine List.perm_singleton.1 ((List.perm_ext_iff_of_nodup hnodup (List.nodup_singleton x)).2 ?_)
  intro y
  rw [List.mem_filter, decide_eq_true_eq, List.mem_singleton]
  constructor
  · intro hy
    exact List.inj_on_of_nodup_map h.apart hy.1 hx hy.2
  · intro hy
    rw [hy]
    exact ⟨hx, rfl⟩

/-- No two entries agree on kind, span and name. -/
theorem pairwise_apart (h : Collects sites entries) : entries.Pairwise fun a b =>
    ¬ (a.kind = b.kind ∧ a.span = b.span ∧ Text.sameName a.name b.name = true) := by
  refine (List.pairwise_map.1 h.apart).imp ?_
  intro a b hne hagree
  obtain ⟨hkind, hspan, hname⟩ := hagree
  apply hne
  rw [LocatedObject.key, LocatedObject.key, hkind, hspan, Text.sameName_iff.1 hname]

/-- An entry is that of a declaration of one of its objects, and each of its objects is declared
there. -/
theorem places (h : Collects (sitesIn t (ofProject p)) entries) {x : LocatedObject}
    (hx : x ∈ entries) :
    (∃ o ∈ x.objects, x.name = o.name ∧
      p.Places t x.kind o ⟨x.declaration, x.valueAtDeclaration⟩ x.span) ∧
    ∀ o ∈ x.objects, Text.sameName x.name o.name = true ∧ ∃ d, p.Places t x.kind o d x.span := by
  constructor
  · obtain ⟨s, hs, hentry, hobject⟩ := h.entry x hx
    refine ⟨s.object, hobject, ?_⟩
    rw [hentry]
    exact ⟨rfl, places_of_mem_sites hs⟩
  · intro o ho
    obtain ⟨s, hs, rfl, hkey⟩ := h.objects x hx o ho
    obtain ⟨hkind, hspan, hname⟩ : x.kind = s.kind ∧ x.span = s.element.span ∧
        Text.fold x.name = Text.fold s.object.name := by
      simpa [LocatedObject.key, Site.entry] using hkey
    refine ⟨Text.sameName_iff.2 hname, s.declaration.declaration, ?_⟩
    rw [hkind, hspan]
    exact places_of_mem_sites hs

/-- The span of an entry is that of an element. -/
theorem exists_element (h : Collects (sitesIn t (ofProject p)) entries) {x : LocatedObject}
    (hx : x ∈ entries) : ∃ e ∈ (Document.parse t).elements, x.span = e.span := by
  obtain ⟨⟨o, -, -, hplaces⟩, -⟩ := h.places hx
  obtain ⟨_, _, e, _, _, hinnermost, hspan⟩ := hplaces.element
  exact ⟨e, hinnermost.mem, hspan.symm⟩

/-- Of two entries the one lies behind the other or inside it. -/
theorem nested (h : Collects (sitesIn t (ofProject p)) entries) {a b : LocatedObject}
    (ha : a ∈ entries) (hb : b ∈ entries) : a.span.Follows b.span ∨ b.span.Follows a.span := by
  obtain ⟨e, he, hspan⟩ := h.exists_element ha
  obtain ⟨f, hf, hspan'⟩ := h.exists_element hb
  rw [hspan, hspan']
  exact Document.follows_or_follows he hf

/-- Sorted entries follow one another. -/
theorem follows (h : Collects (sitesIn t (ofProject p)) entries)
    (hsorted : entries.Pairwise fun a b => ObjectLocator.precedes a b = true) :
    entries.Pairwise fun a b => b.span.Follows a.span := by
  refine hsorted.imp_of_mem ?_
  intro a b ha hb hab
  rw [ObjectLocator.precedes_iff] at hab
  obtain ⟨f, -, hspan⟩ := h.exists_element hb
  have hle : b.span.start ≤ b.span.stop := by
    rw [hspan]
    exact Nat.le_add_right _ _
  have hnested := h.nested ha hb
  unfold Span.Follows Span.Within at *
  omega

end Collects

/-! ## Looking up an offset -/

namespace ObjectLocator

/-- Entries that hold a byte are among those that start there or before. -/
theorem filter_takeWhile {entries : List LocatedObject}
    (h : entries.Pairwise fun a b => a.span.start ≤ b.span.start) (offset : Nat) :
    (entries.takeWhile fun e => decide (e.span.start ≤ offset)).filter
      (fun e => e.span.contains offset) = entries.filter fun e => e.span.contains offset := by
  induction entries with
  | nil => rfl
  | cons o entries ih =>
    obtain ⟨ho, h⟩ := List.pairwise_cons.1 h
    by_cases hstart : o.span.start ≤ offset
    · simp only [List.takeWhile_cons, hstart, decide_true, if_true, List.filter_cons, ih h]
    · have hnone : (o :: entries).filter (fun e => e.span.contains offset) = [] := by
        rw [List.filter_eq_nil_iff]
        intro u hu hin
        have hle := (Span.contains_iff.1 hin).1
        rcases List.mem_cons.1 hu with rfl | hu
        · exact hstart hle
        · exact hstart (Nat.le_trans (ho u hu) hle)
      simp [hstart, hnone]

/-- The entry that is found is the last one that holds the byte. -/
theorem find?_eq {l : ObjectLocator}
    (h : l.entries.Pairwise fun a b => precedes a b = true) (offset : Nat) :
    l.find? offset = (l.entries.filter fun e => e.span.contains offset).getLast? := by
  have hstarts : l.entries.Pairwise fun a b => a.span.start ≤ b.span.start := by
    refine h.imp ?_
    intro a b hab
    rw [precedes_iff] at hab
    omega
  rw [← filter_takeWhile hstarts, List.getLast?_filter]
  rfl

/-- **Of entries that follow one another, the one that is found is the innermost.** -/
theorem within_of_find? {l : ObjectLocator}
    (hsorted : l.entries.Pairwise fun a b => precedes a b = true)
    (hfollows : l.entries.Pairwise fun a b => b.span.Follows a.span) {offset : Nat}
    {x : LocatedObject} (hx : l.find? offset = some x) :
    x ∈ l.entries ∧ x.span.contains offset = true ∧
      ∀ y ∈ l.entries, y.span.contains offset = true → x.span.Within y.span := by
  have hbyte (s : Span) : s.contains offset = decide ((Span.ofSize offset 1).Within s) := by
    rw [Bool.eq_iff_iff, Span.contains_iff, decide_eq_true_eq]
    exact Iff.rfl
  rw [find?_eq hsorted] at hx
  simp only [hbyte, decide_eq_true_eq] at hx ⊢
  exact Span.within_of_last hfollows (Nat.lt_succ_self offset) hx

/-- Behind the end of the inner one of two entries the outer one is found again. -/
example :
    let entry (s : Span) : LocatedObject := ⟨.item, [], s, ⟨⟨[]⟩, ⟨0, 0, .zeroBased⟩⟩, [], []⟩
    let l : ObjectLocator := ⟨[entry ⟨0, 11⟩, entry ⟨3, 7⟩]⟩
    [2, 3, 6, 7, 11].map (fun offset => (l.find? offset).map LocatedObject.span) =
      [some ⟨0, 11⟩, some ⟨3, 7⟩, some ⟨3, 7⟩, some ⟨0, 11⟩, none] := by decide

/-! ## Whole locators -/

/-- Whether a locator is an index of the declarations that a project has in a text. -/
structure Indexes (l : ObjectLocator) (p : EvaluatedProject) (t : Text) : Prop where
  /-- Of two entries the one lies behind the other or inside it. -/
  nested : ∀ a ∈ l.entries, ∀ b ∈ l.entries, a.span.Follows b.span ∨ b.span.Follows a.span
  /-- Entries come in the order of their starts, the outermost first. -/
  sorted : l.entries.Pairwise fun a b =>
    a.span.start < b.span.start ∨ a.span.start = b.span.start ∧ b.span.stop ≤ a.span.stop
  apart : l.entries.Pairwise fun a b =>
    ¬ (a.kind = b.kind ∧ a.span = b.span ∧ Text.sameName a.name b.name = true)
  /-- Every declaration that is placed has one entry, which holds its object. -/
  placed : ∀ kind o d s, p.Places t kind o d s →
    ∃ x, ((l.declarations kind o.name).filter fun x => x.span == s) = [x] ∧ o ∈ x.objects
  /-- Every entry is that of a declaration, and holds nothing but what is declared there. -/
  entry : ∀ x ∈ l.entries,
    (∃ o ∈ x.objects, x.name = o.name ∧
      p.Places t x.kind o ⟨x.declaration, x.valueAtDeclaration⟩ x.span) ∧
    ∀ o ∈ x.objects, Text.sameName x.name o.name = true ∧ ∃ d, p.Places t x.kind o d x.span
  /-- What is found at an offset is the innermost entry that holds the byte there. -/
  found : ∀ offset x, l.find? offset = some x → x ∈ l.entries ∧ x.span.contains offset = true ∧
    ∀ y ∈ l.entries, y.span.contains offset = true → x.span.Within y.span
  notFound : ∀ offset, l.find? offset = none ↔ ∀ x ∈ l.entries, x.span.contains offset = false

variable {l : ObjectLocator} {p : EvaluatedProject} {t : Text}

/-- A locator collects the sites of its project. -/
theorem collects_build (p : EvaluatedProject) (t : Text) :
    Collects (sitesIn t (ofProject p)) (build p (.parse t) (.ofText t)).entries := by
  rw [build, foldl_locate]
  exact (collects_foldl _).perm (List.mergeSort_perm _ _)

/-- Every declaration that is placed has one entry. -/
theorem exists_entry (h : Collects (sitesIn t (ofProject p)) l.entries) {kind : ObjectKind}
    {o : EvaluatedObject} {d : Declaration} {s : Span} (hplaces : p.Places t kind o d s) :
    ∃ x, ((l.declarations kind o.name).filter fun x => x.span == s) = [x] ∧ o ∈ x.objects := by
  obtain ⟨a, ha, rfl, rfl, rfl⟩ := exists_site_of_places hplaces
  obtain ⟨x, hx, hkey, hobject⟩ := h.held a ha
  refine ⟨x, ?_, hobject⟩
  rw [← h.filter_key hx, declarations, List.filter_filter]
  apply List.filter_congr
  intro y _
  rw [hkey, Bool.eq_iff_iff, decide_eq_true_eq]
  simp only [LocatedObject.key, Site.entry, Bool.and_eq_true, beq_iff_eq, Text.sameName_iff,
    Prod.mk.injEq]
  exact and_left_comm

/-- **The locator of a project is an index of its declarations**, whatever the project reports of
the text. -/
theorem indexes_build (p : EvaluatedProject) (t : Text) :
    (build p (.parse t) (.ofText t)).Indexes p t := by
  have hcollects := collects_build p t
  have hsorted : (build p (.parse t) (.ofText t)).entries.Pairwise fun a b => precedes a b = true :=
    pairwise_precedes_mergeSort _
  exact {
    nested := fun a ha b hb => hcollects.nested ha hb
    sorted := by simpa only [precedes_iff] using hsorted
    apart := hcollects.pairwise_apart
    placed := fun kind o d s => exists_entry hcollects
    entry := fun x => hcollects.places
    found := fun offset x => within_of_find? hsorted (hcollects.follows hsorted)
    notFound := by
      intro offset
      rw [find?_eq hsorted, List.getLast?_eq_none_iff, List.filter_eq_nil_iff]
      simp }

end ObjectLocator

end ProjectFile.Evaluation
