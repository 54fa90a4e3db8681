import Mathlib.Data.List.Induction
import Mathlib.Data.List.Nodup
import ProjectFile.Proofs.Workspace.Run

/-!
The numbers of files.

A table of files holds two maps and a counter. `FileTable.Lists` says what they hold: the table lists
some paths, each by its components and none twice, and the number of a path is its place in the list.
A path that is asked for is found in the list, or is put behind it (`FileTable.Lists.fileId`); no other
request touches the table. By induction along the requests to a host, the table lists the distinct
paths that have been asked for, and every answer is the place of its path (`Host.answers_eq`). So the
numbers are a bijection that no request changes (`Host.isStableBijection_answers`).
-/

namespace ProjectFile

open FilePath

/-! ## Lists without repetition -/

section Distinct

variable {α β : Type} [BEq α] [LawfulBEq α] [BEq β] [LawfulBEq β]

theorem eraseDups_concat (l : List α) (a : α) :
    (l ++ [a]).eraseDups = if a ∈ l then l.eraseDups else l.eraseDups ++ [a] := by
  rw [List.eraseDups_append, List.removeAll]
  split
  · next h => simp [h]
  · next h => simp [h, List.eraseDups_cons]

theorem nodup_eraseDups (l : List α) : l.eraseDups.Nodup := by
  induction l using List.reverseRecOn with
  | nil => exact List.nodup_nil
  | append_singleton l a ih =>
    rw [eraseDups_concat]
    split
    · exact ih
    · next h =>
      rw [← List.concat_eq_append]
      exact ih.concat fun hmem => h (List.mem_eraseDups.mp hmem)

/-- A function that keeps the members of a list apart keeps their first occurrences. -/
theorem eraseDups_map {f : α → β} {l : List α} (hf : ∀ a ∈ l, ∀ b ∈ l, f a = f b → a = b) :
    (l.map f).eraseDups = l.eraseDups.map f := by
  induction l using List.reverseRecOn with
  | nil => rfl
  | append_singleton l a ih =>
    have hmem : f a ∈ l.map f ↔ a ∈ l := by
      refine ⟨fun h => ?_, List.mem_map_of_mem⟩
      obtain ⟨b, hb, hba⟩ := List.mem_map.mp h
      have heq : b = a := hf b (List.mem_append_left _ hb) a (by simp) hba
      exact heq ▸ hb
    have hl := ih fun b hb c hc => hf b (List.mem_append_left _ hb) c (List.mem_append_left _ hc)
    rw [List.map_append, List.map_singleton, eraseDups_concat, eraseDups_concat, hl]
    by_cases h : a ∈ l
    · rw [if_pos h, if_pos (hmem.mpr h)]
    · rw [if_neg h, if_neg (mt hmem.mp h), List.map_append, List.map_singleton]

theorem map_idxOf_self {l : List α} (hl : l.Nodup) :
    l.map (fun a => l.idxOf a) = List.range l.length := by
  refine List.ext_getElem (by simp) fun i hi hi' => ?_
  rw [List.getElem_map, List.getElem_range, hl.idxOf_getElem]

theorem idxOf?_eq_some_idxOf {l : List α} {a : α} (ha : a ∈ l) :
    l.idxOf? a = some (l.idxOf a) := by
  refine List.idxOf?_eq_some_iff.mpr ⟨List.idxOf_lt_length_of_mem ha, List.getElem_idxOf _, ?_⟩
  intro j hj heq
  have hne := List.not_of_lt_findIdx hj
  simp [heq] at hne

end Distinct

/-! ## The two maps -/

/-- A key that is the same as no other is put at the end. -/
theorem setEntry_of_forall_not {κ ν : Type} {same : κ → κ → Bool} {key : κ}
    {entries : List (κ × ν)} (value : ν) (hnew : ∀ e ∈ entries, same e.1 key = false) :
    setEntry same key value entries = entries ++ [(key, value)] := by
  induction entries with
  | nil => rfl
  | cons e entries ih =>
    rw [setEntry, hnew e List.mem_cons_self, if_neg Bool.false_ne_true,
      ih fun e' he' => hnew e' (List.mem_cons_of_mem e he'), List.cons_append]

/-- The paths among some, each by its components, in the order in which they come first. -/
def FilePath.distinct (paths : List FilePath) : List (List Component) :=
  (paths.map components).eraseDups

theorem FilePath.distinct_append (paths more : List FilePath) :
    distinct (paths ++ more) = distinct paths ++
      ((more.map components).removeAll (paths.map components)).eraseDups := by
  rw [distinct, List.map_append, List.eraseDups_append, distinct]

theorem FilePath.distinct_concat (paths : List FilePath) (p : FilePath) :
    distinct (paths ++ [p]) =
      if p.components ∈ distinct paths then distinct paths
      else distinct paths ++ [p.components] := by
  rw [distinct, distinct, List.map_append, List.map_singleton, eraseDups_concat]
  simp only [List.mem_eraseDups]

namespace FileTable

/-- The paths that a table lists, each by its components: the first map numbers them by their places,
the second map leads back, and the counter is at the next place. -/
structure Lists (t : FileTable) (listed : List (List Component)) : Prop where
  nodup : listed.Nodup
  fileOfPath : t.fileOfPath.map (fun e => (e.1.components, e.2.number)) = listed.zipIdx
  pathOfFile : t.pathOfFile.map (fun e => (e.2.components, e.1.number)) = listed.zipIdx
  next : t.next = UInt32.ofNat listed.length

theorem lists_empty : empty.Lists [] := ⟨List.nodup_nil, rfl, rfl, rfl⟩

namespace Lists

variable {t : FileTable} {listed : List (List Component)}

/-- A path is found exactly if it is listed, and its number is its place. -/
theorem lookup (h : t.Lists listed) (p : FilePath) :
    t.lookup p = (listed.idxOf? p.components).map FileId.mk := by
  have hfind : (listed.idxOf? p.components) =
      (t.fileOfPath.find? fun e => e.1.same p).map fun e => e.2.number := by
    rw [List.idxOf?, List.findIdx?_eq_fst_find?_zipIdx, ← h.fileOfPath, List.find?_map,
      Option.map_map]
    rfl
  rw [hfind, Option.map_map]
  rfl

theorem files (h : t.Lists listed) : t.files = (List.range listed.length).map FileId.mk := by
  have hnumbers : t.files.map FileId.number = List.range listed.length := by
    rw [List.range_eq_range', ← List.zipIdx_map_snd, ← h.pathOfFile, List.map_map, FileTable.files,
      List.map_map]
    rfl
  rw [← hnumbers, List.map_map]
  exact (List.map_id _).symm

/-- The path of a file is the one that stands at the file's place. -/
theorem path? (h : t.Lists listed) {file : FileId} {c : List Component}
    (hc : listed[file.number]? = some c) : ∃ q, t.path? file = some q ∧ q.components = c := by
  have hmem : (c, file.number) ∈ listed.zipIdx := List.mk_mem_zipIdx_iff_getElem?.mpr hc
  rw [← h.pathOfFile] at hmem
  obtain ⟨e, he, hentry⟩ := List.mem_map.mp hmem
  have hfile : e.1 = file := congrArg (FileId.mk ·.2) hentry
  cases hq : t.path? file with
  | none =>
    have hne := List.lookup_eq_none_iff.mp hq e he
    simp [hfile] at hne
  | some q =>
    -- The entry that is found need not be `e`, but it is at the same place of the list.
    obtain ⟨front, back, hsplit, -⟩ := List.lookup_eq_some_iff.mp hq
    have hfound : (q.components, file.number) ∈ listed.zipIdx := by
      rw [← h.pathOfFile, hsplit]
      simp
    have hplace := List.mk_mem_zipIdx_iff_getElem?.mp hfound
    exact ⟨q, rfl, Option.some.inj (hplace.symm.trans hc)⟩

/-- A new path is put behind the others, and has the number of the counter. -/
theorem concat (h : t.Lists listed) (hroom : listed.length < UInt32.size) {p : FilePath}
    (hnew : p.components ∉ listed) :
    (t.fileId p).1.Lists (listed ++ [p.components]) ∧ (t.fileId p).2 = ⟨listed.length⟩ := by
  have hlookup : t.lookup p = none := by
    rw [h.lookup, List.idxOf?_eq_none_iff.mpr hnew, Option.map_none]
  have hnumber : t.next.toNat = listed.length := by
    rw [h.next, UInt32.toNat_ofNat_of_lt' hroom]
  have hpath : ∀ e ∈ t.fileOfPath, e.1.same p = false := by
    intro e he
    have hmem : (e.1.components, e.2.number) ∈ listed.zipIdx :=
      h.fileOfPath ▸ List.mem_map_of_mem he
    refine beq_false_of_ne fun heq => hnew ?_
    exact heq ▸ List.fst_mem_of_mem_zipIdx hmem
  have hfile : ∀ e ∈ t.pathOfFile, (e.1 == (⟨t.next.toNat⟩ : FileId)) = false := by
    intro e he
    have hmem : (e.2.components, e.1.number) ∈ listed.zipIdx :=
      h.pathOfFile ▸ List.mem_map_of_mem he
    have hlt : e.1.number < listed.length := by simpa using List.snd_lt_of_mem_zipIdx hmem
    refine beq_false_of_ne fun heq => ?_
    rw [heq, hnumber] at hlt
    exact Nat.lt_irrefl _ hlt
  simp only [FileTable.fileId, hlookup]
  have hnodup : (listed ++ [p.components]).Nodup := by
    rw [← List.concat_eq_append]
    exact h.nodup.concat hnew
  refine ⟨⟨hnodup, ?_, ?_, ?_⟩, congrArg FileId.mk hnumber⟩
  · rw [setEntry_of_forall_not _ hpath, List.map_append, h.fileOfPath, List.zipIdx_append, hnumber]
    simp
  · rw [setEntry_of_forall_not _ hfile, List.map_append, h.pathOfFile, List.zipIdx_append, hnumber]
    simp
  · rw [h.next, List.length_append, List.length_singleton, UInt32.ofNat_add]
    rfl

/-- **A path that is asked for gets its place in the list, behind which it is put if it is new.** -/
theorem fileId {paths : List FilePath} (h : t.Lists (distinct paths))
    (hroom : (distinct paths).length < UInt32.size) (p : FilePath) :
    (t.fileId p).1.Lists (distinct (paths ++ [p])) ∧
    (t.fileId p).2 = ⟨(distinct (paths ++ [p])).idxOf p.components⟩ := by
  by_cases hseen : p.components ∈ distinct paths
  · have hfound : t.lookup p = some ⟨(distinct paths).idxOf p.components⟩ := by
      rw [h.lookup, idxOf?_eq_some_idxOf hseen, Option.map_some]
    have hsame : t.fileId p = (t, ⟨(distinct paths).idxOf p.components⟩) := by
      rw [FileTable.fileId, hfound]
    rw [distinct_concat, if_pos hseen, hsame]
    exact ⟨h, rfl⟩
  · obtain ⟨hlists, hnumber⟩ := h.concat hroom hseen
    rw [distinct_concat, if_neg hseen]
    refine ⟨hlists, hnumber.trans ?_⟩
    rw [List.idxOf_append, if_neg hseen, List.idxOf_cons_self, Nat.zero_add]

end Lists

end FileTable

/-! ## Requests -/

namespace Workspace

/-- What is asked of a host: the number of a path, or a call. -/
inductive Request where
  | fileId (path : FilePath)
  | call (call : Call)

namespace Request

/-- The path whose number a request is answered with. -/
def path? : Request → Option FilePath
  | fileId path => some path
  | call (.openDocument path _ _) => some path
  | call _ => none

/-- The host after a request, and the number that is answered, with the path that has it. -/
def perform (h : Host) : Request → Host × Option (FilePath × FileId)
  | fileId path =>
    let (files, file) := h.files.fileId path
    ({ h with files := files }, some (path, file))
  | call (.openDocument path t version) =>
    let (after, file, _) := h.openDocument path t version
    (after, some (path, file))
  | call c => ((h.perform c).1, none)

/-- A request with a path is answered by the table of files. -/
theorem perform_of_path {r : Request} {path : FilePath} (hr : r.path? = some path) (h : Host) :
    (r.perform h).1.files = (h.files.fileId path).1 ∧
    (r.perform h).2 = some (path, (h.files.fileId path).2) := by
  rcases r with asked | call
  · obtain rfl : asked = path := Option.some.inj hr
    exact ⟨rfl, rfl⟩
  · cases call with
    | openDocument opened t version =>
      obtain rfl : opened = path := Option.some.inj hr
      exact ⟨rfl, rfl⟩
    | update file t version => cases hr
    | save file => cases hr
    | close file => cases hr

/-- No other request touches the table. -/
theorem perform_of_no_path {r : Request} (hr : r.path? = none) (h : Host) :
    (r.perform h).1.files = h.files ∧ (r.perform h).2 = none := by
  rcases r with asked | call
  · cases hr
  · cases call with
    | openDocument opened t version => cases hr
    | update file t version => exact ⟨h.files_perform (.update file t version), rfl⟩
    | save file => exact ⟨h.files_perform (.save file), rfl⟩
    | close file => exact ⟨h.files_perform (.close file), rfl⟩

end Request

namespace Host

/-- The host after some requests. -/
def after (h : Host) (requests : List Request) : Host :=
  requests.foldl (fun h r => (r.perform h).1) h

/-- The numbers that some requests are answered with, each with its path. -/
def answers (h : Host) : List Request → List (FilePath × FileId)
  | [] => []
  | r :: rs => (r.perform h).2.toList ++ (r.perform h).1.answers rs

theorem after_cons (h : Host) (r : Request) (rs : List Request) :
    h.after (r :: rs) = (r.perform h).1.after rs := rfl

/-- The number of a path if these are the paths that are asked for: its place among them. -/
def numberAmong (paths : List FilePath) (p : FilePath) : FileId :=
  ⟨(FilePath.distinct paths).idxOf p.components⟩

/-- The number of a path stays the same while more paths are asked for. -/
theorem numberAmong_append {paths : List FilePath} {p : FilePath} (more : List FilePath)
    (hp : p.components ∈ FilePath.distinct paths) :
    numberAmong (paths ++ more) p = numberAmong paths p := by
  rw [numberAmong, FilePath.distinct_append, List.idxOf_append, if_pos hp, numberAmong]

/-- **After some requests the table lists the distinct paths that have been asked for, and every
answer is the place of its path among them.** -/
theorem lists_after (requests : List Request) {h : Host} {seen : List FilePath}
    (hlists : h.files.Lists (FilePath.distinct seen))
    (hroom : (FilePath.distinct (seen ++ requests.filterMap Request.path?)).length < UInt32.size) :
    (h.after requests).files.Lists
      (FilePath.distinct (seen ++ requests.filterMap Request.path?)) ∧
    h.answers requests = (requests.filterMap Request.path?).map fun p =>
      (p, numberAmong (seen ++ requests.filterMap Request.path?) p) := by
  induction requests generalizing h seen with
  | nil => exact ⟨by simpa [after] using hlists, rfl⟩
  | cons r rs ih =>
    rw [after_cons, answers]
    cases hr : r.path? with
    | none =>
      obtain ⟨hfiles, hanswer⟩ := Request.perform_of_no_path hr h
      rw [List.filterMap_cons_none hr] at hroom ⊢
      rw [hanswer, Option.toList_none, List.nil_append]
      exact ih (hfiles ▸ hlists) hroom
    | some p =>
      obtain ⟨hfiles, hanswer⟩ := Request.perform_of_path hr h
      rw [List.filterMap_cons_some hr, List.append_cons] at hroom ⊢
      have hbefore : (FilePath.distinct seen).length < UInt32.size := by
        rw [FilePath.distinct_append, FilePath.distinct_append, List.length_append,
          List.length_append] at hroom
        omega
      obtain ⟨hnext, hnumber⟩ := hlists.fileId hbefore p
      obtain ⟨hafter, hanswers⟩ := ih (hfiles ▸ hnext) hroom
      have hmem : p.components ∈ FilePath.distinct (seen ++ [p]) := by
        rw [FilePath.distinct, List.mem_eraseDups]
        simp
      refine ⟨hafter, ?_⟩
      rw [hanswer, hanswers, hnumber, List.map_cons, numberAmong_append _ hmem]
      rfl

/-- Two of the paths that are asked for have one number exactly if they are the same. -/
theorem numberAmong_inj {paths : List FilePath} {p q : FilePath} (hp : p ∈ paths) :
    numberAmong paths p = numberAmong paths q ↔ p.components = q.components := by
  have hmem : p.components ∈ FilePath.distinct paths :=
    List.mem_eraseDups.mpr (List.mem_map_of_mem hp)
  rw [numberAmong, numberAmong, FileId.mk.injEq, List.idxOf_inj hmem]

/-- The numbers of the paths that are asked for first come in order. -/
theorem eraseDups_map_numberAmong (paths : List FilePath) :
    (paths.map (numberAmong paths)).eraseDups =
      (List.range (FilePath.distinct paths).length).map FileId.mk := by
  have hcomponents : paths.map (numberAmong paths) =
      ((paths.map FilePath.components).map fun c => (FilePath.distinct paths).idxOf c).map
        FileId.mk := by
    rw [List.map_map, List.map_map]
    rfl
  rw [hcomponents, eraseDups_map fun _ _ _ _ h => congrArg FileId.number h, eraseDups_map]
  · rw [← FilePath.distinct, map_idxOf_self (l := FilePath.distinct paths) (nodup_eraseDups _)]
  · intro c hc d _ heq
    exact (List.idxOf_inj (List.mem_eraseDups.mpr hc)).mp heq

/-- A table that lists the paths that are asked for finds them, and nothing else. -/
theorem lookup_eq_some_iff {t : FileTable} {paths : List FilePath}
    (h : t.Lists (FilePath.distinct paths)) (p : FilePath) (file : FileId) :
    t.lookup p = some file ↔
      ∃ q ∈ paths, q.components = p.components ∧ numberAmong paths q = file := by
  rw [h.lookup]
  constructor
  · intro hfound
    have hmem : p.components ∈ FilePath.distinct paths := by
      by_contra hnot
      rw [List.idxOf?_eq_none_iff.mpr hnot] at hfound
      cases hfound
    obtain ⟨q, hq, hsame⟩ := List.mem_map.mp (List.mem_eraseDups.mp hmem)
    rw [idxOf?_eq_some_idxOf hmem, Option.map_some, ← hsame] at hfound
    exact ⟨q, hq, hsame, Option.some.inj hfound⟩
  · rintro ⟨q, hq, hsame, rfl⟩
    have hmem : q.components ∈ FilePath.distinct paths :=
      List.mem_eraseDups.mpr (List.mem_map_of_mem hq)
    rw [← hsame, idxOf?_eq_some_idxOf hmem]
    rfl

/-- The numbers that are answered and the table are a bijection: a number is answered for one path,
whatever it is written as, and for no other. -/
structure IsStableBijection (answers : List (FilePath × FileId)) (files : FileTable) : Prop where
  /-- Two answers are the same number exactly if their paths are the same. -/
  eq_iff : ∀ a ∈ answers, ∀ b ∈ answers, a.2 = b.2 ↔ a.1.components = b.1.components
  /-- The numbers first come in order, without a gap. -/
  inOrder : ∃ n, (answers.map Prod.snd).eraseDups = (List.range n).map FileId.mk
  /-- A path is known exactly if it has been asked for, and under the number that was answered. -/
  lookup_iff : ∀ path file, files.lookup path = some file ↔
    ∃ a ∈ answers, a.1.components = path.components ∧ a.2 = file
  /-- From the number of a path the table leads back to the path. -/
  path : ∀ path file, files.lookup path = some file →
    ∃ q, files.path? file = some q ∧ q.components = path.components
  /-- The files are the numbers that were answered, once each and in their order. -/
  files : files.files = (answers.map Prod.snd).eraseDups

/-- **The numbers that a host gives to files are a bijection that no request changes**, as long as
there are numbers left: every request with a path is answered, and whatever documents are opened,
updated, saved and closed in between, the answers from the first request to the last and the table
that is left at the end agree. -/
theorem isStableBijection_answers (analysis : Analysis) (schema : SchemaHelp)
    (requests : List Request)
    (hroom : (FilePath.distinct (requests.filterMap Request.path?)).length < UInt32.size) :
    ((empty analysis schema).answers requests).map Prod.fst = requests.filterMap Request.path? ∧
    IsStableBijection ((empty analysis schema).answers requests)
      ((empty analysis schema).after requests).files := by
  have hempty : (empty analysis schema).files.Lists (FilePath.distinct []) := FileTable.lists_empty
  obtain ⟨hlists, hanswers⟩ := lists_after requests hempty hroom
  rw [List.nil_append] at hlists hanswers
  generalize requests.filterMap Request.path? = paths at hlists hanswers
  have hnumbers : ((paths.map fun p => (p, numberAmong paths p)).map Prod.snd).eraseDups =
      (List.range (FilePath.distinct paths).length).map FileId.mk := by
    rw [List.map_map]
    exact eraseDups_map_numberAmong paths
  rw [hanswers, List.map_map, List.map_id'']
  · refine ⟨rfl, ?_, ?_, ?_, ?_, ?_⟩
    · rintro _ ha _ hb
      obtain ⟨p, hp, rfl⟩ := List.mem_map.mp ha
      obtain ⟨q, -, rfl⟩ := List.mem_map.mp hb
      exact numberAmong_inj hp
    · exact ⟨_, hnumbers⟩
    · intro p file
      simp only [lookup_eq_some_iff hlists, List.mem_map, exists_exists_and_eq_and]
    · intro p file hfound
      rw [hlists.lookup] at hfound
      obtain ⟨place, hplace, rfl⟩ := Option.map_eq_some_iff.mp hfound
      obtain ⟨hlt, hget, -⟩ := List.idxOf?_eq_some_iff.mp hplace
      exact hlists.path? (List.getElem?_eq_some_iff.mpr ⟨hlt, hget⟩)
    · rw [hlists.files, hnumbers]
  · exact fun _ => rfl

/-- A project that is asked for, opened as it is written elsewhere, closed, and opened again, with
another file in between. -/
def reopened : List Request :=
  [.fileId ⟨"/src/app.csproj".toList⟩,
    .call (.openDocument ⟨"/src//app.csproj/".toList⟩ "<Project/>".toList 1),
    .call (.update ⟨0⟩ "<Project></Project>".toList 2),
    .call (.close ⟨0⟩),
    .fileId ⟨"/src/../app.csproj".toList⟩,
    .call (.openDocument ⟨"/src/./app.csproj".toList⟩ "<Project/>".toList 1)]

/-- The numbers of the reopened project. -/
theorem isStableBijection_reopened :
    let h := empty ⟨fun _ _ _ => .error (.failed "no tools"), ⟨.onSave, [], none⟩⟩ .builtin
    (FilePath.distinct (reopened.filterMap Request.path?)).length < UInt32.size ∧
    (h.answers reopened).map Prod.fst = reopened.filterMap Request.path? ∧
    IsStableBijection (h.answers reopened) (h.after reopened).files := by
  have hroom : (FilePath.distinct (reopened.filterMap Request.path?)).length < UInt32.size := by
    decide +kernel
  exact ⟨hroom, isStableBijection_answers _ _ reopened hroom⟩

/-- The three ways to write the project are file 0, and the path that leads elsewhere is file 1. -/
example :
    let h := empty ⟨fun _ _ _ => .error (.failed "no tools"), ⟨.onSave, [], none⟩⟩ .builtin
    (h.answers reopened).map (fun a => a.2.number) = [0, 0, 1, 0] := by decide +kernel

end Host

end Workspace

end ProjectFile
