import ProjectFile.Text.Table
import Mathlib.Data.List.Induction

/-!
What a table keeps of what is written to it.

A table that results from writes, one after the other, has every key in the place of its first write
and with the value of its last (`Table.find?_ofList`). Setting all values of such a table in another
one is making the same writes there (`Table.update_ofList`).
-/

namespace ProjectFile.Table

/-- The keys of a table, in order. -/
def keys (t : Table) : List Text := t.map Prod.fst

variable {key other value : Text} {t : Table}

theorem mem_keys_cons {entry : Text × Text} :
    key ∈ keys (entry :: t) ↔ key = entry.1 ∨ key ∈ t.keys := List.mem_cons

theorem insert_of_eq {entry : Text × Text} (h : entry.1 = key) (value : Text) (t : Table) :
    Table.insert key value (entry :: t) = (key, value) :: t := if_pos h

theorem insert_of_ne {entry : Text × Text} (h : entry.1 ≠ key) (value : Text) (t : Table) :
    Table.insert key value (entry :: t) = entry :: Table.insert key value t := if_neg h

theorem mem_keys_insert : other ∈ (Table.insert key value t).keys ↔ other = key ∨ other ∈ t.keys := by
  induction t with
  | nil => simp [Table.insert, keys]
  | cons entry t ih =>
    by_cases hkey : entry.1 = key
    · rw [insert_of_eq hkey]
      simp [keys, hkey]
    · rw [insert_of_ne hkey, mem_keys_cons, mem_keys_cons, ih]
      exact or_left_comm

theorem nodup_keys_insert (h : t.keys.Nodup) (key value : Text) :
    (Table.insert key value t).keys.Nodup := by
  induction t with
  | nil => exact List.nodup_cons.2 ⟨List.not_mem_nil, List.nodup_nil⟩
  | cons entry t ih =>
    obtain ⟨hfirst, hrest⟩ := List.nodup_cons.1 h
    by_cases hkey : entry.1 = key
    · rw [insert_of_eq hkey]
      exact List.nodup_cons.2 ⟨hkey ▸ hfirst, hrest⟩
    · rw [insert_of_ne hkey]
      refine List.nodup_cons.2 ⟨fun hmem => ?_, ih hrest⟩
      exact (mem_keys_insert.1 hmem).elim hkey hfirst

/-! ## Writes that commute -/

/-- The second of two writes of a key is as good as both. -/
theorem insert_insert (key value written : Text) (t : Table) :
    Table.insert key value (Table.insert key written t) = Table.insert key value t := by
  induction t with
  | nil => exact insert_of_eq rfl value []
  | cons entry t ih =>
    by_cases hkey : entry.1 = key
    · rw [insert_of_eq hkey, insert_of_eq hkey]
      exact insert_of_eq rfl value t
    · rw [insert_of_ne hkey, insert_of_ne hkey, insert_of_ne hkey, ih]

/-- A key that is there may be written before another one or after it. -/
theorem insert_comm_of_mem (hmem : key ∈ t.keys) (hne : other ≠ key) (value written : Text) :
    Table.insert key value (Table.insert other written t) =
      Table.insert other written (Table.insert key value t) := by
  induction t with
  | nil => cases hmem
  | cons entry t ih =>
    by_cases hkey : entry.1 = key
    · have hother : entry.1 ≠ other := fun h => hne (h.symm.trans hkey)
      rw [insert_of_ne hother, insert_of_eq hkey, insert_of_eq hkey, insert_of_ne hne.symm]
    · by_cases hother : entry.1 = other
      · rw [insert_of_eq hother, insert_of_ne hne, insert_of_ne hkey, insert_of_eq hother]
      · have hrest : key ∈ keys t := (mem_keys_cons.1 hmem).resolve_left (Ne.symm hkey)
        rw [insert_of_ne hother, insert_of_ne hkey, insert_of_ne hkey, insert_of_ne hother,
          ih hrest]

/-- So it may be written before a whole table that does not have it. -/
theorem insert_update_of_mem {u : Table} (hmem : key ∈ t.keys) (hu : key ∉ u.keys) (value : Text) :
    Table.insert key value (t.update u) = (Table.insert key value t).update u := by
  induction u generalizing t with
  | nil => rfl
  | cons entry u ih =>
    obtain ⟨hne, hu⟩ := not_or.1 (fun h => hu (List.mem_cons.2 h))
    have hnow : key ∈ (Table.insert entry.1 entry.2 t).keys := mem_keys_insert.2 (.inr hmem)
    calc Table.insert key value ((Table.insert entry.1 entry.2 t).update u)
        = (Table.insert key value (Table.insert entry.1 entry.2 t)).update u := ih hnow hu
      _ = (Table.insert entry.1 entry.2 (Table.insert key value t)).update u := by
        rw [insert_comm_of_mem hmem (Ne.symm hne)]

/-- Setting the values of a table with one more write. -/
theorem update_insert {u : Table} (hu : u.keys.Nodup) (t : Table) (key value : Text) :
    t.update (Table.insert key value u) = Table.insert key value (t.update u) := by
  induction u generalizing t with
  | nil => rfl
  | cons entry u ih =>
    obtain ⟨hfirst, hu⟩ := List.nodup_cons.1 hu
    by_cases hkey : entry.1 = key
    · subst hkey
      have hnow : entry.1 ∈ (Table.insert entry.1 entry.2 t).keys := mem_keys_insert.2 (.inl rfl)
      rw [insert_of_eq rfl]
      calc (Table.insert entry.1 value t).update u
          = (Table.insert entry.1 value (Table.insert entry.1 entry.2 t)).update u := by
            rw [insert_insert]
        _ = Table.insert entry.1 value ((Table.insert entry.1 entry.2 t).update u) :=
            (insert_update_of_mem hnow hfirst value).symm
    · rw [insert_of_ne hkey]
      exact ih hu (Table.insert entry.1 entry.2 t)

/-! ## Tables of writes -/

theorem ofList_append_singleton (writes : List (Text × Text)) (w : Text × Text) :
    ofList (writes ++ [w]) = Table.insert w.1 w.2 (ofList writes) := List.foldl_append

theorem ofList_append (writes more : List (Text × Text)) :
    ofList (writes ++ more) = (ofList writes).update more := List.foldl_append

/-- A key that is not there yet is written at the end. -/
theorem insert_of_not_mem (h : key ∉ t.keys) (value : Text) :
    Table.insert key value t = t ++ [(key, value)] := by
  induction t with
  | nil => rfl
  | cons entry t ih =>
    obtain ⟨hne, hrest⟩ := not_or.1 fun hmem => h (mem_keys_cons.2 hmem)
    rw [insert_of_ne (Ne.symm hne), ih hrest]
    rfl

/-- Writes of different keys are the table that results from them. -/
theorem ofList_of_nodup {writes : List (Text × Text)} (h : (keys writes).Nodup) :
    ofList writes = writes := by
  induction writes using List.reverseRecOn with
  | nil => rfl
  | append_singleton writes w ih =>
    have hkeys : keys (writes ++ [w]) = keys writes ++ [w.1] := List.map_append
    rw [hkeys, List.nodup_append] at h
    obtain ⟨hwrites, -, hne⟩ := h
    rw [ofList_append_singleton, ih hwrites]
    exact insert_of_not_mem (fun hmem => hne w.1 hmem w.1 (List.mem_singleton_self _) rfl) w.2

theorem nodup_keys_ofList (writes : List (Text × Text)) : (ofList writes).keys.Nodup := by
  induction writes using List.reverseRecOn with
  | nil => exact List.nodup_nil
  | append_singleton writes w ih =>
    rw [ofList_append_singleton]
    exact nodup_keys_insert ih _ _

/-- **Setting the values of a table of writes is making the writes.** -/
theorem update_ofList (writes more : List (Text × Text)) :
    (ofList writes).update (ofList more) = ofList (writes ++ more) := by
  induction more using List.reverseRecOn with
  | nil => rw [List.append_nil]; rfl
  | append_singleton more w ih =>
    rw [ofList_append_singleton, update_insert (nodup_keys_ofList more), ih, ← List.append_assoc,
      ofList_append_singleton]

/-! ## What is found -/

/-- The first entry with some kind of key, after a write. -/
theorem find?_insert (chosen : Text → Bool) (key value : Text) (t : Table) :
    (Table.insert key value t).find? (fun entry => chosen entry.1) =
      match t.find? fun entry => chosen entry.1 with
      | some entry => if entry.1 = key then some (key, value) else some entry
      | none => if chosen key then some (key, value) else none := by
  induction t with
  | nil => exact List.find?_singleton
  | cons entry t ih =>
    by_cases hkey : entry.1 = key
    · subst hkey
      rw [insert_of_eq rfl, List.find?_cons, List.find?_cons]
      cases hchosen : chosen entry.1 with
      | true => simp
      | false =>
        -- No entry of the key is found, so it does not matter whether others have it.
        cases hfind : t.find? fun entry => chosen entry.1 with
        | none => simp
        | some found =>
          have hfound : chosen found.1 = true :=
            List.find?_some (p := fun entry : Text × Text => chosen entry.1) hfind
          have hne : found.1 ≠ entry.1 := fun h => by simp [h, hchosen] at hfound
          simp [hne]
    · rw [insert_of_ne hkey, List.find?_cons, List.find?_cons, ih]
      cases chosen entry.1 with
      | true => simp [hkey]
      | false => rfl

/-- The last write of a key. -/
def lastWrite? (writes : List (Text × Text)) (key : Text) : Option (Text × Text) :=
  writes.reverse.find? fun w => decide (w.1 = key)

theorem lastWrite?_append_singleton (writes : List (Text × Text)) (w : Text × Text) (key : Text) :
    lastWrite? (writes ++ [w]) key = if w.1 = key then some w else lastWrite? writes key := by
  rw [lastWrite?, List.reverse_append, List.reverse_singleton, List.singleton_append,
    List.find?_cons]
  by_cases hkey : w.1 = key <;> simp [hkey, lastWrite?]

/-- **The first entry with some kind of key is of the first key that was written of that kind, with
the value that was written for it last.** -/
theorem find?_ofList (chosen : Text → Bool) (writes : List (Text × Text)) :
    (ofList writes).find? (fun entry => chosen entry.1) =
      (writes.find? fun w => chosen w.1).bind fun first => lastWrite? writes first.1 := by
  induction writes using List.reverseRecOn with
  | nil => rfl
  | append_singleton writes w ih =>
    rw [ofList_append_singleton, find?_insert, ih, List.find?_append]
    cases hfind : writes.find? fun w => chosen w.1 with
    | none =>
      rw [List.find?_singleton]
      dsimp only [Option.bind_none, Option.none_or]
      split
      · rw [Option.bind_some, lastWrite?_append_singleton, if_pos rfl]
      · rfl
    | some first =>
      dsimp only [Option.bind_some, Option.some_or]
      rw [lastWrite?_append_singleton]
      obtain ⟨last, hlast⟩ : ∃ last, lastWrite? writes first.1 = some last := by
        have hmem := List.mem_of_find?_eq_some hfind
        rw [← Option.isSome_iff_exists, lastWrite?, List.find?_isSome]
        exact ⟨first, List.mem_reverse.2 hmem, decide_eq_true rfl⟩
      have hkey : last.1 = first.1 := by
        have hfound := List.find?_some (p := fun w : Text × Text => decide (w.1 = first.1)) hlast
        exact of_decide_eq_true hfound
      rw [hlast]
      dsimp only
      rw [hkey]
      by_cases hsame : first.1 = w.1
      · rw [if_pos hsame, if_pos hsame.symm]
      · rw [if_neg hsame, if_neg (Ne.symm hsame)]

end ProjectFile.Table
