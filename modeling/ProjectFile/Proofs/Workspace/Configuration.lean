import ProjectFile.Workspace.Settings
import ProjectFile.Proofs.Json.Values
import ProjectFile.Proofs.Json.Written
import ProjectFile.Proofs.Text.Table

/-!
Settings and help survive being stored as JSON.

They are written as an object, a member for each of their parts. A part is looked up by its name, so it
does not matter where its member stands and which others are there (`Json.member?_eq_decode`), nor how
the object is spelled, since the reader accepts every spelling of a value as the value
(`Json.parse_eq_some_iff`). What is left to show for each kind of configuration is that its parts are
decoded from the values that they are written as (`Settings.ofJson?_eq_some`, `SchemaHelp.ofJson?_eq_some`).
-/

namespace ProjectFile

namespace Json

/-! ## Members -/

/-- Whether a text is an object with the members of another one, in any order and with any further
members. No two of them have the same name, and every name is a text. -/
def Rearranges (t s : Text) : Prop :=
  ∃ all own further, SpellsSpaced (.object all) t ∧ SpellsSpaced (.object own) s ∧
    all.Perm (own ++ further) ∧ (all.map Prod.fst).Nodup

/-- The one member of a name decides what is decoded for the name. -/
theorem member?_eq_decode {α : Type} {members : List (Text × Json)}
    (hdistinct : (members.map Prod.fst).Nodup) {name : Text} {value : Json}
    (hmem : (name, value) ∈ members) (decode : Json → Option α) (default : α) :
    member? members name decode default = decode value := by
  have hfilter : (members.filter fun m => m.1 == name) = [(name, value)] := by
    induction members with
    | nil => cases hmem
    | cons m members ih =>
      obtain ⟨hm, hmembers⟩ := List.nodup_cons.1 hdistinct
      rcases List.mem_cons.1 hmem with rfl | hmem
      · have hnone : (members.filter fun m => m.1 == name) = [] := by
          rw [List.filter_eq_nil_iff]
          intro m hin hname
          exact hm (List.mem_map.2 ⟨m, hin, beq_iff_eq.1 hname⟩)
        have hname : (name == name) = true := beq_iff_eq.2 rfl
        rw [List.filter_cons, if_pos hname, hnone]
      · have hne : ¬ (m.1 == name) = true := fun hname =>
          hm (List.mem_map.2 ⟨_, hmem, (beq_iff_eq.1 hname).symm⟩)
        rw [List.filter_cons, if_neg hne, ih hmembers hmem]
  rw [member?, hfilter]

/-- A table is decoded from the value that it is written as. -/
theorem table?_ofTable {table : Table} (h : table.keys.Nodup) : table? (ofTable table) = some table := by
  have hentries : ∀ entries : List (Text × Text),
      ((entries.map fun entry => (entry.1, Json.string entry.2)).mapM fun (m : Text × Json) =>
        m.2.text?.map fun value => (m.1, value)) = some entries := by
    intro entries
    induction entries with
    | nil => rfl
    | cons entry entries ih => rw [List.map_cons, List.mapM_cons, ih]; rfl
  rw [ofTable, table?, hentries, Option.map_some, Table.ofList_of_nodup h]

end Json

namespace Workspace

open Json (Rearranges Spells ofTable)

/-! ## Configurations -/

/-- What it means for a configuration to survive being stored: it is written as an object, and it is
read from what is written and from every rearrangement of that. -/
structure Survives {α : Type} (parse : Text → Except ConfigurationError α) (serialize : α → Text)
    (a : α) : Prop where
  rearranges_self : Rearranges (serialize a) (serialize a)
  parse_serialize : parse (serialize a) = .ok a
  parse_rearranged : ∀ t, Rearranges t (serialize a) → parse t = .ok a

/-- A configuration that is written as an object survives if it is decoded from every object that has
the members of that one. -/
theorem Survives.of_members {α : Type} {parse : Text → Except ConfigurationError α}
    {serialize : α → Text} {a : α} {own : List (Text × Json)} (decode : Json → Option α)
    (hparse : ∀ t, (Json.parse t).bind decode = some a → parse t = .ok a)
    (hspells : Spells (.object own) (serialize a)) (hdistinct : (own.map Prod.fst).Nodup)
    (hdecode : ∀ all : List (Text × Json), (all.map Prod.fst).Nodup → own ⊆ all →
      decode (.object all) = some a) :
    Survives parse serialize a := by
  have hread := Json.parse_eq_some_iff.2 hspells.spaced
  have hobject : ∀ t (all : List (Text × Json)), Json.parse t = some (.object all) →
      (all.map Prod.fst).Nodup → own ⊆ all → parse t = .ok a := by
    intro t all ht hall hsubset
    apply hparse
    rw [ht, Option.bind_some, hdecode all hall hsubset]
  have hself : Rearranges (serialize a) (serialize a) :=
    ⟨own, own, [], hspells.spaced, hspells.spaced, .of_eq (List.append_nil own).symm, hdistinct⟩
  refine ⟨hself, hobject _ own hread hdistinct (List.Subset.refl own), ?_⟩
  rintro t ⟨all, own', further, ht, hs, hperm, hall⟩
  -- The text that is written is an object of no other members.
  have hsame : own' = own := by
    rw [Json.parse_eq_some_iff.2 hs, Option.some.injEq, Json.object.injEq] at hread
    exact hread
  subst hsame
  have hsubset : own' ⊆ all := fun m hm => hperm.mem_iff.2 (List.mem_append_left further hm)
  exact hobject t all (Json.parse_eq_some_iff.2 ht) hall hsubset

/-! ## Settings -/

theorem EvaluationPolicy.ofJson?_text (policy : EvaluationPolicy) :
    ofJson? (.string policy.text.toList) = some policy := by
  cases policy <;> decide

namespace Settings

/-- The value that the path of a help file is written as. -/
def pathJson : Option FilePath → Json
  | some path => .string path.text
  | none => .null

theorem pathOfJson?_pathJson (path : Option FilePath) : pathOfJson? (pathJson path) = some path := by
  cases path <;> rfl

/-- The members that settings are written as. -/
def members (s : Settings) : List (Text × Json) :=
  [("evaluation".toList, .string s.evaluation.text.toList),
   ("globalProperties".toList, ofTable s.globalProperties),
   ("schemaHelp".toList, pathJson s.schemaHelp)]

theorem spells_serialize (s : Settings) : Spells (.object s.members) s.serialize := by
  apply Json.spells_writeObject (fun e : Text × Json × Text => e.1) (fun e => e.2.1) (fun e => e.2.2)
    [("evaluation".toList, _, _), ("globalProperties".toList, _, _), ("schemaHelp".toList, _, _)]
  simp only [List.forall_mem_cons]
  refine ⟨.string (Json.spellsString_writeString _), Json.spells_writeTable s.globalProperties, ?_,
    List.forall_mem_nil _⟩
  cases s.schemaHelp with
  | none => exact .nullWord
  | some path => exact .string (Json.spellsString_writeString path.text)

theorem ofJson?_eq_some {s : Settings} (h : s.globalProperties.keys.Nodup) {all : List (Text × Json)}
    (hdistinct : (all.map Prod.fst).Nodup) (hsubset : s.members ⊆ all) :
    ofJson? (.object all) = some s := by
  simp only [members, List.cons_subset] at hsubset
  obtain ⟨hevaluation, hproperties, hhelp, -⟩ := hsubset
  simp only [ofJson?, Json.member?_eq_decode hdistinct hevaluation,
    Json.member?_eq_decode hdistinct hproperties, Json.member?_eq_decode hdistinct hhelp,
    EvaluationPolicy.ofJson?_text, Json.table?_ofTable h, pathOfJson?_pathJson]
  rfl

theorem survives {s : Settings} (h : s.globalProperties.keys.Nodup) : Survives parse serialize s := by
  have hdistinct : (s.members.map Prod.fst).Nodup := by
    show ["evaluation".toList, "globalProperties".toList, "schemaHelp".toList].Nodup
    decide
  refine .of_members ofJson? (fun t ht => ?_) s.spells_serialize hdistinct fun _ => ofJson?_eq_some h
  rw [parse, ht]

end Settings

/-! ## Help -/

namespace SchemaHelp

/-- The members that help is written as. -/
def members (help : SchemaHelp) : List (Text × Json) :=
  [("elements".toList, ofTable help.elements), ("attributes".toList, ofTable help.attributes)]

theorem spells_serialize (help : SchemaHelp) : Spells (.object help.members) help.serialize := by
  apply Json.spells_writeObject (fun e : Text × Json × Text => e.1) (fun e => e.2.1) (fun e => e.2.2)
    [("elements".toList, _, _), ("attributes".toList, _, _)]
  simp only [List.forall_mem_cons]
  exact ⟨Json.spells_writeTable help.elements, Json.spells_writeTable help.attributes,
    List.forall_mem_nil _⟩

theorem ofJson?_eq_some {help : SchemaHelp} (helements : help.elements.keys.Nodup)
    (hattributes : help.attributes.keys.Nodup) {all : List (Text × Json)}
    (hdistinct : (all.map Prod.fst).Nodup) (hsubset : help.members ⊆ all) :
    ofJson? (.object all) = some help := by
  simp only [members, List.cons_subset] at hsubset
  obtain ⟨helementsMem, hattributesMem, -⟩ := hsubset
  simp only [ofJson?, Json.member?_eq_decode hdistinct helementsMem,
    Json.member?_eq_decode hdistinct hattributesMem, Json.table?_ofTable helements,
    Json.table?_ofTable hattributes]
  rfl

theorem survives {help : SchemaHelp} (helements : help.elements.keys.Nodup)
    (hattributes : help.attributes.keys.Nodup) : Survives parse serialize help := by
  have hdistinct : (help.members.map Prod.fst).Nodup := by
    show ["elements".toList, "attributes".toList].Nodup
    decide
  refine .of_members ofJson? (fun t ht => ?_) help.spells_serialize hdistinct fun _ =>
    ofJson?_eq_some helements hattributes
  rw [parse, ht]

end SchemaHelp

/-- **Settings and help survive being stored**, whatever their tables hold, if no key is in a table
twice. -/
theorem survives_stored (s : Settings) (help : SchemaHelp) (hproperties : s.globalProperties.keys.Nodup)
    (helements : help.elements.keys.Nodup) (hattributes : help.attributes.keys.Nodup) :
    Survives Settings.parse Settings.serialize s ∧
      Survives SchemaHelp.parse SchemaHelp.serialize help :=
  ⟨Settings.survives hproperties, SchemaHelp.survives helements hattributes⟩

/-- Space, other escapes of the same characters and members that settings do not have make no
difference. -/
example : Settings.parse
    ("\x7b \"x\":[0,\x7b\"\\ud800\":1E+2\x7d],\"globalProperties\":\x7b\"\\u0061\":\"\\ud83d\\uDE00\"\x7d ," ++
      "\"evaluation\":\"onSave\"\x7d").toList =
    .ok ⟨.onSave, [("a".toList, "😀".toList)], none⟩ := by decide +kernel

/-- Settings whose table holds what has to be escaped, and help. The members of the settings are
written backwards, and with one in front that settings do not have. -/
theorem survives_stored_backwards :
    let s : Settings := ⟨.onSave, [("b\"\\".toList, "\n\x01😀".toList), ("a".toList, [])],
      some ⟨"/h".toList⟩⟩
    let help : SchemaHelp := ⟨[("Foo".toList, "é".toList)], [("Foo@Bar".toList, "\t".toList)]⟩
    let t := Json.writeObject
      [Json.writeMember "x".toList "[-0.5,null]".toList,
       Json.writeMember "schemaHelp".toList (Json.writeString "/h".toList),
       Json.writeMember "globalProperties".toList (Json.writeTable s.globalProperties),
       Json.writeMember "evaluation".toList (Json.writeString "onSave".toList)]
    s.globalProperties.keys.Nodup ∧ help.elements.keys.Nodup ∧ help.attributes.keys.Nodup ∧
      Rearranges t s.serialize ∧ Settings.parse t = .ok s ∧
      SchemaHelp.parse help.serialize = .ok help := by
  intro s help t
  have hproperties : s.globalProperties.keys.Nodup := by decide
  have helements : help.elements.keys.Nodup := by decide
  have hattributes : help.attributes.keys.Nodup := by decide
  obtain ⟨hsettings, hhelp⟩ := survives_stored s help hproperties helements hattributes
  let further : List (Text × Json) := [("x".toList, .array [.number "-0.5".toList, .null])]
  have hfurther : Spells (.array [.number "-0.5".toList, .null]) "[-0.5,null]".toList := by
    have hnumber : Json.IsNumber ("-0.5".toList.take 4) := Json.isNumber_take rfl
    exact .array (.more (Spells.number hnumber).spaced (.last Spells.nullWord.spaced))
  have hspells : Spells (.object (s.members ++ further).reverse) t := by
    apply Json.spells_writeObject (fun e : Text × Json × Text => e.1) (fun e => e.2.1)
      (fun e => e.2.2) [("x".toList, _, _), ("schemaHelp".toList, _, _),
        ("globalProperties".toList, _, _), ("evaluation".toList, _, _)]
    simp only [List.forall_mem_cons]
    exact ⟨hfurther, .string (Json.spellsString_writeString _), Json.spells_writeTable _,
      .string (Json.spellsString_writeString _), List.forall_mem_nil _⟩
  have hdistinct : ((s.members ++ further).reverse.map Prod.fst).Nodup := by
    show ["x".toList, "schemaHelp".toList, "globalProperties".toList, "evaluation".toList].Nodup
    decide
  have hrearranges : Rearranges t s.serialize :=
    ⟨_, _, further, hspells.spaced, s.spells_serialize.spaced, List.reverse_perm _, hdistinct⟩
  exact ⟨hproperties, helements, hattributes, hrearranges, hsettings.parse_rearranged t hrearranges,
    hhelp.parse_serialize⟩

end Workspace

end ProjectFile
