import ProjectFile.Text.Basic

/-!
Tables from texts to texts that keep the order in which their keys were first written.
-/

namespace ProjectFile

/-- A table: each key with its value, in order. -/
abbrev Table := List (Text × Text)

namespace Table

/-- The value of a key. -/
def get? (table : Table) (key : Text) : Option Text := List.lookup key table

/-- Sets the value of a key: in the key's place if it is there, and else at the end. -/
def insert (key value : Text) : Table → Table
  | [] => [(key, value)]
  | entry :: rest =>
    if entry.1 = key then (key, value) :: rest else entry :: Table.insert key value rest

/-- The table that results from setting the given values one after the other. -/
def ofList (entries : List (Text × Text)) : Table :=
  entries.foldl (fun table entry => Table.insert entry.1 entry.2 table) []

/-- Sets all values of another table. -/
def update (table other : Table) : Table :=
  other.foldl (fun table entry => Table.insert entry.1 entry.2 table) table

end Table

end ProjectFile
