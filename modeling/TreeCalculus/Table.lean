import TreeCalculus.Text.Basic

/-!
Tables: finite maps from names that remember the order in which the names came.

Storing under a name that is present replaces the value and keeps the place, so the order of a table
is the order of first storing.

* `Table.find?`, `Table.insert`: look-up and storing.
* `Table.names`, `Table.ofEntries`: the names in order, and the table that stores a list of entries
  one after the other.
-/

namespace TreeCalculus

/-- A finite map from names, in the order of first storing. -/
structure Table (α : Type) (ν : Type := Text) where
  /-- The entries, one for each name. -/
  entries : List (ν × α) := []

namespace Table

variable {α ν : Type}

/-- The table without entries. -/
def empty : Table α ν := {}

/-- The names in order. -/
def names (t : Table α ν) : List ν := t.entries.map Prod.fst

/-- How many names are present. -/
def size (t : Table α ν) : Nat := t.entries.length

variable [BEq ν]

/-- The value stored under a name. -/
def find? (t : Table α ν) (name : ν) : Option α := t.entries.lookup name

/-- Whether something is stored under a name. -/
def contains (t : Table α ν) (name : ν) : Bool := (t.find? name).isSome

/-- Store in a list of entries: in the place of the name if it is present, else at the end. -/
def insertEntry (name : ν) (value : α) : List (ν × α) → List (ν × α)
  | [] => [(name, value)]
  | entry :: rest =>
      if entry.1 == name then (entry.1, value) :: rest else entry :: insertEntry name value rest

/-- Store a value under a name. -/
def insert (t : Table α ν) (name : ν) (value : α) : Table α ν :=
  ⟨insertEntry name value t.entries⟩

/-- Store entries one after the other; a repeated name keeps its first place and its last value. -/
def insertAll (t : Table α ν) (entries : List (ν × α)) : Table α ν :=
  entries.foldl (fun table entry => table.insert entry.1 entry.2) t

/-- The table of a list of entries. -/
def ofEntries (entries : List (ν × α)) : Table α ν := empty.insertAll entries

end Table

end TreeCalculus
