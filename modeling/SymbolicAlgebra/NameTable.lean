/-!
# Tables of names

Names are registered under consecutive numbers of 32 bits.  A name keeps its
number, and registering it again gives the same one.  The table is kept both
ways, from names to numbers and from numbers to names.
-/

namespace SymbolicAlgebra

/-- The number that a name is registered under. -/
structure NameId where
  number : UInt32
deriving DecidableEq

/-- Registered names with their numbers, and the names in the order of their
numbers. -/
structure NameTable where
  ids : List (String × NameId)
  names : List String

namespace NameTable

/-- A table without names. -/
def empty : NameTable := ⟨[], []⟩

/-- The number of a registered name. -/
def lookup? (table : NameTable) (name : String) : Option NameId := table.ids.lookup name

/-- The name registered under a number, or a question mark. -/
def name (table : NameTable) (id : NameId) : String :=
  table.names[id.number.toNat]?.getD "?"

/-- The number of a name, registered under the next number if it was not before. -/
def register (table : NameTable) (name : String) : NameId × NameTable :=
  match table.lookup? name with
  | some id => (id, table)
  | none =>
      let id : NameId := ⟨UInt32.ofNat table.names.length⟩
      (id, ⟨(name, id) :: table.ids, table.names ++ [name]⟩)

/-- The number of a name.  Only a name that is not found is registered; by then
somebody else may have done so. -/
def intern (table : NameTable) (name : String) : NameId × NameTable :=
  match table.lookup? name with
  | some id => (id, table)
  | none => table.register name

/-- Registers several names in order. -/
def internAll (table : NameTable) : List String → List NameId × NameTable
  | [] => ([], table)
  | name :: names =>
      let (id, table) := table.intern name
      let (ids, table) := table.internAll names
      (id :: ids, table)

end NameTable

end SymbolicAlgebra
