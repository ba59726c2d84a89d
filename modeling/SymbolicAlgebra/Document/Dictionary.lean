/-!
# Dictionaries

Finite maps from texts, kept as lists of entries in ascending order of their
keys.  Two dictionaries with the same entries are the same list.
-/

namespace SymbolicAlgebra

/-- A finite map from texts, as a list sorted by key. -/
abbrev Dictionary (Value : Type) := List (String × Value)

namespace Dictionary

variable {Value : Type}

/-- The value of a key. -/
def get? (dictionary : Dictionary Value) (key : String) : Option Value :=
  (dictionary.find? (·.1 = key)).map (·.2)

/-- Sets the value of a key. -/
def insert (key : String) (value : Value) : Dictionary Value → Dictionary Value
  | [] => [(key, value)]
  | (other, old) :: rest =>
      match compare key other with
      | .lt => (key, value) :: (other, old) :: rest
      | .eq => (key, value) :: rest
      | .gt => (other, old) :: insert key value rest

/-- Sets the values of several keys in order, so that the last one wins. -/
def insertAll (dictionary : Dictionary Value) (entries : List (String × Value)) :
    Dictionary Value :=
  entries.foldl (fun result entry => insert entry.1 entry.2 result) dictionary

end Dictionary

end SymbolicAlgebra
