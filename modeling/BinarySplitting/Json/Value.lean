/-!
# Documents

The values of the data format in which settings are read and reports are written. Integers and
machine numbers are kept apart, and an object lists its members in the order of their keys, each
key once.
-/

namespace BinarySplitting

inductive Json where
  | null
  | bool (b : Bool)
  | integer (i : Int)
  | number (x : Float)
  | string (s : String)
  | array (items : List Json)
  | object (members : List (String × Json))

namespace Json

instance : Inhabited Json := ⟨.null⟩

/-- Puts a member in its place; a value that the key has already is replaced. -/
def insert (key : String) (value : Json) : List (String × Json) → List (String × Json)
  | [] => [(key, value)]
  | (k, v) :: rest =>
    if key = k then (key, value) :: rest
    else if key < k then (key, value) :: (k, v) :: rest
    else (k, v) :: insert key value rest

/-- The object with the given members; of two with one key the later counts. -/
def ofMembers (members : List (String × Json)) : Json :=
  .object (members.foldl (fun ms (key, value) => insert key value ms) [])

/-- The value of a key in a list of members. -/
def lookup (key : String) : List (String × Json) → Option Json
  | [] => none
  | (k, v) :: rest => if key = k then some v else lookup key rest

/-- The member of an object with a key; other values have no members. -/
def member? (key : String) : Json → Option Json
  | .object members => lookup key members
  | _ => none

theorem lookup_insert_self (key : String) (value : Json) (members : List (String × Json)) :
    lookup key (insert key value members) = some value := by
  induction members with
  | nil => simp [insert, lookup]
  | cons m rest ih =>
    obtain ⟨k, v⟩ := m
    unfold insert
    split
    · simp [lookup]
    · split
      · simp [lookup]
      · simp [lookup, *]

theorem lookup_insert_of_ne {key other : String} (value : Json) (h : other ≠ key)
    (members : List (String × Json)) :
    lookup other (insert key value members) = lookup other members := by
  induction members with
  | nil => simp [insert, lookup, h]
  | cons m rest ih =>
    obtain ⟨k, v⟩ := m
    unfold insert
    split
    · next e => subst e; simp [lookup, h]
    · split
      · simp [lookup, h]
      · simp [lookup, ih]

end Json

end BinarySplitting
