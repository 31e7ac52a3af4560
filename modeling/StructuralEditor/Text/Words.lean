/-!
# Phrases of a description

* `enumerate` : a list read aloud, `a, b and c`;
* `pluralize` : a counted noun, `2 arguments`;
* `numbered` : items with their numbers, `1: a, 2: b`.
-/

namespace StructuralEditor.Text

/-- The items with commas between them and `and` before the last. -/
def enumerate (items : List String) : String :=
  match items.getLast? with
  | none => ""
  | some last =>
    match items.dropLast with
    | [] => last
    | others => ", ".intercalate others ++ " and " ++ last

/-- The count and the noun, with an `s` unless there is exactly one. -/
def pluralize (noun : String) (count : Nat) : String :=
  toString count ++ " " ++ noun ++ (if count = 1 then "" else "s")

/-- A single item as it is, several with their numbers from one. -/
def numbered (items : List String) : String :=
  match items with
  | [item] => item
  | items => ", ".intercalate (items.zipIdx.map fun (item, i) => toString (i + 1) ++ ": " ++ item)

end StructuralEditor.Text
