/-!
# Values in writing

Diagnostic text shows a structure as its name and its fields in braces, and a sequence as its items
in square brackets.
-/

namespace TransitionMatrix

namespace Text

/-- A sequence: items in square brackets, with a comma and a blank between them. -/
def sequence (items : List String) : String := "[" ++ ", ".intercalate items ++ "]"

/-- A structure: its name, then each field's name and value in braces. -/
def record (name : String) (fields : List (String × String)) : String :=
  name ++ " \x7b " ++ ", ".intercalate (fields.map fun f => f.1 ++ ": " ++ f.2) ++ " \x7d"

/-- A tagged value: the tag and the value in parentheses. -/
def tagged (tag : String) (value : String) : String := tag ++ "(" ++ value ++ ")"

end Text

end TransitionMatrix
