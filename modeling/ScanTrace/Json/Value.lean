/-
JSON values as they stand in a text: objects keep their entries in order
and with repetitions, numbers keep the characters they are written in, and
a string literal keeps its text, if it has one. A literal can escape half
of a surrogate pair; such a literal is well-formed JSON and may be skipped,
but there is no text that it says.
-/

namespace ScanTrace.Json

inductive Value where
  | null
  | bool (b : Bool)
  | number (written : List Char)
  /-- A string, without text if it escapes an unpaired surrogate. -/
  | string (text : Option String)
  | array (items : List Value)
  | object (entries : List (Option String × Value))

namespace Value

def text? : Value → Option String
  | .string s => s
  | _ => none

/-- The truth value of `true` and `false`. -/
def bool? : Value → Option Bool
  | .bool b => some b
  | _ => none

/-- The string values of a list of values, if it holds nothing else. -/
def texts? (vs : List Value) : Option (List String) := vs.mapM text?

end Value

abbrev Entries := List (Option String × Value)

namespace Entries

/-- The values that an object gives to a name, in order. -/
def valuesOf (entries : Entries) (name : String) : List Value :=
  (entries.filter fun e => e.1 == some name).map Prod.snd

/-- The value of a name that an object gives exactly once. -/
def once? (entries : Entries) (name : String) : Option Value :=
  match entries.valuesOf name with
  | [v] => some v
  | _ => none

/-- The value of a name that an object gives once or not at all; a name that is
not given counts as null. -/
def optional? (entries : Entries) (name : String) : Option Value :=
  match entries.valuesOf name with
  | [] => some .null
  | [v] => some v
  | _ => none

/-- Whether every name of an object has a text. -/
def namesReadable (entries : Entries) : Bool := entries.all fun e => e.1.isSome

end Entries

end ScanTrace.Json
