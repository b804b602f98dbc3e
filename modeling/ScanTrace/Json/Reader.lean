/-
JSON values from tokens. The reader goes through the tokens once and keeps
the arrays and objects that are still open on a stack of its own, so that
nesting of any depth is read in the same way, and its recursion is on the
list of tokens.
-/
import ScanTrace.Json.Token
import ScanTrace.Json.Value

namespace ScanTrace.Json

/-- An array or object that is still open, what it holds so far last first. -/
inductive Frame where
  | items (before : List Value)
  /-- An object whose next value belongs to the name. -/
  | member (before : Entries) (key : Option String)

/-- Where the reader stands between two tokens. -/
inductive State where
  /-- A value has to come. -/
  | value (stack : List Frame)
  | opened (stack : List Frame)
  | openedObject (stack : List Frame)
  /-- A name has to come. -/
  | name (stack : List Frame) (before : Entries)
  /-- A colon has to come. -/
  | colon (stack : List Frame) (before : Entries) (key : Option String)
  /-- A value is complete. -/
  | complete (stack : List Frame) (v : Value)

def State.begin? (stack : List Frame) : Token → Option State
  | .null => some (.complete stack .null)
  | .bool b => some (.complete stack (.bool b))
  | .number written => some (.complete stack (.number written))
  | .string text => some (.complete stack (.string text))
  | .bracketOpen => some (.opened stack)
  | .braceOpen => some (.openedObject stack)
  | _ => none

/-- The state after a token, if the token may come. -/
def State.next? : State → Token → Option State
  | .value stack, t => begin? stack t
  | .opened stack, .bracketClose => some (.complete stack (.array []))
  | .opened stack, t => begin? (.items [] :: stack) t
  | .openedObject stack, .braceClose => some (.complete stack (.object []))
  | .openedObject stack, .string key => some (.colon stack [] key)
  | .name stack before, .string key => some (.colon stack before key)
  | .colon stack before key, .colon => some (.value (.member before key :: stack))
  | .complete (.items before :: stack) v, .comma => some (.value (.items (v :: before) :: stack))
  | .complete (.items before :: stack) v, .bracketClose =>
    some (.complete stack (.array (v :: before).reverse))
  | .complete (.member before key :: stack) v, .comma => some (.name stack ((key, v) :: before))
  | .complete (.member before key :: stack) v, .braceClose =>
    some (.complete stack (.object ((key, v) :: before).reverse))
  | _, _ => none

/-- The value that the tokens complete from a state on. -/
def State.read? : State → List Token → Option Value
  | .complete [] v, [] => some v
  | _, [] => none
  | s, t :: rest =>
    match s.next? t with
    | none => none
    | some after => after.read? rest

/-- The value that a text writes, if the text is JSON. -/
def read? (text : String) : Option Value :=
  match lex text.toList with
  | none => none
  | some tokens => (State.value []).read? tokens

end ScanTrace.Json
