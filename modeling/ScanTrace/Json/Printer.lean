/-
JSON texts from values: the tokens of a value in order, written without a
blank between them.
-/
import ScanTrace.Json.Token
import ScanTrace.Json.Value

namespace ScanTrace.Json

/-- Token lists set apart by commas. -/
def separated : List (List Token) → List Token
  | [] => []
  | [ts] => ts
  | ts :: rest => ts ++ .comma :: separated rest

mutual

def Value.tokens : Value → List Token
  | .null => [.null]
  | .bool b => [.bool b]
  | .number written => [.number written]
  | .string text => [.string text]
  | .array items => .bracketOpen :: separated (Value.tokensEach items) ++ [.bracketClose]
  | .object entries => .braceOpen :: separated (Value.tokensEntries entries) ++ [.braceClose]

def Value.tokensEach : List Value → List (List Token)
  | [] => []
  | v :: rest => v.tokens :: Value.tokensEach rest

def Value.tokensEntries : List (Option String × Value) → List (List Token)
  | [] => []
  | (name, v) :: rest => (.string name :: .colon :: v.tokens) :: Value.tokensEntries rest

end

def Value.text (v : Value) : String := String.ofList (v.tokens.flatMap Token.text)

def Value.ofString (s : String) : Value := .string (some s)

theorem Value.text?_eq_some_iff (v : Value) (s : String) :
    v.text? = some s ↔ v = .ofString s := by
  cases v <;> simp [text?, ofString]

def Value.ofEntries (entries : List (String × Value)) : Value :=
  .object (entries.map fun e => (some e.1, e.2))

end ScanTrace.Json
