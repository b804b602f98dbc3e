/-
Calls from a scripting language. Its values carry their kinds with them,
its calls give arguments by position or by name, and a function of the
library declares its parameters by name, some of them with a default.

`bind` settles which parameter gets which argument. It fails when there are
too many arguments, when a name is unknown or was already given by
position, or when a parameter without a default is left out. The arguments
are then converted one after another, from the first parameter to the last,
and the first one that is not of the kind asked for is the fault of the
call.
-/

namespace ScanTrace.Embedding

-- ================================================================= values

/-- A value of the scripting language. -/
inductive Value where
  | none
  | bool (b : Bool)
  | int (n : Int)
  | text (s : String)
  | list (items : List Value)
  | tuple (items : List Value)
  /-- A value of any other kind, a number that is no whole number by its kind
  among them. -/
  | other

/-- The arguments of a call: those by position, and those by name. -/
structure Arguments where
  positional : List Value := []
  named : List (String × Value) := []

/-- What is wrong with the arguments of a call. -/
inductive ArgumentFault where
  /-- An argument is missing, unknown or of the wrong kind. -/
  | unfit
  /-- A number does not fit into its parameter. -/
  | outOfRange
  /-- A tuple has not as many members as its parameter. -/
  | wrongLength
  deriving DecidableEq

-- ================================================================ binding

/-- A parameter: its name, and whether a call has to give it. -/
structure Parameter where
  name : String
  required : Bool := true

/-- The argument of each parameter, or that the arguments do not fit. -/
def bind {α : Type} (parameters : List Parameter) (positional : List α)
    (named : List (String × α)) : Except ArgumentFault (List (Option α)) :=
  let byName := parameters.drop positional.length
  if parameters.length < positional.length then .error .unfit
  else if named.any fun e => !byName.any fun p => p.name == e.1 then .error .unfit
  else if byName.any fun p => p.required && !named.any fun e => e.1 == p.name then .error .unfit
  else .ok (positional.map some ++ byName.map fun p => named.lookup p.name)

-- ============================================================= conversions

namespace Value

def toText : Value → Except ArgumentFault String
  | .text s => .ok s
  | _ => .error .unfit

def toBool : Value → Except ArgumentFault Bool
  | .bool b => .ok b
  | _ => .error .unfit

/-- A whole number; the truth values are numbers too, one and zero. -/
def toInt : Value → Except ArgumentFault Int
  | .int n => .ok n
  | .bool b => .ok (if b then 1 else 0)
  | _ => .error .unfit

def toRange (least greatest : Int) (v : Value) : Except ArgumentFault Int := do
  let n ← v.toInt
  if least ≤ n && n ≤ greatest then return n else throw .outOfRange

def toUInt32 (v : Value) : Except ArgumentFault UInt32 := do
  return UInt32.ofNat (← v.toRange 0 0xFFFFFFFF).toNat

def toInt32 (v : Value) : Except ArgumentFault Int32 := do
  return Int32.ofInt (← v.toRange (-0x80000000) 0x7FFFFFFF)

/-- The texts of a list or a tuple. A single text is no list of texts. -/
def toTexts : Value → Except ArgumentFault (List String)
  | .list items | .tuple items => items.mapM toText
  | _ => .error .unfit

/-- A pair of texts, given as a tuple. -/
def toPair : Value → Except ArgumentFault (String × String)
  | .tuple [a, b] => do return (← a.toText, ← b.toText)
  | .tuple _ => .error .wrongLength
  | _ => .error .unfit

end Value

/-- An argument with a default for when it is not given. -/
def withDefault {α : Type} (default : α) (convert : Value → Except ArgumentFault α) :
    Option Value → Except ArgumentFault α
  | none => .ok default
  | some v => convert v

/-- An argument that may be left out or be none, and is nothing then. -/
def optional {α : Type} (convert : Value → Except ArgumentFault α) :
    Option Value → Except ArgumentFault (Option α)
  | none | some .none => .ok none
  | some v => some <$> convert v

/-- An argument that binding has found to be there. -/
def given {α : Type} (convert : Value → Except ArgumentFault α) :
    Option Value → Except ArgumentFault α
  | none => .error .unfit
  | some v => convert v

end ScanTrace.Embedding
