/-
Tags: what a scanner found out about one symbol. The construct around the
symbol and its declared type are pairs of a kind and a name, and such a
pair exists only as a whole: from two halves of which one is missing there
is no pair at all, while an empty half is a half.
-/

namespace ScanTrace

-- ============================================================ constructs

/-- A named construct of a program, such as the class Widget. -/
structure Construct where
  kind : String
  name : String
  deriving DecidableEq

namespace Construct

/-- The construct that two halves make, if both are there. -/
def ofHalves : Option String → Option String → Option Construct
  | some kind, some name => some ⟨kind, name⟩
  | _, _ => none

/-- How a construct is written: its kind, a colon and its name. -/
def text (c : Construct) : String := c.kind ++ ":" ++ c.name

end Construct

-- ================================================================== tags

/-- One symbol that a scanner found. -/
structure Tag where
  /-- The symbol as it stands in the program. -/
  name : String
  /-- What it is: function, variable, macro and so on. -/
  kind : String
  /-- Whether it is visible inside its own file only. -/
  fileScope : Bool := false
  scope : Option Construct := none
  inheritance : Option String := none
  access : Option String := none
  /-- How it is implemented: abstract, virtual and so on. -/
  implementation : Option String := none
  typeRef : Option Construct := none
  deriving DecidableEq

namespace Tag

/-- An attribute that a tag can be given after its name and kind. -/
inductive Attribute where
  | fileScope (own : Bool)
  | scope (around : Construct)
  | inheritance (bases : String)
  | access (how : String)
  | implementation (how : String)
  | typeRef (type : Construct)

/-- The tag with an attribute as given and the others kept. -/
def give (tag : Tag) : Attribute → Tag
  | .fileScope b => { tag with fileScope := b }
  | .scope c => { tag with scope := some c }
  | .inheritance s => { tag with inheritance := some s }
  | .access s => { tag with access := some s }
  | .implementation s => { tag with implementation := some s }
  | .typeRef c => { tag with typeRef := some c }

end Tag

end ScanTrace
