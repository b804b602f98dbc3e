/-
Extension fields: the optional attributes of a tag that a trace entry can
show. A field is chosen by a name or by a letter. Names are looked up after
trimming, with ASCII letters made small and every underscore read as a
hyphen, and most fields have shorter names beside their full one; letters
are looked up as they are.
-/
import ScanTrace.Notice
import ScanTrace.Text.Blank

namespace ScanTrace

/-- An optional attribute of a tag. -/
inductive Field where
  | inheritance
  | fileScope
  | access
  | implementation
  | typeRef
  deriving DecidableEq

namespace Field

/-- All fields, in the order in which they are listed to the user. -/
def all : List Field := [.inheritance, .fileScope, .access, .implementation, .typeRef]

theorem mem_all (f : Field) : f ∈ all := by cases f <;> decide

def name : Field → String
  | .inheritance => "inheritance"
  | .fileScope => "file-scope"
  | .access => "access"
  | .implementation => "implementation"
  | .typeRef => "type-reference"

/-- Every name that means a field, the full one first. -/
def names : Field → List String
  | .inheritance => ["inheritance", "inherits"]
  | .fileScope => ["file-scope", "file"]
  | .access => ["access"]
  | .implementation => ["implementation", "imp"]
  | .typeRef => ["type-reference", "type-ref", "typeref"]

/-- A name as it is looked up. -/
def normalize (given : String) : List Char :=
  (Text.trim given.toList).map fun c => if c = '_' then '-' else c.toLower

/-- The field that a name means, if it means one. -/
def named? (given : String) : Option Field :=
  all.find? fun f => f.names.any fun n => n.toList == normalize given

def letter : Field → Char
  | .inheritance => 'i'
  | .fileScope => 'f'
  | .access => 'a'
  | .implementation => 'm'
  | .typeRef => 't'

def ofLetter? (c : Char) : Option Field := all.find? fun f => f.letter == c

/-- Letters that are known to users of tags but of which nothing is traced. -/
def untracedLetters : List Char := ['k', 'K', 'l', 'n', 's', 'S', 'z']

end Field

end ScanTrace
