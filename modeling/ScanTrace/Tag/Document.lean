/-
Tags and constructs as JSON documents.

# Reading

A tag is an object with the three names "name", "kind_name" and
"file_scope", each given once, and at most once each of the five optional
names; a null says the same as a name left out. A construct is an object
that gives "kind" and "name" once each. Any further names are skipped,
whatever their values are, but a name that has no text makes the document
unreadable. Both may also be arrays that hold the values in the order of
their declaration, all of them.

# Writing

All eight names of a tag are written, in the order of their declaration,
with null for what is not there; constructs are written as objects.
-/
import ScanTrace.Json.Printer
import ScanTrace.Json.Reader
import ScanTrace.Tag.Basic

namespace ScanTrace

open Json (Value Entries)

-- ============================================================ constructs

namespace Construct

def ofJson? : Value → Option Construct
  | .object entries =>
    if Entries.namesReadable entries then do
      let kind ← (← Entries.once? entries "kind").text?
      let name ← (← Entries.once? entries "name").text?
      return ⟨kind, name⟩
    else none
  | .array [kind, name] => do return ⟨← kind.text?, ← name.text?⟩
  | _ => none

def toJson (c : Construct) : Value :=
  .ofEntries [("kind", .ofString c.kind), ("name", .ofString c.name)]

/-- The construct that a text describes, if it is a document of one. -/
def read? (text : String) : Option Construct := Json.read? text >>= ofJson?

end Construct

-- ================================================================== tags

namespace Tag

/-- A value that may be null, and then is nothing. -/
def nullable {α : Type} (read : Value → Option α) : Value → Option (Option α)
  | .null => some none
  | v => (read v).map some

/-- A tag from its eight values in the order of their declaration. -/
def ofValues? (name kind fileScope scope inheritance access implementation typeRef : Value) :
    Option Tag := do
  return {
    name := ← name.text?
    kind := ← kind.text?
    fileScope := ← fileScope.bool?
    scope := ← nullable Construct.ofJson? scope
    inheritance := ← nullable Value.text? inheritance
    access := ← nullable Value.text? access
    implementation := ← nullable Value.text? implementation
    typeRef := ← nullable Construct.ofJson? typeRef }

def ofJson? : Value → Option Tag
  | .object entries =>
    if Entries.namesReadable entries then do
      ofValues? (← Entries.once? entries "name") (← Entries.once? entries "kind_name")
        (← Entries.once? entries "file_scope") (← Entries.optional? entries "scope")
        (← Entries.optional? entries "inheritance") (← Entries.optional? entries "access")
        (← Entries.optional? entries "implementation") (← Entries.optional? entries "type_ref")
    else none
  | .array [name, kind, fileScope, scope, inheritance, access, implementation, typeRef] =>
    ofValues? name kind fileScope scope inheritance access implementation typeRef
  | _ => none

/-- The document of a value that may not be there. -/
def orNull {α : Type} (write : α → Value) : Option α → Value
  | none => .null
  | some a => write a

def toJson (tag : Tag) : Value :=
  .ofEntries
    [("name", .ofString tag.name),
     ("kind_name", .ofString tag.kind),
     ("file_scope", .bool tag.fileScope),
     ("scope", orNull Construct.toJson tag.scope),
     ("inheritance", orNull Value.ofString tag.inheritance),
     ("access", orNull Value.ofString tag.access),
     ("implementation", orNull Value.ofString tag.implementation),
     ("type_ref", orNull Construct.toJson tag.typeRef)]

/-- The tag that a text describes, if it is a document of one. -/
def read? (text : String) : Option Tag := Json.read? text >>= ofJson?

end Tag

end ScanTrace
