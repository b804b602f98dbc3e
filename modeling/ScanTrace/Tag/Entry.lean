/-
The trace entry of a tag, one line of the grammar

    <#{fs}kind:name [scopeKind:scopeName] [inherits:x] [file:]
      [access:x] [imp:x] [typeKind:typeName]#>

in which everything after the name is optional. The construct around the
symbol shows whenever there is one; the other segments show when the field
is on and the tag has the attribute. The marker for file scope is left out
in headers, where being local to the file says nothing.
-/
import ScanTrace.FieldSet
import ScanTrace.Tag.Basic

namespace ScanTrace.Tag

/-- What opens the entry of a tag that is local to its file. -/
def localMark : String := "{fs}"

/-- The insides of the bracketed segments of an entry, in order. -/
def segments (tag : Tag) (shown : FieldSet) (inHeader : Bool) : List String :=
  tag.scope.toList.map Construct.text
  ++ (if shown.inheritance then tag.inheritance.toList.map ("inherits:" ++ ·) else [])
  ++ (if shown.fileScope && tag.fileScope && !inHeader then ["file:"] else [])
  ++ (if shown.access then tag.access.toList.map ("access:" ++ ·) else [])
  ++ (if shown.implementation then tag.implementation.toList.map ("imp:" ++ ·) else [])
  ++ (if shown.typeRef then tag.typeRef.toList.map Construct.text else [])

/-- A segment in its brackets, set apart by a blank. -/
def bracketed (segment : String) : List Char := ' ' :: '[' :: segment.toList ++ [']']

def entry (tag : Tag) (shown : FieldSet) (inHeader : Bool) : String :=
  String.ofList
    ('<' :: '#' :: (if tag.fileScope then localMark else "").toList
      ++ tag.kind.toList ++ ':' :: tag.name.toList
      ++ (tag.segments shown inHeader).flatMap bracketed
      ++ ['#', '>'])

end ScanTrace.Tag
