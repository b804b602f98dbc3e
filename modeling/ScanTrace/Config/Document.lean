/-
Configurations from JSON documents. A document is an object with up to
three entries,

    { "debug": { level: bool, ... }, "fields": { field: bool, ... },
      "header_extensions": [ extension, ... ] }

or an array of their three values. No other name may occur, and none twice.
The extensions may be null and then stay the default ones.

# Entries of the two maps

The entries of a map are settled before they are applied: of entries with
the same name the last one counts, and the names are then taken in the
order of their UTF-8 bytes. Several names can mean one level, such as
"parse" and " Parse", so this order is what makes the meaning of a document
independent of how its entries are arranged. Levels come before fields, and
the first name that is unknown is the error of the document.
-/
import ScanTrace.Config.Basic
import ScanTrace.Json.Reader

namespace ScanTrace

open Json (Value Entries)

-- =============================================================== documents

/-- A configuration document as it was written. -/
structure Document where
  levels : List (String × Bool)
  fields : List (String × Bool)
  headers : Option (List String)

namespace Document

/-- The entries of a map from names to switches. -/
def switches? : Value → Option (List (String × Bool))
  | .object entries => entries.mapM fun e => do return (← e.1, ← e.2.bool?)
  | _ => none

/-- A list of extensions, or null for none given. -/
def extensions? : Value → Option (Option (List String))
  | .null => some none
  | .array items => (Value.texts? items).map some
  | _ => none

def names : List String := ["debug", "fields", "header_extensions"]

/-- The document from its three values. -/
def ofValues? (levels fields headers : Value) : Option Document := do
  return ⟨← switches? levels, ← switches? fields, ← extensions? headers⟩

/-- The map that an object gives to a name, empty if it does not give one. -/
def map? (entries : Entries) (name : String) : Option Value :=
  match entries.valuesOf name with
  | [] => some (.object [])
  | [v] => some v
  | _ => none

/-- The document that a JSON value is, if it has the shape of one. -/
def ofJson? : Value → Option Document
  | .object entries =>
    if entries.all fun e => e.1.any fun name => names.contains name then do
      ofValues? (← map? entries "debug") (← map? entries "fields")
        (← Entries.optional? entries "header_extensions")
    else none
  | .array [levels, fields, headers] => ofValues? levels fields headers
  | _ => none

/-- The document that a text is, if it is one. -/
def read? (text : String) : Option Document := Json.read? text >>= ofJson?

-- ======================================================== settled entries

/-- Whether a name comes before another in the order of their UTF-8 bytes. -/
def precedes (a b : String) : Bool := decide (Utf8.encode a.toList < Utf8.encode b.toList)

/-- Puts an entry into an ordered list, in place of one with the same name. -/
def insert (name : String) (on : Bool) : List (String × Bool) → List (String × Bool)
  | [] => [(name, on)]
  | e :: rest =>
    if e.1 = name then (name, on) :: rest
    else if precedes name e.1 then (name, on) :: e :: rest
    else e :: insert name on rest

/-- The entries in the order of their names, of each name the last one. -/
def settle (entries : List (String × Bool)) : List (String × Bool) :=
  entries.foldl (fun settled e => insert e.1 e.2 settled) []

end Document

-- ================================================================= loading

/-- Why a configuration was not loaded. -/
inductive LoadFault where
  /-- The text is no JSON, or not of the shape of a document. -/
  | malformed
  /-- The document sets something that is not there. -/
  | rejected (why : Rejection)
  /-- There is no text to be had from the file. -/
  | unreadable (file : String)
  | inFile (file : String) (fault : LoadFault)
  deriving DecidableEq

/-- What a user is told, from the file inwards. -/
def LoadFault.message : LoadFault → String
  | .malformed => "Invalid trace configuration JSON"
  | .rejected why => why.message
  | .unreadable file => "Failed to read trace configuration " ++ file
  | .inFile file fault =>
    "Failed to load trace configuration " ++ file ++ ": " ++ fault.message

/-- What loading a configuration leaves: the configuration or what was wrong,
and the notices given on the way. -/
structure Loaded where
  result : Except LoadFault Config
  notices : List Notice := []

/-- What a file has to offer. -/
inductive File where
  | bytes (content : List UInt8)
  | missing
  | directory

namespace Config

def ofDocument (d : Document) : Loaded :=
  let o := setAll {} (Document.settle d.levels) (Document.settle d.fields)
  match o.rejected with
  | some why => { result := .error (.rejected why), notices := o.notices }
  | none =>
    let c : Config := { o.state with headers := d.headers.getD o.state.headers }
    { result := .ok c
      notices := o.notices ++ [.configLoaded c.levels.mask c.headers.length] }

def ofText (text : String) : Loaded :=
  match Document.read? text with
  | none => { result := .error .malformed }
  | some d => ofDocument d

def ofFile (name : String) : File → Loaded
  | .bytes content =>
    match Utf8.decode? content with
    | none => { result := .error (.unreadable name) }
    | some text =>
      let loaded := ofText (String.ofList text)
      { loaded with result := loaded.result.mapError (.inFile name) }
  | _ => { result := .error (.unreadable name) }

-- ================================================================= changes

inductive Op where
  /-- Starts over with the default configuration. -/
  | clear
  | document (text : String)
  | file (name : String) (content : File)
  | setLevel (name : String) (on : Bool)
  | setField (name : String) (on : Bool)
  | letters (list : String)
  | headers (extensions : List String)

/-- What a change leaves: the configuration after it, the notices it gave and
what was wrong with it if something was. -/
structure Change where
  state : Config
  notices : List Notice := []
  fault : Option LoadFault := none

/-- A loaded configuration takes the place of the current one; one that could
not be loaded leaves it. -/
def replace (c : Config) (loaded : Loaded) : Change :=
  match loaded.result with
  | .ok d => { state := d, notices := loaded.notices }
  | .error fault => { state := c, notices := loaded.notices, fault := some fault }

/-- The change that a setting makes. -/
def change (o : Outcome Config) : Change :=
  { state := o.state, notices := o.notices, fault := o.rejected.map .rejected }

def Op.run (c : Config) : Op → Change
  | .clear => { state := {} }
  | .document text => c.replace (ofText text)
  | .file name content => c.replace (ofFile name content)
  | .setLevel name on => change (c.setLevel name on)
  | .setField name on => change (c.setField name on)
  | .letters list => change (c.applyLetters list)
  | .headers extensions => { state := { c with headers := extensions } }

end Config

end ScanTrace
