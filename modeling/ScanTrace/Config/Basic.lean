/-
The configuration of a run: which levels are traced, which fields an entry
shows, and which file name extensions mean a header. A level or a field
that is set by a name it does not have is refused, and the refusal is
noticed.
-/
import ScanTrace.Config.Extension
import ScanTrace.FieldSet
import ScanTrace.LevelSet

namespace ScanTrace

/-- The extensions that mean a header unless others are configured. -/
def defaultHeaders : List String := ["h", "H", "hh", "hpp", "hxx", "h++", "inc", "def"]

/-- Everything that the trace has to know, fixed for a run. -/
structure Config where
  levels : LevelSet := {}
  fields : FieldSet := {}
  headers : List String := defaultHeaders
  deriving DecidableEq

namespace Config

def setLevel (c : Config) (name : String) (on : Bool) : Outcome Config :=
  match c.levels.setNamed name on with
  | .ok levels => { state := { c with levels } }
  | .error why => { state := c, notices := [.levelRejected why], rejected := some why }

def setField (c : Config) (name : String) (on : Bool) : Outcome Config :=
  match c.fields.setNamed name on with
  | .ok fields => { state := { c with fields } }
  | .error why => { state := c, notices := [.fieldRejected why], rejected := some why }

def applyLetters (c : Config) (letters : String) : Outcome Config :=
  let o := c.fields.applyLetters letters
  { state := { c with fields := o.state }, notices := o.notices, rejected := o.rejected }

/-- Makes settings one after another, up to the first that is refused. -/
def setEach (set : Config → String → Bool → Outcome Config) (c : Config) :
    List (String × Bool) → Outcome Config
  | [] => { state := c }
  | (name, on) :: rest =>
    let o := set c name on
    if o.rejected.isSome then o
    else
      let later := setEach set o.state rest
      { later with notices := o.notices ++ later.notices }

/-- Sets levels and then fields; a refused level leaves the fields alone. -/
def setAll (c : Config) (levels fields : List (String × Bool)) : Outcome Config :=
  let o := setEach setLevel c levels
  if o.rejected.isSome then o
  else
    let later := setEach setField o.state fields
    { later with notices := o.notices ++ later.notices }

/-- Whether a path names a header: its extension is one of the configured ones. -/
def isHeader (c : Config) (path : List UInt8) : Bool := Path.hasExtension c.headers path

end Config

end ScanTrace
