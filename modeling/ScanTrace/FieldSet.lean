/-
Which extension fields are shown: one switch for each field, all of them
off at first.

# Letter lists

A list such as "+ia-f" is read from left to right. A plus or a minus sign
decides about the letters behind it, up to the next sign; letters before
any sign are switched on. A list that does not open with a sign describes
the whole set and so starts from nothing. The first letter that is not
known ends the list: what came before it stays done, the reset included.
-/
import ScanTrace.Field

namespace ScanTrace

/-- The switches of the extension fields. -/
structure FieldSet where
  inheritance : Bool := false
  fileScope : Bool := false
  access : Bool := false
  implementation : Bool := false
  typeRef : Bool := false
  deriving DecidableEq

namespace FieldSet

-- ======================================================= one field at a time

def shows (s : FieldSet) : Field → Bool
  | .inheritance => s.inheritance
  | .fileScope => s.fileScope
  | .access => s.access
  | .implementation => s.implementation
  | .typeRef => s.typeRef

/-- The set with one switch as given and the others kept. -/
def set (s : FieldSet) (f : Field) (on : Bool) : FieldSet :=
  match f with
  | .inheritance => { s with inheritance := on }
  | .fileScope => { s with fileScope := on }
  | .access => { s with access := on }
  | .implementation => { s with implementation := on }
  | .typeRef => { s with typeRef := on }

@[simp] theorem shows_set_self (s : FieldSet) (f : Field) (on : Bool) :
    (s.set f on).shows f = on := by cases f <;> rfl

theorem shows_set_of_ne (s : FieldSet) {f g : Field} (on : Bool) (h : g ≠ f) :
    (s.set f on).shows g = s.shows g := by
  cases f <;> cases g <;> simp_all [set, shows]

theorem shows_set (s : FieldSet) (f g : Field) (on : Bool) :
    (s.set f on).shows g = if g = f then on else s.shows g := by
  by_cases h : g = f
  · rw [if_pos h, h, shows_set_self]
  · rw [if_neg h, shows_set_of_ne s on h]

/-- Two sets that show the same fields are equal. -/
theorem ext_shows {s t : FieldSet} (h : ∀ f, s.shows f = t.shows f) : s = t := by
  cases s; cases t
  simpa [shows] using And.intro (h .inheritance) ⟨h .fileScope, h .access, h .implementation,
    h .typeRef⟩

/-- The set that shows exactly the listed fields. -/
def ofList (fs : List Field) : FieldSet := fs.foldl (fun s f => s.set f true) {}

def full : FieldSet := ofList Field.all

/-- Switches the field that a name means. -/
def setNamed (s : FieldSet) (name : String) (on : Bool) : Except Rejection FieldSet :=
  match Field.named? name with
  | some f => .ok (s.set f on)
  | none => .error (.unknownField name)

-- =========================================================== letter lists

/-- Whether a character is one of the two signs of a letter list. -/
def isSign (c : Char) : Bool := c == '+' || c == '-'

/-- The letters of a list one after another, the latest sign given by `on`. -/
def applyFrom (on : Bool) (s : FieldSet) : List Char → Outcome FieldSet
  | [] => { state := s }
  | c :: rest =>
    if c = '+' then applyFrom true s rest
    else if c = '-' then applyFrom false s rest
    else match Field.ofLetter? c with
      | some f => applyFrom on (s.set f on) rest
      | none =>
        if Field.untracedLetters.contains c then
          let after := applyFrom on s rest
          { after with notices := .letterUntraced c :: after.notices }
        else { state := s, rejected := some (.unknownLetter c) }

/-- A whole letter list. -/
def applyLetters (s : FieldSet) (letters : String) : Outcome FieldSet :=
  let cs := letters.toList
  applyFrom true (if cs.head?.any isSign then s else {}) cs

-- ================================================================ changes

inductive Op where
  /-- Starts over with nothing shown. -/
  | clear
  | only (fields : List Field)
  | setNamed (name : String) (on : Bool)
  | letters (list : String)

def Op.run (s : FieldSet) : Op → Outcome FieldSet
  | .clear => { state := {} }
  | .only fs => { state := ofList fs }
  | .setNamed name on =>
    match s.setNamed name on with
    | .ok t => { state := t }
    | .error why => { state := s, rejected := some why }
  | .letters list => s.applyLetters list

end FieldSet

end ScanTrace
