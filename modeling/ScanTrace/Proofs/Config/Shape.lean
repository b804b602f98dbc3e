/-
The shape of a configuration document, said from the document outwards.
`Document.WrittenAs` lists the ways in which a document can be written as a
JSON value: as the array of its three values, or as an object of up to three
members in any order, where a member may be left out if it says no more than
what holds without it. The reader of documents reads exactly these values,
and reads from them the document they are ways of writing
(`Document.ofJson?_eq_some_iff`).

A map keeps its entries as they are written, in their order and with their
repetitions; what they come to is a question for later.
-/
import Mathlib.Data.List.Basic
import ScanTrace.Config.Document
import ScanTrace.Json.Printer

namespace ScanTrace

open Json (Value Entries)

-- ================================================================= writing

/-- A map from names to switches. -/
def Json.Value.ofSwitches (entries : List (String × Bool)) : Value :=
  .object (entries.map fun e => (some e.1, .bool e.2))

/-- A list of extensions, null if there is none. -/
def Json.Value.ofExtensions : Option (List String) → Value
  | none => .null
  | some extensions => .array (extensions.map Value.ofString)

/-- The member of an object that gives a value to a name. It may be left out if the
value is the one that holds without it. -/
inductive Json.Member (name : String) (missing v : Value) : Entries → Prop
  | given : Member name missing v [(some name, v)]
  | leftOut (h : v = missing) : Member name missing v []

/-- The ways in which a document is written. -/
inductive Document.WrittenAs (d : Document) : Value → Prop
  | values : WrittenAs d
      (.array [.ofSwitches d.levels, .ofSwitches d.fields, .ofExtensions d.headers])
  | members {levels fields headers entries : Entries}
      (hlevels : Json.Member "debug" (.object []) (.ofSwitches d.levels) levels)
      (hfields : Json.Member "fields" (.object []) (.ofSwitches d.fields) fields)
      (hheaders : Json.Member "header_extensions" .null (.ofExtensions d.headers) headers)
      (horder : entries.Perm (levels ++ fields ++ headers)) : WrittenAs d (.object entries)

namespace Document

-- ============================================================ the three values

/-- A list is read if each of its members is what some value is written as. -/
theorem mapM_eq_some_iff {α β : Type} {read : α → Option β} {write : β → α}
    (h : ∀ a b, read a = some b ↔ a = write b) (as : List α) (bs : List β) :
    as.mapM read = some bs ↔ as = bs.map write := by
  induction as generalizing bs with
  | nil => cases bs <;> simp
  | cons a as ih =>
    cases bs with
    | nil => simp [List.mapM_cons, Option.bind_eq_some_iff]
    | cons b bs => simp [List.mapM_cons, Option.bind_eq_some_iff, h, ih]

theorem switches?_eq_some_iff (v : Value) (entries : List (String × Bool)) :
    switches? v = some entries ↔ v = .ofSwitches entries := by
  cases v with
  | object members =>
    have hentry : ∀ (e : Option String × Value) (b : String × Bool),
        (do return (← e.1, ← e.2.bool?) : Option (String × Bool)) = some b
          ↔ e = (some b.1, .bool b.2) := by
      rintro ⟨name, value⟩ ⟨key, on⟩
      cases name <;> cases value <;> simp [Value.bool?]
    rw [switches?, Value.ofSwitches, Value.object.injEq]
    exact mapM_eq_some_iff hentry members entries
  | _ => simp [switches?, Value.ofSwitches]

theorem extensions?_eq_some_iff (v : Value) (headers : Option (List String)) :
    extensions? v = some headers ↔ v = .ofExtensions headers := by
  cases v with
  | array items =>
    cases headers <;>
      simp [extensions?, Value.texts?, Value.ofExtensions,
        mapM_eq_some_iff Value.text?_eq_some_iff]
  | _ => cases headers <;> simp [extensions?, Value.ofExtensions]

theorem ofValues?_eq_some_iff (levels fields headers : Value) (d : Document) :
    ofValues? levels fields headers = some d ↔ levels = .ofSwitches d.levels
      ∧ fields = .ofSwitches d.fields ∧ headers = .ofExtensions d.headers := by
  obtain ⟨ls, fs, hs⟩ := d
  simp [ofValues?, Option.bind_eq_some_iff, switches?_eq_some_iff, extensions?_eq_some_iff]

-- ================================================================== members

/-- The entries of an object that have a name. -/
def named (entries : Entries) (name : String) : Entries :=
  entries.filter fun e => e.1 == some name

/-- The entries of a name are a member if there is one of them, or if there is none
and the value is the one that holds without it. -/
theorem member_named_iff (entries : Entries) (name : String) (missing v : Value) :
    Json.Member name missing v (named entries name) ↔
      (match entries.valuesOf name with
        | [] => some missing
        | [w] => some w
        | _ => none) = some v := by
  have hnames : ∀ e ∈ named entries name, e.1 = some name := fun e he =>
    beq_iff_eq.mp (List.mem_filter.mp he).2
  have hvalues : entries.valuesOf name = (named entries name).map Prod.snd := rfl
  rw [hvalues]
  cases hfound : named entries name with
  | nil =>
    constructor
    · rintro (_ | h)
      rw [h]
      rfl
    · intro h
      exact .leftOut (Option.some.inj h).symm
  | cons e rest =>
    have hname : e.1 = some name := hnames e (hfound ▸ List.mem_cons_self ..)
    cases rest with
    | nil =>
      constructor
      · rintro (_ | _)
        rfl
      · intro h
        have he : e = (some name, v) := Prod.ext hname (Option.some.inj h)
        exact he ▸ .given
    | cons e' rest =>
      constructor
      · rintro (_ | _)
      · exact nofun

theorem map?_eq_some_iff (entries : Entries) (name : String) (v : Value) :
    map? entries name = some v ↔ Json.Member name (.object []) v (named entries name) :=
  (member_named_iff entries name _ v).symm

theorem optional?_eq_some_iff (entries : Entries) (name : String) (v : Value) :
    entries.optional? name = some v ↔ Json.Member name .null v (named entries name) :=
  (member_named_iff entries name _ v).symm

-- ============================================================ whole documents

/-- An object without other names consists of the entries of its three names. -/
theorem perm_named {entries : Entries}
    (h : ∀ e ∈ entries, ∃ name ∈ names, e.1 = some name) :
    entries.Perm (named entries "debug" ++ named entries "fields"
      ++ named entries "header_extensions") := by
  induction entries with
  | nil => exact List.Perm.nil
  | cons e rest ih =>
    obtain ⟨⟨name, hname, he⟩, hrest⟩ := List.forall_mem_cons.mp h
    have hperm := (ih hrest).cons e
    have hinto : ∀ before after : Entries, (e :: (before ++ after)).Perm (before ++ e :: after) :=
      fun _ _ => List.perm_middle.symm
    simp only [names, List.mem_cons, List.not_mem_nil, or_false] at hname
    rcases hname with rfl | rfl | rfl
    · simpa [named, he] using hperm
    · rw [List.append_assoc] at hperm
      simpa [named, he] using hperm.trans (hinto _ _)
    · simpa [named, he] using hperm.trans (hinto _ _)

section members

variable {name : String} {missing v : Value} {entries member : Entries}

theorem named_member (h : Json.Member name missing v member) : named member name = member := by
  cases h <;> simp [named]

theorem named_member_of_ne (h : Json.Member name missing v member) {other : String}
    (hne : name ≠ other) : named member other = [] := by
  cases h <;> simp [named, hne]

theorem eq_of_perm_member (h : Json.Member name missing v member) (horder : entries.Perm member) :
    entries = member := by
  cases h with
  | given => exact List.perm_singleton.mp horder
  | leftOut _ => exact horder.eq_nil

end members

/-- The members of an object are found again among its entries, in whatever order. -/
theorem named_of_perm {entries levels fields headers : Entries} {a b c a' b' c' : Value}
    (hlevels : Json.Member "debug" a a' levels) (hfields : Json.Member "fields" b b' fields)
    (hheaders : Json.Member "header_extensions" c c' headers)
    (horder : entries.Perm (levels ++ fields ++ headers)) :
    named entries "debug" = levels ∧ named entries "fields" = fields
      ∧ named entries "header_extensions" = headers := by
  have hfound : ∀ name, (named entries name).Perm
      (named levels name ++ named fields name ++ named headers name) := by
    intro name
    simpa only [named, List.filter_append] using horder.filter fun e => e.1 == some name
  refine ⟨eq_of_perm_member hlevels ?_, eq_of_perm_member hfields ?_,
    eq_of_perm_member hheaders ?_⟩
  · simpa [named_member hlevels, named_member_of_ne hfields, named_member_of_ne hheaders]
      using hfound "debug"
  · simpa [named_member hfields, named_member_of_ne hlevels, named_member_of_ne hheaders]
      using hfound "fields"
  · simpa [named_member hheaders, named_member_of_ne hlevels, named_member_of_ne hfields]
      using hfound "header_extensions"

theorem mem_names_of_members {entries levels fields headers : Entries} {a b c a' b' c' : Value}
    (hlevels : Json.Member "debug" a a' levels) (hfields : Json.Member "fields" b b' fields)
    (hheaders : Json.Member "header_extensions" c c' headers)
    (horder : entries.Perm (levels ++ fields ++ headers)) :
    ∀ e ∈ entries, ∃ name ∈ names, e.1 = some name := by
  intro e he
  have hmem := horder.mem_iff.mp he
  have hname : ∀ {name : String} {missing v : Value} {member : Entries},
      Json.Member name missing v member → e ∈ member → e.1 = some name := by
    intro name missing v member h hin
    cases h with
    | given => rw [List.mem_singleton.mp hin]
    | leftOut _ => cases hin
  rcases List.mem_append.mp hmem with hmem | hmem
  · rcases List.mem_append.mp hmem with hmem | hmem
    · exact ⟨_, by decide, hname hlevels hmem⟩
    · exact ⟨_, by decide, hname hfields hmem⟩
  · exact ⟨_, by decide, hname hheaders hmem⟩

theorem all_names_iff (entries : Entries) :
    (entries.all fun e => e.1.any fun name => names.contains name) = true ↔
      ∀ e ∈ entries, ∃ name ∈ names, e.1 = some name := by
  rw [List.all_eq_true]
  refine forall₂_congr fun e _ => ?_
  cases he : e.1 with
  | none => simp
  | some name => simp

/-- What is read is what a document is written as, and what a document is written as is
read as this document. -/
theorem ofJson?_eq_some_iff (v : Value) (d : Document) :
    ofJson? v = some d ↔ d.WrittenAs v := by
  constructor
  · intro h
    cases v with
    | object entries =>
      rw [ofJson?] at h
      split_ifs at h with hall
      obtain ⟨levels, hl, h⟩ := Option.bind_eq_some_iff.mp h
      obtain ⟨fields, hf, h⟩ := Option.bind_eq_some_iff.mp h
      obtain ⟨headers, hh, h⟩ := Option.bind_eq_some_iff.mp h
      obtain ⟨rfl, rfl, rfl⟩ := (ofValues?_eq_some_iff ..).mp h
      exact .members ((map?_eq_some_iff ..).mp hl) ((map?_eq_some_iff ..).mp hf)
        ((optional?_eq_some_iff ..).mp hh) (perm_named ((all_names_iff entries).mp hall))
    | array items =>
      rcases items with _ | ⟨levels, _ | ⟨fields, _ | ⟨headers, _ | ⟨more, rest⟩⟩⟩⟩
      · cases h
      · cases h
      · cases h
      · obtain ⟨rfl, rfl, rfl⟩ := (ofValues?_eq_some_iff ..).mp h
        exact .values
      · cases h
    | _ => cases h
  · rintro (_ | ⟨hl, hf, hh, horder⟩)
    · exact (ofValues?_eq_some_iff ..).mpr ⟨rfl, rfl, rfl⟩
    · have hall := (all_names_iff _).mpr (mem_names_of_members hl hf hh horder)
      obtain ⟨hlevels, hfields, hheaders⟩ := named_of_perm hl hf hh horder
      rw [ofJson?, if_pos hall, (map?_eq_some_iff ..).mpr (hlevels.symm ▸ hl),
        (map?_eq_some_iff ..).mpr (hfields.symm ▸ hf),
        (optional?_eq_some_iff ..).mpr (hheaders.symm ▸ hh)]
      exact (ofValues?_eq_some_iff ..).mpr ⟨rfl, rfl, rfl⟩

end Document

end ScanTrace
