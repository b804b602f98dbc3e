/-
The shape of a tag document, said from the tag outwards. What a document says
of a name is the list of the values that it gives to the name, and
`Tag.SaidBy` tells which lists describe a tag: one value for each of the three
names that have to be there, and at most one for each of the other five,
where null says as much as nothing.

An object is read exactly if the values that it gives to the eight names
describe a tag, and the array of eight values is read as an object that gives
each name one of them. So everything that may differ between two documents
of one tag is a matter of these lists: the order of entries that differ in
their name, entries of other names, null or nothing (`Tag.SaidBy.alike`).

An object may have a name that no text is a spelling of; no tag is read
from it, wherever it stands. And no tag is read from anything else
(`Tag.ofJson?_eq_some_iff`).
-/
import ScanTrace.Proofs.Tag.RoundTrip

namespace ScanTrace

open Json (Value Entries)

-- ================================================================= entries

namespace Json

/-- The values that entries give to a name, in order. -/
def given (entries : List (String × Value)) (name : String) : List Value :=
  (entries.filter fun e => e.1 == name).map Prod.snd

/-- The first value that entries give to a name, null if there is none. -/
def valueOrNull (entries : List (String × Value)) (name : String) : Value :=
  (given entries name).headD .null

/-- An object of entries whose names are texts. -/
def Entries.ofTexts (entries : List (String × Value)) : Entries :=
  entries.map fun e => (some e.1, e.2)

namespace Entries

theorem namesReadable_ofTexts (entries : List (String × Value)) :
    (ofTexts entries).namesReadable = true := by
  simp [namesReadable, ofTexts]

theorem valuesOf_ofTexts (entries : List (String × Value)) (name : String) :
    (ofTexts entries).valuesOf name = given entries name := by
  unfold valuesOf ofTexts given
  rw [List.filter_map, List.map_map]
  rfl

/-- Entries whose names have texts are entries of texts. -/
theorem eq_ofTexts {members : Entries} (h : members.namesReadable = true) :
    ∃ entries, members = ofTexts entries := by
  induction members with
  | nil => exact ⟨[], rfl⟩
  | cons e rest ih =>
    obtain ⟨name, v⟩ := e
    simp only [namesReadable, List.all_cons, Bool.and_eq_true] at h
    obtain ⟨text, rfl⟩ := Option.isSome_iff_exists.mp h.1
    obtain ⟨entries, rfl⟩ := ih h.2
    exact ⟨(text, v) :: entries, rfl⟩

theorem once?_ofTexts_iff (entries : List (String × Value)) (name : String) (v : Value) :
    (ofTexts entries).once? name = some v ↔ given entries name = [v] := by
  unfold once?
  rw [valuesOf_ofTexts]
  split
  · next w hw => simp [hw]
  · next hmany =>
    refine ⟨nofun, ?_⟩
    intro hv
    exact absurd hv (hmany v)

end Entries

-- =============================================================== statements

/-- What the values of a name say, if it may be left out: nothing, if there is no value
or the value is null, and otherwise what the one value says. -/
inductive Optionally {α : Type} (Says : α → Value → Prop) : Option α → List Value → Prop
  | absent : Optionally Says none []
  | null : Optionally Says none [.null]
  | value {a : α} {v : Value} (h : Says a v) : Optionally Says (some a) [v]

/-- A value that is a text. -/
def Spells (s : String) (v : Value) : Prop := v = .ofString s

/-- Two lists of values say the same of a name: they have the same values, or at most
one value each, where nothing is as good as null. -/
def Alike (vs vs' : List Value) : Prop :=
  vs.Perm vs' ∨ vs.length ≤ 1 ∧ vs'.length ≤ 1 ∧ vs.headD .null = vs'.headD .null

theorem Alike.symm {vs vs' : List Value} (h : Alike vs vs') : Alike vs' vs := by
  rcases h with hperm | ⟨hle, hle', hhead⟩
  · exact .inl hperm.symm
  · exact .inr ⟨hle', hle, hhead.symm⟩

/-- A single value that is not null is said by itself only. -/
theorem Alike.single {v : Value} {vs : List Value} (h : Alike [v] vs) (hv : v ≠ .null) :
    vs = [v] := by
  rcases h with hperm | ⟨-, hle, hhead⟩
  · exact List.perm_singleton.mp hperm.symm
  · rcases vs with _ | ⟨w, _ | ⟨u, rest⟩⟩
    · exact absurd hhead hv
    · exact congrArg (fun v => [v]) hhead.symm
    · simp at hle

/-- No value, and the value null, are said by each other and by themselves. -/
theorem Alike.nothing {vs vs' : List Value} (h : Alike vs vs') (hvs : vs = [] ∨ vs = [.null]) :
    vs' = [] ∨ vs' = [.null] := by
  rcases h with hperm | ⟨-, hle, hhead⟩
  · rcases hvs with rfl | rfl
    · exact .inl hperm.symm.eq_nil
    · exact .inr (List.perm_singleton.mp hperm.symm)
  · have hnull : vs'.headD .null = .null := by rcases hvs with rfl | rfl <;> exact hhead.symm
    rcases vs' with _ | ⟨w, _ | ⟨u, rest⟩⟩
    · exact .inl rfl
    · exact .inr (congrArg (fun v => [v]) hnull)
    · simp at hle

section Optional

variable {α : Type} {Says : α → Value → Prop} {o : Option α} {vs vs' : List Value}

theorem Optionally.none_iff : Optionally Says none vs ↔ vs = [] ∨ vs = [.null] := by
  constructor
  · rintro (_ | _)
    · exact .inl rfl
    · exact .inr rfl
  · rintro (rfl | rfl)
    · exact .absent
    · exact .null

theorem Optionally.some_iff {a : α} :
    Optionally Says (some a) vs ↔ ∃ v, vs = [v] ∧ Says a v := by
  constructor
  · intro h
    cases h with
    | value hsays => exact ⟨_, rfl, hsays⟩
  · rintro ⟨v, rfl, hsays⟩
    exact .value hsays

theorem Optionally.alike (hnull : ∀ a, ¬ Says a .null) (h : Optionally Says o vs)
    (hvs : Alike vs vs') : Optionally Says o vs' := by
  cases o with
  | none => exact none_iff.mpr (hvs.nothing (none_iff.mp h))
  | some a =>
    obtain ⟨v, rfl, hsays⟩ := some_iff.mp h
    have hv : v ≠ .null := fun hv => hnull a (hv ▸ hsays)
    exact some_iff.mpr ⟨v, hvs.single hv, hsays⟩

variable {read : Value → Option α}

theorem nullable_eq_some_iff (hread : ∀ v a, read v = some a ↔ Says a v)
    (hnull : ∀ a, ¬ Says a .null) (v : Value) :
    Tag.nullable read v = some o ↔ Optionally Says o [v] := by
  unfold Tag.nullable
  split
  · cases o with
    | none => exact iff_of_true rfl .null
    | some a =>
      refine iff_of_false nofun ?_
      intro h
      obtain ⟨v, hv, hsays⟩ := Optionally.some_iff.mp h
      cases hv
      exact hnull a hsays
  · next hv =>
    cases o with
    | none => simpa [Optionally.none_iff] using hv
    | some a => simp [Optionally.some_iff, hread]

/-- A name that may be left out is read as what its values say. -/
theorem optional?_ofTexts_iff (hread : ∀ v a, read v = some a ↔ Says a v)
    (hnull : ∀ a, ¬ Says a .null) (entries : List (String × Value)) (name : String) :
    (∃ v, (Entries.ofTexts entries).optional? name = some v ∧ Tag.nullable read v = some o)
      ↔ Optionally Says o (given entries name) := by
  simp only [nullable_eq_some_iff hread hnull]
  unfold Entries.optional?
  rw [Entries.valuesOf_ofTexts]
  rcases given entries name with _ | ⟨v, _ | ⟨w, rest⟩⟩
  · -- no value is read as null, which says the same
    have hsame : Optionally Says o [.null] ↔ Optionally Says o [] :=
      ⟨fun h => h.alike hnull (.inr ⟨le_rfl, Nat.zero_le _, rfl⟩),
       fun h => h.alike hnull (.inr ⟨Nat.zero_le _, le_rfl, rfl⟩)⟩
    simpa using hsame
  · simp
  · cases o <;> simp [Optionally.none_iff, Optionally.some_iff]

end Optional

theorem Value.bool?_eq_some_iff (v : Value) (b : Bool) : v.bool? = some b ↔ v = .bool b := by
  cases v <;> simp [bool?]

end Json

-- ============================================================== constructs

namespace Construct

open Json

/-- The ways in which a construct is said: by the array of its two texts, or by an
object that gives each of them once, whatever else it gives. -/
inductive SaidBy (c : Construct) : Value → Prop
  | values : SaidBy c (.array [.ofString c.kind, .ofString c.name])
  | members {entries : List (String × Value)} (hkind : given entries "kind" = [.ofString c.kind])
      (hname : given entries "name" = [.ofString c.name]) : SaidBy c (.ofEntries entries)

theorem not_saidBy_null (c : Construct) : ¬ c.SaidBy .null := by
  rintro ⟨⟩

theorem ofJson?_ofEntries_iff (entries : List (String × Value)) (c : Construct) :
    ofJson? (.ofEntries entries) = some c ↔ given entries "kind" = [.ofString c.kind]
      ∧ given entries "name" = [.ofString c.name] := by
  have hread := Entries.namesReadable_ofTexts entries
  obtain ⟨kind, name⟩ := c
  show ofJson? (.object (Entries.ofTexts entries)) = _ ↔ _
  simp [ofJson?, hread, Option.bind_eq_some_iff, Entries.once?_ofTexts_iff,
    Value.text?_eq_some_iff]

theorem ofJson?_array_iff (items : List Value) (c : Construct) :
    ofJson? (.array items) = some c ↔ items = [.ofString c.kind, .ofString c.name] := by
  obtain ⟨kind, name⟩ := c
  rcases items with _ | ⟨v, _ | ⟨w, _ | ⟨u, rest⟩⟩⟩ <;>
    simp [ofJson?, Option.bind_eq_some_iff, Value.text?_eq_some_iff]

/-- A construct is read from the values that say it, and from no others. -/
theorem ofJson?_eq_some_iff (v : Value) (c : Construct) : ofJson? v = some c ↔ c.SaidBy v := by
  constructor
  · intro h
    cases v with
    | array items =>
      rw [(ofJson?_array_iff items c).mp h]
      exact .values
    | object members =>
      by_cases hread : Entries.namesReadable members = true
      · obtain ⟨entries, rfl⟩ := Entries.eq_ofTexts hread
        obtain ⟨hkind, hname⟩ := (ofJson?_ofEntries_iff entries c).mp h
        exact .members hkind hname
      · simp [ofJson?, hread] at h
    | _ => cases h
  · rintro (_ | ⟨hkind, hname⟩)
    · exact (ofJson?_array_iff _ c).mpr rfl
    · exact (ofJson?_ofEntries_iff _ c).mpr ⟨hkind, hname⟩

end Construct

-- ==================================================================== tags

namespace Tag

open Json

/-- The entries of the eight names. -/
def known (entries : List (String × Value)) : List (String × Value) :=
  entries.filter fun e => names.contains e.1

/-- Each of the eight names is given at most one value. -/
def GivesOnce (entries : List (String × Value)) : Prop :=
  ∀ name ∈ names, (given entries name).length ≤ 1

theorem given_known (entries : List (String × Value)) {name : String} (h : name ∈ names) :
    given (known entries) name = given entries name := by
  unfold given known
  rw [List.filter_filter]
  refine congrArg _ (List.filter_congr ?_)
  rintro ⟨key, v⟩ -
  by_cases hkey : key = name
  · subst hkey
    simpa using h
  · simp [hkey]

/-- The lists of values that describe a tag, one list for each name. -/
structure SaidBy (tag : Tag) (said : String → List Value) : Prop where
  name : said "name" = [.ofString tag.name]
  kind : said "kind_name" = [.ofString tag.kind]
  fileScope : said "file_scope" = [.bool tag.fileScope]
  scope : Optionally Construct.SaidBy tag.scope (said "scope")
  inheritance : Optionally Spells tag.inheritance (said "inheritance")
  access : Optionally Spells tag.access (said "access")
  implementation : Optionally Spells tag.implementation (said "implementation")
  typeRef : Optionally Construct.SaidBy tag.typeRef (said "type_ref")

variable {entries : List (String × Value)} {tag : Tag}

theorem not_spells_null (s : String) : ¬ Spells s .null := nofun

/-- Lists that say the same describe the same tags. -/
theorem SaidBy.alike {said said' : String → List Value} (h : tag.SaidBy said)
    (halike : ∀ name ∈ names, Alike (said name) (said' name)) : tag.SaidBy said' := by
  simp only [names, List.forall_mem_cons] at halike
  obtain ⟨hname, hkind, hfile, hscope, hbases, haccess, himpl, htype, -⟩ := halike
  rw [h.name] at hname
  rw [h.kind] at hkind
  rw [h.fileScope] at hfile
  exact
    { name := hname.single nofun
      kind := hkind.single nofun
      fileScope := hfile.single nofun
      scope := h.scope.alike Construct.not_saidBy_null hscope
      inheritance := h.inheritance.alike not_spells_null hbases
      access := h.access.alike not_spells_null haccess
      implementation := h.implementation.alike not_spells_null himpl
      typeRef := h.typeRef.alike Construct.not_saidBy_null htype }

theorem ofValues?_eq_some_iff (name kind fileScope scope inheritance access implementation
    typeRef : Value) :
    ofValues? name kind fileScope scope inheritance access implementation typeRef = some tag
      ↔ name.text? = some tag.name ∧ kind.text? = some tag.kind
        ∧ fileScope.bool? = some tag.fileScope
        ∧ nullable Construct.ofJson? scope = some tag.scope
        ∧ nullable Value.text? inheritance = some tag.inheritance
        ∧ nullable Value.text? access = some tag.access
        ∧ nullable Value.text? implementation = some tag.implementation
        ∧ nullable Construct.ofJson? typeRef = some tag.typeRef := by
  obtain ⟨_, _, _, _, _, _, _, _⟩ := tag
  simp only [ofValues?, Option.bind_eq_bind, Option.bind_eq_some_iff, Option.pure_def,
    Option.some.injEq, Tag.mk.injEq]
  constructor
  · rintro ⟨_, h₁, _, h₂, _, h₃, _, h₄, _, h₅, _, h₆, _, h₇, _, h₈, rfl, rfl, rfl, rfl, rfl, rfl,
      rfl, rfl⟩
    exact ⟨h₁, h₂, h₃, h₄, h₅, h₆, h₇, h₈⟩
  · rintro ⟨h₁, h₂, h₃, h₄, h₅, h₆, h₇, h₈⟩
    exact ⟨_, h₁, _, h₂, _, h₃, _, h₄, _, h₅, _, h₆, _, h₇, _, h₈, rfl, rfl, rfl, rfl, rfl, rfl,
      rfl, rfl⟩

/-- The array of eight values is read as eight lists of one value each. -/
theorem ofJson?_array_iff (value : String → Value) :
    ofJson? (.array (names.map value)) = some tag ↔ tag.SaidBy fun name => [value name] := by
  have hconstruct := fun (o : Option Construct) =>
    nullable_eq_some_iff (o := o) Construct.ofJson?_eq_some_iff Construct.not_saidBy_null
  have htext := fun (o : Option String) =>
    nullable_eq_some_iff (o := o) Value.text?_eq_some_iff not_spells_null
  show ofValues? .. = some tag ↔ _
  rw [ofValues?_eq_some_iff, Value.text?_eq_some_iff, Value.text?_eq_some_iff,
    Value.bool?_eq_some_iff, hconstruct, htext, htext, htext, hconstruct]
  constructor
  · rintro ⟨hname, hkind, hfile, hscope, hbases, haccess, himpl, htype⟩
    exact ⟨List.singleton_inj.mpr hname, List.singleton_inj.mpr hkind,
      List.singleton_inj.mpr hfile, hscope, hbases, haccess, himpl, htype⟩
  · rintro ⟨hname, hkind, hfile, hscope, hbases, haccess, himpl, htype⟩
    exact ⟨List.singleton_inj.mp hname, List.singleton_inj.mp hkind, List.singleton_inj.mp hfile,
      hscope, hbases, haccess, himpl, htype⟩

/-- An object is read as the lists of the values that it gives to the names. -/
theorem ofJson?_ofEntries_iff :
    ofJson? (.ofEntries entries) = some tag ↔ tag.SaidBy (given entries) := by
  have hread := Entries.namesReadable_ofTexts entries
  have hconstruct := fun name (o : Option Construct) =>
    optional?_ofTexts_iff (o := o) Construct.ofJson?_eq_some_iff Construct.not_saidBy_null entries
      name
  have htext := fun name (o : Option String) =>
    optional?_ofTexts_iff (o := o) Value.text?_eq_some_iff not_spells_null entries name
  show ofJson? (.object (Entries.ofTexts entries)) = some tag ↔ _
  simp only [ofJson?, hread, if_true, Option.bind_eq_bind, Option.bind_eq_some_iff,
    ofValues?_eq_some_iff, Entries.once?_ofTexts_iff]
  constructor
  · rintro ⟨name, hname, kind, hkind, file, hfile, scope, hscope, bases, hbases, access, haccess,
      impl, himpl, type, htype, hname', hkind', hfile', hscope', hbases', haccess', himpl', htype'⟩
    rw [(Value.text?_eq_some_iff ..).mp hname'] at hname
    rw [(Value.text?_eq_some_iff ..).mp hkind'] at hkind
    rw [(Value.bool?_eq_some_iff ..).mp hfile'] at hfile
    exact ⟨hname, hkind, hfile, (hconstruct ..).mp ⟨scope, hscope, hscope'⟩,
      (htext ..).mp ⟨bases, hbases, hbases'⟩, (htext ..).mp ⟨access, haccess, haccess'⟩,
      (htext ..).mp ⟨impl, himpl, himpl'⟩, (hconstruct ..).mp ⟨type, htype, htype'⟩⟩
  · intro h
    obtain ⟨scope, hscope, hscope'⟩ := (hconstruct ..).mpr h.scope
    obtain ⟨bases, hbases, hbases'⟩ := (htext ..).mpr h.inheritance
    obtain ⟨access, haccess, haccess'⟩ := (htext ..).mpr h.access
    obtain ⟨impl, himpl, himpl'⟩ := (htext ..).mpr h.implementation
    obtain ⟨type, htype, htype'⟩ := (hconstruct ..).mpr h.typeRef
    exact ⟨_, h.name, _, h.kind, _, h.fileScope, scope, hscope, bases, hbases, access, haccess,
      impl, himpl, type, htype, rfl, rfl, rfl, hscope', hbases', haccess', himpl', htype'⟩

/-- No tag is read from an object with a name that has no text. -/
theorem ofJson?_unreadable {members : Entries} (h : members.namesReadable = false) :
    ofJson? (.object members) = none := by
  rw [ofJson?, h]
  rfl

/-- Eight values are a value for each of the eight names. -/
theorem exists_eq_map_names {items : List Value} (h : items.length = names.length) :
    ∃ value : String → Value, items = names.map value := by
  refine ⟨fun name => items.getD (names.findIdx (· == name)) .null, ?_⟩
  have hplaces : ∀ i (hi : i < names.length), names.findIdx (· == names[i]) = i := by decide
  refine List.ext_getElem (by rw [List.length_map, h]) fun i hi hi' => ?_
  rw [List.getElem_map, hplaces i (h ▸ hi), List.getD_eq_getElem?_getD, List.getElem?_eq_getElem hi,
    Option.getD_some]

/-- A tag is read from the objects that say it and from the array of eight values that says
it, and from no other value. -/
theorem ofJson?_eq_some_iff (v : Value) (tag : Tag) :
    ofJson? v = some tag ↔
      (∃ entries, v = .ofEntries entries ∧ tag.SaidBy (given entries))
        ∨ ∃ value : String → Value,
          v = .array (names.map value) ∧ tag.SaidBy fun name => [value name] := by
  constructor
  · intro h
    cases v with
    | object members =>
      cases hread : Entries.namesReadable members with
      | false =>
        rw [ofJson?_unreadable hread] at h
        cases h
      | true =>
        obtain ⟨entries, rfl⟩ := Entries.eq_ofTexts hread
        exact .inl ⟨entries, rfl, ofJson?_ofEntries_iff.mp h⟩
    | array items =>
      have hlength : items.length = names.length := by
        unfold ofJson? at h
        split at h <;> simp_all [names]
      obtain ⟨value, rfl⟩ := exists_eq_map_names hlength
      exact .inr ⟨value, rfl, (ofJson?_array_iff value).mp h⟩
    | _ => cases h
  · rintro (⟨entries, rfl, hsaid⟩ | ⟨value, rfl, hsaid⟩)
    · exact ofJson?_ofEntries_iff.mpr hsaid
    · exact (ofJson?_array_iff value).mpr hsaid

theorem SaidBy.givesOnce (h : tag.SaidBy (given entries)) : GivesOnce entries := by
  have hlength : ∀ {α : Type} {Says : α → Value → Prop} {o : Option α} {vs : List Value},
      Optionally Says o vs → vs.length ≤ 1 := by
    rintro _ _ _ _ (_ | _ | _) <;> simp
  simp only [GivesOnce, names, List.forall_mem_cons]
  refine ⟨by rw [h.name]; rfl, by rw [h.kind]; rfl, by rw [h.fileScope]; rfl, hlength h.scope,
    hlength h.inheritance, hlength h.access, hlength h.implementation, hlength h.typeRef,
    List.forall_mem_nil _⟩

theorem read?_eq {text : String} {v : Value} (h : Json.read? text = some v) :
    read? text = ofJson? v := by
  rw [read?, h]
  rfl

/-- Objects that say the same of the eight names are read as the same. -/
theorem ofJson?_alike {entries entries' : List (String × Value)}
    (h : ∀ name ∈ names, Alike (given entries name) (given entries' name)) :
    ofJson? (.ofEntries entries') = ofJson? (.ofEntries entries) := by
  refine Option.ext fun tag => ?_
  rw [ofJson?_ofEntries_iff, ofJson?_ofEntries_iff]
  exact ⟨fun hsaid => hsaid.alike fun name hname => (h name hname).symm,
    fun hsaid => hsaid.alike h⟩

/-- What is read from an object. A tag is read exactly if it is said by the values that the
object gives to the names of a tag, and then each name was given at most one. It depends on
the entries of these names only, and on their order in no way; and as long as none of the
names is given two values, an entry that is null may as well be missing, and the array of
the eight values, with null for what is missing, is read as the same. -/
theorem documents_are_read_as_described {text : String} {entries : List (String × Value)}
    (hread : Json.read? text = some (.ofEntries entries)) :
    (∀ tag : Tag, Tag.read? text = some tag ↔ tag.SaidBy (given entries))
    ∧ (Tag.read? text ≠ none → GivesOnce entries)
    ∧ (∀ (text' : String) (entries' : List (String × Value)),
        Json.read? text' = some (.ofEntries entries') →
        ((known entries).Perm (known entries') → Tag.read? text' = Tag.read? text)
        ∧ (GivesOnce entries → GivesOnce entries' →
          (∀ name ∈ names, valueOrNull entries' name = valueOrNull entries name) →
          Tag.read? text' = Tag.read? text))
    ∧ (GivesOnce entries → ∀ text' : String,
        Json.read? text' = some (.array (names.map (valueOrNull entries))) →
        Tag.read? text' = Tag.read? text) := by
  have hobject := read?_eq hread
  refine ⟨?_, ?_, ?_, ?_⟩
  · intro tag
    rw [hobject, ofJson?_ofEntries_iff]
  · intro hsome
    obtain ⟨tag, htag⟩ := Option.ne_none_iff_exists'.mp hsome
    rw [hobject, ofJson?_ofEntries_iff] at htag
    exact htag.givesOnce
  · intro text' entries' hread'
    rw [hobject, read?_eq hread']
    refine ⟨?_, ?_⟩
    · intro hperm
      refine ofJson?_alike fun name hname => .inl ?_
      rw [← given_known entries hname, ← given_known entries' hname]
      exact (hperm.filter _).map _
    · intro honce honce' hvalues
      exact ofJson?_alike fun name hname =>
        .inr ⟨honce name hname, honce' name hname, (hvalues name hname).symm⟩
  · intro honce text' hread'
    rw [hobject, read?_eq hread']
    have halike : ∀ name ∈ names, Alike (given entries name) [valueOrNull entries name] :=
      fun name hname => .inr ⟨honce name hname, le_rfl, rfl⟩
    refine Option.ext fun tag => ?_
    rw [ofJson?_array_iff, ofJson?_ofEntries_iff]
    exact ⟨fun hsaid => hsaid.alike fun name hname => (halike name hname).symm,
      fun hsaid => hsaid.alike halike⟩

/-- A method inside a class, with entries out of order, a name that is none of a tag's and
a null, and the array of the same values. -/
theorem documents_are_read_as_described_method :
    let job : Value := .ofEntries
      [("name", .ofString "Job"), ("line", .array [.null]), ("kind", .ofString "class")]
    let v : Value := .ofEntries
      [("type_ref", .null), ("line", .ofEntries []), ("kind_name", .ofString "method"),
       ("scope", job), ("file_scope", .bool false), ("name", .ofString "run")]
    let w : Value := .array
      [.ofString "run", .ofString "method", .bool false, job, .null, .null, .null, .null]
    let tag : Tag := { name := "run", kind := "method", scope := some ⟨"class", "Job"⟩ }
    Tag.read? v.text = some tag ∧ Tag.read? w.text = some tag := by
  intro job v w tag
  let entries : List (String × Value) :=
    [("type_ref", .null), ("line", .ofEntries []), ("kind_name", .ofString "method"),
     ("scope", job), ("file_scope", .bool false), ("name", .ofString "run")]
  have hv : Json.read? v.text = some (.ofEntries entries) :=
    Json.read?_text (show v.Numberless by unfold Value.Numberless; decide)
  have hw : Json.read? w.text = some (.array (names.map (valueOrNull entries))) :=
    Json.read?_text (show w.Numberless by unfold Value.Numberless; decide)
  obtain ⟨hexact, honce, -, harray⟩ := documents_are_read_as_described hv
  have htag : Tag.read? v.text = some tag := by
    refine (hexact tag).mpr ⟨rfl, rfl, rfl, ?_, .absent, .absent, .absent, .null⟩
    exact .value (.members rfl rfl)
  refine ⟨htag, ?_⟩
  rw [harray (honce (htag ▸ nofun)) w.text hw, htag]

end Tag

end ScanTrace
