/-
Which names mean a level or a field. The two look-ups take the same two
steps, trimming and folding, and fold differently: a level is found by its
name up to the case of ASCII letters, a field by any of its ten names, for
which every underscore counts as a hyphen besides. Both are said here
without the look-up, by what a name consists of (`Level.Means`,
`Field.Means`): blanks in front, the text itself, blanks behind, where the
text neither begins nor ends with a blank. That this cuts a name in one way
only is `Text.trimsTo_iff`.

What follows is what a user has to know: nothing means two levels or two
fields; a name whose text is empty, or has a blank or a character outside
ASCII in it, means nothing; and a name that means nothing is refused as it
was given and changes nothing.
-/
import ScanTrace.FieldSet
import ScanTrace.LevelSet
import Mathlib.Data.List.DropRight
import Mathlib.Data.List.TakeWhile

namespace ScanTrace

-- ================================================================= trimming

namespace Text

/-- A text without the blanks at its two ends. -/
structure TrimsTo (given bare : List Char) : Prop where
  around : ∃ front back, given = front ++ bare ++ back
    ∧ (∀ c ∈ front, isBlank c = true) ∧ ∀ c ∈ back, isBlank c = true
  first : ∀ c, bare.head? = some c → isBlank c = false
  last : ∀ c, bare.getLast? = some c → isBlank c = false

theorem trim_eq_rdropWhile (given : List Char) :
    trim given = (given.dropWhile isBlank).rdropWhile isBlank := rfl

/-- What is left after dropping does not begin with what was dropped. -/
theorem not_of_head?_dropWhile {p : Char → Bool} {cs : List Char} {c : Char}
    (h : (cs.dropWhile p).head? = some c) : p c = false := by
  have hhead := List.head?_dropWhile_not p cs
  rw [h] at hhead
  exact hhead

theorem trimsTo_trim (given : List Char) : TrimsTo given (trim given) where
  around := by
    refine ⟨given.takeWhile isBlank, (given.dropWhile isBlank).rtakeWhile isBlank, ?_,
      fun _ => List.mem_takeWhile_imp, fun _ => List.mem_rtakeWhile_imp⟩
    rw [trim_eq_rdropWhile, List.append_assoc, List.rdropWhile_append_rtakeWhile,
      List.takeWhile_append_dropWhile]
  first c hc := by
    rw [trim_eq_rdropWhile] at hc
    obtain ⟨back, hback⟩ := List.rdropWhile_prefix (p := isBlank) (l := given.dropWhile isBlank)
    have hhead : (given.dropWhile isBlank).head? = some c := by
      rw [← hback, List.head?_append, hc, Option.some_or]
    exact not_of_head?_dropWhile hhead
  last c hc := by
    rw [trim, List.getLast?_reverse] at hc
    exact not_of_head?_dropWhile hc

/-- Blanks in front are dropped, up to what does not begin with one. -/
theorem dropWhile_blanks {front rest : List Char} (h : ∀ c ∈ front, isBlank c = true)
    (hrest : ∀ c, rest.head? = some c → isBlank c = false) :
    (front ++ rest).dropWhile isBlank = rest := by
  rw [List.dropWhile_append_of_pos h]
  cases rest with
  | nil => rfl
  | cons c rest => rw [List.dropWhile_cons_of_neg (by simp [hrest c rfl])]

/-- Trimming is the only way to take the blanks off both ends. -/
theorem trimsTo_iff {given bare : List Char} : TrimsTo given bare ↔ trim given = bare := by
  constructor
  · rintro ⟨⟨front, back, rfl, hfront, hback⟩, hfirst, hlast⟩
    have hbehind : ∀ c ∈ back.reverse, isBlank c = true := fun c hc =>
      hback c (List.mem_reverse.mp hc)
    have hend : ∀ c, bare.reverse.head? = some c → isBlank c = false := by
      intro c hc
      rw [List.head?_reverse] at hc
      exact hlast c hc
    rw [trim, List.append_assoc, List.dropWhile_append_of_pos hfront]
    cases bare with
    | nil =>
      rw [List.nil_append, List.dropWhile_eq_nil_iff.mpr hback]
      rfl
    | cons c bare =>
      have hstays : ((c :: bare) ++ back).dropWhile isBlank = (c :: bare) ++ back :=
        List.dropWhile_cons_of_neg (by simp [hfirst c rfl])
      rw [hstays, List.reverse_append, dropWhile_blanks hbehind hend, List.reverse_reverse]
  · rintro rfl
    exact trimsTo_trim given

theorem TrimsTo.unique {given bare bare' : List Char} (h : TrimsTo given bare)
    (h' : TrimsTo given bare') : bare = bare' :=
  (trimsTo_iff.mp h).symm.trans (trimsTo_iff.mp h')

-- ================================================================== folding

/-- A character of ASCII that is no blank. -/
def isPlain (c : Char) : Bool := decide (c.toNat < 0x80) && !isBlank c

theorem isPlain_iff {c : Char} : isPlain c = true ↔ c.toNat < 0x80 ∧ isBlank c = false := by
  simp [isPlain]

theorem isPlain_of_toLower {c : Char} (h : isPlain c.toLower = true) : isPlain c = true := by
  unfold Char.toLower at h
  split at h
  · next hcapital =>
    have hlow : 65 ≤ c.toNat := hcapital.1
    have hhigh : c.toNat ≤ 90 := hcapital.2
    rw [isPlain_iff]
    refine ⟨by omega, ?_⟩
    rw [Bool.eq_false_iff]
    intro hblank
    simp only [isBlank, blankRanges, List.any_cons, List.any_nil, Bool.or_false,
      Bool.or_eq_true, Bool.and_eq_true, decide_eq_true_eq] at hblank
    omega
  · exact h

/-- Plain characters, and one of them at least. -/
def isWord (cs : List Char) : Bool := !cs.isEmpty && cs.all isPlain

theorem isWord_iff {cs : List Char} :
    isWord cs = true ↔ cs ≠ [] ∧ ∀ c ∈ cs, isPlain c = true := by
  simp [isWord]

theorem isWord_of_map {fold : Char → Char}
    (hfold : ∀ c, isPlain (fold c) = true → isPlain c = true) {cs : List Char}
    (h : isWord (cs.map fold) = true) : isWord cs = true := by
  obtain ⟨hsome, hall⟩ := isWord_iff.mp h
  refine isWord_iff.mpr ⟨?_, fun c hc => hfold c (hall _ (List.mem_map_of_mem hc))⟩
  rintro rfl
  exact hsome rfl

/-- Neither no text at all nor one with a blank or a character outside ASCII is a word. -/
theorem not_isWord {cs : List Char}
    (h : cs = [] ∨ ∃ c ∈ cs, isBlank c = true ∨ 0x80 ≤ c.toNat) : ¬ isWord cs = true := by
  intro hword
  obtain ⟨hsome, hall⟩ := isWord_iff.mp hword
  rcases h with hempty | ⟨c, hc, hodd⟩
  · exact hsome hempty
  · obtain ⟨hascii, hblank⟩ := isPlain_iff.mp (hall c hc)
    rcases hodd with hodd | hodd
    · exact Bool.false_ne_true (hblank.symm.trans hodd)
    · omega

end Text

-- =================================================================== levels

namespace Level

/-- A name means a level if, without the blanks around it, it is the name of the level up
to the case of ASCII letters. -/
def Means (l : Level) (given : String) : Prop :=
  ∃ bare, Text.TrimsTo given.toList bare ∧ bare.map Char.toLower = l.name.toList.map Char.toLower

theorem map_toLower_name (l : Level) : l.name.toList.map Char.toLower = l.name.toList := by
  cases l <;> decide

theorem named?_eq_some_iff {given : String} {l : Level} :
    named? given = some l ↔ l.Means given := by
  have hname : l.Means given ↔ l.name.toList = (Text.trim given.toList).map Char.toLower := by
    unfold Means
    simp only [Text.trimsTo_iff, map_toLower_name, exists_eq_left']
    exact eq_comm
  have hfind : ∀ l ∈ all, (all.find? fun l' => l'.name.toList == l.name.toList) = some l := by
    decide
  rw [hname]
  constructor
  · intro h
    have hfound := List.find?_some h
    exact beq_iff_eq.mp hfound
  · intro h
    unfold named?
    rw [← h]
    exact hfind l (mem_all l)

theorem Means.unique {given : String} {l l' : Level} (h : l.Means given) (h' : l'.Means given) :
    l = l' :=
  Option.some.inj ((named?_eq_some_iff.mpr h).symm.trans (named?_eq_some_iff.mpr h'))

theorem named?_eq_none_iff {given : String} :
    named? given = none ↔ ∀ l : Level, ¬ l.Means given := by
  rw [Option.eq_none_iff_forall_ne_some]
  exact forall_congr' fun l => not_congr named?_eq_some_iff

theorem Means.isWord {given : String} {l : Level} (h : l.Means given) {bare : List Char}
    (hbare : Text.TrimsTo given.toList bare) : Text.isWord bare = true := by
  obtain ⟨bare', hbare', hname⟩ := h
  obtain rfl := hbare'.unique hbare
  have hword : Text.isWord l.name.toList = true := by cases l <;> decide
  refine Text.isWord_of_map (fun _ => Text.isPlain_of_toLower) ?_
  rwa [hname, map_toLower_name]

end Level

-- =================================================================== fields

namespace Field

/-- The names of the fields. -/
def vocabulary : List (String × Field) :=
  [("inheritance", .inheritance), ("inherits", .inheritance), ("file-scope", .fileScope),
   ("file", .fileScope), ("access", .access), ("implementation", .implementation),
   ("imp", .implementation), ("type-reference", .typeRef), ("type-ref", .typeRef),
   ("typeref", .typeRef)]

def hyphened (c : Char) : Char := if c = '_' then '-' else c

/-- A name means a field if, without the blanks around it, with its ASCII letters made small
and then its underscores made hyphens, it is one of the names of the field. -/
def Means (f : Field) (given : String) : Prop :=
  ∃ bare name, Text.TrimsTo given.toList bare ∧ (name, f) ∈ vocabulary
    ∧ (bare.map Char.toLower).map hyphened = name.toList

theorem mem_vocabulary {name : String} {f : Field} : (name, f) ∈ vocabulary ↔ name ∈ f.names := by
  cases f <;> simp [vocabulary, names]

theorem hyphened_toLower (c : Char) :
    hyphened c.toLower = if c = '_' then '-' else c.toLower := by
  unfold hyphened
  by_cases h : c = '_'
  · rw [h]
    rfl
  · have hlower : c.toLower ≠ '_' := by
      intro hc
      unfold Char.toLower at hc
      split at hc
      · next hcapital =>
        have hvalue : c.val + ('a'.val - 'A'.val) = '_'.val := congrArg Char.val hc
        have hle : c.val.toNat ≤ 90 := hcapital.2
        have hge : 65 ≤ c.val.toNat := hcapital.1
        have hsum := congrArg UInt32.toNat hvalue
        rw [UInt32.toNat_add] at hsum
        have hstep : ('a'.val - 'A'.val).toNat = 32 := rfl
        have hmark : ('_'.val).toNat = 95 := rfl
        omega
      · exact h hc
    rw [if_neg h, if_neg hlower]

theorem normalize_eq (given : String) :
    normalize given = ((Text.trim given.toList).map Char.toLower).map hyphened := by
  unfold normalize
  rw [List.map_map]
  exact List.map_congr_left fun c _ => (hyphened_toLower c).symm

theorem named?_eq_some_iff {given : String} {f : Field} :
    named? given = some f ↔ f.Means given := by
  have hname : f.Means given ↔ ∃ name ∈ f.names, name.toList = normalize given := by
    unfold Means
    simp only [Text.trimsTo_iff, mem_vocabulary, normalize_eq, exists_and_left, exists_eq_left']
    exact exists_congr fun name => and_congr_right fun _ => eq_comm
  -- no name is listed for two fields
  have hfind : ∀ f ∈ all, ∀ name ∈ f.names,
      (all.find? fun g => g.names.any fun n => n.toList == name.toList) = some f := by decide
  rw [hname]
  constructor
  · intro h
    simpa using List.find?_some h
  · rintro ⟨name, hmem, hnormal⟩
    unfold named?
    rw [← hnormal]
    exact hfind f (mem_all f) name hmem

theorem Means.unique {given : String} {f f' : Field} (h : f.Means given) (h' : f'.Means given) :
    f = f' :=
  Option.some.inj ((named?_eq_some_iff.mpr h).symm.trans (named?_eq_some_iff.mpr h'))

theorem named?_eq_none_iff {given : String} :
    named? given = none ↔ ∀ f : Field, ¬ f.Means given := by
  rw [Option.eq_none_iff_forall_ne_some]
  exact forall_congr' fun f => not_congr named?_eq_some_iff

theorem isPlain_of_hyphened {c : Char} (h : Text.isPlain (hyphened c) = true) :
    Text.isPlain c = true := by
  unfold hyphened at h
  split_ifs at h with hmark
  · rw [hmark]
    decide
  · exact h

theorem Means.isWord {given : String} {f : Field} (h : f.Means given) {bare : List Char}
    (hbare : Text.TrimsTo given.toList bare) : Text.isWord bare = true := by
  obtain ⟨bare', name, hbare', hmem, hname⟩ := h
  obtain rfl := hbare'.unique hbare
  have hwords : ∀ e ∈ vocabulary, Text.isWord e.1.toList = true := by decide
  refine Text.isWord_of_map (fun _ => Text.isPlain_of_toLower) ?_
  refine Text.isWord_of_map (fun _ => isPlain_of_hyphened) ?_
  rw [hname]
  exact hwords _ hmem

end Field

-- ============================================================ what a name does

theorem Level.ofName_eq_ok_iff {given : String} {l : Level} :
    Level.ofName given = .ok l ↔ l.Means given := by
  rw [← Level.named?_eq_some_iff, Level.ofName]
  cases Level.named? given <;> simp

theorem Level.ofName_of_unknown {given : String} (h : ∀ l : Level, ¬ l.Means given) :
    Level.ofName given = .error (.unknownLevel given) := by
  rw [Level.ofName, Level.named?_eq_none_iff.mpr h]

theorem LevelSet.run_setNamed (s : LevelSet) (on : Bool) {given : String} {l : Level}
    (h : l.Means given) : (Op.setNamed given on).run s = { state := s.set l on } := by
  simp only [Op.run, Op.apply, setNamed, Level.ofName_eq_ok_iff.mpr h, Except.map]

theorem LevelSet.run_setNamed_unknown (s : LevelSet) (on : Bool) {given : String}
    (h : ∀ l : Level, ¬ l.Means given) :
    (Op.setNamed given on).run s = { state := s, rejected := some (.unknownLevel given) } := by
  simp only [Op.run, Op.apply, setNamed, Level.ofName_of_unknown h, Except.map]

theorem FieldSet.setNamed_of_means (s : FieldSet) (on : Bool) {given : String} {f : Field}
    (h : f.Means given) : s.setNamed given on = .ok (s.set f on) := by
  simp only [setNamed, Field.named?_eq_some_iff.mpr h]

theorem FieldSet.setNamed_unknown (s : FieldSet) (on : Bool) {given : String}
    (h : ∀ f : Field, ¬ f.Means given) : s.setNamed given on = .error (.unknownField given) := by
  simp only [setNamed, Field.named?_eq_none_iff.mpr h]

/-- What a name does to the levels and to the fields. It is read as a level exactly if it
means the level, and means no other; set by that name, the level alone is put as asked. It
is taken for a field exactly if it means one, and means no other; set by that name, the
field alone is put as asked. A name that means nothing is refused as it was given, blanks
included, and changes nothing; and nothing is what a name means that is empty between its
blanks, or has a blank or a character outside ASCII between them. -/
theorem names_are_accepted_exactly (given : String) :
    ((∀ l, Level.ofName given = .ok l ↔ l.Means given)
      ∧ (∀ l l' : Level, l.Means given → l'.Means given → l = l')
      ∧ (∀ (s : LevelSet) on l, l.Means given → ∃ t,
          (LevelSet.Op.setNamed given on).run s = { state := t }
          ∧ ∀ l', t.has l' = if l' = l then on else s.has l')
      ∧ ((∀ l : Level, ¬ l.Means given) → Level.ofName given = .error (.unknownLevel given)
          ∧ ∀ (s : LevelSet) on, (LevelSet.Op.setNamed given on).run s
            = { state := s, rejected := some (.unknownLevel given) }))
    ∧ ((∀ (s t : FieldSet) on, s.setNamed given on = .ok t ↔
          ∃ f : Field, f.Means given ∧ ∀ g, t.shows g = if g = f then on else s.shows g)
      ∧ (∀ f f' : Field, f.Means given → f'.Means given → f = f')
      ∧ ((∀ f : Field, ¬ f.Means given) → ∀ (s : FieldSet) on,
          s.setNamed given on = .error (.unknownField given)
          ∧ (FieldSet.Op.setNamed given on).run s
            = { state := s, rejected := some (.unknownField given) }))
    ∧ (∀ bare, Text.TrimsTo given.toList bare →
        (bare = [] ∨ ∃ c ∈ bare, Text.isBlank c = true ∨ 0x80 ≤ c.toNat) →
        (∀ l : Level, ¬ l.Means given) ∧ ∀ f : Field, ¬ f.Means given) := by
  refine ⟨⟨fun l => Level.ofName_eq_ok_iff, fun _ _ => Level.Means.unique, ?_, ?_⟩,
    ⟨?_, fun _ _ => Field.Means.unique, ?_⟩, ?_⟩
  · intro s on l hl
    exact ⟨s.set l on, s.run_setNamed on hl, fun l' => s.has_set l l' on⟩
  · intro hnone
    exact ⟨Level.ofName_of_unknown hnone, fun s on => s.run_setNamed_unknown on hnone⟩
  · intro s t on
    constructor
    · intro hset
      cases hname : Field.named? given with
      | none => simp [FieldSet.setNamed, hname] at hset
      | some f =>
        have hf : f.Means given := Field.named?_eq_some_iff.mp hname
        rw [s.setNamed_of_means on hf] at hset
        obtain rfl : s.set f on = t := Except.ok.inj hset
        exact ⟨f, hf, fun g => s.shows_set f g on⟩
    · rintro ⟨f, hf, hshows⟩
      have hset : s.set f on = t := FieldSet.ext_shows fun g => by rw [hshows, s.shows_set]
      rw [s.setNamed_of_means on hf, hset]
  · intro hnone s on
    have hset := s.setNamed_unknown on hnone
    refine ⟨hset, ?_⟩
    rw [FieldSet.Op.run, hset]
  · intro bare hbare hodd
    have hnot := Text.not_isWord hodd
    exact ⟨fun l hl => hnot (hl.isWord hbare), fun f hf => hnot (hf.isWord hbare)⟩

/-- Blanks around a name and its capitals do not count; a long s and a blank within do. -/
example : Level.named? " PaRsE\u3000" = some .parse ∧ Level.named? "\u017Ftatus" = none
    ∧ Field.named? "\tType_Ref " = some .typeRef ∧ Field.named? "file scope" = none := by decide

end ScanTrace
