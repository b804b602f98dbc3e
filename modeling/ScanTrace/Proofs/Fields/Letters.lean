/-
Letter lists, said without reading them in order. `applyFrom` goes through a
list from the left with the latest sign in its hand; a user who wrote the
list asks about one field at a time. The answer is in the last place where
the letter of the field stands: the nearest sign in front of it decides, and
without a sign the field is on. A field whose letter does not stand in the
list keeps its switch if the list opens with a sign, and is off if not.

All this is about the part of the list that is understood, which ends in
front of the first character that is neither a sign nor a known letter. That
character is what the refusal names, and nothing behind it counts.

# The induction

Each statement about `applyFrom` follows its own recursion, for any latest
sign and any set to begin with. The sign that was in force where a list
begins is used up by the first sign of the list (`decision_cons`), and that
carries the induction for the last place of a letter.
-/
import ScanTrace.FieldSet
import Mathlib.Data.List.TakeWhile
import Mathlib.Tactic

namespace ScanTrace

-- ============================================================ the alphabet

namespace Field

theorem ofLetter?_eq_some_iff {c : Char} {f : Field} : ofLetter? c = some f ↔ f.letter = c := by
  constructor
  · intro h
    have hletter := List.find?_some h
    exact beq_iff_eq.mp hletter
  · rintro rfl
    cases f <;> rfl

theorem ofLetter?_eq_none_iff {c : Char} : ofLetter? c = none ↔ ∀ f : Field, f.letter ≠ c := by
  rw [Option.eq_none_iff_forall_ne_some]
  exact forall_congr' fun f => not_congr ofLetter?_eq_some_iff

/-- No sign is a letter, and no letter of a field is one that is not traced. -/
theorem letter_apart (f : Field) :
    f.letter ≠ '+' ∧ f.letter ≠ '-' ∧ f.letter ∉ untracedLetters := by
  cases f <;> decide

end Field

namespace FieldSet

/-- The characters that mean something in a letter list: two signs, the letters of the
fields, and letters of which nothing is traced. -/
def alphabet : List Char :=
  ['+', '-', 'i', 'f', 'a', 'm', 't', 'k', 'K', 'l', 'n', 's', 'S', 'z']

def isKnown (c : Char) : Bool := alphabet.contains c

/-- The part of a letter list in front of the first character that means nothing, and
so the longest beginning of it in which every character means something. -/
def understood (cs : List Char) : List Char := cs.takeWhile isKnown

/-- The sign nearest to the end of a list. -/
def nearestSign? (cs : List Char) : Option Char := cs.reverse.find? isSign

/-- What the characters in front of a letter say about it, with this sign in force
in front of them. -/
def decision (on : Bool) (before : List Char) : Bool :=
  match nearestSign? before with
  | none => on
  | some sign => sign != '-'

theorem isKnown_letter (f : Field) : isKnown f.letter = true := by
  cases f <;> decide

theorem isKnown_untraced {c : Char} (h : c ∈ Field.untracedLetters) : isKnown c = true := by
  have hall : Field.untracedLetters.all isKnown = true := rfl
  exact List.all_eq_true.mp hall c h

theorem isKnown_eq_false {c : Char} (hplus : c ≠ '+') (hminus : c ≠ '-')
    (hfield : Field.ofLetter? c = none) (huntraced : c ∉ Field.untracedLetters) :
    isKnown c = false := by
  have halphabet : alphabet
      = ['+', '-'] ++ Field.all.map Field.letter ++ Field.untracedLetters := rfl
  have hletter : c ∉ Field.all.map Field.letter := by
    intro hc
    obtain ⟨f, -, hf⟩ := List.mem_map.mp hc
    exact Field.ofLetter?_eq_none_iff.mp hfield f hf
  simp [isKnown, halphabet, hplus, hminus, hletter, huntraced]

theorem understood_cons_of_known {c : Char} (h : isKnown c = true) (rest : List Char) :
    understood (c :: rest) = c :: understood rest := List.takeWhile_cons_of_pos h

theorem understood_cons_of_unknown {c : Char} (h : isKnown c = false) (rest : List Char) :
    understood (c :: rest) = [] := List.takeWhile_cons_of_neg (by rw [h]; exact nofun)

theorem decision_cons (on : Bool) (c : Char) (before : List Char) :
    decision on (c :: before) = decision (if isSign c then c != '-' else on) before := by
  unfold decision nearestSign?
  rw [List.reverse_cons, List.find?_append]
  cases hrest : before.reverse.find? isSign with
  | some sign => rfl
  | none =>
    rw [Option.none_or, List.find?_singleton]
    cases isSign c <;> rfl

-- ======================================================== one list, in order

/-- What an outcome has to be when a list is read with a sign in force and a set to
begin with. -/
structure Reads (on : Bool) (s : FieldSet) (cs : List Char) (out : Outcome FieldSet) :
    Prop where
  rejected : out.rejected = (cs.dropWhile isKnown).head?.map .unknownLetter
  notices : out.notices
    = ((understood cs).filter Field.untracedLetters.contains).map .letterUntraced
  absent : ∀ f : Field, f.letter ∉ understood cs → out.state.shows f = s.shows f
  last : ∀ (f : Field) before behind, understood cs = before ++ f.letter :: behind →
    f.letter ∉ behind → out.state.shows f = decision on before

namespace Reads

variable {on : Bool} {s : FieldSet} {c : Char} {rest : List Char} {out : Outcome FieldSet}

theorem nil (on : Bool) (s : FieldSet) : Reads on s [] { state := s } where
  rejected := rfl
  notices := rfl
  absent _ _ := rfl
  last f before behind hsplit _ := by
    have hmem : f.letter ∈ understood [] := hsplit ▸ List.mem_append_right _ List.mem_cons_self
    cases hmem

/-- A sign or a letter of which nothing is traced: behind a sign the list is read
with that sign in force, and the other kind leaves a notice. -/
theorem aside (hknown : isKnown c = true) (hne : ∀ f : Field, f.letter ≠ c)
    (h : Reads (if isSign c then c != '-' else on) s rest out) :
    Reads on s (c :: rest) { out with
      notices := (if Field.untracedLetters.contains c then [.letterUntraced c] else [])
        ++ out.notices } := by
  refine ⟨?_, ?_, ?_, ?_⟩
  · rw [List.dropWhile_cons_of_pos hknown]
    exact h.rejected
  · rw [understood_cons_of_known hknown, List.filter_cons, h.notices]
    split_ifs <;> rfl
  · intro f hf
    rw [understood_cons_of_known hknown] at hf
    exact h.absent f (fun hmem => hf (List.mem_cons_of_mem _ hmem))
  · intro f before behind hsplit hbehind
    rw [understood_cons_of_known hknown] at hsplit
    cases before with
    | nil => exact absurd (List.cons.inj hsplit).1.symm (hne f)
    | cons c' before =>
      obtain ⟨rfl, hrest⟩ := List.cons.inj hsplit
      rw [decision_cons]
      exact h.last f before behind hrest hbehind

/-- The letter of a field switches it, unless the rest of the list says otherwise. -/
theorem letter {g : Field} (h : Reads on (s.set g on) rest out) :
    Reads on s (g.letter :: rest) out := by
  obtain ⟨hplus, hminus, huntraced⟩ := g.letter_apart
  have hknown := isKnown_letter g
  have hsign : isSign g.letter = false := by simp [isSign, hplus, hminus]
  refine ⟨?_, ?_, ?_, ?_⟩
  · rw [h.rejected, List.dropWhile_cons_of_pos hknown]
  · rw [h.notices, understood_cons_of_known hknown,
      List.filter_cons_of_neg (by simpa using huntraced)]
  · intro f hf
    rw [understood_cons_of_known hknown, List.mem_cons, not_or] at hf
    have hne : f ≠ g := fun hfg => hf.1 (hfg ▸ rfl)
    rw [h.absent f hf.2, shows_set_of_ne s on hne]
  · intro f before behind hsplit hbehind
    rw [understood_cons_of_known hknown] at hsplit
    cases before with
    | nil =>
      obtain ⟨hletter, rfl⟩ := List.cons.inj hsplit
      have hfg : g = f := Option.some.inj ((Field.ofLetter?_eq_some_iff.mpr rfl).symm.trans
        (Field.ofLetter?_eq_some_iff.mpr hletter.symm))
      subst hfg
      rw [h.absent g hbehind, shows_set_self]
      rfl
    | cons c' before =>
      obtain ⟨rfl, hrest⟩ := List.cons.inj hsplit
      rw [decision_cons, if_neg (by rw [hsign]; exact nofun)]
      exact h.last f before behind hrest hbehind

/-- A character that means nothing ends the list. -/
theorem unknown (hc : isKnown c = false) :
    Reads on s (c :: rest) { state := s, rejected := some (.unknownLetter c) } where
  rejected := by
    rw [List.dropWhile_cons_of_neg (by rw [hc]; exact nofun)]
    rfl
  notices := by
    rw [understood_cons_of_unknown hc]
    rfl
  absent _ _ := rfl
  last f before behind hsplit _ := by
    rw [understood_cons_of_unknown hc] at hsplit
    exact absurd hsplit (by simp)

end Reads

/-- A list that is read in order comes to what its own characters say. -/
theorem reads_applyFrom (on : Bool) (s : FieldSet) (cs : List Char) :
    Reads on s cs (applyFrom on s cs) := by
  fun_induction applyFrom on s cs with
  | case1 on s => exact .nil on s
  | case2 on s rest ih => exact .aside (c := '+') rfl (fun f => f.letter_apart.1) ih
  | case3 on s rest _ ih => exact .aside (c := '-') rfl (fun f => f.letter_apart.2.1) ih
  | case4 on s c rest _ _ f hf ih =>
    rw [← Field.ofLetter?_eq_some_iff.mp hf]
    exact ih.letter
  | case5 on s c rest hplus hminus hf huntraced after ih =>
    have hsign : isSign c = false := by simp [isSign, hplus, hminus]
    have hknown := isKnown_untraced (List.contains_iff_mem.mp huntraced)
    have hrest : Reads (if isSign c then c != '-' else on) s rest after := by rwa [hsign]
    have hread := hrest.aside hknown (Field.ofLetter?_eq_none_iff.mp hf)
    rwa [if_pos huntraced] at hread
  | case6 on s c rest hplus hminus hf huntraced =>
    refine .unknown (isKnown_eq_false hplus hminus hf fun hc => huntraced ?_)
    exact List.contains_iff_mem.mpr hc

-- ============================================================== whole lists

/-- A letter list does what its understood part says, field by field: where the
letter of a field stands last, the nearest sign in front of it decides, and a
field is on unless that is a minus; a field whose letter is not there keeps
its switch if the list opens with a sign and is off if not. The list is
refused exactly if it is not understood to its end, for the first character
behind the understood part, and the log has one notice for each letter in that
part of which nothing is traced. -/
theorem letters_decide_by_last_place (s : FieldSet) (list : String) :
    let cs := list.toList
    let done := understood cs
    let out := s.applyLetters list
    out.rejected = (cs.drop done.length).head?.map .unknownLetter
      ∧ (out.rejected = none ↔ done = cs)
      ∧ (∀ f : Field, f.letter ∉ done → out.state.shows f = (cs.head?.any isSign && s.shows f))
      ∧ (∀ (f : Field) before behind, done = before ++ f.letter :: behind → f.letter ∉ behind →
          out.state.shows f = (nearestSign? before != some '-'))
      ∧ out.notices = (done.filter Field.untracedLetters.contains).map .letterUntraced
      ∧ ∀ n ∈ out.notices, n.severity = .debug := by
  intro cs done out
  have hreads : Reads true (if cs.head?.any isSign then s else {}) cs out := reads_applyFrom ..
  have hrest : cs.drop done.length = cs.dropWhile isKnown := by
    have happend : done ++ cs.dropWhile isKnown = cs := List.takeWhile_append_dropWhile
    conv_lhs => rw [← happend]
    exact List.drop_left
  have hrejected : out.rejected = (cs.drop done.length).head?.map .unknownLetter := by
    rw [hrest]
    exact hreads.rejected
  refine ⟨hrejected, ?_, ?_, ?_, hreads.notices, ?_⟩
  · rw [hreads.rejected, Option.map_eq_none_iff, List.head?_eq_none_iff,
      List.dropWhile_eq_nil_iff, ← List.takeWhile_eq_self_iff]
    exact Iff.rfl
  · intro f hf
    rw [hreads.absent f hf]
    split_ifs with hsign
    · rw [hsign, Bool.true_and]
    · rw [Bool.not_eq_true] at hsign
      rw [hsign, Bool.false_and]
      cases f <;> rfl
  · intro f before behind hsplit hbehind
    rw [hreads.last f before behind hsplit hbehind]
    unfold decision
    cases nearestSign? before with
    | none => rfl
    | some sign => rfl
  · intro n hn
    rw [hreads.notices] at hn
    obtain ⟨c, -, rfl⟩ := List.mem_map.mp hn
    rfl

example : ({ access := true, typeRef := true } : FieldSet).applyLetters "-ik+f-i+t-?a"
    = { state := { access := true, typeRef := true, fileScope := true }
        notices := [.letterUntraced 'k']
        rejected := some (.unknownLetter '?') } := by
  rfl

end FieldSet

end ScanTrace
