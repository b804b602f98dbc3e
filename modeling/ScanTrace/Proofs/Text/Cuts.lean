/-
Texts put behind one another and taken apart again. A character that does not
occur in a text can mark where the text ends: the first place of the mark is
the only one at which the whole can be cut (`cut_unique`). So texts that each
end in the same mark and have it nowhere else can be joined without anything
between them, and the joined text tells which they were and in what order
(`eq_of_flatMap`): none of them begins another, and each takes at least one
character.
-/
import Mathlib.Tactic

namespace ScanTrace.Text

/-- A text is cut at the first place of a character in one way only. -/
theorem cut_unique {x : Char} {before before' behind behind' : List Char} (h : x ∉ before)
    (h' : x ∉ before') (heq : before ++ x :: behind = before' ++ x :: behind') :
    before = before' ∧ behind = behind' := by
  obtain ⟨more, rfl, hmore⟩ | ⟨more, rfl, hmore⟩ := List.append_eq_append_iff.mp heq
  · cases more with
    | nil => exact ⟨(List.append_nil _).symm, (List.cons.inj hmore).2⟩
    | cons y more =>
      obtain ⟨rfl, -⟩ := List.cons.inj hmore
      exact absurd (List.mem_append_right _ List.mem_cons_self) h'
  · cases more with
    | nil => exact ⟨List.append_nil _, (List.cons.inj hmore).2.symm⟩
    | cons y more =>
      obtain ⟨rfl, -⟩ := List.cons.inj hmore
      exact absurd (List.mem_append_right _ List.mem_cons_self) h

/-- A text that has a character as its last and nowhere else. -/
def EndsAt (x : Char) (text : List Char) : Prop := ∃ before, x ∉ before ∧ text = before ++ [x]

namespace EndsAt

variable {x : Char} {text text' : List Char}

theorem ne_nil (h : EndsAt x text) : text ≠ [] := by
  obtain ⟨before, -, rfl⟩ := h
  exact List.append_ne_nil_of_right_ne_nil before (List.cons_ne_nil x [])

/-- Of two such texts none begins the other. -/
theorem unique {behind behind' : List Char} (h : EndsAt x text) (h' : EndsAt x text')
    (heq : text ++ behind = text' ++ behind') : text = text' ∧ behind = behind' := by
  obtain ⟨before, hx, rfl⟩ := h
  obtain ⟨before', hx', rfl⟩ := h'
  rw [List.append_assoc, List.append_assoc] at heq
  obtain ⟨rfl, hbehind⟩ := cut_unique hx hx' heq
  exact ⟨rfl, hbehind⟩

/-- Joined, they can be told apart. -/
theorem eq_of_flatMap {α : Type} {f : α → List Char} (hends : ∀ a, EndsAt x (f a))
    (hf : f.Injective) {as bs : List α} (h : as.flatMap f = bs.flatMap f) : as = bs := by
  induction as generalizing bs with
  | nil =>
    cases bs with
    | nil => rfl
    | cons b bs => exact absurd (List.append_eq_nil_iff.mp h.symm).1 (hends b).ne_nil
  | cons a as ih =>
    cases bs with
    | nil => exact absurd (List.append_eq_nil_iff.mp h).1 (hends a).ne_nil
    | cons b bs =>
      obtain ⟨hfirst, hrest⟩ := (hends a).unique (hends b) h
      rw [hf hfirst, ih hrest]

end EndsAt

end ScanTrace.Text
