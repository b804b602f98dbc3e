/-
Switches set by name, one entry after another. A configuration has two
panels of switches, its levels and its fields, and both are set in the same
way: a name means a switch of the panel or none, a switch that is meant is
put as the entry says, and a name that means none is refused with a notice.
`Panel` states these laws, and what follows is proved for any panel:

- if every name means a switch, a switch is as the last entry says whose
  name means it, and what no name means is as it was (`Panel.setEach_known`);
- otherwise the first name that means none is refused, with one notice
  (`Panel.setEach_unknown`).

Of ordered entries the last one that has a property is the one with the
greatest name, and the first one that has it the one with the least
(`Sorted.find?_reverse`, `Sorted.find?_eq`). So of a document only the order
of its names is left, and not the order of its entries.
-/
import ScanTrace.Proofs.Config.Settled

namespace ScanTrace

open Document (precedes Sorted)

-- ======================================================== panels of switches

/-- Switches that are set by name, `ι` of them, in a configuration that holds
`ρ` besides. -/
structure Panel (ι ρ : Type) [DecidableEq ι] where
  set : Config → String → Bool → Outcome Config
  named? : String → Option ι
  isOn : Config → ι → Bool
  /-- What else there is in a configuration. -/
  others : Config → ρ
  refused : String → Rejection
  notice : Rejection → Notice
  set_known : ∀ {name i}, named? name = some i → ∀ c on, ∃ c',
    set c name on = { state := c' } ∧ others c' = others c
      ∧ ∀ j, isOn c' j = if j = i then on else isOn c j
  set_unknown : ∀ {name}, named? name = none → ∀ c on,
    set c name on =
      { state := c, notices := [notice (refused name)], rejected := some (refused name) }

namespace Config

def levelPanel : Panel Level (FieldSet × List String) where
  set := setLevel
  named? := Level.named?
  isOn c := c.levels.has
  others c := (c.fields, c.headers)
  refused := .unknownLevel
  notice := .levelRejected
  set_known h c on := ⟨{ c with levels := c.levels.set _ on },
    by simp [setLevel, LevelSet.setNamed, Level.ofName, h, Except.map], rfl,
    fun l => c.levels.has_set _ l on⟩
  set_unknown h c on := by simp [setLevel, LevelSet.setNamed, Level.ofName, h, Except.map]

def fieldPanel : Panel Field (LevelSet × List String) where
  set := setField
  named? := Field.named?
  isOn c := c.fields.shows
  others c := (c.levels, c.headers)
  refused := .unknownField
  notice := .fieldRejected
  set_known h c on := ⟨{ c with fields := c.fields.set _ on },
    by simp [setField, FieldSet.setNamed, h], rfl,
    fun f => c.fields.shows_set _ f on⟩
  set_unknown h c on := by simp [setField, FieldSet.setNamed, h]

end Config

namespace Panel

variable {ι ρ : Type} [DecidableEq ι] (P : Panel ι ρ)

/-- Whether a name means a switch. -/
def Means (i : ι) (e : String × Bool) : Bool := P.named? e.1 == some i

/-- Whether a name means no switch at all. -/
def Unknown (e : String × Bool) : Bool := (P.named? e.1).isNone

theorem setEach_known {entries : List (String × Bool)}
    (h : ∀ e ∈ entries, P.Unknown e = false) (c : Config) : ∃ c',
      Config.setEach P.set c entries = { state := c' } ∧ P.others c' = P.others c
        ∧ ∀ i, P.isOn c' i = ((entries.reverse.find? (P.Means i)).map Prod.snd).getD (P.isOn c i) := by
  induction entries generalizing c with
  | nil => exact ⟨c, rfl, rfl, fun _ => rfl⟩
  | cons e rest ih =>
    obtain ⟨hfirst, hrest⟩ := List.forall_mem_cons.mp h
    obtain ⟨i, hi⟩ := Option.isSome_iff_exists.mp (Option.isNone_eq_false_iff.mp hfirst)
    obtain ⟨c₁, hset, hothers, hon⟩ := P.set_known hi c e.2
    obtain ⟨c₂, hrun, hothers', hon'⟩ := ih hrest c₁
    refine ⟨c₂, ?_, hothers'.trans hothers, ?_⟩
    · simp [Config.setEach, hset, hrun]
    · intro j
      rw [hon', hon, List.reverse_cons, List.find?_append]
      cases hlater : rest.reverse.find? (P.Means j) with
      | some e' => rfl
      | none =>
        by_cases hj : j = i
        · simp [Means, hi, hj]
        · simp [Means, hi, hj, Ne.symm hj]

theorem setEach_unknown {entries : List (String × Bool)} {e : String × Bool}
    (h : entries.find? P.Unknown = some e) (c : Config) :
    (Config.setEach P.set c entries).rejected = some (P.refused e.1)
      ∧ (Config.setEach P.set c entries).notices = [P.notice (P.refused e.1)] := by
  induction entries generalizing c with
  | nil => cases h
  | cons a rest ih =>
    cases ha : P.named? a.1 with
    | none =>
      have hunknown : P.Unknown a = true := by rw [Unknown, ha]; rfl
      rw [List.find?_cons_of_pos hunknown, Option.some.injEq] at h
      subst h
      simp [Config.setEach, P.set_unknown ha]
    | some i =>
      have hknown : ¬ P.Unknown a = true := by simp [Unknown, ha]
      rw [List.find?_cons_of_neg hknown] at h
      obtain ⟨c', hset, -, -⟩ := P.set_known ha c a.2
      simpa [Config.setEach, hset] using ih h c'

end Panel

-- ============================================== the first and the last entry

namespace Document

/-- In a list with an asymmetric order, the first member with a property is the one
that comes before every other member with it. -/
theorem find?_eq_some_iff_of_pairwise {α : Type} {R : α → α → Prop}
    (hasymm : ∀ {a b}, R a b → ¬ R b a) {l : List α} (h : l.Pairwise R) (p : α → Bool) (e : α) :
    l.find? p = some e ↔ e ∈ l ∧ p e = true ∧ ∀ a ∈ l, p a = true → a = e ∨ R e a := by
  have hfirst : ∀ {x}, l.find? p = some x →
      x ∈ l ∧ p x = true ∧ ∀ a ∈ l, p a = true → a = x ∨ R x a := by
    intro x hx
    obtain ⟨hp, before, after, rfl, hnone⟩ := List.find?_eq_some_iff_append.mp hx
    refine ⟨by simp, hp, ?_⟩
    intro a ha hpa
    rcases List.mem_append.mp ha with hbefore | hafter
    · exact absurd hpa (by simpa using hnone a hbefore)
    · rcases List.mem_cons.mp hafter with rfl | hafter
      · exact Or.inl rfl
      · exact Or.inr ((List.pairwise_cons.mp (List.pairwise_append.mp h).2.1).1 a hafter)
  refine ⟨hfirst, ?_⟩
  rintro ⟨he, hp, hleast⟩
  obtain ⟨x, hx⟩ : ∃ x, l.find? p = some x :=
    Option.isSome_iff_exists.mp (List.find?_isSome.mpr ⟨e, he, hp⟩)
  obtain ⟨hmem, hpx, hbefore⟩ := hfirst hx
  have hsame : e = x := by
    rcases hbefore e he hp with heq | hxe
    · exact heq
    · rcases hleast x hmem hpx with heq | hex
      · exact heq.symm
      · exact absurd hex (hasymm hxe)
  rw [hsame, hx]

theorem not_precedes_of_precedes {a b : String × Bool} (h : precedes a.1 b.1 = true) :
    ¬ precedes b.1 a.1 = true := by
  rw [precedes_asymm h]
  exact Bool.false_ne_true

/-- Of ordered entries, the first one with a property has the least name. -/
theorem Sorted.find?_eq_some_iff {entries : List (String × Bool)} (h : Sorted entries)
    (p : String × Bool → Bool) (e : String × Bool) :
    entries.find? p = some e ↔ e ∈ entries ∧ p e = true
      ∧ ∀ a ∈ entries, p a = true → a = e ∨ precedes e.1 a.1 = true :=
  find?_eq_some_iff_of_pairwise not_precedes_of_precedes h p e

/-- Of ordered entries, the last one with a property has the greatest name. -/
theorem Sorted.find?_reverse_eq_some_iff {entries : List (String × Bool)} (h : Sorted entries)
    (p : String × Bool → Bool) (e : String × Bool) :
    entries.reverse.find? p = some e ↔ e ∈ entries ∧ p e = true
      ∧ ∀ a ∈ entries, p a = true → a = e ∨ precedes a.1 e.1 = true := by
  have hreverse : entries.reverse.Pairwise fun a b => precedes b.1 a.1 = true :=
    List.pairwise_reverse.mpr h
  simpa using find?_eq_some_iff_of_pairwise not_precedes_of_precedes hreverse p e

end Document

end ScanTrace
