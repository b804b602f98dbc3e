/-
What is left of the entries of a map when they are settled: for every name
that occurs, the entry in which it stands last, in the order of the names.
`mem_settle` and `sorted_settle` say this, and say it completely, since a
list in a strict order is known by its members (`settle_congr`). So two
lists in which the same names stand last with the same values are settled
alike, however their entries are arranged, and a list in which no name
stands twice may be rearranged at will (`lastOf?_of_perm`).

Names are put in order by the bytes of their UTF-8 form. That no two names
have the same bytes is owed to the decoder, which gives the text back.
-/
import Mathlib.Data.List.Nodup
import ScanTrace.Config.Document
import ScanTrace.Proofs.Utf8.Encoding

namespace ScanTrace.Document

-- ========================================================= the order of names

theorem precedes_iff {a b : String} :
    precedes a b = true ↔ Utf8.encode a.toList < Utf8.encode b.toList := decide_eq_true_iff

theorem precedes_irrefl (a : String) : precedes a a = false :=
  decide_eq_false (List.lt_irrefl _)

theorem precedes_trans {a b c : String} (h : precedes a b = true) (h' : precedes b c = true) :
    precedes a c = true :=
  precedes_iff.mpr (List.lt_trans (precedes_iff.mp h) (precedes_iff.mp h'))

theorem precedes_asymm {a b : String} (h : precedes a b = true) : precedes b a = false :=
  decide_eq_false (List.lt_asymm (precedes_iff.mp h))

theorem ne_of_precedes {a b : String} (h : precedes a b = true) : a ≠ b := by
  rintro rfl
  exact Bool.false_ne_true ((precedes_irrefl a).symm.trans h)

theorem precedes_of_ne {a b : String} (hne : a ≠ b) (h : precedes a b = false) :
    precedes b a = true := by
  by_contra hba
  have hle : Utf8.encode a.toList ≤ Utf8.encode b.toList :=
    List.not_lt.mp fun hlt => hba (precedes_iff.mpr hlt)
  have hge : Utf8.encode b.toList ≤ Utf8.encode a.toList :=
    List.not_lt.mp (of_decide_eq_false h)
  have hbytes : Utf8.encode a.toList = Utf8.encode b.toList := List.le_antisymm hle hge
  exact hne (String.toList_injective (Utf8.encode_injective hbytes))

-- ============================================================== ordered lists

/-- Entries in the strict order of their names. -/
def Sorted (entries : List (String × Bool)) : Prop :=
  entries.Pairwise fun a b => precedes a.1 b.1 = true

theorem mem_insert {name : String} {on : Bool} {entries : List (String × Bool)}
    (h : Sorted entries) (e : String × Bool) :
    e ∈ insert name on entries ↔ e = (name, on) ∨ e.1 ≠ name ∧ e ∈ entries := by
  induction entries with
  | nil => simp [insert]
  | cons a rest ih =>
    have hrest : ∀ b ∈ rest, precedes a.1 b.1 = true := (List.pairwise_cons.mp h).1
    rw [insert]
    split_ifs with heq hlt
    · -- the entry of the same name makes way, and no later one has this name
      have hother : ∀ b ∈ rest, b.1 ≠ name := fun b hb =>
        heq ▸ (ne_of_precedes (hrest b hb)).symm
      grind
    · have hother : ∀ b ∈ rest, b.1 ≠ name := fun b hb =>
        (ne_of_precedes (precedes_trans hlt (hrest b hb))).symm
      grind
    · rw [List.mem_cons, ih h.of_cons, List.mem_cons]
      grind

theorem sorted_insert {name : String} {on : Bool} {entries : List (String × Bool)}
    (h : Sorted entries) : Sorted (insert name on entries) := by
  induction entries with
  | nil => exact List.pairwise_singleton _ _
  | cons a rest ih =>
    have hrest : ∀ b ∈ rest, precedes a.1 b.1 = true := (List.pairwise_cons.mp h).1
    rw [insert]
    split_ifs with heq hlt
    · exact List.pairwise_cons.mpr ⟨fun b hb => heq ▸ hrest b hb, h.of_cons⟩
    · refine List.pairwise_cons.mpr ⟨?_, h⟩
      intro b hb
      rcases List.mem_cons.mp hb with rfl | hb
      · exact hlt
      · exact precedes_trans hlt (hrest b hb)
    · refine List.pairwise_cons.mpr ⟨?_, ih h.of_cons⟩
      intro b hb
      rcases (mem_insert h.of_cons b).mp hb with rfl | ⟨-, hb⟩
      · exact precedes_of_ne (Ne.symm heq) (Bool.eq_false_iff.mpr hlt)
      · exact hrest b hb

theorem Sorted.nodup {entries : List (String × Bool)} (h : Sorted entries) : entries.Nodup :=
  h.imp fun hab heq => ne_of_precedes hab (congrArg Prod.fst heq)

/-- Ordered lists with the same members are the same. -/
theorem Sorted.ext {entries entries' : List (String × Bool)} (h : Sorted entries)
    (h' : Sorted entries') (hmem : ∀ e, e ∈ entries ↔ e ∈ entries') : entries = entries' := by
  have hperm : entries.Perm entries' := (List.perm_ext_iff_of_nodup h.nodup h'.nodup).mpr hmem
  refine hperm.eq_of_pairwise ?_ h h'
  intro a b _ _ hab hba
  rw [precedes_asymm hab] at hba
  cases hba

-- ============================================================ settled entries

/-- The value of a name where it stands last. -/
def lastOf? (entries : List (String × Bool)) (name : String) : Option Bool :=
  entries.reverse.lookup name

theorem lastOf?_append (entries : List (String × Bool)) (e : String × Bool) (name : String) :
    lastOf? (entries ++ [e]) name = if name = e.1 then some e.2 else lastOf? entries name := by
  unfold lastOf?
  rw [List.reverse_append, List.reverse_singleton, List.singleton_append, List.lookup_cons]
  by_cases h : name = e.1
  · rw [if_pos h, beq_iff_eq.mpr h]
  · rw [if_neg h, beq_eq_false_iff_ne.mpr h]

theorem settle_append (entries : List (String × Bool)) (e : String × Bool) :
    settle (entries ++ [e]) = insert e.1 e.2 (settle entries) := by
  simp only [settle, List.foldl_append, List.foldl_cons, List.foldl_nil]

theorem sorted_settle (entries : List (String × Bool)) : Sorted (settle entries) := by
  induction entries using List.reverseRecOn with
  | nil => exact List.Pairwise.nil
  | append_singleton entries e ih =>
    rw [settle_append]
    exact sorted_insert ih

/-- Settled entries are the names that occur, each with its last value. -/
theorem mem_settle (entries : List (String × Bool)) (e : String × Bool) :
    e ∈ settle entries ↔ lastOf? entries e.1 = some e.2 := by
  induction entries using List.reverseRecOn with
  | nil => simp [settle, lastOf?]
  | append_singleton entries a ih =>
    rw [settle_append, mem_insert (sorted_settle entries), lastOf?_append, ih]
    by_cases h : e.1 = a.1
    · rw [if_pos h, Option.some.injEq]
      constructor
      · rintro (rfl | ⟨hne, -⟩)
        · rfl
        · exact absurd h hne
      · intro hvalue
        exact Or.inl (Prod.ext h hvalue.symm)
    · rw [if_neg h]
      constructor
      · rintro (rfl | ⟨-, hlast⟩)
        · exact absurd rfl h
        · exact hlast
      · intro hlast
        exact Or.inr ⟨h, hlast⟩

/-- The names of settled entries are the names of the entries. -/
theorem lastOf?_isSome (entries : List (String × Bool)) (name : String) :
    (lastOf? entries name).isSome = true ↔ name ∈ entries.map Prod.fst := by
  induction entries using List.reverseRecOn with
  | nil => simp [lastOf?]
  | append_singleton entries a ih =>
    rw [lastOf?_append, List.map_append, List.mem_append]
    by_cases h : name = a.1
    · simp [h]
    · rw [if_neg h, ih]
      simp [h]

/-- Where the names stand last with the same values, the entries are settled alike. -/
theorem settle_congr {entries entries' : List (String × Bool)}
    (h : ∀ name, lastOf? entries name = lastOf? entries' name) :
    settle entries = settle entries' := by
  refine (sorted_settle entries).ext (sorted_settle entries') ?_
  intro e
  rw [mem_settle, mem_settle, h]

/-- Of names that occur once, the last value is the only one. -/
theorem lastOf?_of_nodup {entries : List (String × Bool)} (h : (entries.map Prod.fst).Nodup)
    (name : String) (on : Bool) : lastOf? entries name = some on ↔ (name, on) ∈ entries := by
  induction entries using List.reverseRecOn with
  | nil => simp [lastOf?]
  | append_singleton entries a ih =>
    rw [List.map_append, List.nodup_append] at h
    have hnew : a.1 ∉ entries.map Prod.fst := fun hmem =>
      h.2.2 a.1 hmem a.1 (List.mem_singleton_self _) rfl
    rw [lastOf?_append, List.mem_append, List.mem_singleton]
    by_cases hname : name = a.1
    · have hout : (name, on) ∉ entries := fun hmem =>
        hnew (hname ▸ List.mem_map_of_mem (f := Prod.fst) hmem)
      rw [if_pos hname, Option.some.injEq]
      constructor
      · intro hvalue
        exact Or.inr (Prod.ext hname hvalue.symm)
      · rintro (hmem | rfl)
        · exact absurd hmem hout
        · rfl
    · rw [if_neg hname, ih h.1]
      constructor
      · exact Or.inl
      · rintro (hmem | rfl)
        · exact hmem
        · exact absurd rfl hname

/-- Names that occur once may be rearranged. -/
theorem lastOf?_of_perm {entries entries' : List (String × Bool)}
    (hperm : entries.Perm entries') (h : (entries.map Prod.fst).Nodup) (name : String) :
    lastOf? entries name = lastOf? entries' name := by
  have h' : (entries'.map Prod.fst).Nodup := (hperm.map Prod.fst).nodup_iff.mp h
  refine Option.ext fun on => ?_
  rw [lastOf?_of_nodup h, lastOf?_of_nodup h', hperm.mem_iff]

end ScanTrace.Document
