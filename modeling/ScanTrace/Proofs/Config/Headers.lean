/-
Which paths name a header, said of the bytes of the path. A path ends in a
name (`Path.EndsIn`) if the name stands at its front or behind a slash, and
nothing follows it but slashes and parts that are a single dot; and the name
is an ordinary one, which neither stays in its directory nor leads out of it.
The extension is what follows the last dot of the name, if something stands
in front of that dot. A header is a path whose extension is the UTF-8 of one
of the configured ones, byte for byte.

The look-up splits a path at its slashes and works from the end. So does the
proof: a path is either a single part or a path, a slash and a last part
(`Path.split_last`), and a last part that does not count is as good as none
(`Path.fileName?_append_idle`). Since only the end of a path is looked at,
directories in front of it make no difference.
-/
import ScanTrace.Config.Basic
import Mathlib.Data.List.DropRight
import Mathlib.Data.List.TakeWhile

namespace ScanTrace

namespace Path

-- ============================================================ what a path ends in

/-- What may follow the name: slashes, each with or without a dot behind it. -/
inductive Idle : List UInt8 → Prop
  | nil : Idle []
  | slash {rest : List UInt8} (h : Idle rest) : Idle (slash :: rest)
  | slashDot {rest : List UInt8} (h : Idle rest) : Idle (slash :: dot :: rest)

/-- An ordinary name: a part that stands neither for its directory nor for the one above. -/
structure IsName (part : List UInt8) : Prop where
  whole : slash ∉ part
  some : part ≠ []
  not_here : part ≠ [dot]
  not_up : part ≠ [dot, dot]

/-- Bytes that a name may follow. -/
def IsFront (dir : List UInt8) : Prop := dir = [] ∨ ∃ up, dir = up ++ [slash]

/-- The ordinary name that a path ends in, whatever idle parts follow it. -/
def EndsIn (path name : List UInt8) : Prop :=
  ∃ dir tail, path = dir ++ name ++ tail ∧ IsFront dir ∧ IsName name ∧ Idle tail

theorem Idle.append {xs ys : List UInt8} (h : Idle xs) (h' : Idle ys) : Idle (xs ++ ys) := by
  induction h with
  | nil => exact h'
  | slash _ ih => exact .slash ih
  | slashDot _ ih => exact .slashDot ih

/-- A path ends in the same name below any directory. -/
theorem EndsIn.below {path name : List UInt8} (h : EndsIn path name) (dir : List UInt8) :
    EndsIn (dir ++ slash :: path) name := by
  obtain ⟨front, tail, rfl, hfront, hname, htail⟩ := h
  refine ⟨dir ++ slash :: front, tail, by simp, .inr ?_, hname, htail⟩
  rcases hfront with rfl | ⟨up, rfl⟩
  · exact ⟨dir, rfl⟩
  · exact ⟨dir ++ slash :: up, by simp⟩

-- ============================================================ the file name

theorem parts_single {part : List UInt8} (h : slash ∉ part) : parts part = [part] :=
  List.splitOnP_eq_singleton fun b hb => by
    rw [beq_eq_false_iff_ne]
    rintro rfl
    exact h hb

theorem parts_append (dir : List UInt8) {part : List UInt8} (h : slash ∉ part) :
    parts (dir ++ slash :: part) = parts dir ++ [part] := by
  rw [← parts_single h]
  exact List.splitOnP_append_cons dir part rfl

/-- Bytes are free of a byte, or it stands in them for a last time. -/
theorem split_last (b : UInt8) (bytes : List UInt8) :
    b ∉ bytes ∨ ∃ front back, bytes = front ++ b :: back ∧ b ∉ back := by
  by_cases h : b ∈ bytes
  · obtain ⟨back, front, hbytes, hback⟩ := List.eq_append_cons_of_mem (List.mem_reverse.mpr h)
    refine .inr ⟨front.reverse, back.reverse, ?_, by simpa using hback⟩
    simpa using congrArg List.reverse hbytes
  · exact .inl h

theorem isIdle_iff {part : List UInt8} : isIdle part = true ↔ part = [] ∨ part = [dot] := by
  simp [isIdle]

/-- A last part that does not count is as good as none. -/
theorem fileName?_append_part (dir : List UInt8) {part : List UInt8}
    (h : part = [] ∨ part = [dot]) : fileName? (dir ++ slash :: part) = fileName? dir := by
  have hwhole : slash ∉ part := by
    rcases h with rfl | rfl <;> decide
  rw [fileName?, parts_append dir hwhole, List.reverse_append, List.reverse_singleton,
    List.singleton_append, List.dropWhile_cons_of_pos (isIdle_iff.mpr h), fileName?]

theorem fileName?_append_idle {tail : List UInt8} (h : Idle tail) (path : List UInt8) :
    fileName? (path ++ tail) = fileName? path := by
  induction h generalizing path with
  | nil => rw [List.append_nil]
  | slash _ ih =>
    rw [List.append_cons, ih]
    exact fileName?_append_part path (.inl rfl)
  | slashDot _ ih =>
    rw [List.append_cons, List.append_cons, ih, List.append_assoc]
    exact fileName?_append_part path (.inr rfl)

/-- A last part that counts is the name, unless it leads upwards. -/
theorem fileName?_of_part {dir part : List UInt8} (hfront : IsFront dir) (hwhole : slash ∉ part)
    (hcounts : ¬ (part = [] ∨ part = [dot])) :
    fileName? (dir ++ part) = if part = [dot, dot] then none else some part := by
  have hlast : ∃ others, (parts (dir ++ part)).reverse = part :: others := by
    rcases hfront with rfl | ⟨up, rfl⟩
    · exact ⟨[], by rw [List.nil_append, parts_single hwhole]; rfl⟩
    · exact ⟨(parts up).reverse, by
        rw [List.append_assoc, List.singleton_append, parts_append up hwhole]; simp⟩
  obtain ⟨others, hothers⟩ := hlast
  rw [fileName?, hothers, List.dropWhile_cons_of_neg (isIdle_iff.not.mpr hcounts)]
  simp only [beq_iff_eq]

/-- The file name is the ordinary name that a path ends in. -/
theorem fileName?_eq_some_iff {path name : List UInt8} :
    fileName? path = some name ↔ EndsIn path name := by
  constructor
  · intro h
    induction hlength : path.length using Nat.strong_induction_on generalizing path with
    | _ n ih =>
      -- a last part that counts is the name
      have hpart : ∀ {dir part}, path = dir ++ part → IsFront dir → slash ∉ part →
          ¬ (part = [] ∨ part = [dot]) → EndsIn path name := by
        rintro dir part rfl hfront hwhole hcounts
        rw [fileName?_of_part hfront hwhole hcounts] at h
        split_ifs at h with hup
        obtain rfl : part = name := Option.some.inj h
        rw [not_or] at hcounts
        exact ⟨dir, [], by simp, hfront, ⟨hwhole, hcounts.1, hcounts.2, hup⟩, .nil⟩
      rcases split_last slash path with hwhole | ⟨dir, part, rfl, hwhole⟩
      · by_cases hcounts : path = [] ∨ path = [dot]
        · rw [fileName?, parts_single hwhole, List.reverse_singleton,
            List.dropWhile_cons_of_pos (isIdle_iff.mpr hcounts)] at h
          cases h
        · exact hpart (List.nil_append path).symm (.inl rfl) hwhole hcounts
      · by_cases hcounts : part = [] ∨ part = [dot]
        · rw [fileName?_append_part dir hcounts] at h
          have hshort : dir.length < n := by
            rw [← hlength]
            simp
          obtain ⟨front, tail, rfl, hfront, hname, htail⟩ := ih dir.length hshort h rfl
          refine ⟨front, tail ++ slash :: part, by simp, hfront, hname, htail.append ?_⟩
          rcases hcounts with rfl | rfl
          · exact .slash .nil
          · exact .slashDot .nil
        · exact hpart (by simp) (.inr ⟨dir, rfl⟩) hwhole hcounts
  · rintro ⟨dir, tail, rfl, hfront, hname, htail⟩
    rw [fileName?_append_idle htail, fileName?_of_part hfront hname.whole
      (not_or.mpr ⟨hname.some, hname.not_here⟩), if_neg hname.not_up]

-- ============================================================ the extension

theorem suffix?_of_dotless {name : List UInt8} (h : dot ∉ name) : suffix? name = none := by
  have hall : name.reverse.takeWhile (· != dot) = name.reverse := by
    refine List.takeWhile_eq_self_iff.mpr fun b hb => bne_iff_ne.mpr ?_
    rintro rfl
    exact h (List.mem_reverse.mp hb)
  unfold suffix?
  simp [hall]

theorem suffix?_of_last (stem : List UInt8) {ext : List UInt8} (h : dot ∉ ext) :
    suffix? (stem ++ dot :: ext) = if stem = [] then none else some ext := by
  have hext : ∀ b ∈ ext.reverse, (b != dot) = true := by
    intro b hb
    refine bne_iff_ne.mpr ?_
    rintro rfl
    exact h (List.mem_reverse.mp hb)
  have hafter : ((stem ++ dot :: ext).reverse.takeWhile (· != dot)).reverse = ext := by
    rw [List.reverse_append, List.reverse_cons, List.append_assoc,
      List.takeWhile_append_of_pos hext]
    simp
  unfold suffix?
  dsimp only
  rw [hafter]
  by_cases hstem : stem = []
  · simp [hstem]
  · have hpos := List.length_pos_iff.mpr hstem
    rw [if_neg hstem, if_pos]
    rw [List.length_append, List.length_cons]
    omega

/-- The extension is what follows the last dot, with something in front of that dot. -/
theorem suffix?_eq_some_iff {name ext : List UInt8} :
    suffix? name = some ext ↔ ∃ stem, name = stem ++ dot :: ext ∧ stem ≠ [] ∧ dot ∉ ext := by
  constructor
  · intro h
    rcases split_last dot name with hnone | ⟨stem, back, rfl, hback⟩
    · rw [suffix?_of_dotless hnone] at h
      cases h
    · rw [suffix?_of_last stem hback] at h
      split_ifs at h with hstem
      obtain rfl : back = ext := Option.some.inj h
      exact ⟨stem, rfl, hstem, hback⟩
  · rintro ⟨stem, rfl, hstem, hext⟩
    rw [suffix?_of_last stem hext, if_neg hstem]

/-- A path has one of the listed extensions if the name it ends in has. -/
theorem hasExtension_iff {listed : List String} {path : List UInt8} :
    hasExtension listed path = true ↔ ∃ name stem, EndsIn path name
      ∧ ∃ e ∈ listed, name = stem ++ dot :: Utf8.encode e.toList
        ∧ stem ≠ [] ∧ dot ∉ Utf8.encode e.toList := by
  have hfound : ∀ ext, extension? path = some ext ↔
      ∃ name, EndsIn path name ∧ ∃ stem, name = stem ++ dot :: ext ∧ stem ≠ [] ∧ dot ∉ ext := by
    intro ext
    have hbind : extension? path = some ext ↔
        ∃ name, fileName? path = some name ∧ suffix? name = some ext := Option.bind_eq_some_iff
    simp only [hbind, fileName?_eq_some_iff, suffix?_eq_some_iff]
  constructor
  · intro h
    cases hext : extension? path with
    | none => simp [hasExtension, hext] at h
    | some ext =>
      obtain ⟨e, he, rfl⟩ : ∃ e ∈ listed, Utf8.encode e.toList = ext := by
        simpa [hasExtension, hext] using h
      obtain ⟨name, hends, stem, hname⟩ := (hfound _).mp hext
      exact ⟨name, stem, hends, e, he, hname⟩
  · rintro ⟨name, stem, hends, e, he, hname⟩
    have hext := (hfound _).mpr ⟨name, hends, stem, hname⟩
    simp only [hasExtension, hext, List.any_eq_true, beq_iff_eq]
    exact ⟨e, he, rfl⟩

/-- Of a path only the name that it ends in counts. -/
theorem hasExtension_congr {listed : List String} {path path' name : List UInt8}
    (h : EndsIn path name) (h' : EndsIn path' name) :
    hasExtension listed path = hasExtension listed path' := by
  simp only [hasExtension, extension?, fileName?_eq_some_iff.mpr h, fileName?_eq_some_iff.mpr h']

end Path

-- ================================================================== headers

/-- An ASCII character of a text is a byte of its encoding. -/
theorem Utf8.mem_encode {cs : List Char} {c : Char} {b : UInt8} (hc : c ∈ cs)
    (hb : String.utf8EncodeChar c = [b]) : b ∈ Utf8.encode cs :=
  List.mem_flatMap.mpr ⟨c, hc, hb ▸ List.mem_singleton_self b⟩

namespace Config

/-- No path has an extension with a dot or a slash in it. -/
theorem not_odd_extension {path name stem : List UInt8} {e : String} (h : Path.EndsIn path name)
    (hname : name = stem ++ Path.dot :: Utf8.encode e.toList)
    (hdot : Path.dot ∉ Utf8.encode e.toList) : '.' ∉ e.toList ∧ '/' ∉ e.toList := by
  refine ⟨fun hmem => hdot (Utf8.mem_encode hmem rfl), fun hmem => ?_⟩
  obtain ⟨_, _, -, -, hwhole, -⟩ := h
  refine hwhole.whole ?_
  rw [hname]
  exact List.mem_append_right _ (List.mem_cons_of_mem _ (Utf8.mem_encode hmem rfl))

/-- A path names a header exactly if it ends in an ordinary name, slashes and idle parts behind
it left out, that has a dot behind its first byte, and what follows the last dot is the
UTF-8 of a configured extension. So directories in front of a path that ends in an
ordinary name make no difference, and an extension that is configured with a dot or a
slash in it makes no path a header. -/
theorem headers_are_found_by_extension (c : Config) :
    (∀ path, c.isHeader path = true ↔ ∃ name stem ext, Path.EndsIn path name
        ∧ name = stem ++ Path.dot :: ext ∧ stem ≠ [] ∧ Path.dot ∉ ext
        ∧ ∃ e ∈ c.headers, ext = Utf8.encode e.toList)
    ∧ (∀ dir path, (∃ name, Path.EndsIn path name) →
        c.isHeader (dir ++ Path.slash :: path) = c.isHeader path)
    ∧ ∀ before e after, '.' ∈ e.toList ∨ '/' ∈ e.toList → ∀ path,
        ({ c with headers := before ++ e :: after } : Config).isHeader path
          = ({ c with headers := before ++ after } : Config).isHeader path := by
  refine ⟨fun path => ?_, ?_, ?_⟩
  · rw [isHeader, Path.hasExtension_iff]
    constructor
    · rintro ⟨name, stem, hends, e, he, hname, hstem, hdot⟩
      exact ⟨name, stem, _, hends, hname, hstem, hdot, e, he, rfl⟩
    · rintro ⟨name, stem, ext, hends, hname, hstem, hdot, e, he, rfl⟩
      exact ⟨name, stem, hends, e, he, hname, hstem, hdot⟩
  · rintro dir path ⟨name, hends⟩
    exact Path.hasExtension_congr (hends.below dir) hends
  · intro before e after hodd path
    rw [Bool.eq_iff_iff, isHeader, isHeader, Path.hasExtension_iff, Path.hasExtension_iff]
    refine exists_congr fun name => exists_congr fun stem => and_congr_right fun hends => ?_
    constructor
    · rintro ⟨e', he', hname, hstem, hdot⟩
      -- the odd entry is not the one that was found
      have hne : e' ≠ e := by
        rintro rfl
        have hplain := not_odd_extension hends hname hdot
        rcases hodd with hodd | hodd
        · exact hplain.1 hodd
        · exact hplain.2 hodd
      have hmem : e' ∈ before ++ after := by
        rcases List.mem_append.mp he' with hmem | hmem
        · exact List.mem_append_left _ hmem
        · exact List.mem_append_right _ ((List.mem_cons.mp hmem).resolve_left hne)
      exact ⟨e', hmem, hname, hstem, hdot⟩
    · rintro ⟨e', he', hfound⟩
      refine ⟨e', ?_, hfound⟩
      rcases List.mem_append.mp he' with hmem | hmem
      · exact List.mem_append_left _ hmem
      · exact List.mem_append_right _ (List.mem_cons_of_mem _ hmem)

end Config

end ScanTrace
