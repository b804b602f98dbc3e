/-
Tokens that were written are read back. The lexer goes through a text one
character at a time and has no view of what comes, so a written token is
followed from mode to mode: the modes between its characters complete
nothing (`lexFrom_quiet`), and its last character completes it.

# Strings

A character of a string is written as itself or as an escape, and either way
it becomes one piece of the literal, which says that character (`Piece.Says`).
Pieces that each say a character say the text of these characters
(`pieces?_says`); the escapes with four digits are written for control
characters only, so that no piece is half of a surrogate pair.

# Numbers

A number ends by what follows it, and two tokens beside each other need not
be apart when one of them is a number. What is said here of lists of tokens
is for tokens that are no numbers.
-/
import ScanTrace.Json.Token
import Mathlib.Tactic

namespace ScanTrace.Json

-- ============================================================== characters

theorem lexFrom_quiet {m m' : Mode} {c : Char} (h : m.step c = some ([], m'))
    (rest : List Char) : lexFrom m (c :: rest) = lexFrom m' rest := by
  simp [lexFrom, h]

theorem lexFrom_token {m m' : Mode} {c : Char} {t : Token} (h : m.step c = some ([t], m'))
    (rest : List Char) : lexFrom m (c :: rest) = (t :: ·) <$> lexFrom m' rest := by
  simp [lexFrom, h]

-- ================================================================== pieces

/-- A piece of a literal that says a character. -/
inductive Piece.Says : Piece → Char → Prop where
  | char (c : Char) : Says (.char c) c
  | control {c : Char} : c.toNat < 0x20 → Says (.unit c.toNat) c

theorem pieces?_unit {u : Nat} (hu : u < 0x20) (ps : List Piece) :
    pieces? (.unit u :: ps) = (Char.ofNat u :: ·) <$> pieces? ps := by
  have hhigh : isHigh u = false := by
    unfold isHigh
    rw [Bool.and_eq_false_iff, decide_eq_false_iff_not]
    exact .inl (by omega)
  have hlow : isLow u = false := by
    unfold isLow
    rw [Bool.and_eq_false_iff, decide_eq_false_iff_not]
    exact .inl (by omega)
  match ps with
  | [] => simp [pieces?, hhigh, hlow]
  | .char c :: ps =>
    simp only [pieces?, hhigh, hlow, Bool.or_false, Bool.false_eq_true, if_false,
      Option.map_eq_map, Option.map_map]
    rfl
  | .unit v :: ps => simp [pieces?, hhigh, hlow]

/-- Pieces that say characters say the text of these. -/
theorem pieces?_says {ps : List Piece} {cs : List Char} (h : List.Forall₂ Piece.Says ps cs) :
    pieces? ps = some cs := by
  induction h with
  | nil => rfl
  | cons hp _ ih =>
    cases hp with
    | char c => simp [pieces?, ih]
    | control hc => simp [pieces?_unit hc, ih, Char.ofNat_toNat]

-- ================================================================= escapes

theorem hexDigit?_digitChar {n : Nat} (h : n < 16) : hexDigit? (Nat.digitChar n) = some n := by
  interval_cases n <;> decide

/-- An escape of one letter is read as the character that it is written for. -/
theorem lexFrom_short {x c : Char} (hx : x ≠ 'u') (h : unescape? x = some c)
    (pieces : List Piece) (rest : List Char) :
    lexFrom (.string pieces) ('\\' :: x :: rest) = lexFrom (.string (.char c :: pieces)) rest := by
  have hopen : (Mode.string pieces).step '\\' = some ([], .escaped pieces) := by
    simp [Mode.step]
  have hclose : (Mode.escaped pieces).step x = some ([], .string (.char c :: pieces)) := by
    simp [Mode.step, hx, h]
  rw [lexFrom_quiet hopen, lexFrom_quiet hclose]

/-- An escape of four digits is read as the unit that they write. -/
theorem lexFrom_code {x y z w : Char} {a b c d : Nat} (hx : hexDigit? x = some a)
    (hy : hexDigit? y = some b) (hz : hexDigit? z = some c) (hw : hexDigit? w = some d)
    (pieces : List Piece) (rest : List Char) :
    lexFrom (.string pieces) ('\\' :: 'u' :: x :: y :: z :: w :: rest)
      = lexFrom (.string (.unit (((a * 16 + b) * 16 + c) * 16 + d) :: pieces)) rest := by
  have hopen : (Mode.string pieces).step '\\' = some ([], .escaped pieces) := by
    simp [Mode.step]
  have hcode : (Mode.escaped pieces).step 'u' = some ([], .code pieces 4 0) := by
    simp [Mode.step]
  have hdigit : ∀ {left value digit : Nat} {x : Char}, 1 < left → hexDigit? x = some digit →
      (Mode.code pieces left value).step x
        = some ([], .code pieces (left - 1) (value * 16 + digit)) := by
    intro left value digit x hleft hdigit
    simp [Mode.step, hdigit, Nat.not_le.mpr hleft]
  have hlast : ∀ {value : Nat}, (Mode.code pieces 1 value).step w
      = some ([], .string (.unit (value * 16 + d) :: pieces)) := by
    intro value
    simp [Mode.step, hw]
  rw [lexFrom_quiet hopen, lexFrom_quiet hcode, lexFrom_quiet (hdigit (by omega) hx),
    lexFrom_quiet (hdigit (by omega) hy), lexFrom_quiet (hdigit (by omega) hz),
    lexFrom_quiet hlast, Nat.zero_mul, Nat.zero_add]

/-- However a character is written in a string, it is one piece that says it. -/
theorem lexFrom_escape (c : Char) :
    ∃ p : Piece, p.Says c ∧ ∀ pieces rest,
      lexFrom (.string pieces) (escape c ++ rest) = lexFrom (.string (p :: pieces)) rest := by
  have hshort : ∀ {x : Char}, x ≠ 'u' → unescape? x = some c → escape c = ['\\', x] →
      ∃ p : Piece, p.Says c ∧ ∀ pieces rest,
        lexFrom (.string pieces) (escape c ++ rest) = lexFrom (.string (p :: pieces)) rest := by
    intro x hx hun hesc
    refine ⟨.char c, .char c, ?_⟩
    intro pieces rest
    rw [hesc]
    exact lexFrom_short hx hun pieces rest
  have heq : ∀ {d : Char}, c.toNat = d.toNat → c = d := by
    intro d hd
    rw [← Char.ofNat_toNat c, hd, Char.ofNat_toNat]
  by_cases hquote : c = '"'
  · subst hquote
    exact hshort (by decide) rfl rfl
  by_cases hback : c = '\\'
  · subst hback
    exact hshort (by decide) rfl rfl
  by_cases hn : c = '\n'
  · subst hn
    exact hshort (by decide) rfl rfl
  by_cases hr : c = '\r'
  · subst hr
    exact hshort (by decide) rfl rfl
  by_cases ht : c = '\t'
  · subst ht
    exact hshort (by decide) rfl rfl
  by_cases hb : c.toNat = 0x08
  · obtain rfl := heq (d := '\x08') hb
    exact hshort (by decide) rfl rfl
  by_cases hf : c.toNat = 0x0C
  · obtain rfl := heq (d := '\x0C') hf
    exact hshort (by decide) rfl rfl
  by_cases hcontrol : c.toNat < 0x20
  · refine ⟨.unit c.toNat, .control hcontrol, ?_⟩
    intro pieces rest
    have hesc : escape c
        = ['\\', 'u', '0', '0', Nat.digitChar (c.toNat / 16), Nat.digitChar (c.toNat % 16)] := by
      simp [escape, hquote, hback, hn, hr, ht, hb, hf, hcontrol]
    have hzero : hexDigit? '0' = some 0 := by decide
    have hcode := lexFrom_code hzero hzero
      (hexDigit?_digitChar (n := c.toNat / 16) (by omega))
      (hexDigit?_digitChar (n := c.toNat % 16) (by omega)) pieces rest
    have hn : ((0 * 16 + 0) * 16 + c.toNat / 16) * 16 + c.toNat % 16 = c.toNat := by omega
    rw [hn] at hcode
    rw [hesc]
    exact hcode
  · refine ⟨.char c, .char c, ?_⟩
    intro pieces rest
    have hesc : escape c = [c] := by
      simp [escape, hquote, hback, hn, hr, ht, hb, hf, hcontrol]
    have hstep : (Mode.string pieces).step c = some ([], .string (.char c :: pieces)) := by
      simp [Mode.step, hquote, hback, hcontrol]
    rw [hesc]
    exact lexFrom_quiet hstep rest

theorem lexFrom_escapes (cs : List Char) :
    ∃ ps : List Piece, List.Forall₂ Piece.Says ps cs ∧ ∀ pieces rest,
      lexFrom (.string pieces) (cs.flatMap escape ++ rest)
        = lexFrom (.string (ps.reverse ++ pieces)) rest := by
  induction cs with
  | nil => exact ⟨[], .nil, fun _ _ => rfl⟩
  | cons c cs ih =>
    obtain ⟨p, hp, hc⟩ := lexFrom_escape c
    obtain ⟨ps, hps, hcs⟩ := ih
    refine ⟨p :: ps, .cons hp hps, ?_⟩
    intro pieces rest
    rw [List.flatMap_cons, List.append_assoc, hc, hcs, List.reverse_cons, List.append_assoc,
      List.singleton_append]

-- ================================================================== tokens

/-- Whether a token is a number, which is the one kind that may run into the next. -/
def Token.isNumber : Token → Bool
  | .number _ => true
  | _ => false

/-- A string that has no text is written as half of a surrogate pair. -/
theorem lexFrom_textless (rest : List Char) :
    lexFrom .between (Token.text (.string none) ++ rest)
      = (.string none :: ·) <$> lexFrom .between rest := by
  have hopen : Mode.between.step '"' = some ([], .string []) := by
    simp [Mode.step, openToken]
  have hzero : hexDigit? '0' = some 0 := by decide
  have hcode := lexFrom_code (show hexDigit? 'd' = some 13 by decide)
    (show hexDigit? '8' = some 8 by decide) hzero hzero [] ('"' :: rest)
  have hclose : (Mode.string [.unit 0xD800]).step '"' = some ([.string none], .between) := rfl
  simp only [Token.text, List.cons_append, List.nil_append]
  rw [lexFrom_quiet hopen, hcode, lexFrom_token hclose]

theorem lexFrom_string (s : String) (rest : List Char) :
    lexFrom .between (Token.text (.string (some s)) ++ rest)
      = (.string (some s) :: ·) <$> lexFrom .between rest := by
  obtain ⟨ps, hps, hcs⟩ := lexFrom_escapes s.toList
  have hopen : Mode.between.step '"' = some ([], .string []) := by
    simp [Mode.step, openToken]
  have hclose : (Mode.string ps.reverse).step '"'
      = some ([.string (some s)], .between) := by
    simp [Mode.step, closeString, pieces?_says hps]
  simp only [Token.text, List.cons_append, List.append_assoc, List.nil_append]
  rw [lexFrom_quiet hopen, hcs, List.append_nil, lexFrom_token hclose]

/-- A written token is read back, whatever comes behind it. -/
theorem lexFrom_text {t : Token} (ht : t.isNumber = false) (rest : List Char) :
    lexFrom .between (t.text ++ rest) = (t :: ·) <$> lexFrom .between rest := by
  cases t with
  | number written => cases ht
  | string text =>
    cases text with
    | none => exact lexFrom_textless rest
    | some s => exact lexFrom_string s rest
  | bool b => cases b <;> simp [Token.text, lexFrom, Mode.step, openToken]
  | null => simp [Token.text, lexFrom, Mode.step, openToken]
  | braceOpen | braceClose | bracketOpen | bracketClose | colon | comma => rfl

/-- Written tokens are read back. -/
theorem lex_text {ts : List Token} (h : ∀ t ∈ ts, t.isNumber = false) :
    lex (ts.flatMap Token.text) = some ts := by
  unfold lex
  induction ts with
  | nil => rfl
  | cons t ts ih =>
    rw [List.flatMap_cons, lexFrom_text (h t List.mem_cons_self),
      ih fun u hu => h u (List.mem_cons_of_mem _ hu)]
    rfl

end ScanTrace.Json
