/-
The registry of enabled levels, kept as a mask of bits. Insertion and
removal are bit operations on the one word, membership is a test of one
bit, and a mask from outside is taken over only when each of its bits
belongs to a level.

`Op` lists the ways in which a registry is changed; `Op.apply` does one of
them, and a change that is refused leaves the registry as it was
(`Op.run`). No change sets a bit that belongs to no level, so a registry is
the set of its levels (`Defined.ext`).
-/
import ScanTrace.Level
import ScanTrace.Notice

namespace ScanTrace

/-- The enabled levels, none at first. -/
structure LevelSet where
  /-- The sum of the bits of the enabled levels. -/
  mask : UInt32 := 0
  deriving DecidableEq

namespace LevelSet

-- ======================================================= one level at a time

/-- The bits that belong to a level. -/
def defined : UInt32 := 0x3F

def has (s : LevelSet) (l : Level) : Bool := s.mask &&& l.bit != 0

def insert (s : LevelSet) (l : Level) : LevelSet := ⟨s.mask ||| l.bit⟩

def erase (s : LevelSet) (l : Level) : LevelSet := ⟨s.mask &&& ~~~l.bit⟩

def set (s : LevelSet) (l : Level) (on : Bool) : LevelSet :=
  if on then s.insert l else s.erase l

/-- The enabled levels in the order of their bits. -/
def toList (s : LevelSet) : List Level := Level.all.filter s.has

-- ========================================================= whole registries

def ofList (ls : List Level) : LevelSet := ls.foldl insert {}

def full : LevelSet := ofList Level.all

/-- The registry with this mask, refused for its bits that belong to no level. -/
def ofMask (mask : UInt32) : Except Rejection LevelSet :=
  let stray := mask &&& ~~~defined
  if stray != 0 then .error (.undefinedBits stray) else .ok ⟨mask⟩

def setNamed (s : LevelSet) (name : String) (on : Bool) : Except Rejection LevelSet :=
  (Level.ofName name).map (s.set · on)

-- ================================================================== laws

/-- The bits of the levels are apart from each other. -/
theorem bit_and_bit (l l' : Level) : l.bit &&& l'.bit = if l = l' then l.bit else 0 := by
  cases l <;> cases l' <;> decide

theorem bit_ne_zero (l : Level) : l.bit ≠ 0 := by cases l <;> decide

theorem or_and (a b c : UInt32) : (a ||| b) &&& c = (a &&& c) ||| (b &&& c) := by
  apply UInt32.toBitVec_inj.mp
  simp only [UInt32.toBitVec_and, UInt32.toBitVec_or, BitVec.and_or_distrib_right]

theorem has_insert (s : LevelSet) (l l' : Level) :
    (s.insert l).has l' = (s.has l' || l == l') := by
  unfold has insert
  rw [or_and, bit_and_bit]
  by_cases hl : l = l'
  · simp [hl, bne, Bool.beq_eq_decide_eq, UInt32.or_eq_zero_iff, bit_ne_zero l']
  · simp [hl]

/-- What is left of the bit of a level when the bit of a level is taken away. -/
theorem not_bit_and_bit (l l' : Level) :
    ~~~l.bit &&& l'.bit = if l = l' then 0 else l'.bit := by
  cases l <;> cases l' <;> decide

theorem has_erase (s : LevelSet) (l l' : Level) :
    (s.erase l).has l' = (s.has l' && l != l') := by
  have hsplit : (s.mask &&& ~~~l.bit) &&& l'.bit = s.mask &&& (~~~l.bit &&& l'.bit) :=
    UInt32.and_assoc ..
  unfold has erase
  rw [hsplit, not_bit_and_bit]
  by_cases hl : l = l'
  · simp [hl]
  · simp [hl]

theorem has_set (s : LevelSet) (l l' : Level) (on : Bool) :
    (s.set l on).has l' = if l' = l then on else s.has l' := by
  cases on with
  | true =>
    rw [set, if_pos rfl, has_insert, Bool.beq_comm]
    by_cases hl : l' = l <;> simp [hl]
  | false =>
    rw [set, if_neg Bool.false_ne_true, has_erase, bne, Bool.beq_comm]
    by_cases hl : l' = l <;> simp [hl]

/-- A registry that is made from a list has the levels of the list and no others. -/
theorem has_ofList (ls : List Level) (l : Level) : (ofList ls).has l = true ↔ l ∈ ls := by
  have hfold : ∀ s : LevelSet, (ls.foldl insert s).has l = true ↔ s.has l = true ∨ l ∈ ls := by
    induction ls with
    | nil => simp
    | cons a ls ih =>
      intro s
      rw [List.foldl_cons, ih, has_insert, Bool.or_eq_true, beq_iff_eq, List.mem_cons, or_assoc,
        eq_comm (a := a)]
  have hempty : (({} : LevelSet).has l) = false := by cases l <;> decide
  rw [ofList, hfold, hempty]
  simp

theorem has_full (l : Level) : full.has l = true := (has_ofList _ l).mpr (Level.mem_all l)

-- ================================================================ changes

inductive Op where
  | clear
  | mask (bits : UInt32)
  | set (level : Level) (on : Bool)
  | insert (level : Level)
  | setNamed (name : String) (on : Bool)
  /-- Enables the listed levels and no others. -/
  | only (levels : List Level)

/-- The registry after a change, or why the change is refused. -/
def Op.apply (s : LevelSet) : Op → Except Rejection LevelSet
  | .clear => .ok {}
  | .mask bits => ofMask bits
  | .set l on => .ok (s.set l on)
  | .insert l => .ok (s.insert l)
  | .setNamed name on => s.setNamed name on
  | .only ls => .ok (ofList ls)

/-- A change as it is made: a refused one changes nothing. -/
def Op.run (s : LevelSet) (op : Op) : Outcome LevelSet :=
  match op.apply s with
  | .ok t => { state := t }
  | .error why => { state := s, rejected := some why }

-- ============================================================ defined bits

/-- Every bit of the mask belongs to a level. -/
def Defined (s : LevelSet) : Prop := s.mask &&& ~~~defined = 0

theorem defined_empty : Defined {} := by
  unfold Defined
  decide

theorem bit_and_stray (l : Level) : l.bit &&& ~~~defined = 0 := by cases l <;> decide

theorem Defined.insert {s : LevelSet} (h : s.Defined) (l : Level) : (s.insert l).Defined := by
  show (s.mask ||| l.bit) &&& ~~~defined = 0
  rw [or_and, h, bit_and_stray]
  rfl

theorem Defined.erase {s : LevelSet} (h : s.Defined) (l : Level) : (s.erase l).Defined := by
  show (s.mask &&& ~~~l.bit) &&& ~~~defined = 0
  rw [UInt32.and_assoc, UInt32.and_comm (~~~l.bit), ← UInt32.and_assoc, h]
  exact UInt32.zero_and

theorem Defined.set {s : LevelSet} (h : s.Defined) (l : Level) (on : Bool) :
    (s.set l on).Defined := by
  unfold LevelSet.set
  split
  · exact h.insert l
  · exact h.erase l

theorem defined_ofList (ls : List Level) : (ofList ls).Defined := by
  have hfold : ∀ s : LevelSet, s.Defined → (ls.foldl LevelSet.insert s).Defined := by
    induction ls with
    | nil => exact fun _ h => h
    | cons l ls ih => exact fun s h => ih _ (h.insert l)
  exact hfold {} defined_empty

/-- A mask is taken over exactly if it is the mask of a defined registry. -/
theorem ofMask_eq_ok_iff (mask : UInt32) (s : LevelSet) :
    ofMask mask = .ok s ↔ s.mask = mask ∧ s.Defined := by
  obtain ⟨bits⟩ := s
  unfold ofMask Defined
  by_cases h : mask &&& ~~~defined = 0
  · simp only [h, bne_self_eq_false, Bool.false_eq_true, if_false, Except.ok.injEq, mk.injEq]
    constructor
    · rintro rfl
      exact ⟨rfl, h⟩
    · rintro ⟨rfl, -⟩
      rfl
  · simp only [bne_iff_ne, ne_eq, h, not_false_eq_true, if_true]
    refine ⟨nofun, ?_⟩
    rintro ⟨rfl, hbits⟩
    exact absurd hbits h

/-- However a registry is changed, its mask has bits of levels only. -/
theorem Defined.apply {s t : LevelSet} (h : s.Defined) (op : Op) (ht : op.apply s = .ok t) :
    t.Defined := by
  cases op with
  | clear =>
    cases ht
    exact defined_empty
  | mask bits => exact ((ofMask_eq_ok_iff bits t).mp ht).2
  | set l on =>
    cases ht
    exact h.set l on
  | insert l =>
    cases ht
    exact h.insert l
  | setNamed name on =>
    cases hl : Level.ofName name with
    | error why => simp [Op.apply, LevelSet.setNamed, hl, Except.map] at ht
    | ok l =>
      have hset : s.set l on = t := by
        simpa [Op.apply, LevelSet.setNamed, hl, Except.map] using ht
      exact hset ▸ h.set l on
  | only ls =>
    cases ht
    exact defined_ofList ls

/-- The place of the bit of a level in the mask. -/
def place (l : Level) : Nat := Level.all.idxOf l

theorem has_eq_getLsbD (s : LevelSet) (l : Level) :
    s.has l = s.mask.toBitVec.getLsbD (place l) := by
  have hbit : l.bit.toBitVec = BitVec.twoPow 32 (place l) := by cases l <;> decide
  have hmask : (s.mask &&& l.bit).toBitVec
      = if s.mask.toBitVec.getLsbD (place l) then BitVec.twoPow 32 (place l) else 0#32 := by
    rw [UInt32.toBitVec_and, hbit, BitVec.and_twoPow]
  have hpow : BitVec.twoPow 32 (place l) ≠ 0#32 := by cases l <;> decide
  unfold has
  rw [bne, Bool.eq_iff_iff, Bool.not_eq_true', beq_eq_false_iff_ne, ne_eq,
    ← UInt32.toBitVec_inj, hmask]
  cases s.mask.toBitVec.getLsbD (place l) with
  | false => simp
  | true => simpa using hpow

/-- A defined registry has no bit but the bits of levels. -/
theorem Defined.exists_place {s : LevelSet} (h : s.Defined) {i : Nat}
    (hi : s.mask.toBitVec.getLsbD i = true) : ∃ l, place l = i := by
  have hlow : ∀ i : Fin 6, ∃ l ∈ Level.all, place l = i.val := by decide
  have hstray : ∀ i : Fin 32, 6 ≤ i.val → (~~~defined).toBitVec.getLsbD i.val = true := by decide
  have hlt : i < 32 := BitVec.lt_of_getLsbD hi
  by_cases hsix : i < 6
  · obtain ⟨l, -, hl⟩ := hlow ⟨i, hsix⟩
    exact ⟨l, hl⟩
  · have hbits := congrArg (fun m : UInt32 => m.toBitVec.getLsbD i) h
    rw [UInt32.toBitVec_and, BitVec.getLsbD_and, hi, Bool.true_and] at hbits
    have hzero : (~~~defined).toBitVec.getLsbD i = false := hbits.trans BitVec.getLsbD_zero
    rw [hstray ⟨i, hlt⟩ (Nat.not_lt.mp hsix)] at hzero
    cases hzero

/-- Registries of defined bits are equal if they have the same levels. -/
theorem Defined.ext {s t : LevelSet} (h : s.Defined) (h' : t.Defined)
    (hhas : ∀ l, s.has l = t.has l) : s = t := by
  have hsub : ∀ {u v : LevelSet}, u.Defined → (∀ l, u.has l = v.has l) → ∀ i,
      u.mask.toBitVec.getLsbD i = true → v.mask.toBitVec.getLsbD i = true := by
    intro u v hu hsame i hi
    obtain ⟨l, rfl⟩ := hu.exists_place hi
    rw [← has_eq_getLsbD, ← hsame l, has_eq_getLsbD]
    exact hi
  obtain ⟨bits⟩ := s
  obtain ⟨bits'⟩ := t
  refine congrArg mk (UInt32.toBitVec_inj.mp (BitVec.eq_of_getLsbD_eq ?_))
  intro i _
  rw [Bool.eq_iff_iff]
  exact ⟨hsub h hhas i, hsub h' (fun l => (hhas l).symm) i⟩

end LevelSet

end ScanTrace
