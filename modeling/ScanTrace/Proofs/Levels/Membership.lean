/-
The registry of levels as a set of levels. What a registry is changed by can
as well be said of plain sets (`LevelSet.Op.onSet`): a level goes in or out,
a list takes the place of what was there, and so does a mask, which stands
for the levels whose bits are in it, or for no set at all if it has a bit of
no level. The registry does all this by bit operations on one word, and the
two stay together (`LevelSet.Denotes`) through every change and every run.

From that the rest is read off. A mask is the sum of the powers of two at
its places (`LevelSet.places`), and the places of a registry are those of its
levels; so the mask is the sum of the bits of the levels, and a registry can
be made again from its mask and from the list of its levels.
-/
import ScanTrace.LevelSet
import Mathlib.Combinatorics.Colex

namespace ScanTrace.LevelSet

-- ========================================================== places of a mask

/-- The places at which a mask has a one. -/
def places (mask : UInt32) : Finset Nat := mask.toNat.bitIndices.toFinset

theorem mem_places {mask : UInt32} {i : Nat} :
    i ∈ places mask ↔ mask.toBitVec.getLsbD i = true := by
  unfold places
  rw [List.mem_toFinset, Nat.mem_bitIndices]
  rfl

/-- A mask is the sum of the powers of two at its places. -/
theorem sum_places (mask : UInt32) : ∑ i ∈ places mask, 2 ^ i = mask.toNat :=
  Finset.sum_toFinset_bitIndices_two_pow _

theorem toNat_bit (l : Level) : l.bit.toNat = 2 ^ place l := by cases l <;> decide

theorem places_bit (l : Level) : places l.bit = {place l} := by
  unfold places
  rw [toNat_bit, Nat.bitIndices_two_pow]
  rfl

theorem place_injective : Function.Injective place := by
  intro l l'
  cases l <;> cases l' <;> decide

/-- The places that belong to levels. -/
def levelPlaces : Finset Nat := Level.all.toFinset.biUnion fun l => places l.bit

theorem mem_levelPlaces {i : Nat} : i ∈ levelPlaces ↔ ∃ l, place l = i := by
  unfold levelPlaces
  simp only [Finset.mem_biUnion, List.mem_toFinset, places_bit, Finset.mem_singleton]
  constructor
  · rintro ⟨l, -, rfl⟩
    exact ⟨l, rfl⟩
  · rintro ⟨l, rfl⟩
    exact ⟨l, Level.mem_all l, rfl⟩

/-- What a mask is refused for has the places of the mask that belong to no level. -/
theorem places_stray (mask : UInt32) :
    places (mask &&& ~~~defined) = places mask \ levelPlaces := by
  have hstray : ∀ i : Fin 32, (~~~defined).toBitVec.getLsbD i.val = true ↔
      ∀ l ∈ Level.all, place l ≠ i.val := by decide
  ext i
  rw [Finset.mem_sdiff, mem_places, mem_places, mem_levelPlaces, UInt32.toBitVec_and,
    BitVec.getLsbD_and, Bool.and_eq_true]
  refine and_congr_right fun hi => ?_
  rw [hstray ⟨i, BitVec.lt_of_getLsbD hi⟩, not_exists]
  exact ⟨fun h l => h l (Level.mem_all l), fun h l _ => h l⟩

theorem places_eq_empty_iff {mask : UInt32} : places mask = ∅ ↔ mask = 0 := by
  constructor
  · intro h
    have hsum := sum_places mask
    rw [h, Finset.sum_empty] at hsum
    exact UInt32.toNat_inj.mp hsum.symm
  · rintro rfl
    rfl

theorem defined_iff_places (s : LevelSet) : s.Defined ↔ places s.mask ⊆ levelPlaces := by
  unfold Defined
  rw [← places_eq_empty_iff, places_stray, Finset.sdiff_eq_empty_iff_subset]

theorem has_iff_places (s : LevelSet) (l : Level) :
    s.has l = true ↔ places l.bit ⊆ places s.mask := by
  rw [places_bit, Finset.singleton_subset_iff, mem_places, has_eq_getLsbD]

-- ================================================================ plain sets

/-- A change made to a plain set of levels, or nothing if the change is refused. -/
def Op.onSet (S : Finset Level) : Op → Option (Finset Level)
  | .clear => some ∅
  | .mask bits =>
    if places bits ⊆ levelPlaces then
      some (Level.all.toFinset.filter fun l => places l.bit ⊆ places bits)
    else none
  | .set l on => some (if on then Insert.insert l S else S.erase l)
  | .insert l => some (Insert.insert l S)
  | .setNamed name on =>
    (Level.named? name).map fun l => if on then Insert.insert l S else S.erase l
  | .only ls => some ls.toFinset

/-- The registry after changes one after another, empty at first. -/
def Op.runAll (ops : List Op) : LevelSet := ops.foldl (fun s op => (op.run s).state) {}

/-- The plain set after the same changes. -/
def Op.setAfter (ops : List Op) : Finset Level := ops.foldl (fun S op => (op.onSet S).getD S) ∅

/-- A registry has the levels of a set, and no bits besides theirs. -/
structure Denotes (s : LevelSet) (S : Finset Level) : Prop where
  defined : s.Defined
  has : ∀ l, s.has l = true ↔ l ∈ S

variable {s : LevelSet} {S : Finset Level}

theorem denotes_empty : Denotes {} ∅ where
  defined := defined_empty
  has l := by cases l <;> decide

theorem Denotes.insert (h : s.Denotes S) (l : Level) :
    (s.insert l).Denotes (Insert.insert l S) where
  defined := h.defined.insert l
  has l' := by
    rw [has_insert, Bool.or_eq_true, h.has, Finset.mem_insert, beq_iff_eq, or_comm,
      eq_comm (a := l)]

theorem Denotes.erase (h : s.Denotes S) (l : Level) : (s.erase l).Denotes (S.erase l) where
  defined := h.defined.erase l
  has l' := by
    rw [has_erase, Bool.and_eq_true, h.has, Finset.mem_erase, bne_iff_ne, and_comm, ne_comm]

theorem Denotes.set (h : s.Denotes S) (l : Level) (on : Bool) :
    (s.set l on).Denotes (if on then Insert.insert l S else S.erase l) := by
  cases on with
  | true => exact h.insert l
  | false => exact h.erase l

theorem denotes_ofList (ls : List Level) : (ofList ls).Denotes ls.toFinset where
  defined := defined_ofList ls
  has l := by rw [has_ofList, List.mem_toFinset]

/-- A mask of levels only denotes the levels whose bits are in it. -/
theorem denotes_mask {bits : UInt32} (h : places bits ⊆ levelPlaces) :
    (⟨bits⟩ : LevelSet).Denotes
      (Level.all.toFinset.filter fun l => places l.bit ⊆ places bits) where
  defined := (defined_iff_places ⟨bits⟩).mpr h
  has l := by
    rw [has_iff_places, Finset.mem_filter, List.mem_toFinset]
    exact (and_iff_right (Level.mem_all l)).symm

-- ============================================================ changes and runs

/-- One change: the registry takes it where the set does, and refuses it where the set
does. -/
theorem Denotes.apply (h : s.Denotes S) (op : Op) :
    (∃ t T, op.apply s = .ok t ∧ op.onSet S = some T ∧ t.Denotes T)
      ∨ ∃ why, op.apply s = .error why ∧ op.onSet S = none := by
  cases op with
  | clear => exact .inl ⟨_, _, rfl, rfl, denotes_empty⟩
  | mask bits =>
    by_cases hbits : places bits ⊆ levelPlaces
    · have hok : ofMask bits = .ok ⟨bits⟩ :=
        (ofMask_eq_ok_iff bits ⟨bits⟩).mpr ⟨rfl, (defined_iff_places ⟨bits⟩).mpr hbits⟩
      exact .inl ⟨_, _, hok, if_pos hbits, denotes_mask hbits⟩
    · cases hmask : ofMask bits with
      | ok t =>
        obtain ⟨rfl, ht⟩ := (ofMask_eq_ok_iff bits t).mp hmask
        exact absurd ((defined_iff_places t).mp ht) hbits
      | error why => exact .inr ⟨why, hmask, if_neg hbits⟩
  | set l on => exact .inl ⟨_, _, rfl, rfl, h.set l on⟩
  | insert l => exact .inl ⟨_, _, rfl, rfl, h.insert l⟩
  | setNamed name on =>
    cases hname : Level.named? name with
    | some l =>
      refine .inl ⟨s.set l on, if on then Insert.insert l S else S.erase l, ?_, ?_, h.set l on⟩
      · simp only [Op.apply, LevelSet.setNamed, Level.ofName, hname, Except.map]
      · simp only [Op.onSet, hname, Option.map_some]
    | none =>
      refine .inr ⟨.unknownLevel name, ?_, ?_⟩
      · simp only [Op.apply, LevelSet.setNamed, Level.ofName, hname, Except.map]
      · simp only [Op.onSet, hname, Option.map_none]
  | only ls => exact .inl ⟨_, _, rfl, rfl, denotes_ofList ls⟩

theorem Op.run_of_ok {t : LevelSet} {op : Op} (h : op.apply s = .ok t) :
    op.run s = { state := t } := by
  rw [Op.run, h]

theorem Op.run_of_error {why : Rejection} {op : Op} (h : op.apply s = .error why) :
    op.run s = { state := s, rejected := some why } := by
  rw [Op.run, h]

theorem Denotes.run (h : s.Denotes S) (op : Op) :
    (op.run s).state.Denotes ((op.onSet S).getD S) := by
  rcases h.apply op with ⟨t, T, happly, hset, hdenotes⟩ | ⟨why, happly, hset⟩
  · rw [Op.run_of_ok happly, hset]
    exact hdenotes
  · rw [Op.run_of_error happly, hset]
    exact h

/-- Through all changes the registry denotes the set. -/
theorem denotes_runAll (ops : List Op) : (Op.runAll ops).Denotes (Op.setAfter ops) := by
  have hfold : ∀ {s S}, Denotes s S → (ops.foldl (fun s op => (op.run s).state) s).Denotes
      (ops.foldl (fun S op => (op.onSet S).getD S) S) := by
    induction ops with
    | nil => exact fun h => h
    | cons op ops ih => exact fun h => ih (h.run op)
  exact hfold denotes_empty

-- ============================================================ what is read off

/-- The places of a registry are those of its levels. -/
theorem Denotes.places_mask (h : s.Denotes S) : places s.mask = S.image place := by
  ext i
  rw [mem_places, Finset.mem_image]
  constructor
  · intro hi
    obtain ⟨l, rfl⟩ := h.defined.exists_place hi
    exact ⟨l, (h.has l).mp ((has_eq_getLsbD s l).trans hi), rfl⟩
  · rintro ⟨l, hl, rfl⟩
    exact (has_eq_getLsbD s l).symm.trans ((h.has l).mpr hl)

theorem Denotes.toNat_mask (h : s.Denotes S) : s.mask.toNat = ∑ l ∈ S, l.bit.toNat := by
  rw [← sum_places, h.places_mask, Finset.sum_image place_injective.injOn]
  exact Finset.sum_congr rfl fun l _ => (toNat_bit l).symm

theorem mem_toList (s : LevelSet) (l : Level) : l ∈ s.toList ↔ s.has l = true := by
  rw [toList, List.mem_filter]
  exact and_iff_right (Level.mem_all l)

theorem pairwise_toList (s : LevelSet) : s.toList.Pairwise fun l l' => l.bit < l'.bit := by
  have hall : Level.all.Pairwise fun l l' => l.bit < l'.bit := by decide
  exact hall.filter s.has

theorem ofList_toList (h : s.Defined) : ofList s.toList = s := by
  refine (defined_ofList s.toList).ext h fun l => ?_
  rw [Bool.eq_iff_iff, has_ofList, mem_toList]

/-- A mask with bits of no level is refused for exactly these bits. -/
theorem ofMask_of_stray {bits : UInt32} (h : ¬ places bits ⊆ levelPlaces) :
    ∃ stray, ofMask bits = .error (.undefinedBits stray)
      ∧ places stray = places bits \ levelPlaces := by
  refine ⟨bits &&& ~~~defined, ?_, places_stray bits⟩
  have hstray : bits &&& ~~~defined ≠ 0 := fun hzero =>
    h ((defined_iff_places ⟨bits⟩).mp hzero)
  unfold ofMask
  dsimp only
  rw [if_pos (bne_iff_ne.mpr hstray)]

/-- After any changes the registry is the set of levels that the same changes make of
plain sets: no bit of the mask belongs to anything else, a level is enabled if it is in
the set, the enabled levels are listed once each in the order of their bits, the mask is
the sum of their bits, and the registry is made again from its mask and from its list. A
further change is refused where the set refuses it, and then changes nothing. A mask from
outside is taken over if all its bits belong to levels, and refused for exactly those
that do not. -/
theorem registry_is_set_of_levels (ops : List Op) :
    let s := Op.runAll ops
    let S := Op.setAfter ops
    places s.mask ⊆ levelPlaces
    ∧ (∀ l, s.has l = true ↔ l ∈ S)
    ∧ (s.toList.Pairwise (fun l l' => l.bit < l'.bit) ∧ ∀ l, l ∈ s.toList ↔ l ∈ S)
    ∧ s.mask.toNat = ∑ l ∈ S, l.bit.toNat
    ∧ (∀ op : Op, ((op.run s).rejected = none ↔ (op.onSet S).isSome = true)
        ∧ ((op.run s).rejected ≠ none → (op.run s).state = s))
    ∧ (∀ bits t, ofMask bits = .ok t ↔ t.mask = bits ∧ places bits ⊆ levelPlaces)
    ∧ (∀ bits, ¬ places bits ⊆ levelPlaces → ∃ stray,
        ofMask bits = .error (.undefinedBits stray) ∧ places stray = places bits \ levelPlaces)
    ∧ ofMask s.mask = .ok s ∧ ofList s.toList = s := by
  intro s S
  have h : s.Denotes S := denotes_runAll ops
  refine ⟨(defined_iff_places s).mp h.defined, h.has, ⟨pairwise_toList s, fun l => ?_⟩,
    h.toNat_mask, fun op => ?_, fun bits t => ?_, fun _ => ofMask_of_stray,
    (ofMask_eq_ok_iff s.mask s).mpr ⟨rfl, h.defined⟩, ofList_toList h.defined⟩
  · rw [mem_toList]
    exact h.has l
  · rcases h.apply op with ⟨t, T, happly, hset, -⟩ | ⟨why, happly, hset⟩
    · simp [Op.run_of_ok happly, hset]
    · simp [Op.run_of_error happly, hset]
  · rw [ofMask_eq_ok_iff, defined_iff_places]
    exact and_congr_right fun hmask => hmask ▸ Iff.rfl

end ScanTrace.LevelSet
