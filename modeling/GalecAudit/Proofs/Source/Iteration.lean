import GalecAudit.Proofs.Source.Words
import Mathlib.Data.Set.Card

/-!
# Iterations of a loop

How often a loop runs and with which values, over the whole range of 64-bit integers: neither the count on
128 bits nor the sum that saturates changes a value that is used.
-/
namespace GalecAudit.Source

/-- A value lies between the bounds of a loop, in the direction of its step. -/
def Between (start step stop v : Int) : Prop :=
  0 < step ∧ start ≤ v ∧ v ≤ stop ∨ step < 0 ∧ stop ≤ v ∧ v ≤ start

/-- The integers `start + k * step` between the bounds of a loop. -/
def iterates (start step stop : Int) : Set Int :=
  {v | Between start step stop v ∧ ∃ k : Nat, v = start + k * step}

variable {start step stop : Int}

theorem Between.isWord {v : Int} (h : Between start step stop v)
    (hstart : isWord start = true) (hstop : isWord stop = true) : isWord v = true := by
  rw [isWord_iff] at *
  rcases h with h | h <;> omega

theorem Between.step_ne_zero {v : Int} (h : Between start step stop v) : step ≠ 0 := by
  rcases h with h | h <;> omega

section Count

theorem toInt_widen {v : Int} (h : isWord v = true) : (widen v).toInt = v := by
  rw [isWord_iff] at h
  rw [widen, BitVec.toInt_ofInt]
  exact Int.bmod_eq_of_le (by omega) (by omega)

/-- The distance of two 64-bit integers, its quotient and one more than that fit into 128 bits. -/
theorem toInt_count (hstart : isWord start = true) (hstep : isWord step = true)
    (hstop : isWord stop = true) :
    ((widen stop - widen start).sdiv (widen step) + 1).toInt = (stop - start).tdiv step + 1 := by
  have hquotient : ((stop - start).tdiv step).natAbs ≤ (stop - start).natAbs :=
    Int.natAbs_tdiv _ _ ▸ Nat.div_le_self _ _
  have hdistance : (widen stop - widen start).toInt = stop - start := by
    rw [BitVec.toInt_sub, toInt_widen hstart, toInt_widen hstop]
    rw [isWord_iff] at hstart hstop
    exact Int.bmod_eq_of_le (by omega) (by omega)
  have hdivided : ((widen stop - widen start).sdiv (widen step)).toInt =
      (stop - start).tdiv step := by
    rw [BitVec.toInt_sdiv, hdistance, toInt_widen hstep]
    rw [isWord_iff] at hstart hstop
    exact Int.bmod_eq_of_le (by omega) (by omega)
  rw [BitVec.toInt_add, hdivided]
  rw [isWord_iff] at hstart hstop
  exact Int.bmod_eq_of_le (by simp; omega) (by simp; omega)

theorem between_up_iff (hstep : 0 < step) (hle : start ≤ stop) (k : Nat) :
    Between start step stop (start + k * step) ↔ (k : Int) < (stop - start).tdiv step + 1 := by
  have hpos : 0 ≤ (k : Int) * step := Int.mul_nonneg (Int.natCast_nonneg k) hstep.le
  rw [Int.tdiv_eq_ediv_of_nonneg (Int.sub_nonneg.2 hle), Int.lt_add_one_iff,
    Int.le_ediv_iff_mul_le hstep, Between]
  omega

theorem between_down_iff (hstep : step < 0) (hle : stop ≤ start) (k : Nat) :
    Between start step stop (start + k * step) ↔ (k : Int) < (stop - start).tdiv step + 1 := by
  -- turned round, the loop runs upwards
  have hup := between_up_iff (Int.neg_pos.2 hstep) (Int.neg_le_neg hle) k
  have hflip : (-stop - -start).tdiv (-step) = (stop - start).tdiv step := by
    rw [← Int.neg_tdiv_neg (stop - start)]
    congr 1
    omega
  rw [hflip, Int.mul_neg] at hup
  rw [← hup, Between, Between]
  omega

/-- The iterations that a loop counts are those whose value lies between its bounds. -/
theorem between_iff_lt_iterationCount (hstart : isWord start = true) (hstep : isWord step = true)
    (hstop : isWord stop = true) (k : Nat) :
    Between start step stop (start + k * step) ↔ (k : Int) < iterationCount start step stop := by
  rw [iterationCount]
  split
  · next hdirection =>
    rw [toInt_count hstart hstep hstop]
    rcases hdirection with ⟨hpos, hle⟩ | ⟨hneg, hle⟩
    · exact between_up_iff hpos hle k
    · exact between_down_iff hneg hle k
  · next hdirection =>
    refine iff_of_false ?_ (by omega)
    rintro (⟨hpos, hfirst, hlast⟩ | ⟨hneg, hlast, hfirst⟩)
    · exact hdirection (.inl ⟨hpos, hfirst.trans hlast⟩)
    · exact hdirection (.inr ⟨hneg, hlast.trans hfirst⟩)

theorem iterationCount_nonneg (hstart : isWord start = true) (hstep : isWord step = true)
    (hstop : isWord stop = true) : 0 ≤ iterationCount start step stop := by
  by_cases hbetween : Between start step stop start
  · have hfirst := between_iff_lt_iterationCount hstart hstep hstop 0
    rw [Int.natCast_zero, Int.zero_mul, Int.add_zero] at hfirst
    exact (hfirst.1 hbetween).le
  · rw [iterationCount, if_neg]
    rw [Between] at hbetween
    omega

/-- The integers of a loop are those of its iterations. -/
theorem iterates_eq_image (hstart : isWord start = true) (hstep : isWord step = true)
    (hstop : isWord stop = true) : iterates start step stop =
      (Finset.range (iterationCount start step stop).toNat).image
        fun k : Nat => start + k * step := by
  ext v
  rw [Finset.mem_coe, Finset.mem_image]
  constructor
  · rintro ⟨hbetween, k, rfl⟩
    rw [between_iff_lt_iterationCount hstart hstep hstop] at hbetween
    exact ⟨k, Finset.mem_range.2 (by omega), rfl⟩
  · rintro ⟨k, hk, rfl⟩
    have hk := Finset.mem_range.1 hk
    exact ⟨(between_iff_lt_iterationCount hstart hstep hstop k).2 (by omega), k, rfl⟩

/-- The count of a loop is the number of its integers. -/
theorem iterationCount_eq_ncard (hstart : isWord start = true) (hstep : isWord step = true)
    (hstop : isWord stop = true) (hne : step ≠ 0) :
    iterationCount start step stop = (iterates start step stop).ncard := by
  have hinjective : Function.Injective fun k : Nat => start + (k : Int) * step := by
    intro j k h
    have h := Int.mul_eq_mul_right_iff hne |>.1 (Int.add_left_cancel h)
    exact_mod_cast h
  rw [iterates_eq_image hstart hstep hstop, Set.ncard_coe_finset,
    Finset.card_image_of_injective _ hinjective, Finset.card_range,
    Int.toNat_of_nonneg (iterationCount_nonneg hstart hstep hstop)]

theorem ncard_iterates_eq {n : Nat} (hstart : isWord start = true) (hstep : isWord step = true)
    (hstop : isWord stop = true) (hne : step ≠ 0) (h : iterationCount start step stop = n) :
    (iterates start step stop).ncard = n :=
  Int.ofNat.inj ((iterationCount_eq_ncard hstart hstep hstop hne).symm.trans h)

/-- Each integer of a loop belongs to one of its iterations. -/
theorem exists_mem_range_of_mem_iterates {v : Int} (hstart : isWord start = true)
    (hstep : isWord step = true) (hstop : isWord stop = true) (h : v ∈ iterates start step stop) :
    ∃ k ∈ List.range (iterates start step stop).ncard, v = start + (k : Nat) * step := by
  obtain ⟨hbetween, k, rfl⟩ := h
  have hcount := iterationCount_eq_ncard hstart hstep hstop hbetween.step_ne_zero
  have hk := (between_iff_lt_iterationCount hstart hstep hstop k).1 hbetween
  exact ⟨k, List.mem_range.2 (by omega), rfl⟩

end Count

section Values

theorem saturatingAdd_eq {a b : Int} (h : isWord (a + b) = true) : saturatingAdd a b = a + b := by
  rw [isWord_iff] at h
  rw [saturatingAdd]
  omega

/-- As long as the values are 64-bit integers no sum saturates, apart from the one behind the last
value. -/
theorem iterationValues_eq_map {n : Nat} {value : Int}
    (h : ∀ k < n, isWord (value + (k : Nat) * step) = true) :
    iterationValues step n value = (List.range n).map fun k : Nat => value + k * step := by
  induction n generalizing value with
  | zero => rfl
  | succ n ih =>
    -- only the value behind the last one may saturate, and then no iteration is left to take it
    have hnext : iterationValues step n (saturatingAdd value step) =
        iterationValues step n (value + step) := by
      cases n with
      | zero => rfl
      | succ n =>
        have hone := h 1 (by omega)
        rw [Int.natCast_one, Int.one_mul] at hone
        rw [saturatingAdd_eq hone]
    have hshift (k : Nat) :
        value + step + (k : Int) * step = value + ((k + 1 : Nat) : Int) * step := by
      rw [Int.natCast_succ, Int.add_mul, Int.one_mul]
      omega
    have hrest := @ih (value + step) fun k hk => hshift k ▸ h (k + 1) (by omega)
    rw [iterationValues, hnext, hrest, List.range_succ_eq_map, List.map_cons, List.map_map]
    simp [hshift]

/-- The iterator takes the integers of its loop in their order. -/
theorem iterationValues_eq (hstart : isWord start = true) (hstep : isWord step = true)
    (hstop : isWord stop = true) (hne : step ≠ 0) :
    iterationValues step (iterationCount start step stop).toNat start =
      (List.range (iterates start step stop).ncard).map fun k : Nat => start + k * step := by
  have hcount := iterationCount_eq_ncard hstart hstep hstop hne
  rw [iterationValues_eq_map, hcount, Int.toNat_natCast]
  intro k hk
  have hbetween := (between_iff_lt_iterationCount hstart hstep hstop k).2 (by omega)
  exact hbetween.isWord hstart hstop

end Values

end GalecAudit.Source
