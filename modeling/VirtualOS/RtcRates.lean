import VirtualOS.ProcessInvariants
import Mathlib.Tactic

/-!
# The rates of the clock

`rtc_write` takes a word from its caller, replaces it by 512 unless
`powerOfTwo` accepts it, and programs the rate of that frequency.  The word is a
signed integer: shifting it to the right keeps the sign, so the loop of
`powerOfTwo` ends at the odd part of every word but zero.
-/

namespace VirtualOS

/-! ## Powers of two -/

theorem and_one_ne_zero_iff (n : BitVec 32) : n &&& 1 ≠ 0 ↔ Odd n.toInt := by
  have hbit : n &&& 1 = 0 ↔ n.toNat % 2 = 0 := by
    rw [← BitVec.toNat_inj]
    simp [Nat.and_one_is_mod]
  rw [Ne, hbit, Int.odd_iff, BitVec.toInt_eq_toNat_bmod]
  have hlt := n.isLt
  rw [Int.bmod_def]
  omega

theorem toInt_sshiftRight_one (n : BitVec 32) : (n.sshiftRight 1).toInt = n.toInt / 2 := by
  rw [BitVec.toInt_sshiftRight, Int.shiftRight_eq_div_pow]
  rfl

/-- Zero never shows a bit: the loop of `powerOfTwo` runs for ever. -/
theorem shiftToOdd_zero (fuel : ℕ) : shiftToOdd fuel 0 = none := by
  induction fuel with
  | zero => rfl
  | succ fuel ih => exact ih

theorem shiftToOdd_eq {fuel k : ℕ} {n : BitVec 32} {odd : ℤ} (hodd : Odd odd)
    (hn : n.toInt = 2 ^ k * odd) (hfuel : k < fuel) :
    ∃ last, shiftToOdd fuel n = some last ∧ last.toInt = odd := by
  induction k generalizing fuel n with
  | zero =>
      obtain ⟨fuel, rfl⟩ := Nat.exists_eq_succ_of_ne_zero hfuel.ne'
      rw [pow_zero, one_mul] at hn
      refine ⟨n, ?_, hn⟩
      rw [shiftToOdd, if_pos ((and_one_ne_zero_iff n).mpr (hn ▸ hodd))]
  | succ k ih =>
      obtain ⟨fuel, rfl⟩ := Nat.exists_eq_succ_of_ne_zero (Nat.ne_zero_of_lt hfuel)
      have heven : ¬ Odd n.toInt := by
        rw [Int.not_odd_iff_even, hn, pow_succ']
        exact ⟨2 ^ k * odd, by ring⟩
      have hhalf : (n.sshiftRight 1).toInt = 2 ^ k * odd := by
        rw [toInt_sshiftRight_one, hn, pow_succ', mul_assoc]
        exact Int.mul_ediv_cancel_left _ (by norm_num)
      rw [shiftToOdd, if_neg (fun h => heven ((and_one_ne_zero_iff n).mp h))]
      exact ih hhalf (by omega)

theorem exists_oddPart {n : BitVec 32} (hne : n ≠ 0) :
    ∃ (k : ℕ) (odd : ℤ), k < 32 ∧ Odd odd ∧ n.toInt = 2 ^ k * odd := by
  have hint : n.toInt ≠ 0 := by
    intro hzero
    exact hne (BitVec.toInt_inj.mp (by simpa using hzero))
  obtain ⟨k, m, hm, habs⟩ := Nat.exists_eq_two_pow_mul_odd (n := n.toInt.natAbs)
    (Int.natAbs_ne_zero.mpr hint)
  have hbound : n.toInt.natAbs ≤ 2 ^ 31 := by
    have hlow := n.le_toInt
    have hhigh := n.toInt_lt
    norm_num at hlow hhigh
    omega
  have hk : 2 ^ k ≤ n.toInt.natAbs := by
    rw [habs]
    exact Nat.le_mul_of_pos_right _ hm.pos
  have hlt : k < 32 := by
    by_contra hge
    have hpow : 2 ^ 32 ≤ 2 ^ k := Nat.pow_le_pow_right (by norm_num) (not_lt.mp hge)
    omega
  rcases Int.natAbs_eq n.toInt with hpos | hneg
  · refine ⟨k, m, hlt, by exact_mod_cast hm, ?_⟩
    rw [hpos, habs]
    push_cast
    ring
  · refine ⟨k, -m, hlt, by simpa using hm, ?_⟩
    rw [hneg, habs]
    push_cast
    ring

def IsPowerOfTwo (n : BitVec 32) : Prop := ∃ k : ℕ, n.toInt = 2 ^ k

theorem powerOfTwo_iff {n : BitVec 32} (hne : n ≠ 0) :
    ∃ answer, powerOfTwo n = some answer ∧ (answer = true ↔ IsPowerOfTwo n) := by
  obtain ⟨k, odd, hk, hodd, hn⟩ := exists_oddPart hne
  obtain ⟨last, hloop, hlast⟩ := shiftToOdd_eq hodd hn hk
  refine ⟨_, by rw [powerOfTwo, hloop, Option.map_some], ?_⟩
  have hzero : last.sshiftRight 1 = 0 ↔ odd = 1 := by
    rw [← BitVec.toInt_inj, toInt_sshiftRight_one, hlast]
    obtain ⟨half, rfl⟩ := hodd
    simp
    omega
  rw [decide_eq_true_iff, hzero]
  constructor
  · rintro rfl
    exact ⟨k, by rw [hn, mul_one]⟩
  · rintro ⟨j, hj⟩
    have hpos : 0 < odd := by
      have hprod : 0 < 2 ^ k * odd := by
        rw [← hn, hj]
        positivity
      exact pos_of_mul_pos_right hprod (by positivity)
    have hdvd : odd ∣ 2 ^ j := ⟨2 ^ k, by rw [← hj, hn, mul_comm]⟩
    have hcoprime : IsCoprime odd (2 ^ j) := by
      apply IsCoprime.pow_right
      obtain ⟨half, rfl⟩ := hodd
      exact ⟨1, -half, by ring⟩
    have hunit := hcoprime.isUnit_of_dvd hdvd
    rcases Int.isUnit_iff.mp hunit with hone | hone
    · exact hone
    · omega

/-! ## Programming a rate -/

/-- The frequencies between 2 and 1024 that the clock can be set to. -/
def IsRtcFrequency (value : BitVec 32) : Prop :=
  IsPowerOfTwo value ∧ 2 ≤ value.toInt ∧ value.toInt ≤ 1024

/-- Register A keeps its high nibble, and the rate in its low nibble is that of
the frequency, or of 512 for a word that is no frequency of the clock. -/
structure ProgramsRate (value : BitVec 32) (prev register : BitVec 8) : Prop where
  high : register &&& 0xF0 = prev &&& 0xF0
  valid : IsRtcFrequency value →
    ((32768 >>> ((register &&& 0x0F).toNat - 1) : ℕ) : ℤ) = value.toInt
  invalid : ¬ IsRtcFrequency value → 32768 >>> ((register &&& 0x0F).toNat - 1) = 512

/-- `powerOfTwo` and `rtc_write` do with a word what they should. -/
structure SetsRate (s : Kernel) (value : BitVec 32) : Prop where
  decides : ∃ answer, powerOfTwo value = some answer ∧ (answer = true ↔ IsPowerOfTwo value)
  programs : ∃ next, rtcWrite s value = some next ∧
    ProgramsRate value s.rtcRegisterA next.rtcRegisterA

theorem registerA_nibbles (prev rate : BitVec 8) :
    ((prev &&& 0xF0) ||| (rate &&& 0x0F)) &&& 0xF0 = prev &&& 0xF0 ∧
      ((prev &&& 0xF0) ||| (rate &&& 0x0F)) &&& 0x0F = rate &&& 0x0F := by
  constructor
  · apply BitVec.eq_of_getLsbD_eq
    intro i hi
    interval_cases i <;> simp
  · apply BitVec.eq_of_getLsbD_eq
    intro i hi
    interval_cases i <;> simp

/-- The rate that `rtc_write` derives from an accepted or replaced word. -/
def rateOf (isPower : Bool) (value : BitVec 32) : ℕ :=
  let freq := if !isPower ∨ (1024 : BitVec 32).slt value then 512 else value
  rateFrom maxRtcRate (freq.sshiftRight 2) 0

theorem registerA_rtcWrite {s : Kernel} {value : BitVec 32} {isPower : Bool}
    (hpower : powerOfTwo value = some isPower) :
    ∃ next, rtcWrite s value = some next ∧ next.rtcRegisterA =
      (s.rtcRegisterA &&& 0xF0) ||| (~~~(BitVec.ofNat 8 (rateOf isPower value)) &&& 0x0F) := by
  rw [rtcWrite, hpower, Option.map_some]
  exact ⟨_, rfl, rfl⟩

theorem slt_iff_toInt (value : BitVec 32) :
    (1024 : BitVec 32).slt value = true ↔ 1024 < value.toInt := by
  rw [BitVec.slt_iff_toInt_lt]
  rfl

/-- The word is set to its own rate, but one passes as a frequency: shifted like
the others it becomes zero at once and gets the rate of 2. -/
theorem frequency_rateOf {value : BitVec 32} {isPower : Bool}
    (hanswer : isPower = true ↔ IsPowerOfTwo value) :
    (IsRtcFrequency value → ((32768 >>>
      ((~~~(BitVec.ofNat 8 (rateOf isPower value)) &&& 0x0F).toNat - 1) : ℕ) : ℤ) =
        value.toInt) ∧
    (¬ IsRtcFrequency value → value ≠ 1 → 32768 >>>
      ((~~~(BitVec.ofNat 8 (rateOf isPower value)) &&& 0x0F).toNat - 1) = 512) := by
  constructor
  · rintro ⟨hpower, hlow, hhigh⟩
    obtain rfl := hanswer.mpr hpower
    obtain ⟨k, hk⟩ := hpower
    have hk10 : k ≤ 10 := by
      by_contra hgt
      have hpow : (2 : ℤ) ^ 11 ≤ 2 ^ k := pow_le_pow_right₀ (by norm_num) (by omega)
      omega
    have hvalue : value = BitVec.ofInt 32 (2 ^ k) := by
      rw [← hk, BitVec.ofInt_toInt]
    rw [hk] at hlow
    rw [hk, hvalue]
    clear hk hvalue hhigh hanswer
    interval_cases k <;> revert hlow <;> decide
  · intro hno hone
    have hreplaced : (!isPower) = true ∨ (1024 : BitVec 32).slt value = true := by
      rw [slt_iff_toInt]
      by_contra hkept
      rw [not_or, Bool.not_eq_true', Bool.not_eq_false, not_lt] at hkept
      obtain ⟨hpower, hhigh⟩ := hkept
      obtain ⟨k, hk⟩ := hanswer.mp hpower
      have hlow : ¬ 2 ≤ value.toInt := fun hlow => hno ⟨⟨k, hk⟩, hlow, hhigh⟩
      have hpos : (0 : ℤ) < 2 ^ k := by positivity
      apply hone
      apply BitVec.toInt_inj.mp
      have hvalue : value.toInt = 1 := by omega
      rw [hvalue]
      rfl
    rw [rateOf, if_pos (by simpa using hreplaced)]
    rfl

theorem not_setsRate_zero (s : Kernel) : ¬ SetsRate s 0 := by
  rintro ⟨⟨answer, hpower, -⟩, -⟩
  rw [powerOfTwo, shiftToOdd_zero] at hpower
  contradiction

/-- One passes for a frequency and is programmed as 2. -/
theorem not_setsRate_one (s : Kernel) : ¬ SetsRate s 1 := by
  rintro ⟨-, next, hwrite, hprograms⟩
  have hnot : ¬ IsRtcFrequency 1 := fun h => absurd h.2.1 (by decide)
  have hone : powerOfTwo 1 = some true := by decide
  obtain ⟨next', hwrite', hregister⟩ := registerA_rtcWrite (s := s) hone
  obtain rfl := Option.some.inj (hwrite.symm.trans hwrite')
  have hrate := hprograms.invalid hnot
  rw [hregister, (registerA_nibbles _ _).2] at hrate
  exact absurd hrate (by decide)

/-- `powerOfTwo` and `rtc_write` work for every word but zero, on which they do
not return, and one, which is programmed as 2. -/
theorem setsRate_iff (s : Kernel) (value : BitVec 32) :
    SetsRate s value ↔ value ≠ 0 ∧ value ≠ 1 := by
  constructor
  · intro hsets
    constructor
    · rintro rfl
      exact not_setsRate_zero s hsets
    · rintro rfl
      exact not_setsRate_one s hsets
  · rintro ⟨hzero, hone⟩
    obtain ⟨answer, hpower, hanswer⟩ := powerOfTwo_iff hzero
    obtain ⟨next, hwrite, hregister⟩ := registerA_rtcWrite (s := s) hpower
    obtain ⟨hvalid, hinvalid⟩ := frequency_rateOf hanswer
    refine ⟨⟨answer, hpower, hanswer⟩, next, hwrite, ?_⟩
    obtain ⟨hhigh, hlow⟩ := registerA_nibbles s.rtcRegisterA
      (~~~(BitVec.ofNat 8 (rateOf answer value)))
    constructor
    · rw [hregister, hhigh]
    · intro hfrequency
      rw [hregister, hlow]
      exact hvalid hfrequency
    · intro hno
      rw [hregister, hlow]
      exact hinvalid hno hone

/-- No number of rounds is enough for zero, and one is programmed as 2. -/
theorem rtcWrite_zero_and_one :
    (∀ fuel, shiftToOdd fuel 0 = none) ∧ ¬ SetsRate shellKernel 0 ∧
      ¬ SetsRate shellKernel 1 ∧
      (rtcWrite shellKernel 1).map (fun next => next.rtcRegisterA &&& 0x0F) = some 15 := by
  refine ⟨shiftToOdd_zero, not_setsRate_zero shellKernel, not_setsRate_one shellKernel, ?_⟩
  decide +kernel

end VirtualOS
