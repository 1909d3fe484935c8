import VirtualOS.NumberStrings
import Mathlib.Tactic

/-!
# Numerals in the kernel and in the user library

The user library has its own copy of `itoa`, with a reversal that leaves short
strings alone.  Both copies write the positional numeral: evaluating the string
that they leave gives the number back.
-/

namespace VirtualOS

open MemorySlices

/-! ## The source -/

/-- The loop of `ece391_strlen`, which moves the pointer and the length. -/
def ece391StrlenLoop (memory : ℕ → UInt8) : ℕ → ℕ → ℕ → Option ℕ
  | 0, _, _ => none
  | size + 1, s, len =>
      if 0 ≠ memory s then ece391StrlenLoop memory size (s + 1) (len + 1) else some len

def ece391Strlen (memory : ℕ → UInt8) (s size : ℕ) : Option ℕ :=
  ece391StrlenLoop memory size s 0

/-- `ece391_strrev`, whose loop is that of `strrev`. -/
def ece391Strrev (memory : ℕ → UInt8) (s size : ℕ) : Option (ℕ → UInt8) :=
  (ece391Strlen memory s size).bind fun length =>
    if (length : ℤ) - 1 ≤ 0 then some memory
    else strrevLoop s (length + 1) memory 0 (length - 1)

/-- `ece391_itoa`, whose loop is that of `itoa`. -/
def ece391Itoa (value : BitVec 32) (memory : ℕ → UInt8) (buf radix size : ℕ) :
    Option (ℕ → UInt8) :=
  if value = 0 then some (Function.update (Function.update memory buf 0x30) (buf + 1) 0)
  else
    (itoaLoop radix 33 memory buf value.toNat).bind fun result =>
      ece391Strrev (Function.update result.1 result.2 0) buf size

/-! ## The two copies agree -/

theorem ece391StrlenLoop_eq (memory : ℕ → UInt8) (s size len : ℕ) :
    ece391StrlenLoop memory size s len =
      (MemorySlices.strlen memory s size).map fun rest => len + rest := by
  induction size generalizing s len with
  | zero => rfl
  | succ size ih =>
      rw [ece391StrlenLoop, MemorySlices.strlen]
      by_cases hend : memory s = 0
      · rw [if_neg (not_not.mpr hend.symm), if_pos hend]
        rfl
      · rw [if_pos (Ne.symm hend), if_neg hend, ih, Option.map_map]
        congr 1
        funext rest
        simp only [Function.comp]
        omega

theorem ece391Strlen_eq (memory : ℕ → UInt8) (s size : ℕ) :
    ece391Strlen memory s size = MemorySlices.strlen memory s size := by
  rw [ece391Strlen, ece391StrlenLoop_eq]
  simp

/-- The loop does nothing to a string of at most one byte. -/
theorem strrevLoop_short {length : ℕ} (hlength : length ≤ 1) (s : ℕ) (memory : ℕ → UInt8) :
    strrevLoop s (length + 1) memory 0 (length - 1) = some memory := by
  rw [strrevLoop, if_neg (by omega)]

theorem ece391Strrev_eq (memory : ℕ → UInt8) (s size : ℕ) :
    ece391Strrev memory s size = strrev memory s size := by
  rw [ece391Strrev, strrev, ece391Strlen_eq]
  congr 1
  funext length
  by_cases hshort : length ≤ 1
  · rw [if_pos (by omega), strrevLoop_short hshort]
  · rw [if_neg (by omega)]

theorem ece391Itoa_eq (value : BitVec 32) (memory : ℕ → UInt8) (buf radix size : ℕ) :
    ece391Itoa value memory buf radix size = itoa value memory buf radix size := by
  simp only [ece391Itoa, itoa, ece391Strrev_eq]

/-! ## Evaluation -/

/-- The value of a digit; upper case letters follow the ten figures. -/
def digitValue (c : UInt8) : Option ℕ :=
  if 0x30 ≤ c ∧ c ≤ 0x39 then some (c.toNat - 0x30)
  else if 0x41 ≤ c ∧ c ≤ 0x5A then some (c.toNat - 0x41 + 10)
  else none

def evaluate (radix : ℕ) (text : List UInt8) : Option ℕ :=
  text.foldlM (fun value c => (digitValue c).map fun digit => value * radix + digit) 0

/-- The string is the positional numeral of the value. -/
structure IsNumeral (radix value : ℕ) (text : List UInt8) : Prop where
  length_pos : 0 < text.length
  length_le : text.length ≤ 32
  digits : ∀ c ∈ text, ∃ digit < radix, digitValue c = some digit
  leading : text.head? = some 0x30 → value = 0 ∧ text.length = 1
  evaluates : evaluate radix text = some value

theorem digitValue_digitByte {digit : ℕ} (hdigit : digit < 36) :
    digitValue (digitByte digit) = some digit := by
  interval_cases digit <;> decide

theorem evaluate_concat (radix : ℕ) (text : List UInt8) (c : UInt8) :
    evaluate radix (text ++ [c]) =
      (evaluate radix text).bind fun value =>
        (digitValue c).map fun digit => value * radix + digit := by
  rw [evaluate, List.foldlM_append]
  cases hvalue : evaluate radix text with
  | none =>
      rw [evaluate] at hvalue
      rw [hvalue]
      rfl
  | some value =>
      rw [evaluate] at hvalue
      rw [hvalue]
      simp

theorem evaluate_digits (radix : ℕ) {digits : List ℕ} (hdigits : ∀ digit ∈ digits, digit < 36) :
    evaluate radix (digits.map digitByte).reverse = some (Nat.ofDigits radix digits) := by
  induction digits with
  | nil => rfl
  | cons digit digits ih =>
      obtain ⟨hdigit, hrest⟩ := List.forall_mem_cons.mp hdigits
      rw [List.map_cons, List.reverse_cons, evaluate_concat, ih hrest, Option.bind_some,
        digitValue_digitByte hdigit, Option.map_some, Nat.ofDigits_cons]
      congr 1
      ring

theorem numeral_leading {radix value : ℕ} (hradix : 1 < radix) (hmax : radix ≤ 36)
    (hvalue : value ≠ 0) : (numeral radix value).head? ≠ some 0x30 := by
  have hne : Nat.digits radix value ≠ [] := Nat.digits_ne_nil_iff_ne_zero.mpr hvalue
  rw [numeral, if_neg hvalue, List.head?_reverse, List.getLast?_map,
    List.getLast?_eq_getLast_of_ne_nil hne, Option.map_some]
  intro hzero
  have hlast : (Nat.digits radix value).getLast hne < 36 :=
    (Nat.digits_lt_base hradix (List.getLast_mem hne)).trans_le hmax
  have hdigit := digitValue_digitByte hlast
  rw [Option.some.inj hzero] at hdigit
  exact Nat.getLast_digit_ne_zero radix hvalue (Option.some.inj hdigit).symm

theorem numeral_isNumeral {radix value : ℕ} (hradix : 1 < radix) (hmax : radix ≤ 36)
    (hvalue : value < 2 ^ 32) : IsNumeral radix value (numeral radix value) := by
  have hword : value < radix ^ 32 := hvalue.trans_le (Nat.pow_le_pow_left hradix 32)
  refine ⟨numeral_length_pos radix value, numeral_length_le hradix hword (by decide), ?_, ?_, ?_⟩
  · intro c hc
    unfold numeral at hc
    split at hc
    · rw [List.mem_singleton.mp hc]
      exact ⟨0, by omega, rfl⟩
    · rw [List.mem_reverse] at hc
      obtain ⟨digit, hdigit, rfl⟩ := List.mem_map.mp hc
      have hlt := Nat.digits_lt_base hradix hdigit
      exact ⟨digit, hlt, digitValue_digitByte (hlt.trans_le hmax)⟩
  · intro hhead
    by_cases hzero : value = 0
    · subst hzero
      exact ⟨rfl, rfl⟩
    · exact absurd hhead (numeral_leading hradix hmax hzero)
  · unfold numeral
    split
    · rename_i hzero
      have hdigit : ∀ digit ∈ [0], digit < 36 := by simp
      rw [hzero]
      exact (evaluate_digits radix hdigit).trans (by simp)
    · rw [evaluate_digits radix fun digit hdigit =>
        (Nat.digits_lt_base hradix hdigit).trans_le hmax, Nat.ofDigits_digits]

/-! ## Both copies -/

/-- The memory differs from the one before in the string and its terminator only. -/
structure WritesString (before after : ℕ → UInt8) (buf : ℕ) (text : List UInt8) : Prop where
  holds : HoldsString after buf text
  outside : ∀ k, k < buf ∨ buf + text.length < k → after k = before k

/-- Both copies of `itoa` return and write the positional numeral of the value, whatever
the memory, to every buffer with room for it. -/
theorem itoa_writes_numeral (value : BitVec 32) {radix : ℕ} (hradix : 2 ≤ radix)
    (hmax : radix ≤ 36) :
    ∃ text, IsNumeral radix value.toNat text ∧
      ∀ memory buf size, text.length < size →
        (∃ written, itoa value memory buf radix size = some written ∧
          WritesString memory written buf text) ∧
        ∃ written, ece391Itoa value memory buf radix size = some written ∧
          WritesString memory written buf text := by
  refine ⟨numeral radix value.toNat, numeral_isNumeral hradix hmax value.isLt,
    fun memory buf size hsize => ?_⟩
  obtain ⟨written, hitoa, hholds, hother⟩ := itoa_holds value memory buf hradix hmax hsize
  constructor
  · exact ⟨written, hitoa, hholds, hother⟩
  · refine ⟨written, ?_, hholds, hother⟩
    rw [ece391Itoa_eq]
    exact hitoa

theorem itoa_writes_numeral_hex :
    ∃ text, IsNumeral 16 (0xBEEF : BitVec 32).toNat text ∧
      ∀ memory buf size, text.length < size →
        (∃ written, itoa 0xBEEF memory buf 16 size = some written ∧
          WritesString memory written buf text) ∧
        ∃ written, ece391Itoa 0xBEEF memory buf 16 size = some written ∧
          WritesString memory written buf text :=
  itoa_writes_numeral 0xBEEF (by decide) (by decide)

end VirtualOS
