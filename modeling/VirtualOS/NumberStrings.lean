import VirtualOS.MemorySlices
import VirtualOS.ScreenOutput
import Mathlib.Data.List.Induction
import Mathlib.Data.Nat.Digits.Lemmas
import Mathlib.Tactic

/-!
# Numbers as strings

`itoa` writes the digits of a number from the lowest one on and then reverses
the string in place.
-/

namespace VirtualOS

open MemorySlices

/-! ## The source -/

def lookup : List UInt8 := ascii "0123456789ABCDEFGHIJKLMNOPQRSTUVWXYZ"

/-- The loop of `strrev`. -/
def strrevLoop (s : ℕ) : ℕ → (ℕ → UInt8) → ℕ → ℕ → Option (ℕ → UInt8)
  | 0, _, _, _ => none
  | fuel + 1, memory, beg, last =>
      if beg < last then
        let tmp := memory (s + last)
        let swapped := Function.update memory (s + last) (memory (s + beg))
        strrevLoop s fuel (Function.update swapped (s + beg) tmp) (beg + 1) (last - 1)
      else some memory

/-- `strrev` of a string in a buffer of which `size` bytes are left. -/
def strrev (memory : ℕ → UInt8) (s size : ℕ) : Option (ℕ → UInt8) :=
  (MemorySlices.strlen memory s size).bind fun length =>
    strrevLoop s (length + 1) memory 0 (length - 1)

/-- The loop of `itoa`: the buffer and where the digits end in it. -/
def itoaLoop (radix : ℕ) : ℕ → (ℕ → UInt8) → ℕ → ℕ → Option ((ℕ → UInt8) × ℕ)
  | 0, _, _, _ => none
  | fuel + 1, memory, newbuf, newval =>
      if newval > 0 then
        itoaLoop radix fuel (Function.update memory newbuf (lookup.getD (newval % radix) 0))
          (newbuf + 1) (newval / radix)
      else some (memory, newbuf)

/-- `itoa` into a buffer of which `size` bytes are left from `buf` on.  A word has
at most 32 digits. -/
def itoa (value : BitVec 32) (memory : ℕ → UInt8) (buf radix size : ℕ) : Option (ℕ → UInt8) :=
  if value = 0 then some (Function.update (Function.update memory buf 0x30) (buf + 1) 0)
  else
    (itoaLoop radix 33 memory buf value.toNat).bind fun result =>
      strrev (Function.update result.1 result.2 0) buf size

/-! ## Numerals -/

def digitByte (digit : ℕ) : UInt8 := lookup.getD digit 0

/-- The numeral of a number, highest digit first. -/
def numeral (radix value : ℕ) : List UInt8 :=
  if value = 0 then [0x30] else ((Nat.digits radix value).map digitByte).reverse

theorem digitByte_ne_zero {digit : ℕ} (hdigit : digit < 36) : digitByte digit ≠ 0 := by
  interval_cases digit <;> decide

theorem numeral_ne_zero {radix value : ℕ} (hradix : 1 < radix) (hmax : radix ≤ 36) :
    ∀ c ∈ numeral radix value, c ≠ 0 := by
  intro c hc
  unfold numeral at hc
  split at hc
  · rw [List.mem_singleton.mp hc]
    decide
  · rw [List.mem_reverse] at hc
    obtain ⟨digit, hdigit, rfl⟩ := List.mem_map.mp hc
    exact digitByte_ne_zero ((Nat.digits_lt_base hradix hdigit).trans_le hmax)

theorem numeral_length_pos (radix value : ℕ) : 0 < (numeral radix value).length := by
  unfold numeral
  split
  · exact Nat.one_pos
  · rename_i hvalue
    rw [List.length_reverse, List.length_map, List.length_pos_iff]
    exact Nat.digits_ne_nil_iff_ne_zero.mpr hvalue

theorem numeral_length_le {radix value k : ℕ} (hradix : 1 < radix) (hvalue : value < radix ^ k)
    (hk : 0 < k) : (numeral radix value).length ≤ k := by
  unfold numeral
  split
  · exact hk
  · rw [List.length_reverse, List.length_map]
    exact (Nat.digits_length_le_iff hradix value).mpr hvalue

/-! ## Reversal in place -/

/-- Two ends of a slice are swapped and the reversal goes on between them. -/
theorem strrevLoop_spec {s fuel beg last : ℕ} {memory : ℕ → UInt8} {text : List UInt8}
    (hslice : slice memory (s + beg) text.length = text) (hlast : last + 1 = beg + text.length)
    (hfuel : text.length < fuel) :
    ∃ reversed, strrevLoop s fuel memory beg last = some reversed ∧
      slice reversed (s + beg) text.length = text.reverse ∧
      ∀ k, k < s + beg ∨ s + beg + text.length ≤ k → reversed k = memory k := by
  obtain ⟨fuel, rfl⟩ : ∃ n, fuel = n + 1 := ⟨fuel - 1, by omega⟩
  induction text using List.bidirectionalRec generalizing memory beg last fuel with
  | nil =>
      rw [List.length_nil] at hlast
      exact ⟨memory, if_neg (by omega), rfl, fun _ _ => rfl⟩
  | singleton a =>
      rw [List.length_singleton] at hlast
      exact ⟨memory, if_neg (by omega), hslice, fun _ _ => rfl⟩
  | cons_append a text b ih =>
      have hlength : (a :: (text ++ [b])).length = text.length + 2 := by simp
      rw [hlength] at hlast hfuel ⊢
      obtain ⟨hfirst, hrest⟩ := slice_eq_cons hslice
      obtain ⟨hmiddle, hend⟩ := slice_eq_append hrest
      obtain ⟨hlastByte, -⟩ := slice_eq_cons hend
      have hat : s + beg + 1 + text.length = s + last := by omega
      rw [hat] at hlastByte
      obtain ⟨fuel, rfl⟩ : ∃ n, fuel = n + 1 := ⟨fuel - 1, by omega⟩
      rw [strrevLoop, if_pos (by omega)]
      dsimp only
      rw [hfirst, hlastByte]
      have hkept : ∀ k, k ≠ s + beg → k ≠ s + last →
          Function.update (Function.update memory (s + last) a) (s + beg) b k = memory k := by
        intro k hbeg hlast
        rw [Function.update_of_ne hbeg, Function.update_of_ne hlast]
      have hmiddle' : slice (Function.update (Function.update memory (s + last) a) (s + beg) b)
          (s + (beg + 1)) text.length = text := by
        rw [← Nat.add_assoc, slice_congr fun k hle hlt => hkept k (by omega) (by omega)]
        exact hmiddle
      have hlast' : last - 1 + 1 = beg + 1 + text.length := by omega
      have hfuel' : text.length < fuel + 1 := by omega
      obtain ⟨reversed, hloop, hslice', hother⟩ := ih hmiddle' hlast' fuel hfuel'
      refine ⟨reversed, hloop, ?_, fun k hk => ?_⟩
      · have hbegByte : reversed (s + beg) = b := by
          rw [hother _ (by omega), Function.update_self]
        have hlastByte' : reversed (s + last) = a := by
          rw [hother _ (by omega), Function.update_of_ne (by omega), Function.update_self]
        rw [show text.length + 2 = text.length + 1 + 1 from rfl, slice_succ, slice_add, hbegByte]
        rw [← Nat.add_assoc] at hslice'
        rw [hslice', hat, slice_succ, hlastByte']
        simp [slice]
      · rw [hother k (by omega), hkept k (by omega) (by omega)]

/-! ## The string that is written -/

theorem itoaLoop_spec (memory : ℕ → UInt8) (newbuf : ℕ) {radix fuel newval : ℕ}
    (hradix : 1 < radix)
    (hfuel : (Nat.digits radix newval).length < fuel) :
    ∃ written, itoaLoop radix fuel memory newbuf newval =
        some (written, newbuf + (Nat.digits radix newval).length) ∧
      slice written newbuf (Nat.digits radix newval).length =
        (Nat.digits radix newval).map digitByte ∧
      ∀ k, k < newbuf ∨ newbuf + (Nat.digits radix newval).length ≤ k →
        written k = memory k := by
  induction fuel generalizing newval newbuf memory with
  | zero => exact absurd hfuel (Nat.not_lt_zero _)
  | succ fuel ih =>
      by_cases hzero : newval = 0
      · subst hzero
        rw [Nat.digits_zero]
        exact ⟨memory, if_neg (by decide), rfl, fun _ _ => rfl⟩
      · have hpos : 0 < newval := Nat.pos_of_ne_zero hzero
        rw [Nat.digits_def' hradix hpos, List.length_cons] at hfuel
        rw [Nat.digits_def' hradix hpos, List.length_cons, List.map_cons]
        have hrest : (Nat.digits radix (newval / radix)).length < fuel := by omega
        obtain ⟨written, hloop, hslice, hother⟩ :=
          ih (Function.update memory newbuf (digitByte (newval % radix))) (newbuf + 1) hrest
        refine ⟨written, ?_, ?_, fun k hk => ?_⟩
        · rw [itoaLoop, if_pos hpos]
          refine hloop.trans ?_
          rw [Nat.add_assoc, Nat.add_comm 1]
        · rw [slice_succ, hslice, hother newbuf (by omega), Function.update_self]
        · rw [hother k (by omega), Function.update_of_ne (by omega)]

theorem strrev_spec {s size : ℕ} {memory : ℕ → UInt8} {text : List UInt8}
    (hholds : HoldsString memory s text) (hpos : 0 < text.length) (hsize : text.length < size) :
    ∃ reversed, strrev memory s size = some reversed ∧ HoldsString reversed s text.reverse ∧
      ∀ k, k < s ∨ s + text.length ≤ k → reversed k = memory k := by
  have hlast : text.length - 1 + 1 = 0 + text.length := by omega
  obtain ⟨reversed, hloop, hslice, hother⟩ :=
    strrevLoop_spec (s := s) hholds.bytes hlast (Nat.lt_succ_self _)
  rw [Nat.add_zero] at hslice hother
  refine ⟨reversed, ?_, ⟨?_, ?_, ?_⟩, hother⟩
  · rw [strrev, hholds.strlen hsize, Option.bind_some]
    exact hloop
  · rw [List.length_reverse]
    exact hslice
  · rw [List.length_reverse, hother _ (.inr (le_refl _))]
    exact hholds.ended
  · intro c hc
    exact hholds.ne_zero c (List.mem_reverse.mp hc)

theorem itoa_holds (value : BitVec 32) (memory : ℕ → UInt8) (buf : ℕ) {radix size : ℕ}
    (hradix : 1 < radix) (hmax : radix ≤ 36)
    (hsize : (numeral radix value.toNat).length < size) :
    ∃ written, itoa value memory buf radix size = some written ∧
      HoldsString written buf (numeral radix value.toNat) ∧
      ∀ k, k < buf ∨ buf + (numeral radix value.toNat).length < k → written k = memory k := by
  by_cases hzero : value = 0
  · subst hzero
    have hnumeral : numeral radix (0 : BitVec 32).toNat = [0x30] := rfl
    rw [hnumeral]
    refine ⟨_, if_pos rfl, ⟨?_, Function.update_self _ _ _, by simp⟩, fun k hk => ?_⟩
    · simp [slice]
    · rw [List.length_singleton] at hk
      rw [Function.update_of_ne (by omega), Function.update_of_ne (by omega)]
  · have hvalue : value.toNat ≠ 0 := by
      intro h
      exact hzero (BitVec.eq_of_toNat_eq h)
    have hreverse : numeral radix value.toNat =
        ((Nat.digits radix value.toNat).map digitByte).reverse := if_neg hvalue
    have hword : value.toNat < radix ^ 32 :=
      value.isLt.trans_le (Nat.pow_le_pow_left hradix 32)
    have hdigits : (Nat.digits radix value.toNat).length < 33 :=
      Nat.lt_succ_of_le ((Nat.digits_length_le_iff hradix _).mpr hword)
    obtain ⟨written, hloop, hslice, hother⟩ := itoaLoop_spec memory buf hradix hdigits
    set digits := Nat.digits radix value.toNat
    have hstring : HoldsString (Function.update written (buf + digits.length) 0) buf
        (digits.map digitByte) := by
      refine ⟨?_, ?_, ?_⟩
      · rw [List.length_map, slice_congr fun k _ hk => Function.update_of_ne (by omega) _ _]
        exact hslice
      · rw [List.length_map, Function.update_self]
      · intro c hc
        apply numeral_ne_zero hradix hmax
        rw [hreverse]
        exact List.mem_reverse.mpr hc
    have hpos := numeral_length_pos radix value.toNat
    rw [hreverse, List.length_reverse] at hsize hpos
    obtain ⟨reversed, hrev, hholds, hbefore⟩ := strrev_spec hstring hpos hsize
    refine ⟨reversed, ?_, hreverse ▸ hholds, fun k hk => ?_⟩
    · rw [itoa, if_neg hzero, hloop, Option.bind_some]
      exact hrev
    · rw [hreverse, List.length_reverse, List.length_map] at hk
      rw [hbefore k (by rw [List.length_map]; omega), Function.update_of_ne (by omega),
        hother k (by omega)]

end VirtualOS
