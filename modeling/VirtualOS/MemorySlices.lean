import Mathlib.Tactic

/-!
# Slices of memory and strings

Memory is a function from addresses to bytes, and a slice of it is a list.  A
string lies in memory when its bytes are a slice, none of them is zero and a
zero follows them.  The loops over strings are those of C; each of them is
given the number of bytes that it may look at.
-/

namespace MemorySlices

variable {memory : ℕ → UInt8} {start : ℕ}

/-! ## Slices -/

def slice (memory : ℕ → UInt8) (start count : ℕ) : List UInt8 :=
  (List.range count).map fun k => memory (start + k)

def store (memory : ℕ → UInt8) (start : ℕ) : List UInt8 → ℕ → UInt8
  | [] => memory
  | byte :: rest => Function.update (store memory (start + 1) rest) start byte

@[simp] theorem length_slice (memory : ℕ → UInt8) (start count : ℕ) :
    (slice memory start count).length = count := by
  simp [slice]

theorem slice_succ (memory : ℕ → UInt8) (start count : ℕ) :
    slice memory start (count + 1) = memory start :: slice memory (start + 1) count := by
  rw [slice, List.range_succ_eq_map, List.map_cons, List.map_map]
  congr 1
  apply List.map_congr_left
  intro k _
  simp only [Function.comp, Nat.succ_eq_add_one]
  congr 1
  omega

theorem slice_add (memory : ℕ → UInt8) (start m n : ℕ) :
    slice memory start (m + n) = slice memory start m ++ slice memory (start + m) n := by
  induction m generalizing start with
  | zero => simp [slice]
  | succ m ih =>
      rw [show m + 1 + n = m + n + 1 by omega, slice_succ, slice_succ, ih, List.cons_append,
        show start + 1 + m = start + (m + 1) by omega]

theorem slice_congr {other : ℕ → UInt8} {count : ℕ}
    (heq : ∀ k, start ≤ k → k < start + count → other k = memory k) :
    slice other start count = slice memory start count := by
  apply List.map_congr_left
  intro k hk
  have hlt := List.mem_range.mp hk
  exact heq _ (by omega) (by omega)

theorem slice_eq_append {count : ℕ} {first second : List UInt8}
    (heq : slice memory start count = first ++ second) :
    slice memory start first.length = first ∧
      slice memory (start + first.length) second.length = second := by
  have hcount := congrArg List.length heq
  rw [length_slice, List.length_append] at hcount
  rw [hcount, slice_add] at heq
  exact List.append_inj heq (by simp)

theorem slice_eq_cons {count : ℕ} {first : UInt8} {rest : List UInt8}
    (heq : slice memory start count = first :: rest) :
    memory start = first ∧ slice memory (start + 1) rest.length = rest := by
  have hcount := congrArg List.length heq
  rw [length_slice, List.length_cons] at hcount
  rw [hcount, slice_succ] at heq
  exact List.cons.inj heq

theorem store_of_not_mem {bytes : List UInt8} {k : ℕ}
    (hk : k < start ∨ start + bytes.length ≤ k) : store memory start bytes k = memory k := by
  induction bytes generalizing start with
  | nil => rfl
  | cons byte rest ih =>
      rw [List.length_cons] at hk
      rw [store, Function.update_of_ne (by omega)]
      exact ih (by omega)

theorem slice_store (memory : ℕ → UInt8) (start : ℕ) (bytes : List UInt8) :
    slice (store memory start bytes) start bytes.length = bytes := by
  induction bytes generalizing start with
  | nil => rfl
  | cons byte rest ih =>
      rw [List.length_cons, slice_succ, store, Function.update_self]
      have hrest : slice (Function.update (store memory (start + 1) rest) start byte) (start + 1)
          rest.length = slice (store memory (start + 1) rest) (start + 1) rest.length :=
        slice_congr fun k hle _ => Function.update_of_ne (by omega) _ _
      rw [hrest, ih]

/-! ## Strings -/

/-- `text` lies at `start` as a string. -/
structure HoldsString (memory : ℕ → UInt8) (start : ℕ) (text : List UInt8) : Prop where
  bytes : slice memory start text.length = text
  ended : memory (start + text.length) = 0
  ne_zero : ∀ byte ∈ text, byte ≠ 0

/-- Memory with a string at address 0 and zeros behind it. -/
def stringBytes (text : List UInt8) (k : ℕ) : UInt8 := text.getD k 0

theorem holdsString_stringBytes {text : List UInt8} (htext : ∀ byte ∈ text, byte ≠ 0) :
    HoldsString (stringBytes text) 0 text := by
  refine ⟨?_, ?_, htext⟩
  · apply List.ext_getElem (length_slice _ _ _)
    intro k hk hk'
    simp [slice, stringBytes, List.getElem?_eq_getElem hk']
  · simp [stringBytes]

theorem HoldsString.tail {byte : UInt8} {rest : List UInt8}
    (hholds : HoldsString memory start (byte :: rest)) :
    memory start = byte ∧ byte ≠ 0 ∧ HoldsString memory (start + 1) rest := by
  obtain ⟨hfirst, hrest⟩ := slice_eq_cons hholds.bytes
  have hended := hholds.ended
  rw [List.length_cons, ← Nat.add_assoc, Nat.add_right_comm] at hended
  exact ⟨hfirst, hholds.ne_zero byte List.mem_cons_self, hrest, hended,
    fun b hb => hholds.ne_zero b (List.mem_cons_of_mem byte hb)⟩

theorem HoldsString.drop {text : List UInt8} (hholds : HoldsString memory start text) {k : ℕ}
    (hk : k ≤ text.length) : HoldsString memory (start + k) (text.drop k) := by
  induction k generalizing start text with
  | zero => exact hholds
  | succ k ih =>
      cases text with
      | nil => exact absurd hk (Nat.not_succ_le_zero k)
      | cons byte rest =>
          have hrest := ih hholds.tail.2.2 (Nat.le_of_succ_le_succ hk)
          rw [Nat.add_assoc, Nat.add_comm 1 k] at hrest
          exact hrest

/-- `strlen` of the string at `start`. -/
def strlen (memory : ℕ → UInt8) (start : ℕ) : ℕ → Option ℕ
  | 0 => none
  | count + 1 =>
      if memory start = 0 then some 0
      else (strlen memory (start + 1) count).map (· + 1)

theorem HoldsString.strlen {text : List UInt8} (hholds : HoldsString memory start text)
    {count : ℕ} (hcount : text.length < count) :
    strlen memory start count = some text.length := by
  induction text generalizing start count with
  | nil =>
      obtain ⟨count, rfl⟩ : ∃ n, count = n + 1 := ⟨count - 1, by omega⟩
      exact if_pos hholds.ended
  | cons byte rest ih =>
      obtain ⟨hfirst, hbyte, hrest⟩ := hholds.tail
      rw [List.length_cons] at hcount
      obtain ⟨count, rfl⟩ : ∃ n, count = n + 1 := ⟨count - 1, by omega⟩
      rw [MemorySlices.strlen, hfirst, if_neg hbyte, ih hrest (by omega)]
      rfl

/-- `strcpy` of the string at `src` to `dst`. -/
def strcpy (memory : ℕ → UInt8) (dst src : ℕ) : ℕ → Option (ℕ → UInt8)
  | 0 => none
  | count + 1 =>
      if memory src = 0 then some (Function.update memory dst 0)
      else strcpy (Function.update memory dst (memory src)) (dst + 1) (src + 1) count

/-- A copy towards lower addresses may overlap the string. -/
theorem HoldsString.strcpy {dst : ℕ} {text : List UInt8} (hholds : HoldsString memory start text)
    (hdst : dst < start) {count : ℕ} (hcount : text.length < count) :
    ∃ copied, strcpy memory dst start count = some copied ∧
      slice copied dst text.length = text ∧
      ∀ k, k < dst ∨ dst + text.length < k → copied k = memory k := by
  induction text generalizing memory start dst count with
  | nil =>
      obtain ⟨count, rfl⟩ : ∃ n, count = n + 1 := ⟨count - 1, by omega⟩
      refine ⟨_, if_pos hholds.ended, rfl, fun k hk => ?_⟩
      rw [List.length_nil] at hk
      exact Function.update_of_ne (by omega) _ _
  | cons byte rest ih =>
      obtain ⟨hfirst, hbyte, hrest⟩ := hholds.tail
      rw [List.length_cons] at hcount ⊢
      obtain ⟨count, rfl⟩ : ∃ n, count = n + 1 := ⟨count - 1, by omega⟩
      have hkept : ∀ k, dst < k → Function.update memory dst byte k = memory k :=
        fun k hk => Function.update_of_ne (by omega) _ _
      have hnext : HoldsString (Function.update memory dst byte) (start + 1) rest := by
        refine ⟨?_, ?_, hrest.ne_zero⟩
        · have hsame : slice (Function.update memory dst byte) (start + 1) rest.length =
              slice memory (start + 1) rest.length :=
            slice_congr fun k hle _ => hkept k (by omega)
          exact hsame.trans hrest.bytes
        · rw [hkept _ (by omega)]
          exact hrest.ended
      have hbelow : dst + 1 < start + 1 := by omega
      have hroom : rest.length < count := by omega
      obtain ⟨copied, hcopy, hslice, hother⟩ := ih hnext hbelow hroom
      refine ⟨copied, ?_, ?_, fun k hk => ?_⟩
      · rw [MemorySlices.strcpy, hfirst, if_neg hbyte, hcopy]
      · rw [slice_succ, hslice, hother dst (by omega), Function.update_self]
      · rw [hother k (by omega)]
        exact Function.update_of_ne (by omega) _ _

/-- `strncmp` of the strings at `i` and `j`: the difference of the first bytes that
differ, among `n` bytes at most. -/
def strncmp (first second : ℕ → UInt8) (i j : ℕ) : ℕ → ℤ
  | 0 => 0
  | n + 1 =>
      if first i = second j then
        if first i = 0 ∨ n = 0 then 0 else strncmp first second (i + 1) (j + 1) n
      else ((first i).toNat : ℤ) - (second j).toNat

theorem strncmp_of_ne {first second : ℕ → UInt8} {i j n : ℕ} (hne : first i ≠ second j) :
    strncmp first second i j (n + 1) ≠ 0 := by
  rw [strncmp, if_neg hne]
  intro hzero
  exact hne (UInt8.toNat_inj.mp (by omega))

/-- With the length of a string as bound the comparison asks whether the string begins
the other one. -/
theorem HoldsString.strncmp_eq_zero_iff {first second : ℕ → UInt8} {i j : ℕ}
    {text pattern : List UInt8} (hfirst : HoldsString first i text)
    (hsecond : HoldsString second j pattern) :
    strncmp first second i j pattern.length = 0 ↔ pattern <+: text := by
  induction pattern generalizing i j text with
  | nil => simp [strncmp]
  | cons c pattern ih =>
      obtain ⟨hc, hnonzero, hpattern⟩ := hsecond.tail
      rw [List.length_cons]
      cases text with
      | nil =>
          have hended : first i = 0 := hfirst.ended
          have hne : first i ≠ second j := by
            rw [hended, hc]
            exact hnonzero.symm
          simp [strncmp_of_ne hne]
      | cons d text =>
          obtain ⟨hd, -, htext⟩ := hfirst.tail
          rw [List.cons_prefix_cons]
          by_cases hcd : c = d
          · subst hcd
            rw [strncmp, hd, hc, if_pos rfl]
            by_cases hlast : pattern.length = 0
            · rw [if_pos (.inr hlast), List.length_eq_zero_iff.mp hlast]
              simp
            · rw [if_neg (by simp [hnonzero, hlast]), ih htext hpattern]
              simp
          · have hne : first i ≠ second j := by
              rw [hc, hd]
              exact fun h => hcd h.symm
            simp [strncmp_of_ne hne, hcd]

end MemorySlices
