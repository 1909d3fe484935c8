import Mathlib.Tactic

/-!
# Two-level page walks

The translation of a 32-bit address through a page directory and a page table.
A directory entry with bit 7 maps 4MB at once; any other present entry names the
frame of a table of 4KB pages.  Bit 0 of an entry tells that it is present and
bit 2 that user code may pass; user code passes a walk when it passes every
entry on it.
-/

namespace PageWalk

/-- Where a walk ends: the physical address, and whether user code may use it. -/
structure Translation where
  physical : BitVec 32
  user : Bool
  deriving DecidableEq

def Present (entry : BitVec 32) : Prop := entry.getLsbD 0 = true

def Large (entry : BitVec 32) : Prop := entry.getLsbD 7 = true

instance (entry : BitVec 32) : Decidable (Present entry) :=
  inferInstanceAs (Decidable (entry.getLsbD 0 = true))

instance (entry : BitVec 32) : Decidable (Large entry) :=
  inferInstanceAs (Decidable (entry.getLsbD 7 = true))

def frameOf (entry : BitVec 32) : BitVec 32 := entry &&& 0xFFFFF000

theorem frameOf_or (entry flags : BitVec 32) :
    frameOf (entry ||| flags) = frameOf entry ||| frameOf flags :=
  BitVec.and_or_distrib_right

theorem frameOf_toNat (address : BitVec 32) :
    (frameOf address).toNat = address.toNat / 2 ^ 12 * 2 ^ 12 := by
  have hmask : (0xFFFFF000 : BitVec 32) = BitVec.allOnes 32 <<< (12 : ℕ) := by decide
  have hlt := address.isLt
  rw [frameOf, hmask, ← BitVec.shiftLeft_ushiftRight, BitVec.toNat_shiftLeft,
    BitVec.toNat_ushiftRight, Nat.shiftLeft_eq, Nat.shiftRight_eq_div_pow]
  omega

theorem getLsbD_of_aligned {address : BitVec 32} (haligned : frameOf address = address)
    {i : ℕ} (hi : i < 12) : address.getLsbD i = false := by
  rw [← haligned, frameOf, BitVec.getLsbD_and]
  have hmask : (0xFFFFF000 : BitVec 32).getLsbD i = false := by
    interval_cases i <;> rfl
  rw [hmask, Bool.and_false]

/-- An entry that names a frame and carries flags below bit 12. -/
theorem tableEntry_spec (flags : BitVec 32) {address : BitVec 32}
    (haligned : frameOf address = address)
    (hpresent : flags.getLsbD 0 = true) (hsmall : flags.getLsbD 7 = false)
    (hflags : frameOf flags = 0) :
    Present (address ||| flags) ∧ ¬ Large (address ||| flags) ∧
      frameOf (address ||| flags) = address ∧
      (address ||| flags).getLsbD 2 = flags.getLsbD 2 := by
  refine ⟨?_, ?_, ?_, ?_⟩
  · rw [Present, BitVec.getLsbD_or, hpresent, Bool.or_true]
  · rw [Large, BitVec.getLsbD_or, getLsbD_of_aligned haligned (by omega), hsmall]
    exact Bool.false_ne_true
  · rw [frameOf_or, haligned, hflags]
    exact BitVec.or_zero
  · rw [BitVec.getLsbD_or, getLsbD_of_aligned haligned (by omega), Bool.false_or]

/-- The walk from a directory, when `frame address` are the words of the frame at
`address`. -/
def walk (directory : ℕ → BitVec 32) (frame : BitVec 32 → ℕ → BitVec 32)
    (address : BitVec 32) : Option Translation :=
  let pde := directory (address.toNat / 2 ^ 22)
  if ¬ Present pde then none
  else if Large pde then
    some ⟨(pde &&& 0xFFC00000) + (address &&& 0x3FFFFF), pde.getLsbD 2⟩
  else
    let pte := frame (frameOf pde) (address.toNat / 2 ^ 12 % 2 ^ 10)
    if ¬ Present pte then none
    else some ⟨frameOf pte + (address &&& 0xFFF), pde.getLsbD 2 && pte.getLsbD 2⟩

variable {directory : ℕ → BitVec 32} {frame : BitVec 32 → ℕ → BitVec 32}
  {address : BitVec 32}

theorem walk_of_not_present (hpde : ¬ Present (directory (address.toNat / 2 ^ 22))) :
    walk directory frame address = none := by
  rw [walk, if_pos hpde]

theorem walk_of_large {pde : BitVec 32} (hpde : directory (address.toNat / 2 ^ 22) = pde)
    (hpresent : Present pde) (hlarge : Large pde) :
    walk directory frame address =
      some ⟨(pde &&& 0xFFC00000) + (address &&& 0x3FFFFF), pde.getLsbD 2⟩ := by
  subst hpde
  rw [walk, if_neg (not_not.mpr hpresent), if_pos hlarge]

theorem walk_of_table {pde pte : BitVec 32}
    (hpde : directory (address.toNat / 2 ^ 22) = pde)
    (hpresent : Present pde) (hsmall : ¬ Large pde)
    (hpte : frame (frameOf pde) (address.toNat / 2 ^ 12 % 2 ^ 10) = pte) :
    walk directory frame address =
      if ¬ Present pte then none
      else some ⟨frameOf pte + (address &&& 0xFFF), pde.getLsbD 2 && pte.getLsbD 2⟩ := by
  subst hpde hpte
  rw [walk, if_neg (not_not.mpr hpresent), if_neg hsmall]

/-- The offset in a page of `2 ^ k` bytes is the address less the page's start. -/
theorem and_mask_toNat (mask : BitVec 32) {k : ℕ} (hmask : mask.toNat = 2 ^ k - 1) :
    (address &&& mask).toNat = address.toNat % 2 ^ k := by
  rw [BitVec.toNat_and, hmask, Nat.and_two_pow_sub_one_eq_mod]

theorem base_add_offset {base mask : BitVec 32} {k : ℕ} (hmask : mask.toNat = 2 ^ k - 1)
    (hpage : address.toNat / 2 ^ k * 2 ^ k = base.toNat) :
    base + (address &&& mask) = address := by
  apply BitVec.eq_of_toNat_eq
  have hsplit := Nat.div_add_mod address.toNat (2 ^ k)
  have hlt := address.isLt
  rw [BitVec.toNat_add, and_mask_toNat mask hmask, ← hpage, mul_comm, hsplit]
  exact Nat.mod_eq_of_lt hlt

end PageWalk
