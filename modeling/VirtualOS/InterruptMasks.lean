import VirtualOS.DeviceCalls
import Mathlib.Tactic

/-!
# The masks of the interrupt controllers

`enable_irq` clears the mask bit of an interrupt, and `disable_irq` should set
it.  The latter combines the mask with the bit by a conjunction: it sets nothing
and clears the bits of all other interrupts of the controller.  This file
computes the masks after every sequence of calls and states when they are the
intended ones.
-/

namespace VirtualOS

/-! ## Calls -/

inductive PicCall where
  | enable (irqNum : Fin 16)
  | disable (irqNum : Fin 16)
  deriving DecidableEq

def PicCall.irqNum : PicCall → Fin 16
  | .enable irqNum => irqNum
  | .disable irqNum => irqNum

def picStep (s : Kernel) : PicCall → Kernel
  | .enable irqNum => enableIrq s irqNum
  | .disable irqNum => disableIrq s irqNum

/-- The controllers after `i8259_init`, from the initial values of the masks. -/
def picBoot (s : Kernel) : Kernel :=
  i8259Init { s with masterMask := 0xFF, slaveMask := 0xFF }

/-- The controllers after `i8259_init` and a sequence of calls. -/
def picRun (s : Kernel) (calls : List PicCall) : Kernel := calls.foldl picStep (picBoot s)

/-! ## Bits -/

namespace Kernel

/-- The bit of an interrupt in `master_mask` or `slave_mask`. -/
def maskBit (s : Kernel) (irqNum : Fin 16) : Bool :=
  if irqNum.val < 8 then s.masterMask.getLsbD irqNum else s.slaveMask.getLsbD (irqNum - 8)

def dataBit (s : Kernel) (irqNum : Fin 16) : Bool :=
  if irqNum.val < 8 then s.masterData.getLsbD irqNum else s.slaveData.getLsbD (irqNum - 8)

end Kernel

def SamePic (irqNum other : Fin 16) : Prop := irqNum.val < 8 ↔ other.val < 8

instance (irqNum other : Fin 16) : Decidable (SamePic irqNum other) := by
  unfold SamePic
  infer_instance

theorem getLsbD_bit (i : ℕ) {j : ℕ} (hj : j < 8) :
    ((1 : BitVec 8) <<< i).getLsbD j = decide (j = i) := by
  by_cases hlt : j < i
  · simp [hj, hlt, hlt.ne]
  · by_cases hij : j = i
    · subst hij
      simp [hj]
    · have hpos : j - i ≠ 0 := by omega
      simp [hj, hij, hlt, hpos]

theorem getLsbD_and_not_bit (mask : BitVec 8) (i j : ℕ) :
    (mask &&& ~~~((1 : BitVec 8) <<< i)).getLsbD j = (mask.getLsbD j && decide (j ≠ i)) := by
  by_cases hj : j < 8
  · rw [BitVec.getLsbD_and, BitVec.getLsbD_not, getLsbD_bit i hj]
    simp [hj]
  · simp [BitVec.getLsbD_of_ge _ _ (not_lt.mp hj)]

theorem getLsbD_and_bit (mask : BitVec 8) (i j : ℕ) :
    (mask &&& (1 : BitVec 8) <<< i).getLsbD j = (mask.getLsbD j && decide (j = i)) := by
  by_cases hj : j < 8
  · rw [BitVec.getLsbD_and, getLsbD_bit i hj]
  · simp [BitVec.getLsbD_of_ge _ _ (not_lt.mp hj)]

theorem sub_eight_eq_iff {irqNum other : Fin 16} (hirq : ¬ irqNum.val < 8)
    (hother : ¬ other.val < 8) : other.val - 8 = irqNum.val - 8 ↔ other = irqNum := by
  rw [Fin.ext_iff]
  omega

theorem maskBit_enable (s : Kernel) (irqNum other : Fin 16) :
    (enableIrq s irqNum).maskBit other = (s.maskBit other && decide (other ≠ irqNum)) := by
  unfold enableIrq Kernel.maskBit
  by_cases hirq : irqNum.val < 8
  · by_cases hother : other.val < 8
    · simp only [hirq, hother, if_true]
      rw [getLsbD_and_not_bit]
      simp [Fin.ext_iff]
    · have hne : other ≠ irqNum := fun h => hother (h ▸ hirq)
      simp [hirq, hother, hne]
  · by_cases hother : other.val < 8
    · have hne : other ≠ irqNum := fun h => hirq (h ▸ hother)
      simp [hirq, hother, hne]
    · simp only [hirq, hother, if_false]
      rw [getLsbD_and_not_bit]
      simp [sub_eight_eq_iff hirq hother]

theorem maskBit_disable (s : Kernel) (irqNum other : Fin 16) :
    (disableIrq s irqNum).maskBit other =
      (s.maskBit other && decide (SamePic irqNum other → other = irqNum)) := by
  unfold disableIrq Kernel.maskBit SamePic
  by_cases hirq : irqNum.val < 8
  · by_cases hother : other.val < 8
    · simp only [hirq, hother, if_true]
      rw [getLsbD_and_bit]
      simp [Fin.ext_iff]
    · simp [hirq, hother]
  · by_cases hother : other.val < 8
    · simp [hirq, hother]
    · simp only [hirq, hother, if_false]
      rw [getLsbD_and_bit]
      simp [sub_eight_eq_iff hirq hother]

theorem dataBit_picStep (s : Kernel) (call : PicCall) (other : Fin 16) :
    (picStep s call).dataBit other =
      if SamePic call.irqNum other then (picStep s call).maskBit other
      else s.dataBit other := by
  unfold SamePic
  cases call with
  | enable irqNum =>
      simp only [picStep, enableIrq, Kernel.maskBit, Kernel.dataBit, PicCall.irqNum]
      by_cases hirq : irqNum.val < 8 <;> by_cases hother : other.val < 8 <;> simp [hirq, hother]
  | disable irqNum =>
      simp only [picStep, disableIrq, Kernel.maskBit, Kernel.dataBit, PicCall.irqNum]
      by_cases hirq : irqNum.val < 8 <;> by_cases hother : other.val < 8 <;> simp [hirq, hother]

/-! ## Sequences of calls -/

def PicCall.Clears (irqNum : Fin 16) : PicCall → Prop
  | .enable other => irqNum = other
  | .disable other => SamePic other irqNum ∧ irqNum ≠ other

theorem maskBit_picStep (s : Kernel) (call : PicCall) (irqNum : Fin 16) :
    (picStep s call).maskBit irqNum = true ↔ s.maskBit irqNum = true ∧ ¬ call.Clears irqNum := by
  cases call with
  | enable other => simp [picStep, maskBit_enable, PicCall.Clears]
  | disable other =>
      simp only [picStep, maskBit_disable, PicCall.Clears, Bool.and_eq_true, decide_eq_true_eq]
      tauto

/-- A call changes the bit of another interrupt exactly if it disables one of the same
controller and the bit was set. -/
theorem maskBit_picStep_eq_iff (s : Kernel) (call : PicCall) (irqNum : Fin 16) :
    (picStep s call).maskBit irqNum = s.maskBit irqNum ↔
      ¬ (s.maskBit irqNum = true ∧ call.Clears irqNum) := by
  rw [Bool.eq_iff_iff, maskBit_picStep]
  tauto

theorem maskBit_foldl (s : Kernel) (calls : List PicCall) (irqNum : Fin 16) :
    (calls.foldl picStep s).maskBit irqNum = true ↔
      s.maskBit irqNum = true ∧ ∀ call ∈ calls, ¬ call.Clears irqNum := by
  induction calls generalizing s with
  | nil => simp
  | cons call rest ih =>
      rw [List.foldl_cons, ih, maskBit_picStep]
      simp [and_assoc]

theorem PicCall.Clears.samePic {call : PicCall} {irqNum : Fin 16} (hclears : call.Clears irqNum) :
    SamePic call.irqNum irqNum := by
  cases call with
  | enable other =>
      have heq : irqNum = other := hclears
      rw [heq]
      exact Iff.rfl
  | disable other => exact hclears.1

theorem maskBit_picStep_of_not_same {call : PicCall} {irqNum : Fin 16}
    (hother : ¬ SamePic call.irqNum irqNum) (s : Kernel) :
    (picStep s call).maskBit irqNum = s.maskBit irqNum := by
  have hclears : ¬ call.Clears irqNum := fun hclears => hother hclears.samePic
  rw [Bool.eq_iff_iff, maskBit_picStep]
  exact and_iff_left hclears

theorem maskBit_foldl_of_not_same {calls : List PicCall} {irqNum : Fin 16}
    (hnone : ¬ ∃ call ∈ calls, SamePic call.irqNum irqNum) (s : Kernel) :
    (calls.foldl picStep s).maskBit irqNum = s.maskBit irqNum := by
  rw [Bool.eq_iff_iff, maskBit_foldl]
  exact and_iff_left fun call hmem hclears => hnone ⟨call, hmem, hclears.samePic⟩

theorem dataBit_foldl (s : Kernel) (calls : List PicCall) (irqNum : Fin 16) :
    (calls.foldl picStep s).dataBit irqNum =
      if ∃ call ∈ calls, SamePic call.irqNum irqNum then (calls.foldl picStep s).maskBit irqNum
      else s.dataBit irqNum := by
  induction calls using List.reverseRecOn with
  | nil => simp
  | append_singleton rest call ih =>
      rw [List.foldl_append, List.foldl_cons, List.foldl_nil, dataBit_picStep]
      by_cases hsame : SamePic call.irqNum irqNum
      · rw [if_pos hsame, if_pos ⟨call, by simp, hsame⟩]
      · rw [if_neg hsame, ih, maskBit_picStep_of_not_same hsame]
        simp [or_and_right, exists_or, hsame]

/-! ## After `i8259_init` -/

theorem maskBit_picBoot (s : Kernel) (irqNum : Fin 16) :
    (picBoot s).maskBit irqNum = decide (irqNum ≠ 2) := by
  have hmaster : (picBoot s).masterMask = 0xFF &&& ~~~((1 : BitVec 8) <<< 2) := rfl
  have hslave : (picBoot s).slaveMask = 0xFF := rfl
  rw [Kernel.maskBit, hmaster, hslave]
  revert irqNum
  decide

/-- The last byte for the slave is an initialization word and no mask. -/
theorem dataBit_picBoot (s : Kernel) (irqNum : Fin 16) :
    (picBoot s).dataBit irqNum =
      if irqNum.val < 8 then decide (irqNum ≠ 2) else decide (irqNum = 8) := by
  have hmaster : (picBoot s).masterData = 0xFF &&& ~~~((1 : BitVec 8) <<< 2) := rfl
  have hslave : (picBoot s).slaveData = 0x01 := rfl
  rw [Kernel.dataBit, hmaster, hslave]
  revert irqNum
  decide

/-- Whether the calls ask for an interrupt to be masked: the last call for it was
`disable_irq`, or there was none and it is not the one enabled at the start. -/
def shouldMask (calls : List PicCall) (irqNum : Fin 16) : Bool :=
  match (calls.filter (·.irqNum = irqNum)).getLast? with
  | some (.enable _) => false
  | some (.disable _) => true
  | none => decide (irqNum ≠ 2)

def MasksFollow (s : Kernel) (calls : List PicCall) : Prop :=
  ∀ irqNum, (picRun s calls).maskBit irqNum = shouldMask calls irqNum ∧
    (picRun s calls).dataBit irqNum = (picRun s calls).maskBit irqNum

/-- Some call was for the slave, and an interrupt that is left masked was masked
at the start and had its bit cleared by no call: neither by an `enable_irq` of its
own nor by a `disable_irq` for another interrupt of its controller. -/
def Undisturbed (calls : List PicCall) : Prop :=
  (∃ call ∈ calls, 8 ≤ call.irqNum.val) ∧
    ∀ irqNum, shouldMask calls irqNum = true →
      irqNum ≠ 2 ∧ .enable irqNum ∉ calls ∧
        ∀ other, SamePic other irqNum → other ≠ irqNum → .disable other ∉ calls

theorem maskBit_picRun (s : Kernel) (calls : List PicCall) (irqNum : Fin 16) :
    (picRun s calls).maskBit irqNum = true ↔
      irqNum ≠ 2 ∧ .enable irqNum ∉ calls ∧
        ∀ other, SamePic other irqNum → other ≠ irqNum → .disable other ∉ calls := by
  rw [picRun, maskBit_foldl, maskBit_picBoot, decide_eq_true_eq]
  refine and_congr_right fun _ => ⟨fun hcalls => ⟨?_, ?_⟩, fun hcalls call hmem => ?_⟩
  · exact fun hmem => hcalls _ hmem rfl
  · exact fun other hsame hne hmem => hcalls _ hmem ⟨hsame, Ne.symm hne⟩
  · intro hclears
    cases call with
    | enable other =>
        have heq : irqNum = other := hclears
        exact hcalls.1 (heq ▸ hmem)
    | disable other => exact hcalls.2 other hclears.1 (Ne.symm hclears.2) hmem

theorem maskBit_eq_false_of_shouldMask (s : Kernel) {calls : List PicCall} {irqNum : Fin 16}
    (hshould : shouldMask calls irqNum = false) : (picRun s calls).maskBit irqNum = false := by
  rw [← Bool.not_eq_true, maskBit_picRun]
  rintro ⟨hne, henable, -⟩
  unfold shouldMask at hshould
  split at hshould
  case h_1 other hlast =>
    have hmem := List.mem_of_getLast? hlast
    rw [List.mem_filter, decide_eq_true_eq] at hmem
    exact henable (hmem.2 ▸ hmem.1)
  case h_2 => contradiction
  case h_3 => exact hne (by simpa using hshould)

theorem shouldMask_append_of_ne {calls : List PicCall} {call : PicCall} {irqNum : Fin 16}
    (hother : call.irqNum ≠ irqNum) :
    shouldMask (calls ++ [call]) irqNum = shouldMask calls irqNum := by
  simp [shouldMask, List.filter_append, hother]

/-- A call between two intended masks changes the bit of no other interrupt. -/
theorem MasksFollow.maskBit_other {s : Kernel} {calls : List PicCall} {call : PicCall}
    {irqNum : Fin 16} (hbefore : MasksFollow s calls) (hafter : MasksFollow s (calls ++ [call]))
    (hother : call.irqNum ≠ irqNum) :
    (picRun s (calls ++ [call])).maskBit irqNum = (picRun s calls).maskBit irqNum := by
  rw [(hbefore irqNum).1, (hafter irqNum).1, shouldMask_append_of_ne hother]

end VirtualOS
