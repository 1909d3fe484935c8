import VirtualOS.KernelState
import Mathlib.Tactic

/-!
# The interrupt controllers and the clock

`i8259_init`, `enable_irq` and `disable_irq` of `i8259.c` and the calls of `rtc.c`.  A loop of
the source which need not end is given fuel that its terminating runs never
exhaust; running out of fuel stands for not returning.
-/

namespace VirtualOS

def enableIrq (s : Kernel) (irqNum : ℕ) : Kernel :=
  if irqNum < 8 then
    let mask := s.masterMask &&& ~~~((1 : BitVec 8) <<< irqNum)
    { s with masterMask := mask, masterData := mask }
  else
    let mask := s.slaveMask &&& ~~~((1 : BitVec 8) <<< (irqNum - 8))
    { s with slaveMask := mask, slaveData := mask }

def disableIrq (s : Kernel) (irqNum : ℕ) : Kernel :=
  if irqNum < 8 then
    let mask := s.masterMask &&& (1 : BitVec 8) <<< irqNum
    { s with masterMask := mask, masterData := mask }
  else
    let mask := s.slaveMask &&& (1 : BitVec 8) <<< (irqNum - 8)
    { s with slaveMask := mask, slaveData := mask }

/-- `i8259_init`.  The initialization words go to the same ports as the masks;
afterwards the slave is enabled on the master. -/
def i8259Init (s : Kernel) : Kernel :=
  let s := { s with masterData := s.masterMask, slaveData := s.slaveMask }
  let s := { s with masterData := 0x20, slaveData := 0x28 }
  let s := { s with masterData := 0x04, slaveData := 0x02 }
  let s := { s with masterData := 0x01, slaveData := 0x01 }
  enableIrq s 2

def irqRtc : ℕ := 8
def maxRtcRate : ℕ := 9

/-- The loop of `powerOfTwo`: arithmetic shifts until the lowest bit is set. -/
def shiftToOdd : ℕ → BitVec 32 → Option (BitVec 32)
  | 0, _ => none
  | fuel + 1, n => if n &&& 1 ≠ 0 then some n else shiftToOdd fuel (n.sshiftRight 1)

/-- `powerOfTwo`.  A nonzero word has a bit set, so 32 rounds are enough; zero
keeps the loop running for ever. -/
def powerOfTwo (num : BitVec 32) : Option Bool :=
  (shiftToOdd 32 num).map fun n => n.sshiftRight 1 = 0

/-- The loop of `rtc_write` from a shifted frequency to a rate. -/
def rateFrom : ℕ → BitVec 32 → ℕ → ℕ
  | 0, _, rate => rate
  | fuel + 1, freq, rate =>
      if freq ≠ 0 ∧ rate < maxRtcRate then rateFrom fuel (freq.sshiftRight 1) (rate + 1)
      else rate

/-- `rtc_write` of the word stored at `buf`; it always returns `0`. -/
def rtcWrite (s : Kernel) (value : BitVec 32) : Option Kernel :=
  (powerOfTwo value).map fun isPower =>
    let freq := if !isPower ∨ (1024 : BitVec 32).slt value then 512 else value
    let rate := rateFrom maxRtcRate (freq.sshiftRight 2) 0
    let s := disableIrq s irqRtc
    let prev := s.rtcRegisterA
    enableIrq
      { s with rtcRegisterA := (prev &&& 0xF0) ||| (~~~(BitVec.ofNat 8 rate) &&& 0x0F) }
      irqRtc

def rtcOpen (s : Kernel) : Option Kernel := rtcWrite s 2

/-- `rtc_handler`: every waiting terminal is released. -/
def rtcHandler (s : Kernel) : Kernel := { s with rtcFlag := fun _ => 0 }

/-- A completed `rtc_read`: the flag is set and an interrupt clears it. -/
def rtcRead (s : Kernel) : Kernel :=
  rtcHandler { s with rtcFlag := Function.update s.rtcFlag s.terminalNum 1 }

end VirtualOS
