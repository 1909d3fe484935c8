import VirtualOS.FilesystemImage
import Mathlib.Tactic

/-!
# The state of the kernel

The globals of the kernel are collected in one record: the three terminals of
`lib.h`, the process table and the control blocks of `syscall.h`, the fields of
the task state segment and of the page tables which are ever written after
boot, the directory position, and the registers of the interrupt controllers
and of the clock.  A control block lives at an address: the kernel finds it by
masking `tss.esp0`, so the blocks are a map from addresses.
-/

namespace VirtualOS

/-! ## Terminals -/

def numCols : ℤ := 80
def numRows : ℤ := 25
def attrib : UInt8 := 0x7
def keyboardBufSize : ℕ := 128

/-- The bytes of an 80×25 text page: character and attribute of every cell. -/
abbrev Screen := Fin 4000 → UInt8

/-- The bytes of a keyboard buffer or of a stored argument. -/
abbrev LineBuffer := Fin 128 → UInt8

/-- There are terminals, and there are bytes in a line. -/
instance neZeroTerminals : NeZero (3 : ℕ) := ⟨by decide⟩

instance neZeroKeyBuf : NeZero (128 : ℕ) := ⟨by decide⟩

/-- `struct terminal`. -/
structure Terminal where
  videoMemory : Screen
  keyBuf : LineBuffer
  numBuf : ℤ
  bufFlag : BitVec 8
  screenX : ℤ
  screenY : ℤ
  startLinePtr : BitVec 32
  processNum : ℕ
  flag : ℤ
  totalProcess : ℤ

/-- A store to a text page.  A store outside the page has no defined effect. -/
def Screen.store (screen : Screen) (offset : ℤ) (value : UInt8) : Option Screen :=
  if h : 0 ≤ offset ∧ offset < 4000 then
    some (Function.update screen ⟨offset.toNat, by omega⟩ value)
  else none

/-- A store to a keyboard buffer, with the same convention. -/
def LineBuffer.store (buffer : LineBuffer) (index : ℤ) (value : UInt8) : Option LineBuffer :=
  if h : 0 ≤ index ∧ index < 128 then
    some (Function.update buffer ⟨index.toNat, by omega⟩ value)
  else none

/-! ## Processes -/

/-- The rows of `fops_table`. -/
inductive FileType where
  | rtc
  | dir
  | file
  | term
  deriving DecidableEq

/-- `file_desc_t`.  A null `fops` pointer is `none`. -/
structure FileDesc where
  fops : Option FileType
  inode : ℕ
  filePos : BitVec 32
  flags : ℤ

/-- `pcb_t`, without the field `terminal_num`, which nothing reads or writes. -/
structure Pcb where
  fileDescArray : Fin 8 → FileDesc
  espPrev : BitVec 32
  ebpPrev : BitVec 32
  processNumPrev : ℕ
  esp : BitVec 32
  ebp : BitVec 32
  processNum : ℕ
  argument : LineBuffer

def eightMb : BitVec 32 := 0x800000
def fourMb : BitVec 32 := 0x400000
def eightKb : BitVec 32 := 0x2000
def pcbMask : BitVec 32 := 0xFFFFE000
def processNumMax : ℕ := 6

/-- The kernel stack of process `num`: `EIGHT_MB - EIGHT_KB * (num - 1) - BYTE`. -/
def kernelStack : ℕ → BitVec 32
  | 0 => eightMb + eightKb - 4
  | num + 1 => eightMb - eightKb * BitVec.ofNat 32 num - 4

/-- The control block of process `num`: `EIGHT_MB - EIGHT_KB * num`. -/
def pcbAddress : ℕ → BitVec 32
  | 0 => eightMb
  | num + 1 => eightMb - eightKb * BitVec.ofNat 32 (num + 1)

/-- The directory entry of the 4MB user page of process `num`, at
`EIGHT_MB + (num - 1) * FOUR_MB`. -/
def userPage : ℕ → BitVec 32
  | 0 => (eightMb - fourMb) ||| 0x80 ||| (0x02 ||| 0x01) ||| 0x04
  | num + 1 =>
      (eightMb + BitVec.ofNat 32 num * fourMb) ||| 0x80 ||| (0x02 ||| 0x01) ||| 0x04

/-- `PDE_INDEX` and the directory entry of the vidmap page at 132MB. -/
def pdeIndex : ℕ := 32
def vidmapIndex : ℕ := 33

/-! ## The whole kernel -/

structure Kernel where
  terminalT : Fin 3 → Terminal
  terminalNum : Fin 3
  terminalDisplayed : Fin 3
  /-- The text page at `VIDEO`, which the hardware shows. -/
  videoMem : Screen
  /-- The cursor position last sent to the display controller. -/
  cursorPos : BitVec 16
  ctrlPress : Bool
  capslockPress : Bool
  shiftPress : Bool
  altPress : Bool
  process : ℕ → ℕ
  currentProcessNum : ℕ
  pcb : BitVec 32 → Pcb
  esp0 : BitVec 32
  pageDirectory : ℕ → BitVec 32
  userPageTable : ℕ → BitVec 32
  videoPageTable : ℕ → BitVec 32
  dirIndex : ℕ
  rtcFlag : Fin 3 → ℕ
  /-- Register A of the clock. -/
  rtcRegisterA : BitVec 8
  masterMask : BitVec 8
  slaveMask : BitVec 8
  /-- The bytes last sent to the data ports of the two controllers. -/
  masterData : BitVec 8
  slaveData : BitVec 8

namespace Kernel

/-- The terminal whose process runs, `terminal_t[terminal_num]`. -/
def running (s : Kernel) : Terminal := s.terminalT s.terminalNum

def modifyTerminal (s : Kernel) (t : Fin 3) (f : Terminal → Terminal) : Kernel :=
  { s with terminalT := Function.update s.terminalT t (f (s.terminalT t)) }

/-- `(pcb_t *) (tss.esp0 & PCB_MASK)`. -/
def pcbPtr (s : Kernel) : BitVec 32 := s.esp0 &&& pcbMask

def modifyPcb (s : Kernel) (address : BitVec 32) (f : Pcb → Pcb) : Kernel :=
  { s with pcb := Function.update s.pcb address (f (s.pcb address)) }

def modifyFd (s : Kernel) (address : BitVec 32) (fd : Fin 8)
    (f : FileDesc → FileDesc) : Kernel :=
  s.modifyPcb address fun pcb =>
    { pcb with fileDescArray :=
        Function.update pcb.fileDescArray fd (f (pcb.fileDescArray fd)) }

def setPageDirectory (s : Kernel) (index : ℕ) (entry : BitVec 32) : Kernel :=
  { s with pageDirectory := Function.update s.pageDirectory index entry }

/-- `draw_cursor`: the position of the displayed terminal goes to the display
controller. -/
def drawCursor (s : Kernel) : Kernel :=
  let shown := s.terminalT s.terminalDisplayed
  { s with cursorPos := BitVec.ofInt 16 (numCols * shown.screenY + shown.screenX) }

end Kernel

/-! ## Addresses of the six slots -/

theorem kernelStack_and_pcbMask {num : ℕ} (hnum : num ≤ processNumMax) :
    kernelStack num &&& pcbMask = pcbAddress num := by
  unfold processNumMax at hnum
  interval_cases num <;> decide

theorem pcbAddress_injective {num other : ℕ}
    (hnum : num ≤ processNumMax) (hother : other ≤ processNumMax)
    (heq : pcbAddress num = pcbAddress other) : num = other := by
  unfold processNumMax at hnum hother
  interval_cases num <;> interval_cases other <;> first | rfl | exact absurd heq (by decide)

end VirtualOS
