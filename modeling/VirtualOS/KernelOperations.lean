import VirtualOS.ProcessCalls
import Mathlib.Tactic

/-!
# Interrupts and the operations of the kernel

The timer interrupt, the switch between terminals, the keyboard handler and the
exception handlers, and with them the completed operations of the kernel: a
system call of the running process or an interrupt that falls between two of
them.  `step` is the effect of one operation and `run` of `PartialRuns` the
effect of a sequence.
-/

namespace VirtualOS

/-- Link-time addresses: the page tables and the terminals' buffers. -/
structure Link where
  userPageTable : BitVec 32
  videoPageTable : BitVec 32
  videoMemory : Fin 3 → BitVec 32

/-- The stack registers. -/
structure Cpu where
  esp : BitVec 32
  ebp : BitVec 32
  deriving DecidableEq

def videoAddress : BitVec 32 := 0xB8000

/-- `(RW_ENABLE | PRESENT) | USER_ENABLE`. -/
def userEntry (address : BitVec 32) : BitVec 32 := address ||| (0x02 ||| 0x01) ||| 0x04

/-! ## The timer -/

/-- The search of `pit_handler` for a started terminal, from `t` on. -/
def nextStarted (s : Kernel) : ℕ → Fin 3 → Fin 3
  | 0, t => t
  | fuel + 1, t => if (s.terminalT t).flag ≠ 0 then t else nextStarted s fuel (t + 1)

/-- The page at 132MB follows the terminal that runs. -/
def mapVidmap (link : Link) (s : Kernel) : Kernel :=
  if s.terminalNum = s.terminalDisplayed then
    { s.setPageDirectory vidmapIndex (userEntry link.userPageTable) with
      userPageTable := Function.update s.userPageTable 0 (userEntry videoAddress) }
  else
    { s.setPageDirectory vidmapIndex (userEntry link.videoPageTable) with
      videoPageTable :=
        Function.update s.videoPageTable 0 (userEntry (link.videoMemory s.terminalNum)) }

/-- The stores of `esp` and `ebp` into the control block found by `tss.esp0`. -/
def saveContext (s : Kernel) (cpu : Cpu) : Kernel :=
  s.modifyPcb s.pcbPtr fun pcb => { pcb with esp := cpu.esp, ebp := cpu.ebp }

/-- `pit_handler`: the state after it and the stack registers it loads. -/
def pitHandler (link : Link) (s : Kernel) (cpu : Cpu) : Kernel × Cpu :=
  if (s.terminalT 1).flag = 0 ∧ (s.terminalT 2).flag = 0 then (s, cpu)
  else
    let s := { s with terminalNum := nextStarted s 3 (s.terminalNum + 1) }
    let nextProcess := s.running.processNum
    let s := mapVidmap link (s.setPageDirectory pdeIndex (userPage nextProcess))
    let s := { saveContext s cpu with esp0 := kernelStack nextProcess }
    (s, { esp := (s.pcb s.pcbPtr).esp, ebp := (s.pcb s.pcbPtr).ebp })

/-! ## Switching terminals -/

/-- The first part of `switch_terminal`: the two copies between text pages. -/
def showTerminal (s : Kernel) (newTerminal : Fin 3) : Kernel :=
  let s := s.modifyTerminal s.terminalDisplayed fun term =>
    { term with videoMemory := s.videoMem }
  { s with
    videoMem := (s.terminalT newTerminal).videoMemory
    terminalDisplayed := newTerminal }.drawCursor

def switchTerminal (img : Image) (s : Kernel) (newTerminal : Fin 3) (cpu : Cpu)
    (frame : StackFrame) : Option Kernel :=
  let s := showTerminal s newTerminal
  if newTerminal ≠ 0 ∧ (s.terminalT newTerminal).flag = 0 then
    let s := saveContext s cpu
    let old := s.terminalNum
    (execute img (clear { s with terminalNum := newTerminal }) (some shellName) frame).map fun
      | .started s _ _ => s
      | .returned _ s => { s with terminalNum := old }
  else some s

/-! ## The keyboard handler -/

def altSwitch (img : Image) (s : Kernel) (newTerminal : Fin 3) (cpu : Cpu)
    (frame : StackFrame) : Option Kernel :=
  if s.altPress ∧ s.terminalDisplayed ≠ newTerminal then
    switchTerminal img s newTerminal cpu frame
  else some s

def keyboardHandler (img : Image) (s : Kernel) (scancode : ℕ) (cpu : Cpu)
    (frame : StackFrame) : Option Kernel :=
  match scancode with
  | 0x1D => some { s with ctrlPress := true }
  | 0x2A => some { s with shiftPress := true }
  | 0x36 => some { s with shiftPress := true }
  | 0x38 => some { s with altPress := true }
  | 0x3A => some { s with capslockPress := !s.capslockPress }
  | 0x9D => some { s with ctrlPress := false }
  | 0xAA => some { s with shiftPress := false }
  | 0xB6 => some { s with shiftPress := false }
  | 0xB8 => some { s with altPress := false }
  | 0x3B => altSwitch img s 0 cpu frame
  | 0x3C => altSwitch img s 1 cpu frame
  | 0x3D => altSwitch img s 2 cpu frame
  | 0x0F => keyboardTab s
  | 0x0E => keyboardBackspace s
  | 0x1C => keyboardEnter s
  | scancode => keyboardPrint s scancode

/-! ## Exceptions -/

inductive Exc where
  | de | db | nmi | bp | of | br | ud | nm | df | cso | ts | np | ss | gp | pf | res1
  | mf | ac | mc | xf | res2
  deriving DecidableEq

def Exc.text : Exc → String
  | .de => "Divide Error"
  | .db => "Reserved"
  | .nmi => "NMI"
  | .bp => "Breakpoint"
  | .of => "Overflow"
  | .br => "BOUND Range Exceeded"
  | .ud => "Undefined Opcode"
  | .nm => "No Math Coprocessor"
  | .df => "Double Fault"
  | .cso => "Coprocessor Segment Overrun"
  | .ts => "Invalid TSS"
  | .np => "Segment Not Present"
  | .ss => "Stack-Segment Fault"
  | .gp => "General Protection"
  | .pf => "Page Fault\n"
  | .res1 => "reserved 1"
  | .mf => "Math Fault"
  | .ac => "Alignment Check"
  | .mc => "Machine Check"
  | .xf => "Floating-Point Exception"
  | .res2 => "reserved 2"

/-- The handlers `EXC_DE`, …, `EXC_RES2`: a message, then `halt(256)`.  All but
`EXC_PF` clear the screen first. -/
def excHandler (img : Image) (s : Kernel) (exc : Exc) (frame : StackFrame) :
    Option Halting :=
  let s := if exc = .pf then s else clear s
  (printLiteral s (ascii exc.text)).bind fun s => halt img s 256 frame

/-! ## Arguments and the video page -/

/-- `getargs`: the value and the bytes stored to the buffer. -/
def getargs (s : Kernel) (buf : UserPointer) (nbytes : ℤ) : ℤ × List UInt8 :=
  let argument := (s.pcb s.pcbPtr).argument
  if buf = none ∨ nbytes < 0 then (-1, [])
  else if argument 0 = 0 then (-1, [])
  else (0, strncpyBytes (List.ofFn argument) nbytes.toNat)

/-- `vidmap`.  The store of the page address goes to the user page, except for
bytes at 132MB and above, which the call has just mapped to the text page. -/
def vidmap (link : Link) (s : Kernel) (screenStart : BitVec 32) : ℤ × Kernel :=
  if screenStart.toNat > 0x8400000 ∨ screenStart.toNat < 0x8000000 then (-1, s)
  else
    let s := { s.setPageDirectory vidmapIndex (userEntry link.userPageTable) with
      userPageTable := Function.update s.userPageTable 0 (userEntry videoAddress) }
    let stored : List UInt8 := [0x00, 0x00, 0x40, 0x08]
    let videoMem := (List.range 4).foldl (fun screen k =>
      if screenStart.toNat + k < 0x8400000 then screen
      else Screen.set screen (screenStart.toNat + k - 0x8400000) (stored.getD k 0)) s.videoMem
    (0x8400000, { s with videoMem := videoMem })

/-! ## Operations -/

/-- A completed operation: a system call or an exception of the running process,
or an interrupt. -/
inductive Op where
  | execute (command : Option (List UInt8)) (frame : StackFrame)
  | halt (status : BitVec 32) (frame : StackFrame)
  | read (fd : ℤ) (buf : UserPointer) (nbytes : ℤ) (frame : StackFrame)
  | write (fd : ℤ) (buf : UserPointer) (nbytes : ℤ) (frame : StackFrame)
  | openFile (filename : Option (List UInt8))
  | close (fd : ℤ) (frame : StackFrame)
  | getargs (buf : UserPointer) (nbytes : ℤ)
  | vidmap (screenStart : BitVec 32)
  | exception (exc : Exc) (frame : StackFrame)
  | pit (cpu : Cpu)
  | keyboard (scancode : ℕ) (cpu : Cpu) (frame : StackFrame)
  | switchTerminal (newTerminal : Fin 3) (cpu : Cpu) (frame : StackFrame)
  | rtcInterrupt

/-- What the process that runs after an operation sees of it: the value in its
`eax`, if it returns from a call, and the bytes stored to its buffer. -/
structure Answer where
  value : Option ℤ
  bytes : List UInt8
  deriving DecidableEq

def Execution.answer : Execution → Kernel × Answer
  | .returned value s => (s, ⟨some value, []⟩)
  | .started s _ _ => (s, ⟨none, []⟩)

def Halting.answer : Halting → Kernel × Answer
  | .resumed status s => (s, ⟨some status.toInt, []⟩)
  | .restarted s _ _ => (s, ⟨none, []⟩)

/-- A call that faults ends in the handler of page faults. -/
def CallResult.answer (img : Image) (frame : StackFrame) :
    CallResult → Option (Kernel × Answer)
  | .returned value bytes s => some (s, ⟨some value, bytes⟩)
  | .pageFault s => (excHandler img s .pf frame).map Halting.answer

/-- One operation, with what it answers.  `none` is an operation that does not
complete or whose effect is not defined.  A buffer is taken to be outside of the
variables of the kernel; `performThrough` stores wherever the page tables lead. -/
def perform (img : Image) (link : Link) (s : Kernel) : Op → Option (Kernel × Answer)
  | .execute command frame => (execute img s command frame).map Execution.answer
  | .halt status frame => (halt img s status frame).map Halting.answer
  | .read fd buf nbytes frame => (read img s fd buf nbytes).bind (·.answer img frame)
  | .write fd buf nbytes frame => (write s fd buf nbytes).bind (·.answer img frame)
  | .openFile filename => (openFile img s filename).bind fun
      | .returned value bytes s => some (s, ⟨some value, bytes⟩)
      | .pageFault _ => none
  | .close fd frame => (close s fd).answer img frame
  | .getargs buf nbytes =>
      some (s, ⟨some (getargs s buf nbytes).1, (getargs s buf nbytes).2⟩)
  | .vidmap screenStart =>
      some ((vidmap link s screenStart).2, ⟨some (vidmap link s screenStart).1, []⟩)
  | .exception exc frame => (excHandler img s exc frame).map Halting.answer
  | .pit cpu => some ((pitHandler link s cpu).1, ⟨none, []⟩)
  | .keyboard scancode cpu frame =>
      (keyboardHandler img s scancode cpu frame).map fun s => (s, ⟨none, []⟩)
  | .switchTerminal newTerminal cpu frame =>
      (switchTerminal img s newTerminal cpu frame).map fun s => (s, ⟨none, []⟩)
  | .rtcInterrupt => some (rtcHandler s, ⟨none, []⟩)

def CallResult.faults : CallResult → Bool
  | .returned _ _ _ => false
  | .pageFault _ => true

/-- Whether an operation ends the running process: `halt`, an exception, or a
call that faults. -/
def endsProcess (img : Image) (s : Kernel) : Op → Bool
  | .halt _ _ => true
  | .exception _ _ => true
  | .read fd buf nbytes _ => (read img s fd buf nbytes).any CallResult.faults
  | .write fd buf nbytes _ => (write s fd buf nbytes).any CallResult.faults
  | .close fd _ => (close s fd).faults
  | _ => false

def opensFd (img : Image) (s : Kernel) : Op → Option (Fin 8)
  | .openFile filename => (openFile img s filename).bind fun
      | .returned value _ _ => fdIndex value
      | .pageFault _ => none
  | _ => none

/-- What a call can do to a descriptor of the process that makes it. -/
inductive FdEffect where
  | opens (fd : Fin 8)
  | advances (fd : Fin 8)
  | closes (fd : Fin 8)
  deriving DecidableEq

/-- The descriptor that an operation names, and what it can do to it. -/
def fdEffect (img : Image) (s : Kernel) : Op → Option FdEffect
  | .openFile filename => (opensFd img s (.openFile filename)).map .opens
  | .read fd _ _ _ => (fdIndex fd).map .advances
  | .close fd _ => (fdIndex fd).map .closes
  | _ => none

def step (img : Image) (link : Link) (s : Kernel) (op : Op) : Option Kernel :=
  (perform img link s op).map Prod.fst

end VirtualOS
