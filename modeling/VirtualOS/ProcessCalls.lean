import VirtualOS.DescriptorCalls
import Mathlib.Tactic

/-!
# Starting and ending processes

`execute` and `halt` of `syscall.c`.  `execute` first looks for a free slot and,
after `cli`, parses the command, checks the file, loads it and fills the control
block of the new process.  `halt` releases the slot of the running process and
returns into the `execute` of its parent, or restarts a shell when the terminal
has run out of processes.  The statements of `halt` are separate definitions,
because a timer interrupt can fall between any two of them.
-/

namespace VirtualOS

/-- What a call finds on the kernel stack: the stack registers and the stale
bytes of the buffers `exe_header` and `entry`. -/
structure StackFrame where
  esp : BitVec 32
  ebp : BitVec 32
  exeHeader : Fin 4 → UInt8
  entry : Fin 4 → UInt8

def shellName : List UInt8 := ascii "shell"

/-- `current_process_num = terminal_t[terminal_num].process_num`. -/
def loadCurrentProcess (s : Kernel) : Kernel :=
  { s with currentProcessNum := s.running.processNum }

/-! ## The command line -/

def wordByte (byte : UInt8) : Bool := byte ≠ space ∧ byte ≠ newline ∧ byte ≠ 0

/-- The next word of a command and what follows it. -/
def nextWord (command : List UInt8) : List UInt8 × List UInt8 :=
  let rest := command.dropWhile (· = space)
  (rest.takeWhile wordByte, rest.dropWhile wordByte)

def parseCommand (command : List UInt8) : List UInt8 × List UInt8 :=
  let name := nextWord command
  (name.1, (nextWord name.2).1)

/-! ## Checking and loading the file -/

def exeMagicNumber : List UInt8 := [0x7F, 0x45, 0x4C, 0x46]

/-- Four bytes read into a local buffer over what it held before. -/
def readWord (img : Image) (inode offset : ℕ) (stale : Fin 4 → UInt8) : List UInt8 :=
  List.ofFn fun i : Fin 4 => (readData img inode offset 4).2.getD i (stale i)

/-- Room for the program image: from `0x8048000` to the end of the page. -/
def imageRoom : ℕ := 0x8400000 - 0x8048000

/-- `strcpy` of the argument into the control block. -/
def storeArgument (old : LineBuffer) (argument : List UInt8) : LineBuffer :=
  fun i => if i.val < argument.length then argument.getD i 0
    else if i.val = argument.length then 0 else old i

/-- How `execute` ends: it returns to its caller, or the new process runs from
its entry address with the loaded bytes on its page. -/
inductive Execution where
  | returned (value : ℤ) (s : Kernel)
  | started (s : Kernel) (entry : List UInt8) (image : List UInt8)

/-- The control block that `execute` fills for the process in slot `num`, whose
parent is `prev`. -/
def newPcb (prev num : ℕ) (argument : List UInt8) (frame : StackFrame) (old : Pcb) : Pcb :=
  { old with
    argument := storeArgument old.argument argument
    fileDescArray := fun fd =>
      if fd.val ≤ 1 then { old.fileDescArray fd with fops := some .term, flags := 1 }
      else old.fileDescArray fd
    processNumPrev := prev
    processNum := num
    espPrev := frame.esp
    ebpPrev := frame.ebp }

def startProcess (s : Kernel) (num : ℕ) (argument : List UInt8) (frame : StackFrame) :
    Kernel :=
  let s := s.setPageDirectory pdeIndex (userPage num)
  let s := { s with process := Function.update s.process num 1 }
  let s := s.modifyPcb (pcbAddress num) (newPcb s.currentProcessNum num argument frame)
  let s := { s with esp0 := kernelStack num }
  s.modifyTerminal s.terminalNum fun term =>
    { term with flag := 1, processNum := num, totalProcess := term.totalProcess + 1 }

/-- The part of `execute` behind its `cli`, for the slot found before.  A word
longer than its buffer and a file longer than its page are left to
`executeThrough`, which says where their stores go. -/
def executeCommit (img : Image) (s : Kernel) (command : List UInt8) (num : ℕ)
    (frame : StackFrame) : Option Execution :=
  let words := parseCommand command
  if words.1.length ≥ keyboardBufSize ∨ words.2.length ≥ keyboardBufSize then none
  else
    match readDentryByName img words.1 with
    | none => some (.returned (-1) s)
    | some exeDentry =>
        let inode := exeDentry.inodeNum
        if readWord img inode 0 frame.exeHeader ≠ exeMagicNumber then
          some (.returned (-1) s)
        else
          let image := (readData img inode 0 fourMb.toNat).2
          if image.length > imageRoom then none
          else
            some (.started (startProcess s num words.2 frame)
              (readWord img inode 24 frame.entry) image)

/-- The search loop of `execute`: the first free slot from 1 to 6. -/
def freeSlot (s : Kernel) : Option ℕ :=
  (List.range' 1 processNumMax).find? fun i => s.process i = 0

def noMoreProcess : List UInt8 := ascii "no more process\n"

def execute (img : Image) (s : Kernel) (command : Option (List UInt8)) (frame : StackFrame) :
    Option Execution :=
  let s := loadCurrentProcess s
  match command with
  | none => some (.returned (-1) s)
  | some command =>
      match freeSlot s with
      | none => (printLiteral s noMoreProcess).map fun s => .returned 0 s
      | some num => executeCommit img s command num frame

/-! ## The statements of `halt` -/

def haltFreeSlot (s : Kernel) : Kernel :=
  { s with process := Function.update s.process s.currentProcessNum 0 }

def haltCountDown (s : Kernel) : Kernel :=
  s.modifyTerminal s.terminalNum fun term =>
    { term with totalProcess := term.totalProcess - 1 }

def haltForgetProcess (s : Kernel) : Kernel :=
  s.modifyTerminal s.terminalNum fun term => { term with processNum := 0 }

def haltRestoreNum (s : Kernel) (pcbPtr : BitVec 32) : Kernel :=
  s.modifyTerminal s.terminalNum fun term =>
    { term with processNum := (s.pcb pcbPtr).processNumPrev }

def haltRestorePage (s : Kernel) : Kernel :=
  s.setPageDirectory pdeIndex (userPage s.running.processNum)

/-- One round of the loop which closes the descriptors of the process. -/
def haltCleanFd (s : Kernel) (pcbPtr : BitVec 32) (fd : Fin 8) : CallResult :=
  if ((s.pcb pcbPtr).fileDescArray fd).flags = 1 then close s fd.val
  else .returned 0 [] s

def haltRestoreTss (s : Kernel) (pcbPtr : BitVec 32) : Kernel :=
  { s with esp0 := kernelStack (s.pcb pcbPtr).processNumPrev }

/-! ## `halt` -/

/-- The whole cleaning loop; a fault ends it. -/
def haltCleanFds (pcbPtr : BitVec 32) : List (Fin 8) → Kernel → CallResult
  | [], s => .returned 0 [] s
  | fd :: rest, s =>
      match haltCleanFd s pcbPtr fd with
      | .returned _ _ s => haltCleanFds pcbPtr rest s
      | .pageFault s => .pageFault s

/-- How `halt` ends: in the parent's `execute`, or in a fresh shell. -/
inductive Halting where
  | resumed (status : BitVec 32) (s : Kernel)
  | restarted (s : Kernel) (entry : List UInt8) (image : List UInt8)

/-- `halt` from the restoring of the parent on.  A fault runs `again`. -/
def haltRestore (again : Kernel → Option Halting) (s : Kernel) (status : BitVec 32) :
    Option Halting :=
  let pcbPtr := s.pcbPtr
  match haltCleanFds pcbPtr openSlots (haltRestorePage (haltRestoreNum s pcbPtr)) with
  | .returned _ _ s => some (.resumed status (haltRestoreTss s pcbPtr))
  | .pageFault s => again s

def pageFaultText : List UInt8 := ascii "Page Fault\n"

/-- The part of `halt` before the parent is restored. -/
def haltRelease (s : Kernel) : Kernel :=
  haltCountDown (haltFreeSlot (loadCurrentProcess s))

/-- `halt`.  A page fault while descriptors are closed enters `EXC_PF`, which
calls `halt` again; every such fault has released one descriptor before. -/
def haltFuel (img : Image) (frame : StackFrame) : ℕ → Kernel → BitVec 32 → Option Halting
  | 0, _, _ => none
  | fuel + 1, s, status =>
      let again := fun s =>
        (printLiteral s pageFaultText).bind fun s => haltFuel img frame fuel s 256
      let s := haltRelease s
      if s.running.totalProcess = 0 then
        (execute img (haltForgetProcess s) (some shellName) frame).bind fun
          | .started s entry image => some (.restarted s entry image)
          | .returned _ s => haltRestore again s status
      else haltRestore again s status

def halt (img : Image) (s : Kernel) (status : BitVec 32) (frame : StackFrame) :
    Option Halting :=
  haltFuel img frame 8 s status

end VirtualOS
