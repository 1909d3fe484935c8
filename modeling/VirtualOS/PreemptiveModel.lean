import VirtualOS.ProcessInvariants
import Mathlib.Tactic

/-!
# The kernel under preemption

The gate of `int 0x80` and the gates of the exceptions are trap gates: `halt`, and
`execute` up to its `cli`, run with interrupts enabled.  Here they are taken apart
into their statements, and the thread of every terminal has a point at which it
stands.  An event is one statement of the running thread, a call that it begins, or
an interrupt between two statements.  Beside the kernel the machine records which
pair of stack registers each terminal had when it last lost the processor.
-/

namespace VirtualOS

open PartialRuns

/-! ## Statements -/

/-- Where `execute` returns to: the process that called it, or `halt`. -/
inductive Caller where
  | process
  | halt
  deriving DecidableEq

/-- The next statement of `execute`.  The search is one test of the table for every
round of its loop, and everything behind `cli` is one statement. -/
inductive ExecutePoint where
  | load (command : Option (List UInt8))
  | search (command : List UInt8) (i : ℕ)
  | commit (command : List UInt8) (num : ℕ)

/-- The next statement of `halt`. -/
inductive HaltPoint where
  | load
  | free
  | countDown
  | test
  | findPcb
  | restoreNum (pcbPtr : BitVec 32)
  | restorePage (pcbPtr : BitVec 32)
  | clean (pcbPtr : BitVec 32) (fds : List (Fin 8))
  | restoreTss (pcbPtr : BitVec 32)
  | jump (pcbPtr : BitVec 32)

/-- Where the thread of a terminal stands. -/
inductive Point where
  | user
  | execute (caller : Caller) (frame : StackFrame) (point : ExecutePoint)
  | halt (frame : StackFrame) (point : HaltPoint)

/-- The point behind a call of `execute` that returns. -/
def Caller.back (frame : StackFrame) : Caller → Point
  | .process => .user
  | .halt => .halt frame .findPcb

def executeStatement (img : Image) (s : Kernel) (caller : Caller) (frame : StackFrame) :
    ExecutePoint → Option (Kernel × Point)
  | .load none => some (loadCurrentProcess s, caller.back frame)
  | .load (some command) =>
      some (loadCurrentProcess s, .execute caller frame (.search command 1))
  | .search command i =>
      if i > processNumMax then
        (printLiteral s noMoreProcess).map fun s => (s, caller.back frame)
      else if s.process i = 0 then some (s, .execute caller frame (.commit command i))
      else some (s, .execute caller frame (.search command (i + 1)))
  | .commit command num =>
      (executeCommit img s command num frame).map fun
        | .returned _ s => (s, caller.back frame)
        | .started s _ _ => (s, .user)

/-- `EXC_PF`: a message, then `halt`. -/
def faultPoint (s : Kernel) (frame : StackFrame) : Option (Kernel × Point) :=
  (printLiteral s pageFaultText).map fun s => (s, .halt frame .load)

def haltStatement (s : Kernel) (frame : StackFrame) : HaltPoint → Option (Kernel × Point)
  | .load => some (loadCurrentProcess s, .halt frame .free)
  | .free => some (haltFreeSlot s, .halt frame .countDown)
  | .countDown => some (haltCountDown s, .halt frame .test)
  | .test =>
      if s.running.totalProcess = 0 then
        some (haltForgetProcess s, .execute .halt frame (.load (some shellName)))
      else some (s, .halt frame .findPcb)
  | .findPcb => some (s, .halt frame (.restoreNum s.pcbPtr))
  | .restoreNum pcbPtr => some (haltRestoreNum s pcbPtr, .halt frame (.restorePage pcbPtr))
  | .restorePage pcbPtr => some (haltRestorePage s, .halt frame (.clean pcbPtr openSlots))
  | .clean pcbPtr [] => some (s, .halt frame (.restoreTss pcbPtr))
  | .clean pcbPtr (fd :: rest) =>
      match haltCleanFd s pcbPtr fd with
      | .returned _ _ s => some (s, .halt frame (.clean pcbPtr rest))
      | .pageFault s => faultPoint s frame
  | .restoreTss pcbPtr => some (haltRestoreTss s pcbPtr, .halt frame (.jump pcbPtr))
  | .jump _ => some (s, .user)

/-! ## Calls and interrupts -/

def CallResult.point (frame : StackFrame) : CallResult → Option (Kernel × Point)
  | .returned _ _ s => some (s, .user)
  | .pageFault s => faultPoint s frame

/-- What a process in user mode does: it enters `execute` or `halt`, or makes a call
that completes.  Interrupts are not its own. -/
def callPoint (img : Image) (link : Link) (s : Kernel) : Op → Option (Kernel × Point)
  | .execute command frame => some (s, .execute .process frame (.load command))
  | .halt _ frame => some (s, .halt frame .load)
  | .exception exc frame =>
      (printLiteral (if exc = .pf then s else clear s) (ascii exc.text)).map fun s =>
        (s, .halt frame .load)
  | .read fd buf nbytes frame => (read img s fd buf nbytes).bind (·.point frame)
  | .write fd buf nbytes frame => (write s fd buf nbytes).bind (·.point frame)
  | .openFile filename => (openFile img s filename).bind fun
      | .returned _ _ s => some (s, .user)
      | .pageFault _ => none
  | .close fd frame => (close s fd).point frame
  | .getargs _ _ => some (s, .user)
  | .vidmap screenStart => some ((vidmap link s screenStart).2, .user)
  | _ => none

/-- The kernel, the point of every terminal's thread, and the stack registers that
were saved when a terminal last lost the processor. -/
structure Machine where
  kernel : Kernel
  point : Fin 3 → Point
  lost : Fin 3 → Option Cpu

inductive Event where
  | statement
  | op (op : Op)

def statements (count : ℕ) : List Event := List.replicate count .statement

namespace Machine

/-- The first shell runs and no terminal has lost the processor yet. -/
def start (first : Kernel) : Machine := ⟨first, fun _ => .user, fun _ => none⟩

def running (m : Machine) : Point := m.point m.kernel.terminalNum

def proceed (m : Machine) (next : Kernel × Point) : Machine :=
  { m with
    kernel := next.1
    point := Function.update m.point m.kernel.terminalNum next.2 }

/-- An interrupt leads to `next`; another terminal may have the processor there. -/
def interrupted (m : Machine) (cpu : Cpu) (next : Kernel) : Machine :=
  { m with
    kernel := next
    lost := if next.terminalNum = m.kernel.terminalNum then m.lost
      else Function.update m.lost m.kernel.terminalNum (some cpu) }

def statement (img : Image) (m : Machine) : Option Machine :=
  match m.running with
  | .user => none
  | .execute caller frame point =>
      (executeStatement img m.kernel caller frame point).map m.proceed
  | .halt frame point => (haltStatement m.kernel frame point).map m.proceed

def call (img : Image) (link : Link) (m : Machine) (op : Op) : Option Machine :=
  match m.running with
  | .user => (callPoint img link m.kernel op).map m.proceed
  | _ => none

end Machine

def machineStep (img : Image) (link : Link) (m : Machine) : Event → Option Machine
  | .statement => m.statement img
  | .op (.pit cpu) => some (m.interrupted cpu (pitHandler link m.kernel cpu).1)
  | .op (.keyboard scancode cpu frame) =>
      (keyboardHandler img m.kernel scancode cpu frame).map (m.interrupted cpu)
  | .op (.switchTerminal newTerminal cpu frame) =>
      (switchTerminal img m.kernel newTerminal cpu frame).map (m.interrupted cpu)
  | .op .rtcInterrupt => some { m with kernel := rtcHandler m.kernel }
  | .op op => m.call img link op

/-! ## What the threads hold -/

/-- The tests of `execute` on the file that a command names. -/
def startsProgram (img : Image) (command : List UInt8) (frame : StackFrame) : Bool :=
  (readDentryByName img (parseCommand command).1).any fun dentry =>
    readWord img dentry.inodeNum 0 frame.exeHeader = exeMagicNumber

/-- The control block that a `halt` still reads or writes after it has released the
slot, for the `process_num` of its terminal. -/
def HaltPoint.pcb (processNum : ℕ) : HaltPoint → Option (BitVec 32)
  | .load => none
  | .free => none
  | .countDown => some (pcbAddress processNum)
  | .test => some (pcbAddress processNum)
  | .findPcb => some (pcbAddress processNum)
  | .restoreNum pcbPtr => some pcbPtr
  | .restorePage pcbPtr => some pcbPtr
  | .clean pcbPtr _ => some pcbPtr
  | .restoreTss pcbPtr => some pcbPtr
  | .jump pcbPtr => some pcbPtr

/-- The stretches of `halt` in which `tss.esp0` and `process_num` name different
processes: from the store of the parent's number to the store of `tss.esp0`, and in
the inner `execute`. -/
def Point.between : Point → Bool
  | .execute .halt _ _ => true
  | .halt _ (.restorePage _) => true
  | .halt _ (.clean _ _) => true
  | .halt _ (.restoreTss _) => true
  | _ => false

/-- The terminal that an interrupt switches to. -/
def switchTarget (s : Kernel) : Op → Option (Fin 3)
  | .switchTerminal newTerminal _ _ => some newTerminal
  | .keyboard 0x3B _ _ => if s.altPress ∧ s.terminalDisplayed ≠ 0 then some 0 else none
  | .keyboard 0x3C _ _ => if s.altPress ∧ s.terminalDisplayed ≠ 1 then some 1 else none
  | .keyboard 0x3D _ _ => if s.altPress ∧ s.terminalDisplayed ≠ 2 then some 2 else none
  | _ => none

/-- Whether a switch goes to a terminal without a shell. -/
def beginsTerminal (s : Kernel) (op : Op) : Bool :=
  (switchTarget s op).any fun t => t ≠ 0 ∧ (s.terminalT t).flag = 0

namespace Machine

/-- The slot that the thread of `t` has found and not yet taken. -/
def picked (img : Image) (m : Machine) (t : Fin 3) : Option ℕ :=
  match m.point t with
  | .execute _ frame (.commit command num) =>
      if startsProgram img command frame then some num else none
  | _ => none

/-- The control block that a `halt` on terminal `t` still uses. -/
def halting (m : Machine) (t : Fin 3) : Option (BitVec 32) :=
  match m.point t with
  | .halt _ point => point.pcb (m.kernel.terminalT t).processNum
  | _ => none

/-- The thread of `t` neither has found slot `num` nor is about to leave it. -/
def Unclaimed (img : Image) (m : Machine) (t : Fin 3) (num : ℕ) : Prop :=
  m.picked img t ≠ some num ∧ m.halting t ≠ some (pcbAddress num)

/-- An event that saves a context through `tss.esp0` and gives the processor away:
a tick while other terminals are started, or a switch that begins a terminal. -/
def takesCpu (m : Machine) : Event → Bool
  | .statement => false
  | .op (.pit _) => ¬ ((m.kernel.terminalT 1).flag = 0 ∧ (m.kernel.terminalT 2).flag = 0)
  | .op op => beginsTerminal m.kernel op

/-- The slot that a search finds in this event for a program that will start. -/
def finds (img : Image) (m : Machine) : Event → Option ℕ
  | .statement =>
      match m.running with
      | .execute _ frame (.search command i) =>
          if i ≤ processNumMax ∧ m.kernel.process i = 0 ∧ startsProgram img command frame then
            some i
          else none
      | _ => none
  | .op op => if beginsTerminal m.kernel op then freeSlot m.kernel else none

/-- Whether the event uses the global `current_process_num` that an earlier statement
of the running thread has stored. -/
def usesCurrent (img : Image) (m : Machine) : Event → Bool
  | .statement =>
      match m.running with
      | .execute _ frame (.commit command _) => startsProgram img command frame
      | .halt _ .free => true
      | _ => false
  | .op _ => false

/-- No context is saved while `tss.esp0` and `process_num` name different processes,
no search finds a slot that another thread has found or still leaves, and
`current_process_num` still is what the running thread stored. -/
def Orderly (img : Image) (m : Machine) (event : Event) : Prop :=
  (m.takesCpu event = true → m.running.between = false) ∧
    (∀ num ∈ m.finds img event, ∀ t, m.Unclaimed img t num) ∧
    (m.usesCurrent img event = true →
      m.kernel.currentProcessNum = m.kernel.running.processNum)

instance (img : Image) (m : Machine) (t : Fin 3) (num : ℕ) :
    Decidable (m.Unclaimed img t num) :=
  inferInstanceAs (Decidable (_ ∧ _))

instance (img : Image) (m : Machine) (event : Event) : Decidable (m.Orderly img event) :=
  inferInstanceAs (Decidable (_ ∧ _ ∧ _))

end Machine

/-! ## The two properties -/

/-- Process `num` is met on the way from `process_num` of terminal `t` to 0. -/
def Kernel.OnChain (s : Kernel) (t : Fin 3) (num : ℕ) : Prop :=
  ∃ k, s.ancestor t k = num ∧ ∀ j ≤ k, s.ancestor t j ≠ 0

namespace Machine

/-- A tick that switches loads the pair that was saved when the terminal it resumes
last lost the processor. -/
def ResumesLost (link : Link) (m : Machine) : Event → Prop
  | .op (.pit cpu) =>
      ¬ ((m.kernel.terminalT 1).flag = 0 ∧ (m.kernel.terminalT 2).flag = 0) →
        Function.update m.lost m.kernel.terminalNum (some cpu)
            (pitHandler link m.kernel cpu).1.terminalNum =
          some (pitHandler link m.kernel cpu).2
  | _ => True

/-- The slot that an event gives to a new process: `execute` commits, or a switch
begins a terminal. -/
def handsOut (img : Image) (m : Machine) : Event → Option ℕ
  | .statement => m.picked img m.kernel.terminalNum
  | .op op => if beginsTerminal m.kernel op then freeSlot m.kernel else none

/-- A slot is handed out only if it is free in the table, no process holds it and no
`halt` still works on its control block. -/
def HandsOutFree (img : Image) (m : Machine) (event : Event) : Prop :=
  ∀ num, m.handsOut img event = some num →
    m.kernel.process num = 0 ∧
      ∀ t, ¬ m.kernel.OnChain t num ∧ m.halting t ≠ some (pcbAddress num)

/-- No slot is held by two processes, of one terminal or of two. -/
structure HeldOnce (m : Machine) : Prop where
  apart : ∀ t u num, m.kernel.OnChain t num → m.kernel.OnChain u num → t = u
  no_repetition : ∀ t j k, j < k → (∀ i ≤ k, m.kernel.ancestor t i ≠ 0) →
    m.kernel.ancestor t j ≠ m.kernel.ancestor t k

end Machine

end VirtualOS
