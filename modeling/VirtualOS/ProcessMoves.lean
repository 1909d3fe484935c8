import VirtualOS.KernelOperations
import Mathlib.Tactic

/-!
# What an operation does to the processes

Most of the kernel state is irrelevant to who runs where.  `ProcessView` keeps
the part that is not: the process table, the control blocks, the fields of the
task state segment and of the page directory that follow the running process,
the process fields of the terminals, and the directory position that all
processes share.  Every operation is one of a few moves
of this view: `Move` when the running process survives it and `End` when it does
not.  The second half shows that output, keys and devices leave the view alone.
-/

namespace VirtualOS

open PartialRuns

structure ProcessView where
  process : ℕ → ℕ
  pcb : BitVec 32 → Pcb
  esp0 : BitVec 32
  page : BitVec 32
  terminalNum : Fin 3
  processNum : Fin 3 → ℕ
  flag : Fin 3 → ℤ
  totalProcess : Fin 3 → ℤ
  dirIndex : ℕ

def Kernel.view (s : Kernel) : ProcessView where
  process := s.process
  pcb := s.pcb
  esp0 := s.esp0
  page := s.pageDirectory pdeIndex
  terminalNum := s.terminalNum
  processNum t := (s.terminalT t).processNum
  flag t := (s.terminalT t).flag
  totalProcess t := (s.terminalT t).totalProcess
  dirIndex := s.dirIndex

/-- The control block after the cleaning loop of `halt`. -/
def cleanPcb (pcb : Pcb) : Pcb :=
  { pcb with fileDescArray := fun fd =>
      if 1 < fd.val ∧ (pcb.fileDescArray fd).flags = 1 then
        { pcb.fileDescArray fd with flags := 0 }
      else pcb.fileDescArray fd }

/-- Every descriptor that `close` would release has its operations. -/
def Pcb.Callable (pcb : Pcb) : Prop :=
  ∀ fd : Fin 8, 1 < fd.val → (pcb.fileDescArray fd).flags ≠ 0 →
    (pcb.fileDescArray fd).fops ≠ none

def Pcb.setFd (pcb : Pcb) (fd : Fin 8) (desc : FileDesc) : Pcb :=
  { pcb with fileDescArray := Function.update pcb.fileDescArray fd desc }

/-- What an operation does to the control block of the running process. -/
inductive PcbStep (pcb : Pcb) : Option FdEffect → Pcb → Prop where
  | opened (fd : Fin 8) (row : FileType) (inode : ℕ) (hfd : 1 < fd.val)
      (hfree : (pcb.fileDescArray fd).flags = 0) :
      PcbStep pcb (some (.opens fd)) (pcb.setFd fd ⟨some row, inode, 0, 1⟩)
  | closed (fd : Fin 8) (hfd : 1 < fd.val) :
      PcbStep pcb (some (.closes fd)) (pcb.setFd fd { pcb.fileDescArray fd with flags := 0 })
  | advanced (fd : Fin 8) (filePos : BitVec 32) :
      PcbStep pcb (some (.advances fd))
        (pcb.setFd fd { pcb.fileDescArray fd with filePos := filePos })
  | saved (cpu : Cpu) : PcbStep pcb none { pcb with esp := cpu.esp, ebp := cpu.ebp }

namespace ProcessView

def pcbPtr (v : ProcessView) : BitVec 32 := v.esp0 &&& pcbMask

def current (v : ProcessView) : ℕ := v.processNum v.terminalNum
def currentPcb (v : ProcessView) : Pcb := v.pcb v.pcbPtr

def touch (v : ProcessView) (pcb : Pcb) : ProcessView :=
  { v with pcb := Function.update v.pcb v.pcbPtr pcb }

def setDirIndex (v : ProcessView) (dirIndex : ℕ) : ProcessView :=
  { v with dirIndex := dirIndex }

/-- A process starts in slot `num` on the running terminal. -/
def start (v : ProcessView) (num : ℕ) (argument : List UInt8) (frame : StackFrame) :
    ProcessView where
  process := Function.update v.process num 1
  pcb := Function.update v.pcb (pcbAddress num)
    (newPcb v.current num argument frame (v.pcb (pcbAddress num)))
  esp0 := kernelStack num
  page := userPage num
  terminalNum := v.terminalNum
  processNum := Function.update v.processNum v.terminalNum num
  flag := Function.update v.flag v.terminalNum 1
  totalProcess := Function.update v.totalProcess v.terminalNum
    (v.totalProcess v.terminalNum + 1)
  dirIndex := v.dirIndex

/-- The running process ends and its parent goes on. -/
def resume (v : ProcessView) : ProcessView where
  process := Function.update v.process v.current 0
  pcb := Function.update v.pcb v.pcbPtr (cleanPcb v.currentPcb)
  esp0 := kernelStack v.currentPcb.processNumPrev
  page := userPage v.currentPcb.processNumPrev
  terminalNum := v.terminalNum
  processNum := Function.update v.processNum v.terminalNum v.currentPcb.processNumPrev
  flag := v.flag
  totalProcess := Function.update v.totalProcess v.terminalNum
    (v.totalProcess v.terminalNum - 1)
  dirIndex := v.dirIndex

/-- The last process of the running terminal gives up its slot. -/
def vacate (v : ProcessView) : ProcessView :=
  { v with
    process := Function.update v.process v.current 0
    processNum := Function.update v.processNum v.terminalNum 0
    totalProcess := Function.update v.totalProcess v.terminalNum
      (v.totalProcess v.terminalNum - 1) }

def save (v : ProcessView) (cpu : Cpu) : ProcessView :=
  v.touch { v.currentPcb with esp := cpu.esp, ebp := cpu.ebp }

def dispatch (v : ProcessView) (t : Fin 3) : ProcessView :=
  { v with
    terminalNum := t
    esp0 := kernelStack (v.processNum t)
    page := userPage (v.processNum t) }

/-- A slot of the table that a search returns. -/
def Free (v : ProcessView) (num : ℕ) : Prop :=
  1 ≤ num ∧ num ≤ processNumMax ∧ v.process num = 0

end ProcessView

/-- The moves of the process view in which the running process goes on, with what
they can do to a descriptor. -/
inductive Move (v : ProcessView) : Option FdEffect → ProcessView → Prop where
  | stay (effect : Option FdEffect) : Move v effect v
  | touch (effect : Option FdEffect) (pcb : Pcb) (hpcb : PcbStep v.currentPcb effect pcb) :
      Move v effect (v.touch pcb)
  | enumerated (fd : Fin 8) :
      Move v (some (.advances fd)) (v.setDirIndex (v.dirIndex + 1))
  | openedDir (fd : Fin 8) (pcb : Pcb) (hpcb : PcbStep v.currentPcb (some (.opens fd)) pcb) :
      Move v (some (.opens fd)) ((v.touch pcb).setDirIndex 0)
  | start (num : ℕ) (argument : List UInt8) (frame : StackFrame)
      (hfree : v.Free num) : Move v none (v.start num argument frame)
  | dispatch (t : Fin 3) (cpu : Cpu) (hflag : v.flag t ≠ 0) :
      Move v none ((v.save cpu).dispatch t)
  | begin (t : Fin 3) (cpu : Cpu) (num : ℕ) (argument : List UInt8) (frame : StackFrame)
      (hflag : v.flag t = 0) (hfree : v.Free num) :
      Move v none ({ v.save cpu with terminalNum := t }.start num argument frame)

/-- The moves of the process view in which the running process ends. -/
inductive End (v : ProcessView) : ProcessView → Prop where
  | resume (hmore : v.totalProcess v.terminalNum - 1 ≠ 0) : End v v.resume
  | restart (num : ℕ) (argument : List UInt8) (frame : StackFrame)
      (hlast : v.totalProcess v.terminalNum - 1 = 0)
      (hfree : v.vacate.Free num) : End v (v.vacate.start num argument frame)

/-! ## Output does not touch the view -/

theorem modifyTerminal_field {β : Type*} (field : Terminal → β) (s : Kernel) (t : Fin 3)
    (f : Terminal → Terminal) :
    (fun u => field ((s.modifyTerminal t f).terminalT u)) =
      Function.update (fun u => field (s.terminalT u)) t (field (f (s.terminalT t))) :=
  Function.comp_update field s.terminalT t _

theorem view_modifyTerminal (s : Kernel) (t : Fin 3) (f : Terminal → Terminal) :
    (s.modifyTerminal t f).view =
      { s.view with
        processNum := Function.update s.view.processNum t (f (s.terminalT t)).processNum
        flag := Function.update s.view.flag t (f (s.terminalT t)).flag
        totalProcess :=
          Function.update s.view.totalProcess t (f (s.terminalT t)).totalProcess } := by
  simp only [Kernel.view, modifyTerminal_field]
  rfl

section Same

variable (s : Kernel) (t : Fin 3)

@[simp] theorem update_view_processNum :
    Function.update s.view.processNum t (s.terminalT t).processNum = s.view.processNum :=
  Function.update_eq_self t _

@[simp] theorem update_view_flag :
    Function.update s.view.flag t (s.terminalT t).flag = s.view.flag :=
  Function.update_eq_self t _

@[simp] theorem update_view_totalProcess :
    Function.update s.view.totalProcess t (s.terminalT t).totalProcess = s.view.totalProcess :=
  Function.update_eq_self t _

end Same

theorem view_modifyTerminal_of_eq
    {s : Kernel} {t : Fin 3} {f : Terminal → Terminal}
    (hnum : (f (s.terminalT t)).processNum = (s.terminalT t).processNum)
    (hflag : (f (s.terminalT t)).flag = (s.terminalT t).flag)
    (htotal : (f (s.terminalT t)).totalProcess = (s.terminalT t).totalProcess) :
    (s.modifyTerminal t f).view = s.view := by
  rw [view_modifyTerminal, hnum, hflag, htotal, update_view_processNum, update_view_flag,
    update_view_totalProcess]

@[simp] theorem view_drawCursor (s : Kernel) : s.drawCursor.view = s.view := rfl

theorem view_of_printsOn {t : Fin 3} {s next : Kernel} (hprints : s.PrintsOn t next) :
    next.view = s.view := by
  obtain ⟨_, videoMem, cursorPos, ⟨_, _, _, _, rfl⟩, rfl⟩ := hprints
  exact view_modifyTerminal_of_eq (s := { s with videoMem := videoMem, cursorPos := cursorPos })
    (t := t) (f := fun _ => _) rfl rfl rfl

theorem view_putc2screen {s next : Kernel} {c : UInt8}
    (hput : putc2screen s c = some next) : next.view = s.view :=
  view_of_printsOn (putc2screen_printsOn hput)

theorem view_putc {s next : Kernel} {c : UInt8}
    (hput : putc s c = some next) : next.view = s.view :=
  view_of_printsOn (putc_printsOn hput)

theorem view_printLiteral {s next : Kernel} {text : List UInt8}
    (hprint : printLiteral s text = some next) : next.view = s.view :=
  view_of_printsOn (printLiteral_printsOn hprint)

@[simp] theorem view_clear (s : Kernel) : (clear s).view = s.view :=
  view_of_printsOn (clear_printsOn s)

/-! ## Neither do keys -/

theorem view_pushKey {s next : Kernel} {c : UInt8}
    (hpush : pushKey s c = some next) : next.view = s.view := by
  obtain ⟨keyBuf, _, rfl⟩ := Option.map_eq_some_iff.mp hpush
  exact view_modifyTerminal_of_eq rfl rfl rfl

theorem view_set_terminalNum (s : Kernel) (t : Fin 3) :
    { s with terminalNum := t }.view = { s.view with terminalNum := t } := rfl

theorem view_clearDisplayed (s : Kernel) : (clearDisplayed s).view = s.view := by
  have hhome : (s.modifyTerminal s.terminalDisplayed fun term =>
      { term.home with keyBuf := fun _ => 0, numBuf := 0, bufFlag := 0 }).view = s.view :=
    view_modifyTerminal_of_eq rfl rfl rfl
  unfold clearDisplayed
  dsimp only
  rw [view_set_terminalNum, view_clear, view_set_terminalNum, hhome]
  rfl

theorem view_keyboardPrint {s next : Kernel} {scancode : ℕ}
    (hkey : keyboardPrint s scancode = some next) : next.view = s.view := by
  unfold keyboardPrint at hkey
  split at hkey
  · exact congrArg Kernel.view (Option.some.inj hkey).symm
  · split at hkey
    · obtain rfl := Option.some.inj hkey
      exact view_clearDisplayed s
    · split at hkey
      · exact congrArg Kernel.view (Option.some.inj hkey).symm
      · split at hkey
        · obtain ⟨middle, hput, hpush⟩ := Option.bind_eq_some_iff.mp hkey
          exact (view_pushKey hpush).trans (view_putc2screen hput)
        · exact congrArg Kernel.view (Option.some.inj hkey).symm

theorem view_keyboardTab {s next : Kernel}
    (hkey : keyboardTab s = some next) : next.view = s.view := by
  unfold keyboardTab at hkey
  generalize List.replicate 4 space = blanks at hkey
  induction blanks generalizing s with
  | nil => exact congrArg Kernel.view (Option.some.inj hkey).symm
  | cons c rest ih =>
      obtain ⟨middle, hstep, hrest⟩ := run_cons_eq_some.mp hkey
      obtain ⟨echoed, hput, hpush⟩ := Option.bind_eq_some_iff.mp hstep
      exact (ih hrest).trans ((view_pushKey hpush).trans (view_putc2screen hput))

theorem view_keyboardBackspace {s next : Kernel}
    (hkey : keyboardBackspace s = some next) : next.view = s.view := by
  unfold keyboardBackspace at hkey
  split at hkey
  · obtain ⟨echoed, hput, rfl⟩ := Option.map_eq_some_iff.mp hkey
    have hdrop := view_modifyTerminal_of_eq (s := echoed) (t := echoed.terminalDisplayed)
      (f := fun term => { term with numBuf := term.numBuf - 1 }) rfl rfl rfl
    exact hdrop.trans (view_putc2screen hput)
  · exact congrArg Kernel.view (Option.some.inj hkey).symm

theorem view_keyboardEnter {s next : Kernel}
    (hkey : keyboardEnter s = some next) : next.view = s.view := by
  unfold keyboardEnter at hkey
  split at hkey
  · exact congrArg Kernel.view (Option.some.inj hkey).symm
  · obtain ⟨stored, hpush, hmap⟩ := Option.bind_eq_some_iff.mp hkey
    obtain ⟨echoed, hput, rfl⟩ := Option.map_eq_some_iff.mp hmap
    have hline := view_modifyTerminal_of_eq (s := echoed) (t := echoed.terminalDisplayed)
      (f := fun term => { term with bufFlag := term.bufFlag + 1 }) rfl rfl rfl
    exact hline.trans ((view_putc2screen hput).trans (view_pushKey hpush))

theorem view_terminalRead {s next : Kernel} {nbytes : ℕ} {bytes : List UInt8}
    (hread : terminalRead s nbytes = some (next, bytes)) : next.view = s.view := by
  unfold terminalRead at hread
  split at hread
  · contradiction
  · obtain ⟨line, _, heq⟩ := Option.map_eq_some_iff.mp hread
    obtain ⟨rfl, rfl⟩ := Prod.mk.inj heq
    exact view_modifyTerminal_of_eq rfl rfl rfl

/-! ## Nor do the devices -/

@[simp] theorem view_enableIrq (s : Kernel) (irqNum : ℕ) :
    (enableIrq s irqNum).view = s.view := by
  unfold enableIrq
  split <;> rfl

@[simp] theorem view_disableIrq (s : Kernel) (irqNum : ℕ) :
    (disableIrq s irqNum).view = s.view := by
  unfold disableIrq
  split <;> rfl

theorem view_rtcWrite {s next : Kernel} {value : BitVec 32}
    (hwrite : rtcWrite s value = some next) : next.view = s.view := by
  obtain ⟨isPower, _, rfl⟩ := Option.map_eq_some_iff.mp hwrite
  rw [view_enableIrq]
  exact view_disableIrq s irqRtc

@[simp] theorem view_mapVidmap (link : Link) (s : Kernel) :
    (mapVidmap link s).view = s.view := by
  unfold mapVidmap
  split <;> rfl

end VirtualOS
