import VirtualOS.ProcessMoves
import Mathlib.Tactic

/-!
# Every operation is a move

The calls, the interrupts and the exceptions are unfolded once, here, and read
as moves of the process view.  `step_cases` collects them: an operation either
leaves the running process alive and is a `Move`, or ends it and is an `End`.
All later results about processes start from these two relations.
-/

namespace VirtualOS

open PartialRuns

/-! ## Calls on descriptors -/

def CallResult.kernel : CallResult → Kernel
  | .returned _ _ s => s
  | .pageFault s => s

/-- What a call on descriptors does to the view it started from. -/
def CallResult.Moves (v : ProcessView) (effect : Option FdEffect) : CallResult → Prop
  | .returned _ _ s => Move v effect s.view
  | .pageFault s => s.view = v

theorem Move.of_eq {v v' : ProcessView} {effect : Option FdEffect} (heq : v' = v) :
    Move v effect v' := by
  subst heq
  exact .stay effect

theorem Move.of_eq_dispatch {v v' : ProcessView} (t : Fin 3) (cpu : Cpu)
    (hflag : v.flag t ≠ 0) (heq : v' = (v.save cpu).dispatch t) :
    Move v none v' := by
  subst heq
  exact .dispatch t cpu hflag

theorem fopsRead_moves {img : Image} {s : Kernel} {fd : Fin 8} {nbytes : ℕ}
    {fops : Option FileType} {result : CallResult}
    (hread : fopsRead img s fd nbytes fops = some result) :
    result.Moves s.view (some (.advances fd)) := by
  cases fops with
  | none =>
      obtain rfl := Option.some.inj hread
      rfl
  | some row =>
      cases row with
      | rtc =>
          obtain rfl := Option.some.inj hread
          exact .stay _
      | dir =>
          obtain rfl := Option.some.inj hread
          unfold dirRead
          split
          · exact .stay _
          · split
            · exact .stay _
            · exact .enumerated fd
      | file =>
          obtain rfl := Option.some.inj hread
          exact .touch _ _ (.advanced fd _)
      | term =>
          obtain ⟨⟨next, bytes⟩, hline, rfl⟩ := Option.map_eq_some_iff.mp hread
          exact .of_eq (view_terminalRead hline)

theorem read_moves {img : Image} {s : Kernel} {fd nbytes : ℤ} {buf : UserPointer}
    {result : CallResult} (hread : read img s fd buf nbytes = some result) :
    result.Moves s.view ((fdIndex fd).map .advances) := by
  unfold read at hread
  split at hread
  · rename_i hindex
    rw [hindex]
    split at hread
    · obtain rfl := Option.some.inj hread
      exact .stay _
    · split at hread
      · obtain rfl := Option.some.inj hread
        exact .stay _
      · exact fopsRead_moves hread
  · obtain rfl := Option.some.inj hread
    exact .stay _

def CallResult.Keeps (v : ProcessView) : CallResult → Prop
  | .returned _ _ s => s.view = v
  | .pageFault s => s.view = v

theorem CallResult.Keeps.moves {v : ProcessView} {effect : Option FdEffect}
    {result : CallResult} (hkeeps : result.Keeps v) : result.Moves v effect := by
  cases result with
  | returned value bytes s => exact .of_eq hkeeps
  | pageFault s => exact hkeeps

theorem CallResult.Keeps.view_eq {v : ProcessView} {result : CallResult}
    (hkeeps : result.Keeps v) : result.kernel.view = v := by
  cases result <;> exact hkeeps

theorem fopsWrite_keeps {s : Kernel} {buf : ℕ → UInt8} {nbytes : ℕ}
    {fops : Option FileType} {result : CallResult}
    (hwrite : fopsWrite s buf nbytes fops = some result) : result.Keeps s.view := by
  cases fops with
  | none =>
      obtain rfl := Option.some.inj hwrite
      rfl
  | some row =>
      cases row with
      | rtc =>
          obtain ⟨next, hrate, rfl⟩ := Option.map_eq_some_iff.mp hwrite
          exact view_rtcWrite hrate
      | dir =>
          obtain rfl := Option.some.inj hwrite
          rfl
      | file =>
          obtain rfl := Option.some.inj hwrite
          rfl
      | term =>
          obtain ⟨next, hprint, rfl⟩ := Option.map_eq_some_iff.mp hwrite
          exact view_printLiteral hprint

theorem write_keeps {s : Kernel} {fd nbytes : ℤ} {buf : UserPointer}
    {result : CallResult} (hwrite : write s fd buf nbytes = some result) :
    result.Keeps s.view := by
  unfold write at hwrite
  split at hwrite
  · split at hwrite
    · obtain rfl := Option.some.inj hwrite
      rfl
    · exact fopsWrite_keeps hwrite
  · obtain rfl := Option.some.inj hwrite
    rfl

theorem write_moves {s : Kernel} {fd nbytes : ℤ} {buf : UserPointer}
    {result : CallResult} (hwrite : write s fd buf nbytes = some result) :
    result.Moves s.view none :=
  (write_keeps hwrite).moves

/-! Calls for no descriptor keep the view. -/

theorem read_keeps {img : Image} {s : Kernel} {fd nbytes : ℤ} {buf : UserPointer}
    {result : CallResult} (hread : read img s fd buf nbytes = some result)
    (hindex : fdIndex fd = none) : result.Keeps s.view := by
  simp only [read, hindex] at hread
  obtain rfl := Option.some.inj hread
  rfl

theorem close_keeps {s : Kernel} {fd : ℤ} (hindex : fdIndex fd = none) :
    (close s fd).Keeps s.view := by
  simp only [close, hindex]
  rfl

theorem one_lt_of_mem_openSlots {fd : Fin 8} (hfd : fd ∈ openSlots) : 1 < fd.val := by
  revert fd
  decide

theorem view_open (s : Kernel) (fd : Fin 8) (row : FileType) (inode : ℕ) :
    ((s.modifyFd s.pcbPtr fd fun desc =>
      { desc with fops := some row, inode := inode }).modifyFd s.pcbPtr fd fun desc =>
        { desc with flags := 1, filePos := 0 }).view =
      s.view.touch (s.view.currentPcb.setFd fd ⟨some row, inode, 0, 1⟩) := by
  simp [Kernel.view, Kernel.modifyFd, Kernel.modifyPcb, ProcessView.touch,
    ProcessView.currentPcb, ProcessView.pcbPtr, Pcb.setFd, Kernel.pcbPtr]

theorem rtcOpen_isSome (s : Kernel) : ∃ rated, rtcOpen s = some rated := by
  have hpower : powerOfTwo 2 = some true := by decide
  rw [rtcOpen, rtcWrite, hpower]
  exact ⟨_, rfl⟩

theorem openByType_spec (s : Kernel) (fd : Fin 8) {dentry : Dentry}
    (htype : dentry.fileType ≤ 2) :
    ∃ next row inode, openByType s fd dentry = some next ∧
      (next.modifyFd next.pcbPtr fd fun desc => { desc with flags := 1, filePos := 0 }).view =
        (s.view.touch (s.view.currentPcb.setFd fd ⟨some row, inode, 0, 1⟩)).setDirIndex
          (if dentry.fileType = 1 then 0 else s.dirIndex) ∧
      (dentry.fileType = 1 → row = .dir) ∧
      (dentry.fileType = 2 → row = .file ∧ inode = dentry.inodeNum) := by
  unfold openByType
  split
  · rename_i hzero
    obtain ⟨rated, hrate⟩ := rtcOpen_isSome s
    refine ⟨_, .rtc, 0, Option.map_eq_some_iff.mpr ⟨rated, hrate, rfl⟩, ?_, by omega, by omega⟩
    rw [if_neg (by omega)]
    refine (view_open rated fd .rtc 0).trans ?_
    rw [view_rtcWrite hrate]
    rfl
  · split
    · exact ⟨_, .dir, 0, rfl, view_open (dirOpen s) fd .dir 0, fun _ => rfl, by omega⟩
    · split
      · exact ⟨_, .file, dentry.inodeNum, rfl, view_open s fd .file dentry.inodeNum, by omega,
          fun _ => ⟨rfl, rfl⟩⟩
      · omega

theorem fdIndex_val (fd : Fin 8) : fdIndex fd.val = some fd := by
  unfold fdIndex
  rw [dif_pos (by omega)]
  simp

/-- The row of `fops_table` for the type of a directory entry. -/
def typeRow : ℕ → Option FileType
  | 0 => some .rtc
  | 1 => some .dir
  | 2 => some .file
  | _ => none

/-- The entry that an operation opens, whether or not there is a descriptor for it. -/
def Op.opened (img : Image) : Op → Option Dentry
  | .openFile filename => filename.bind (readDentryByName img)
  | _ => none

/-- No entry without a row is opened while the process has a free descriptor. -/
def NoUntypedOpen (img : Image) (s : Kernel) (op : Op) : Prop :=
  ∀ dentry ∈ op.opened img, typeRow dentry.fileType = none →
    ∀ fd : Fin 8, 1 < fd.val → (s.fileDesc fd).flags ≠ 0

instance NoUntypedOpen.decidable (img : Image) (s : Kernel) (op : Op) :
    Decidable (NoUntypedOpen img s op) := by
  unfold NoUntypedOpen
  infer_instance

theorem typeRow_eq_none {type : ℕ} (htype : 2 < type) : typeRow type = none := by
  unfold typeRow
  split
  · omega
  · omega
  · omega
  · rfl

theorem typeRow_ne_none {type : ℕ} (htype : type ≤ 2) : typeRow type ≠ none := by
  interval_cases type <;> simp [typeRow]

theorem NoUntypedOpen.of_opened_none {img : Image} {s : Kernel} {op : Op}
    (hnone : op.opened img = none) : NoUntypedOpen img s op := by
  intro dentry hmem
  rw [hnone] at hmem
  contradiction

/-- An entry that gets a descriptor has one of the three types. -/
theorem NoUntypedOpen.fileType_le {img : Image} {s : Kernel} {filename : Option (List UInt8)}
    {dentry : Dentry} {fd : Fin 8} (htyped : NoUntypedOpen img s (.openFile filename))
    (hfound : filename.bind (readDentryByName img) = some dentry)
    (hfind : openSlots.find? (fun fd => (s.fileDesc fd).flags = 0) = some fd) :
    dentry.fileType ≤ 2 := by
  have hfree : (s.fileDesc fd).flags = 0 := by simpa using List.find?_some hfind
  have hfd : 1 < fd.val := one_lt_of_mem_openSlots (List.mem_of_find?_eq_some hfind)
  by_contra hodd
  exact htyped dentry hfound (typeRow_eq_none (by omega)) fd hfd hfree

theorem openFile_move {img : Image} {s next : Kernel} {filename : Option (List UInt8)}
    {value : ℤ} {bytes : List UInt8} (htyped : NoUntypedOpen img s (.openFile filename))
    (hopen : openFile img s filename = some (.returned value bytes next)) :
    Move s.view ((fdIndex value).map .opens) next.view := by
  unfold openFile at hopen
  split at hopen
  · obtain ⟨rfl, _, rfl⟩ := CallResult.returned.inj (Option.some.inj hopen)
    exact .stay _
  · rename_i dentry hdentry
    split at hopen
    · obtain ⟨rfl, _, rfl⟩ := CallResult.returned.inj (Option.some.inj hopen)
      exact .stay _
    · rename_i fd hfind
      obtain ⟨opened, hnext, heq⟩ := Option.map_eq_some_iff.mp hopen
      obtain ⟨rfl, _, rfl⟩ := CallResult.returned.inj heq
      have hfree : (s.fileDesc fd).flags = 0 := by simpa using List.find?_some hfind
      have hfd : 1 < fd.val := one_lt_of_mem_openSlots (List.mem_of_find?_eq_some hfind)
      obtain ⟨set, row, inode, hset, hview, _, _⟩ :=
        openByType_spec s fd (htyped.fileType_le hdentry hfind)
      obtain rfl := Option.some.inj (hset.symm.trans hnext)
      rw [hview, fdIndex_val]
      by_cases hdir : dentry.fileType = 1
      · rw [if_pos hdir]
        exact .openedDir fd _ (.opened fd row inode hfd hfree)
      · rw [if_neg hdir]
        exact .touch _ _ (.opened fd row inode hfd hfree)

theorem openFile_keeps {img : Image} {s next : Kernel} {filename : Option (List UInt8)}
    {value : ℤ} {bytes : List UInt8}
    (hopen : openFile img s filename = some (.returned value bytes next))
    (hindex : fdIndex value = none) : next.view = s.view := by
  unfold openFile at hopen
  split at hopen
  · obtain ⟨_, _, rfl⟩ := CallResult.returned.inj (Option.some.inj hopen)
    rfl
  · split at hopen
    · obtain ⟨_, _, rfl⟩ := CallResult.returned.inj (Option.some.inj hopen)
      rfl
    · rename_i fd _
      obtain ⟨opened, _, heq⟩ := Option.map_eq_some_iff.mp hopen
      obtain ⟨rfl, _, _⟩ := CallResult.returned.inj heq
      rw [fdIndex_val] at hindex
      contradiction

theorem close_moves {s : Kernel} {fd : ℤ} (hcallable : s.view.currentPcb.Callable) :
    (close s fd).Moves s.view ((fdIndex fd).map .closes) ∧ (close s fd).faults = false := by
  unfold close
  split
  · exact ⟨.stay _, rfl⟩
  · rename_i index hindex
    rw [hindex]
    split
    · exact ⟨.stay _, rfl⟩
    · rename_i hfd
      split
      · exact ⟨.stay _, rfl⟩
      · rename_i hflags
        have hval : 1 < index.val := by
          unfold fdIndex at hindex
          split at hindex
          · obtain rfl := Option.some.inj hindex
            simp only
            omega
          · contradiction
        have hfops : ((s.modifyFd s.pcbPtr index fun desc =>
            { desc with flags := 0 }).fileDesc index).fops = (s.fileDesc index).fops := by
          simp [Kernel.fileDesc, Kernel.modifyFd, Kernel.modifyPcb, Kernel.pcbPtr]
        dsimp only
        rw [hfops]
        split
        · rename_i hnone
          exact absurd hnone (hcallable index hval hflags)
        · exact ⟨.touch _ _ (.closed index hval), rfl⟩

/-! ## `execute` -/

/-- A program that `execute` accepts whatever its stack holds. -/
def Image.Loadable (img : Image) (name : List UInt8) : Prop :=
  ∃ dentry, readDentryByName img name = some dentry ∧
    (∀ stale, readWord img dentry.inodeNum 0 stale = exeMagicNumber) ∧
    (readData img dentry.inodeNum 0 fourMb.toNat).2.length ≤ imageRoom

theorem freeSlot_eq_some {s : Kernel} {num : ℕ} (hfind : freeSlot s = some num) :
    s.view.Free num := by
  have hmem := List.mem_of_find?_eq_some hfind
  have hzero := List.find?_some hfind
  simp only [List.mem_range'_1] at hmem
  exact ⟨hmem.1, by omega, of_decide_eq_true hzero⟩

theorem freeSlot_isSome {s : Kernel} {num : ℕ} (hfree : s.view.Free num) :
    ∃ found, freeSlot s = some found := by
  have hsome : (freeSlot s).isSome := by
    unfold freeSlot
    rw [List.find?_isSome]
    obtain ⟨hpos, hmax, hzero⟩ := hfree
    refine ⟨num, ?_, decide_eq_true hzero⟩
    simp only [List.mem_range'_1]
    omega
  exact Option.isSome_iff_exists.mp hsome

theorem view_startProcess {s : Kernel} {num : ℕ} {argument : List UInt8}
    {frame : StackFrame} (hcurrent : s.currentProcessNum = s.running.processNum) :
    (startProcess s num argument frame).view = s.view.start num argument frame := by
  simp only [startProcess, Kernel.view, ProcessView.start, Kernel.setPageDirectory,
    Kernel.modifyPcb, Kernel.modifyTerminal, hcurrent, ProcessView.mk.injEq, true_and, and_true]
  refine ⟨rfl, by simp, ?_, ?_, ?_⟩ <;>
  · funext u
    by_cases hu : u = s.terminalNum
    · subst hu
      simp
    · simp [hu]

def Execution.kernel : Execution → Kernel
  | .returned _ s => s
  | .started s _ _ => s

/-- What `execute` does to the view it started from. -/
def Execution.Moves (v : ProcessView) (frame : StackFrame) : Execution → Prop
  | .returned _ s => s.view = v
  | .started s _ _ => ∃ num argument, v.Free num ∧ s.view = v.start num argument frame

/-- The entry of the file that `execute` decides to run. -/
def acceptedFile (img : Image) (command : List UInt8) (frame : StackFrame) : Option Dentry :=
  (readDentryByName img (parseCommand command).1).filter fun dentry =>
    readWord img dentry.inodeNum 0 frame.exeHeader = exeMagicNumber

theorem executeCommit_eq_some {img : Image} {s : Kernel} {command : List UInt8} {num : ℕ}
    {frame : StackFrame} {execution : Execution}
    (hcommit : executeCommit img s command num frame = some execution) :
    ((parseCommand command).1.length < keyboardBufSize ∧
      (parseCommand command).2.length < keyboardBufSize) ∧
      ((acceptedFile img command frame = none ∧ execution = .returned (-1) s) ∨
        ∃ dentry, acceptedFile img command frame = some dentry ∧
          (readData img dentry.inodeNum 0 fourMb.toNat).2.length ≤ imageRoom ∧
          execution = .started (startProcess s num (parseCommand command).2 frame)
            (readWord img dentry.inodeNum 24 frame.entry)
            (readData img dentry.inodeNum 0 fourMb.toNat).2) := by
  unfold executeCommit at hcommit
  dsimp only at hcommit
  split at hcommit
  · contradiction
  · rename_i hshort
    refine ⟨by omega, ?_⟩
    split at hcommit
    · rename_i hmissing
      exact .inl ⟨by simp [acceptedFile, hmissing], (Option.some.inj hcommit).symm⟩
    · rename_i dentry hfound
      split at hcommit
      · rename_i hmagic
        exact .inl ⟨by simp [acceptedFile, hfound, hmagic, Option.filter],
          (Option.some.inj hcommit).symm⟩
      · rename_i hmagic
        split at hcommit
        · contradiction
        · rename_i hroom
          refine .inr ⟨dentry, ?_, not_lt.mp hroom, (Option.some.inj hcommit).symm⟩
          simpa [acceptedFile, hfound, Option.filter] using hmagic

theorem execute_eq_some {img : Image} {s : Kernel} {command : Option (List UInt8)}
    {frame : StackFrame} {execution : Execution}
    (hexecute : execute img s command frame = some execution) :
    (command = none ∧ execution = .returned (-1) (loadCurrentProcess s)) ∨
      ∃ line, command = some line ∧
        ((freeSlot (loadCurrentProcess s) = none ∧
            ∃ printed, printLiteral (loadCurrentProcess s) noMoreProcess = some printed ∧
              execution = .returned 0 printed) ∨
          ∃ num, freeSlot (loadCurrentProcess s) = some num ∧
            executeCommit img (loadCurrentProcess s) line num frame = some execution) := by
  unfold execute at hexecute
  dsimp only at hexecute
  split at hexecute
  · exact .inl ⟨rfl, (Option.some.inj hexecute).symm⟩
  · rename_i line
    refine .inr ⟨line, rfl, ?_⟩
    split at hexecute
    · rename_i hfull
      obtain ⟨printed, hprint, rfl⟩ := Option.map_eq_some_iff.mp hexecute
      exact .inl ⟨hfull, printed, hprint, rfl⟩
    · rename_i num hfind
      exact .inr ⟨num, hfind, hexecute⟩

theorem execute_eq_started {img : Image} {s next : Kernel} {command : Option (List UInt8)}
    {frame : StackFrame} {entry image : List UInt8}
    (hstart : execute img s command frame = some (.started next entry image)) :
    ∃ line num dentry, command = some line ∧ freeSlot (loadCurrentProcess s) = some num ∧
      (parseCommand line).1.length < keyboardBufSize ∧
      (parseCommand line).2.length < keyboardBufSize ∧
      acceptedFile img line frame = some dentry ∧
      (readData img dentry.inodeNum 0 fourMb.toNat).2.length ≤ imageRoom ∧
      next = startProcess (loadCurrentProcess s) num (parseCommand line).2 frame ∧
      entry = readWord img dentry.inodeNum 24 frame.entry ∧
      image = (readData img dentry.inodeNum 0 fourMb.toNat).2 := by
  obtain ⟨_, hreturned⟩ | ⟨line, hline, ⟨_, _, _, hreturned⟩ | ⟨num, hfind, hcommit⟩⟩ :=
    execute_eq_some hstart
  · contradiction
  · contradiction
  · obtain ⟨⟨hname, hargument⟩, ⟨_, hreturned⟩ | ⟨dentry, haccepted, hroom, hstarted⟩⟩ :=
      executeCommit_eq_some hcommit
    · contradiction
    · obtain ⟨hnext, hentry, himage⟩ := Execution.started.inj hstarted
      exact ⟨line, num, dentry, hline, hfind, hname, hargument, haccepted, hroom, hnext, hentry,
        himage⟩

theorem executeCommit_moves {img : Image} {s : Kernel} {command : List UInt8} {num : ℕ}
    {frame : StackFrame} {execution : Execution}
    (hcurrent : s.currentProcessNum = s.running.processNum) (hfree : s.view.Free num)
    (hcommit : executeCommit img s command num frame = some execution) :
    execution.Moves s.view frame := by
  obtain ⟨_, ⟨_, rfl⟩ | ⟨_, _, _, rfl⟩⟩ := executeCommit_eq_some hcommit
  · rfl
  · exact ⟨num, _, hfree, view_startProcess hcurrent⟩

theorem execute_moves {img : Image} {s : Kernel} {command : Option (List UInt8)}
    {frame : StackFrame} {execution : Execution}
    (hexecute : execute img s command frame = some execution) :
    execution.Moves s.view frame := by
  obtain ⟨_, rfl⟩ | ⟨_, _, ⟨_, _, hprint, rfl⟩ | ⟨_, hfind, hcommit⟩⟩ := execute_eq_some hexecute
  · rfl
  · exact (view_printLiteral hprint).trans rfl
  · exact executeCommit_moves (s := loadCurrentProcess s) rfl (freeSlot_eq_some hfind) hcommit

theorem execute_of_accepted {img : Image} {s : Kernel} {line : List UInt8} {num : ℕ}
    {frame : StackFrame} {dentry : Dentry}
    (hfound : freeSlot (loadCurrentProcess s) = some num)
    (hname : (parseCommand line).1.length < keyboardBufSize)
    (hargument : (parseCommand line).2.length < keyboardBufSize)
    (haccepted : acceptedFile img line frame = some dentry)
    (hroom : (readData img dentry.inodeNum 0 fourMb.toNat).2.length ≤ imageRoom) :
    execute img s (some line) frame =
      some (.started (startProcess (loadCurrentProcess s) num (parseCommand line).2 frame)
        (readWord img dentry.inodeNum 24 frame.entry)
        (readData img dentry.inodeNum 0 fourMb.toNat).2) := by
  obtain ⟨hdentry, hmagic⟩ := Option.filter_eq_some_iff.mp haccepted
  have hshort : ¬ ((parseCommand line).1.length ≥ keyboardBufSize ∨
      (parseCommand line).2.length ≥ keyboardBufSize) := by omega
  simp only [execute, hfound, executeCommit, if_neg hshort, hdentry, of_decide_eq_true hmagic,
    ne_eq, not_true_eq_false, if_false, if_neg (not_lt.mpr hroom)]

theorem Image.Loadable.acceptedFile {img : Image} (hshell : img.Loadable shellName)
    (frame : StackFrame) : ∃ dentry, VirtualOS.acceptedFile img shellName frame = some dentry ∧
      (readData img dentry.inodeNum 0 fourMb.toNat).2.length ≤ imageRoom := by
  obtain ⟨dentry, hdentry, hmagic, hroom⟩ := hshell
  have hparse : parseCommand shellName = (shellName, []) := by decide
  refine ⟨dentry, ?_, hroom⟩
  rw [VirtualOS.acceptedFile, hparse, Option.filter_eq_some_iff]
  exact ⟨hdentry, decide_eq_true (hmagic _)⟩

theorem execute_shell_eq {img : Image} {s : Kernel} {num : ℕ} (frame : StackFrame)
    (hshell : img.Loadable shellName)
    (hfound : freeSlot (loadCurrentProcess s) = some num) :
    ∃ entry image, execute img s (some shellName) frame =
      some (.started (startProcess (loadCurrentProcess s) num [] frame) entry image) := by
  obtain ⟨dentry, haccepted, hroom⟩ := hshell.acceptedFile frame
  exact ⟨_, _, execute_of_accepted hfound (by decide) (by decide) haccepted hroom⟩

theorem execute_shell {img : Image} {s : Kernel} {num : ℕ} (frame : StackFrame)
    (hshell : img.Loadable shellName) (hfree : s.view.Free num) :
    ∃ next entry image,
      execute img s (some shellName) frame = some (.started next entry image) := by
  obtain ⟨found, hfound⟩ := freeSlot_isSome (s := loadCurrentProcess s) hfree
  obtain ⟨entry, image, hexecute⟩ := execute_shell_eq frame hshell hfound
  exact ⟨_, entry, image, hexecute⟩

/-! ## `halt` -/

def cleanFds (fds : List (Fin 8)) (pcb : Pcb) : Pcb :=
  { pcb with fileDescArray := fun fd =>
      if fd ∈ fds ∧ (pcb.fileDescArray fd).flags = 1 then
        { pcb.fileDescArray fd with flags := 0 }
      else pcb.fileDescArray fd }

theorem cleanFds_openSlots (pcb : Pcb) : cleanFds openSlots pcb = cleanPcb pcb := by
  have hmem : ∀ fd : Fin 8, fd ∈ openSlots ↔ 1 < fd.val := by decide
  simp only [cleanFds, cleanPcb, hmem]

theorem Kernel.modifyPcb_eq_self {s : Kernel} {address : BitVec 32} {f : Pcb → Pcb}
    (hself : f (s.pcb address) = s.pcb address) : s.modifyPcb address f = s := by
  simp [Kernel.modifyPcb, hself]

theorem cleanFds_cons (fd : Fin 8) (rest : List (Fin 8)) (pcb : Pcb) :
    cleanFds (fd :: rest) pcb =
      cleanFds rest (if (pcb.fileDescArray fd).flags = 1 then
        pcb.setFd fd { pcb.fileDescArray fd with flags := 0 } else pcb) := by
  unfold cleanFds
  split
  · rename_i hflags
    simp only [Pcb.setFd, Pcb.mk.injEq, and_true]
    funext other
    by_cases hother : other = fd
    · subst hother
      simp [hflags]
    · simp [hother]
  · rename_i hflags
    simp only [Pcb.mk.injEq, and_true]
    funext other
    by_cases hother : other = fd
    · subst hother
      simp [hflags]
    · simp [hother]

theorem Pcb.Callable.close {pcb : Pcb} (hcallable : pcb.Callable) (fd : Fin 8) :
    (pcb.setFd fd { pcb.fileDescArray fd with flags := 0 }).Callable := by
  intro other hother hflags
  by_cases hne : other = fd
  · subst hne
    simp [Pcb.setFd] at hflags
  · simp only [Pcb.setFd, Function.update_of_ne hne] at hflags ⊢
    exact hcallable other hother hflags

theorem close_eq_returned {s : Kernel} {fd : Fin 8} (hfd : 1 < fd.val)
    (hflags : (s.fileDesc fd).flags = 1) (hfops : (s.fileDesc fd).fops ≠ none) :
    close s fd.val = .returned 0 [] (s.modifyFd s.pcbPtr fd fun desc =>
      { desc with flags := 0 }) := by
  have hindex := fdIndex_val fd
  have hone : ¬ ((fd.val : ℤ) ≤ 1) := by omega
  have hkeep : ((s.modifyFd s.pcbPtr fd fun desc =>
      { desc with flags := 0 }).fileDesc fd).fops = (s.fileDesc fd).fops := by
    simp [Kernel.fileDesc, Kernel.modifyFd, Kernel.modifyPcb, Kernel.pcbPtr]
  unfold close
  simp only [hindex, hone, if_false, hflags, one_ne_zero, hkeep]
  cases hrow : (s.fileDesc fd).fops with
  | none => exact absurd hrow hfops
  | some row => rfl

theorem haltCleanFds_eq {s : Kernel} {fds : List (Fin 8)}
    (hfds : ∀ fd ∈ fds, 1 < fd.val) (hcallable : (s.pcb s.pcbPtr).Callable) :
    haltCleanFds s.pcbPtr fds s = .returned 0 [] (s.modifyPcb s.pcbPtr (cleanFds fds)) := by
  induction fds generalizing s with
  | nil =>
      rw [Kernel.modifyPcb_eq_self (by simp [cleanFds])]
      rfl
  | cons fd rest ih =>
      have hrest : ∀ other ∈ rest, 1 < other.val := fun other hother =>
        hfds other (by simp [hother])
      unfold haltCleanFds haltCleanFd
      by_cases hflags : ((s.pcb s.pcbPtr).fileDescArray fd).flags = 1
      · have hfops := hcallable fd (hfds fd (by simp)) (by simp [hflags])
        rw [if_pos hflags, close_eq_returned (hfds fd (by simp)) hflags hfops]
        have hclosed := ih (s := s.modifyFd s.pcbPtr fd fun desc => { desc with flags := 0 })
          hrest (by simpa [Kernel.modifyFd, Kernel.modifyPcb, Kernel.pcbPtr, Pcb.setFd] using
            hcallable.close fd)
        refine hclosed.trans ?_
        congr 1
        unfold Kernel.pcbPtr at hflags
        simp [Kernel.modifyFd, Kernel.modifyPcb, Kernel.pcbPtr, cleanFds_cons, hflags, Pcb.setFd]
      · rw [if_neg hflags]
        refine (ih hrest hcallable).trans ?_
        congr 1
        simp [Kernel.modifyPcb, cleanFds_cons, hflags]

theorem view_haltFreeSlot {s : Kernel} (hcurrent : s.currentProcessNum = s.running.processNum) :
    (haltFreeSlot s).view =
      { s.view with process := Function.update s.view.process s.view.current 0 } := by
  simp only [haltFreeSlot, hcurrent]
  rfl

theorem view_haltCountDown (s : Kernel) :
    (haltCountDown s).view =
      { s.view with
        totalProcess := Function.update s.view.totalProcess s.view.terminalNum
          (s.view.totalProcess s.view.terminalNum - 1) } := by
  rw [haltCountDown, view_modifyTerminal, update_view_processNum, update_view_flag]
  rfl

theorem view_haltRelease (s : Kernel) :
    (haltRelease s).view =
      { s.view with
        process := Function.update s.process s.view.current 0
        totalProcess := Function.update s.view.totalProcess s.terminalNum
          (s.view.totalProcess s.terminalNum - 1) } := by
  rw [haltRelease, view_haltCountDown, view_haltFreeSlot rfl]
  rfl

theorem view_haltForgetProcess (s : Kernel) :
    (haltForgetProcess s).view =
      { s.view with processNum := Function.update s.view.processNum s.terminalNum 0 } := by
  rw [haltForgetProcess, view_modifyTerminal, update_view_flag, update_view_totalProcess]

theorem haltRestore_eq {again : Kernel → Option Halting} {s : Kernel} {status : BitVec 32}
    (hcallable : (s.pcb s.pcbPtr).Callable) :
    haltRestore again s status = some (.resumed status
      (haltRestoreTss ((haltRestorePage (haltRestoreNum s s.pcbPtr)).modifyPcb s.pcbPtr
        (cleanFds openSlots)) s.pcbPtr)) := by
  have hloop : haltCleanFds s.pcbPtr openSlots (haltRestorePage (haltRestoreNum s s.pcbPtr)) =
      .returned 0 [] ((haltRestorePage (haltRestoreNum s s.pcbPtr)).modifyPcb s.pcbPtr
        (cleanFds openSlots)) :=
    haltCleanFds_eq (fun fd => one_lt_of_mem_openSlots) hcallable
  unfold haltRestore
  dsimp only
  rw [hloop]

theorem view_haltRestoreNum (s : Kernel) (pcbPtr : BitVec 32) :
    (haltRestoreNum s pcbPtr).view =
      { s.view with
        processNum := Function.update s.view.processNum s.view.terminalNum
          (s.view.pcb pcbPtr).processNumPrev } := by
  rw [haltRestoreNum, view_modifyTerminal, update_view_flag, update_view_totalProcess]
  rfl

theorem view_haltRestore (s : Kernel) :
    (haltRestoreTss ((haltRestorePage (haltRestoreNum s s.pcbPtr)).modifyPcb s.pcbPtr
      (cleanFds openSlots)) s.pcbPtr).view =
    { s.view with
      pcb := Function.update s.pcb s.pcbPtr (cleanPcb s.view.currentPcb)
      esp0 := kernelStack s.view.currentPcb.processNumPrev
      page := userPage s.view.currentPcb.processNumPrev
      processNum := Function.update s.view.processNum s.terminalNum
        s.view.currentPcb.processNumPrev } := by
  simp only [haltRestoreTss, haltRestorePage, haltRestoreNum, Kernel.modifyPcb, Kernel.view,
    Kernel.setPageDirectory, Kernel.modifyTerminal, Kernel.running, ProcessView.mk.injEq,
    true_and, and_true, cleanFds_openSlots]
  refine ⟨rfl, ?_, ?_, ?_, ?_, ?_⟩
  · simp [ProcessView.currentPcb, ProcessView.pcbPtr, Kernel.pcbPtr, cleanPcb]
  · simp [ProcessView.currentPcb, ProcessView.pcbPtr, Kernel.pcbPtr]
  all_goals
    funext u
    by_cases hu : u = s.terminalNum
    · subst hu
      simp [ProcessView.currentPcb, ProcessView.pcbPtr, Kernel.pcbPtr]
    · simp [hu]

/-- What `halt` does to the view it started from. -/
def Halting.Moves (v : ProcessView) (status : BitVec 32) (frame : StackFrame) :
    Halting → Prop
  | .resumed value s => value = status ∧ s.view = v.resume
  | .restarted s _ _ => ∃ num argument, v.totalProcess v.terminalNum - 1 = 0 ∧
      v.vacate.Free num ∧ s.view = v.vacate.start num argument frame

theorem haltRelease_totalProcess (s : Kernel) :
    (haltRelease s).running.totalProcess = s.view.totalProcess s.view.terminalNum - 1 := by
  have heq := congrArg (fun v => v.totalProcess s.terminalNum) (view_haltRelease s)
  simp only [Function.update_self] at heq
  exact heq

theorem view_haltForget_haltRelease (s : Kernel) :
    (haltForgetProcess (haltRelease s)).view = s.view.vacate := by
  rw [view_haltForgetProcess, view_haltRelease]
  rfl

theorem halt_moves {img : Image} {s : Kernel} {status : BitVec 32} {frame : StackFrame}
    {halting : Halting} (hcallable : s.view.currentPcb.Callable)
    (hhalt : halt img s status frame = some halting) :
    halting.Moves s.view status frame := by
  unfold halt haltFuel at hhalt
  dsimp only at hhalt
  split at hhalt
  · rename_i hzero
    obtain ⟨execution, hexecute, hrest⟩ := Option.bind_eq_some_iff.mp hhalt
    have hmoves := execute_moves hexecute
    rw [view_haltForget_haltRelease] at hmoves
    cases execution with
    | started next entry image =>
        obtain rfl := Option.some.inj hrest
        obtain ⟨num, argument, hfree, hview⟩ := hmoves
        exact ⟨num, argument, (haltRelease_totalProcess s).symm.trans hzero, hfree, hview⟩
    | returned value next =>
        -- the shell could not be started: `halt` goes on with the process forgotten
        have hview : next.view = s.view.vacate := hmoves
        have hnext : (next.pcb next.pcbPtr).Callable := by
          have hpcb : next.view.currentPcb.Callable := hview ▸ hcallable
          exact hpcb
        dsimp only at hrest
        rw [haltRestore_eq hnext] at hrest
        obtain rfl := Option.some.inj hrest
        refine ⟨rfl, ?_⟩
        have htable : next.pcb = s.pcb := congrArg ProcessView.pcb hview
        have hptr : next.pcbPtr = s.pcbPtr := congrArg ProcessView.pcbPtr hview
        have hnum : next.terminalNum = s.terminalNum := congrArg ProcessView.terminalNum hview
        rw [view_haltRestore, hview, htable, hptr, hnum]
        simp [ProcessView.vacate, ProcessView.resume, ProcessView.currentPcb,
          ProcessView.pcbPtr, Kernel.pcbPtr, Kernel.view]
  · rw [haltRestore_eq (s := haltRelease s) hcallable] at hhalt
    obtain rfl := Option.some.inj hhalt
    refine ⟨rfl, ?_⟩
    rw [view_haltRestore, view_haltRelease]
    rfl

/-- The last process of a terminal that has a shell to load is restarted. -/
theorem halt_restarts {img : Image} {s : Kernel} {status : BitVec 32} {frame : StackFrame}
    {halting : Halting} (hshell : img.Loadable shellName)
    (hpos : 1 ≤ s.view.current) (hmax : s.view.current ≤ processNumMax)
    (hlast : s.view.totalProcess s.view.terminalNum - 1 = 0)
    (hhalt : halt img s status frame = some halting) :
    ∃ next entry image, halting = .restarted next entry image := by
  have hown : s.view.vacate.Free s.view.current :=
    ⟨hpos, hmax, by simp [ProcessView.vacate]⟩
  obtain ⟨next, entry, image, hstart⟩ :=
    execute_shell frame hshell (view_haltForget_haltRelease s ▸ hown)
  unfold halt haltFuel at hhalt
  dsimp only at hhalt
  rw [if_pos ((haltRelease_totalProcess s).trans hlast), hstart, Option.bind_some] at hhalt
  exact ⟨next, entry, image, (Option.some.inj hhalt).symm⟩

theorem halt_ends {img : Image} {s : Kernel} {status : BitVec 32} {frame : StackFrame}
    {halting : Halting} (hshell : img.Loadable shellName)
    (hcallable : s.view.currentPcb.Callable)
    (hpos : 1 ≤ s.view.current) (hmax : s.view.current ≤ processNumMax)
    (hhalt : halt img s status frame = some halting) :
    End s.view halting.answer.1.view := by
  have hmoves := halt_moves hcallable hhalt
  cases halting with
  | resumed value next =>
      obtain ⟨-, hview⟩ := hmoves
      simp only [Halting.answer, hview]
      refine .resume fun hlast => ?_
      obtain ⟨_, _, _, heq⟩ := halt_restarts hshell hpos hmax hlast hhalt
      contradiction
  | restarted next entry image =>
      obtain ⟨num, argument, hlast, hfree, hview⟩ := hmoves
      simp only [Halting.answer, hview]
      exact .restart num argument frame hlast hfree

theorem excHandler_printed {s printed : Kernel} {exc : Exc}
    (hprint : printLiteral (if exc = .pf then s else clear s) (ascii exc.text) = some printed) :
    printed.view = s.view := by
  refine (view_printLiteral hprint).trans ?_
  split
  · rfl
  · exact view_clear s

theorem excHandler_ends {img : Image} {s : Kernel} {exc : Exc} {frame : StackFrame}
    {halting : Halting} (hshell : img.Loadable shellName)
    (hcallable : s.view.currentPcb.Callable)
    (hpos : 1 ≤ s.view.current) (hmax : s.view.current ≤ processNumMax)
    (hexc : excHandler img s exc frame = some halting) :
    End s.view halting.answer.1.view := by
  obtain ⟨printed, hprint, hhalt⟩ := Option.bind_eq_some_iff.mp hexc
  have hview := excHandler_printed hprint
  rw [← hview] at hcallable hpos hmax ⊢
  exact halt_ends hshell hcallable hpos hmax hhalt

/-! ## Interrupts -/

/-- Three rounds of the search of `pit_handler` see every terminal. -/
theorem nextStarted_flag {s : Kernel} (t : Fin 3)
    (hsome : ¬ ((s.terminalT 1).flag = 0 ∧ (s.terminalT 2).flag = 0)) :
    (s.terminalT (nextStarted s 3 t)).flag ≠ 0 := by
  simp only [nextStarted]
  split
  · assumption
  · split
    · assumption
    · split
      · assumption
      · fin_cases t <;> simp_all

theorem view_saveContext_esp0 (s : Kernel) (cpu : Cpu) (esp0 : BitVec 32) :
    { saveContext s cpu with esp0 := esp0 }.view = { s.view.save cpu with esp0 := esp0 } := rfl

theorem view_pitHandler (link : Link) {s : Kernel} (cpu : Cpu)
    (hsome : ¬ ((s.terminalT 1).flag = 0 ∧ (s.terminalT 2).flag = 0)) :
    (pitHandler link s cpu).1.view =
      (s.view.save cpu).dispatch (nextStarted s 3 (s.terminalNum + 1)) := by
  rw [pitHandler, if_neg hsome]
  dsimp only
  rw [view_saveContext_esp0, view_mapVidmap]
  simp only [ProcessView.dispatch, ProcessView.save, ProcessView.touch,
    ProcessView.currentPcb, ProcessView.pcbPtr, Kernel.view, Kernel.setPageDirectory,
    Kernel.running, Function.update_self]

theorem pitHandler_move (link : Link) (s : Kernel) (cpu : Cpu) :
    Move s.view none (pitHandler link s cpu).1.view := by
  by_cases hidle : (s.terminalT 1).flag = 0 ∧ (s.terminalT 2).flag = 0
  · rw [pitHandler, if_pos hidle]
    exact .stay _
  · exact .of_eq_dispatch (nextStarted s 3 (s.terminalNum + 1)) cpu
      (nextStarted_flag _ hidle) (view_pitHandler link cpu hidle)

theorem view_set_display (s : Kernel) (videoMem : Screen) (t : Fin 3) :
    { s with videoMem := videoMem, terminalDisplayed := t }.view = s.view := rfl

theorem view_showTerminal (s : Kernel) (t : Fin 3) : (showTerminal s t).view = s.view := by
  unfold showTerminal
  dsimp only
  rw [view_drawCursor, view_set_display]
  exact view_modifyTerminal_of_eq rfl rfl rfl

theorem showTerminal_flag (s : Kernel) (newTerminal t : Fin 3) :
    ((showTerminal s newTerminal).terminalT t).flag = (s.terminalT t).flag :=
  congrFun (congrArg ProcessView.flag (view_showTerminal s newTerminal)) t

/-- The state in which `switch_terminal` calls `execute` has the slots of the one before. -/
theorem process_beforeExecute (s : Kernel) (t : Fin 3) (cpu : Cpu) :
    (clear { saveContext (showTerminal s t) cpu with terminalNum := t }).process = s.process := by
  have hclear : (clear { saveContext (showTerminal s t) cpu with terminalNum := t }).process =
      (showTerminal s t).process := congrArg ProcessView.process (view_clear _)
  exact hclear.trans (congrArg ProcessView.process (view_showTerminal s t))

theorem switchTerminal_move {img : Image} {s next : Kernel} {t : Fin 3} {cpu : Cpu}
    {frame : StackFrame} (hswitch : switchTerminal img s t cpu frame = some next) :
    Move s.view none next.view := by
  have hshow := view_showTerminal s t
  unfold switchTerminal at hswitch
  dsimp only at hswitch
  split at hswitch
  · rename_i hnew
    have hflag : s.view.flag t = 0 := hshow ▸ hnew.2
    have hclear : (clear { saveContext (showTerminal s t) cpu with terminalNum := t }).view =
        { s.view.save cpu with terminalNum := t } := by
      rw [view_clear, ← hshow]
      rfl
    obtain ⟨execution, hexecute, rfl⟩ := Option.map_eq_some_iff.mp hswitch
    have hmoves := execute_moves hexecute
    rw [hclear] at hmoves
    cases execution with
    | returned value s' =>
        have hback : { s' with terminalNum := s.terminalNum }.view = s.view.save cpu := by
          rw [view_set_terminalNum, show s'.view = _ from hmoves]
          rfl
        exact hback ▸ .touch _ _ (.saved cpu)
    | started s' entry image =>
        obtain ⟨num, argument, hfree, hview⟩ := hmoves
        exact hview ▸ .begin t cpu num argument frame hflag hfree
  · obtain rfl := Option.some.inj hswitch
    exact .of_eq hshow

theorem altSwitch_move {img : Image} {s next : Kernel} {t : Fin 3} {cpu : Cpu}
    {frame : StackFrame} (hswitch : altSwitch img s t cpu frame = some next) :
    Move s.view none next.view := by
  unfold altSwitch at hswitch
  split at hswitch
  · exact switchTerminal_move hswitch
  · obtain rfl := Option.some.inj hswitch
    exact .stay _

theorem keyboardHandler_move {img : Image} {s next : Kernel} {scancode : ℕ} {cpu : Cpu}
    {frame : StackFrame} (hkey : keyboardHandler img s scancode cpu frame = some next) :
    Move s.view none next.view := by
  unfold keyboardHandler at hkey
  split at hkey
  case h_10 => exact altSwitch_move hkey
  case h_11 => exact altSwitch_move hkey
  case h_12 => exact altSwitch_move hkey
  case h_13 => exact .of_eq (view_keyboardTab hkey)
  case h_14 => exact .of_eq (view_keyboardBackspace hkey)
  case h_15 => exact .of_eq (view_keyboardEnter hkey)
  case h_16 => exact .of_eq (view_keyboardPrint hkey)
  all_goals
    obtain rfl := Option.some.inj hkey
    exact .stay _

@[simp] theorem view_vidmap (link : Link) (s : Kernel) (screenStart : BitVec 32) :
    (vidmap link s screenStart).2.view = s.view := by
  unfold vidmap
  split <;> rfl

/-! ## All operations -/

/-- The running process sits in a slot and its control block is callable. -/
structure ProcessView.Sound (v : ProcessView) : Prop where
  pos : 1 ≤ v.current
  le_max : v.current ≤ processNumMax
  callable : v.currentPcb.Callable

theorem answer_cases {img : Image} {frame : StackFrame} {v : ProcessView}
    {effect : Option FdEffect} {result : CallResult} {next : Kernel} {answer : Answer}
    (hshell : result.faults = true → img.Loadable shellName) (hsound : v.Sound)
    (hmoves : result.Moves v effect)
    (hanswer : result.answer img frame = some (next, answer)) :
    (result.faults = false ∧ Move v effect next.view) ∨
      (result.faults = true ∧ End v next.view) := by
  cases result with
  | returned value bytes s =>
      obtain ⟨rfl, _⟩ := Prod.mk.inj (Option.some.inj hanswer)
      exact .inl ⟨rfl, hmoves⟩
  | pageFault s =>
      obtain ⟨halting, hexc, heq⟩ := Option.map_eq_some_iff.mp hanswer
      have hview : s.view = v := hmoves
      subst hview
      have hends := excHandler_ends (hshell rfl) hsound.callable hsound.pos hsound.le_max hexc
      rw [heq] at hends
      exact .inr ⟨rfl, hends⟩

theorem step_cases {img : Image} {link : Link} {s next : Kernel} {op : Op}
    (hshell : endsProcess img s op = true → img.Loadable shellName) (hsound : s.view.Sound)
    (htyped : NoUntypedOpen img s op) (hstep : step img link s op = some next) :
    (endsProcess img s op = false ∧ Move s.view (fdEffect img s op) next.view) ∨
      (endsProcess img s op = true ∧ End s.view next.view) := by
  obtain ⟨⟨final, answer⟩, hperform, rfl⟩ := Option.map_eq_some_iff.mp hstep
  cases op with
  | execute command frame =>
      obtain ⟨execution, hexecute, heq⟩ := Option.map_eq_some_iff.mp hperform
      have hmoves := execute_moves hexecute
      refine .inl ⟨rfl, ?_⟩
      cases execution with
      | returned value s' =>
          obtain ⟨rfl, _⟩ := Prod.mk.inj heq
          exact .of_eq hmoves
      | started s' entry image =>
          obtain ⟨rfl, _⟩ := Prod.mk.inj heq
          obtain ⟨num, argument, hfree, hview⟩ := hmoves
          exact hview ▸ .start num argument frame hfree
  | halt status frame =>
      obtain ⟨halting, hhalt, heq⟩ := Option.map_eq_some_iff.mp hperform
      have hends := halt_ends (hshell rfl) hsound.callable hsound.pos hsound.le_max hhalt
      rw [heq] at hends
      exact .inr ⟨rfl, hends⟩
  | read fd buf nbytes frame =>
      obtain ⟨result, hread, hanswer⟩ := Option.bind_eq_some_iff.mp hperform
      have hends : endsProcess img s (.read fd buf nbytes frame) = result.faults := by
        simp [endsProcess, hread]
      rw [hends] at hshell ⊢
      exact answer_cases hshell hsound (read_moves hread) hanswer
  | write fd buf nbytes frame =>
      obtain ⟨result, hwrite, hanswer⟩ := Option.bind_eq_some_iff.mp hperform
      have hends : endsProcess img s (.write fd buf nbytes frame) = result.faults := by
        simp [endsProcess, hwrite]
      rw [hends] at hshell ⊢
      exact answer_cases hshell hsound (write_moves hwrite) hanswer
  | openFile filename =>
      obtain ⟨result, hopen, hanswer⟩ := Option.bind_eq_some_iff.mp hperform
      cases result with
      | returned value bytes s' =>
          obtain ⟨rfl, _⟩ := Prod.mk.inj (Option.some.inj hanswer)
          have hmove := openFile_move htyped hopen
          exact .inl ⟨rfl, by simpa [fdEffect, opensFd, hopen] using hmove⟩
      | pageFault s' => contradiction
  | close fd frame =>
      exact answer_cases hshell hsound (close_moves hsound.callable).1 hperform
  | getargs buf nbytes =>
      obtain ⟨rfl, _⟩ := Prod.mk.inj (Option.some.inj hperform)
      exact .inl ⟨rfl, .stay _⟩
  | vidmap screenStart =>
      obtain ⟨rfl, _⟩ := Prod.mk.inj (Option.some.inj hperform)
      exact .inl ⟨rfl, .of_eq (view_vidmap link s screenStart)⟩
  | exception exc frame =>
      obtain ⟨halting, hexc, heq⟩ := Option.map_eq_some_iff.mp hperform
      have hends := excHandler_ends (hshell rfl) hsound.callable hsound.pos hsound.le_max hexc
      rw [heq] at hends
      exact .inr ⟨rfl, hends⟩
  | pit cpu =>
      obtain ⟨rfl, _⟩ := Prod.mk.inj (Option.some.inj hperform)
      exact .inl ⟨rfl, pitHandler_move link s cpu⟩
  | keyboard scancode cpu frame =>
      obtain ⟨s', hkey, heq⟩ := Option.map_eq_some_iff.mp hperform
      obtain ⟨rfl, _⟩ := Prod.mk.inj heq
      exact .inl ⟨rfl, keyboardHandler_move hkey⟩
  | switchTerminal t cpu frame =>
      obtain ⟨s', hswitch, heq⟩ := Option.map_eq_some_iff.mp hperform
      obtain ⟨rfl, _⟩ := Prod.mk.inj heq
      exact .inl ⟨rfl, switchTerminal_move hswitch⟩
  | rtcInterrupt =>
      obtain ⟨rfl, _⟩ := Prod.mk.inj (Option.some.inj hperform)
      exact .inl ⟨rfl, .stay _⟩

end VirtualOS
