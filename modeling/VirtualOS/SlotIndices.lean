import VirtualOS.AccessLogs
import VirtualOS.ProcessInvariants
import Mathlib.Tactic

/-!
# The indices into the process table

The table `process` is declared with `PROCESS_NUM_MAX` entries, of which the first
stands for the kernel itself.  The search of `execute` goes from 1 to
`PROCESS_NUM_MAX`, so that there is room for six processes, and the sixth is kept behind
the table.  The operations are written out with the indices they use.  In a run from
the first shell these stay in the table exactly as long as no search starts while
slots 1 to 5 are all taken.
-/

namespace VirtualOS

open PartialRuns AccessLogs AccessLogs.Logged

/-! ## The accesses -/

def freeSlotLogged (s : Kernel) : Logged ℕ (Option ℕ) :=
  findFirst s.process (· = 0) (List.range' 1 processNumMax)

/-- The part behind `cli` takes the slot that was found, if it starts a process. -/
def executeCommitLogged (img : Image) (s : Kernel) (command : List UInt8) (num : ℕ)
    (frame : StackFrame) : Logged ℕ (Option Execution) :=
  match executeCommit img s command num frame with
  | some (.started s entry image) => access num (some (.started s entry image))
  | execution => pure execution

/-- `execute` with the indices at which it reads and writes `process`. -/
def executeLogged (img : Image) (s : Kernel) (command : Option (List UInt8))
    (frame : StackFrame) : Logged ℕ (Option Execution) :=
  let s := loadCurrentProcess s
  match command with
  | none => pure (some (.returned (-1) s))
  | some command => do
      match ← freeSlotLogged s with
      | none => pure ((printLiteral s noMoreProcess).map (.returned 0))
      | some num => executeCommitLogged img s command num frame

def haltRestoreLogged (again : Kernel → Logged ℕ (Option Halting)) (s : Kernel)
    (status : BitVec 32) : Logged ℕ (Option Halting) :=
  let pcbPtr := s.pcbPtr
  match haltCleanFds pcbPtr openSlots (haltRestorePage (haltRestoreNum s pcbPtr)) with
  | .returned _ _ s => pure (some (.resumed status (haltRestoreTss s pcbPtr)))
  | .pageFault s => again s

def haltFuelLogged (img : Image) (frame : StackFrame) :
    ℕ → Kernel → BitVec 32 → Logged ℕ (Option Halting)
  | 0, _, _ => pure none
  | fuel + 1, s, status => do
      let again := fun s =>
        whenSome (printLiteral s pageFaultText) fun s => haltFuelLogged img frame fuel s 256
      let s ← access s.running.processNum (haltRelease s)
      if s.running.totalProcess = 0 then
        let execution ← executeLogged img (haltForgetProcess s) (some shellName) frame
        whenSome execution fun
          | .started s entry image => pure (some (.restarted s entry image))
          | .returned _ s => haltRestoreLogged again s status
      else haltRestoreLogged again s status

def haltLogged (img : Image) (s : Kernel) (status : BitVec 32) (frame : StackFrame) :
    Logged ℕ (Option Halting) :=
  haltFuelLogged img frame 8 s status

def excHandlerLogged (img : Image) (s : Kernel) (exc : Exc) (frame : StackFrame) :
    Logged ℕ (Option Halting) :=
  let s := if exc = .pf then s else clear s
  whenSome (printLiteral s (ascii exc.text)) fun s => haltLogged img s 256 frame

/-- The kernel in which `switch_terminal` leaves its call of `execute`. -/
def Execution.afterSwitch (old : Fin 3) : Execution → Kernel
  | .started s _ _ => s
  | .returned _ s => { s with terminalNum := old }

def switchTerminalLogged (img : Image) (s : Kernel) (newTerminal : Fin 3) (cpu : Cpu)
    (frame : StackFrame) : Logged ℕ (Option Kernel) :=
  let s := showTerminal s newTerminal
  if newTerminal ≠ 0 ∧ (s.terminalT newTerminal).flag = 0 then do
    let s := saveContext s cpu
    let old := s.terminalNum
    let execution ←
      executeLogged img (clear { s with terminalNum := newTerminal }) (some shellName) frame
    pure (execution.map (Execution.afterSwitch old))
  else pure (some s)

def altSwitchLogged (img : Image) (s : Kernel) (newTerminal : Fin 3) (cpu : Cpu)
    (frame : StackFrame) : Logged ℕ (Option Kernel) :=
  if s.altPress ∧ s.terminalDisplayed ≠ newTerminal then
    switchTerminalLogged img s newTerminal cpu frame
  else pure (some s)

/-- Only the switches of `keyboard_handler` come to the table. -/
def keyboardHandlerLogged (img : Image) (s : Kernel) (scancode : ℕ) (cpu : Cpu)
    (frame : StackFrame) : Logged ℕ (Option Kernel) :=
  match scancode with
  | 0x3B => altSwitchLogged img s 0 cpu frame
  | 0x3C => altSwitchLogged img s 1 cpu frame
  | 0x3D => altSwitchLogged img s 2 cpu frame
  | scancode => pure (keyboardHandler img s scancode cpu frame)

def CallResult.stepLogged (img : Image) (frame : StackFrame) :
    CallResult → Logged ℕ (Option Kernel)
  | .returned _ _ s => pure (some s)
  | .pageFault s => do
      let halting ← excHandlerLogged img s .pf frame
      pure (halting.map fun halting => halting.answer.1)

/-- The state after one operation, with its accesses to `process`. -/
def stepLogged (img : Image) (link : Link) (s : Kernel) (op : Op) : Logged ℕ (Option Kernel) :=
  match op with
  | .execute command frame => do
      let execution ← executeLogged img s command frame
      pure (execution.map Execution.kernel)
  | .halt status frame => do
      let halting ← haltLogged img s status frame
      pure (halting.map fun halting => halting.answer.1)
  | .read fd buf nbytes frame =>
      whenSome (read img s fd buf nbytes) (CallResult.stepLogged img frame)
  | .write fd buf nbytes frame =>
      whenSome (write s fd buf nbytes) (CallResult.stepLogged img frame)
  | .close fd frame => (close s fd).stepLogged img frame
  | .exception exc frame => do
      let halting ← excHandlerLogged img s exc frame
      pure (halting.map fun halting => halting.answer.1)
  | .keyboard scancode cpu frame => keyboardHandlerLogged img s scancode cpu frame
  | .switchTerminal newTerminal cpu frame =>
      switchTerminalLogged img s newTerminal cpu frame
  | op => pure (step img link s op)

/-! ## The logged operations are the operations -/

section Values

variable {img : Image} {frame : StackFrame}

theorem value_freeSlotLogged (s : Kernel) : (freeSlotLogged s).value = freeSlot s :=
  value_findFirst _ _ _

theorem value_executeCommitLogged (img : Image) (s : Kernel) (command : List UInt8) (num : ℕ)
    (frame : StackFrame) :
    (executeCommitLogged img s command num frame).value =
      executeCommit img s command num frame := by
  unfold executeCommitLogged
  cases executeCommit img s command num frame with
  | none => rfl
  | some execution => cases execution <;> rfl

theorem value_executeLogged (img : Image) (s : Kernel) (command : Option (List UInt8))
    (frame : StackFrame) :
    (executeLogged img s command frame).value = execute img s command frame := by
  unfold executeLogged execute
  cases command with
  | none => rfl
  | some line =>
      dsimp only
      rw [value_bind, value_freeSlotLogged]
      cases freeSlot (loadCurrentProcess s) with
      | none => rfl
      | some num => exact value_executeCommitLogged img _ line num frame

theorem value_haltRestoreLogged (again : Kernel → Logged ℕ (Option Halting)) (s : Kernel)
    (status : BitVec 32) :
    (haltRestoreLogged again s status).value =
      haltRestore (fun s => (again s).value) s status := by
  unfold haltRestoreLogged haltRestore
  dsimp only
  cases haltCleanFds s.pcbPtr openSlots (haltRestorePage (haltRestoreNum s s.pcbPtr)) <;> rfl

theorem value_haltFuelLogged (img : Image) (frame : StackFrame) (fuel : ℕ) (s : Kernel)
    (status : BitVec 32) :
    (haltFuelLogged img frame fuel s status).value = haltFuel img frame fuel s status := by
  induction fuel generalizing s status with
  | zero => rfl
  | succ fuel ih =>
      unfold haltFuelLogged haltFuel
      dsimp only [value_bind, value_access]
      rw [value_ite, value_haltRestoreLogged, value_bind, value_whenSome, value_executeLogged]
      simp only [value_whenSome, ih]
      congr 2
      funext execution
      cases execution with
      | returned value next => simp only [value_haltRestoreLogged, value_whenSome, ih]
      | started next entry image => rfl

theorem value_haltLogged (img : Image) (s : Kernel) (status : BitVec 32) (frame : StackFrame) :
    (haltLogged img s status frame).value = halt img s status frame :=
  value_haltFuelLogged img frame 8 s status

theorem value_excHandlerLogged (img : Image) (s : Kernel) (exc : Exc) (frame : StackFrame) :
    (excHandlerLogged img s exc frame).value = excHandler img s exc frame := by
  unfold excHandlerLogged excHandler
  simp only [value_whenSome, value_haltLogged]

theorem value_switchTerminalLogged (img : Image) (s : Kernel) (t : Fin 3) (cpu : Cpu)
    (frame : StackFrame) :
    (switchTerminalLogged img s t cpu frame).value = switchTerminal img s t cpu frame := by
  unfold switchTerminalLogged switchTerminal
  dsimp only
  rw [value_ite, value_bind, value_executeLogged]
  congr 2

theorem value_altSwitchLogged (img : Image) (s : Kernel) (t : Fin 3) (cpu : Cpu)
    (frame : StackFrame) :
    (altSwitchLogged img s t cpu frame).value = altSwitch img s t cpu frame := by
  unfold altSwitchLogged altSwitch
  rw [value_ite, value_switchTerminalLogged, value_pure]

theorem value_keyboardHandlerLogged (img : Image) (s : Kernel) (scancode : ℕ) (cpu : Cpu)
    (frame : StackFrame) :
    (keyboardHandlerLogged img s scancode cpu frame).value =
      keyboardHandler img s scancode cpu frame := by
  unfold keyboardHandlerLogged
  split
  · exact value_altSwitchLogged img s 0 cpu frame
  · exact value_altSwitchLogged img s 1 cpu frame
  · exact value_altSwitchLogged img s 2 cpu frame
  · rfl

theorem CallResult.value_stepLogged (img : Image) (frame : StackFrame) (result : CallResult) :
    (result.stepLogged img frame).value = (result.answer img frame).map Prod.fst := by
  cases result with
  | returned value bytes s => rfl
  | pageFault s =>
      simp only [CallResult.stepLogged, CallResult.answer, value_bind, value_pure,
        value_excHandlerLogged, Option.map_map, Function.comp_def]

theorem value_stepLogged (img : Image) (link : Link) (s : Kernel) (op : Op) :
    (stepLogged img link s op).value = step img link s op := by
  cases op with
  | execute command frame =>
      simp only [stepLogged, step, perform, value_bind, value_pure, value_executeLogged,
        Option.map_map]
      congr 1
      funext execution
      cases execution <;> rfl
  | halt status frame =>
      simp only [stepLogged, step, perform, value_bind, value_pure, value_haltLogged,
        Option.map_map, Function.comp_def]
  | read fd buf nbytes frame =>
      simp only [stepLogged, step, perform, value_whenSome, CallResult.value_stepLogged,
        Option.map_bind]
      rfl
  | write fd buf nbytes frame =>
      simp only [stepLogged, step, perform, value_whenSome, CallResult.value_stepLogged,
        Option.map_bind]
      rfl
  | close fd frame => exact CallResult.value_stepLogged img frame _
  | exception exc frame =>
      simp only [stepLogged, step, perform, value_bind, value_pure, value_excHandlerLogged,
        Option.map_map, Function.comp_def]
  | keyboard scancode cpu frame =>
      simp only [stepLogged, step, perform, value_keyboardHandlerLogged, Option.map_map,
        Function.comp_def, Option.map_id']
  | switchTerminal t cpu frame =>
      simp only [stepLogged, step, perform, value_switchTerminalLogged, Option.map_map,
        Function.comp_def, Option.map_id']
  | openFile filename => rfl
  | getargs buf nbytes => rfl
  | vidmap screenStart => rfl
  | pit cpu => rfl
  | rtcInterrupt => rfl

end Values

/-! ## What the accesses of an operation are -/

def InTable (slots : List ℕ) : Prop := ∀ num ∈ slots, num < processNumMax

/-- Every entry of the process table that differs is one of those accessed. -/
def Kernel.ChangesOnly (s next : Kernel) (slots : List ℕ) : Prop :=
  ∀ num ∉ slots, next.process num = s.process num

theorem Kernel.ChangesOnly.of_eq {s next : Kernel} {slots : List ℕ}
    (heq : next.process = s.process) : s.ChangesOnly next slots :=
  fun num _ => congrFun heq num

section Execute

variable {img : Image} {s : Kernel} {line : List UInt8} {frame : StackFrame}

/-- One of the slots that are in the table is free. -/
def Kernel.HasRoom (s : Kernel) : Prop := ∃ num, 1 ≤ num ∧ num < processNumMax ∧ s.process num = 0

theorem find_eq_none_iff :
    ((List.range' 1 5).find? fun num => decide (s.process num = 0)) = none ↔ ¬ s.HasRoom := by
  rw [List.find?_eq_none]
  unfold Kernel.HasRoom processNumMax
  simp only [List.mem_range'_1, decide_eq_true_eq, not_exists, not_and]
  exact ⟨fun hall num hpos hlt => hall num ⟨hpos, by omega⟩,
    fun hall num hnum => hall num hnum.1 (by omega)⟩

theorem freeSlotLogged_inTable_iff : InTable (freeSlotLogged s).accesses ↔ s.HasRoom := by
  have hslots : List.range' 1 processNumMax = List.range' 1 5 ++ [6] := rfl
  have hlast : (findFirst s.process (fun taken => decide (taken = 0)) [6]).accesses = [6] := by
    unfold findFirst
    by_cases hfree : s.process 6 = 0 <;> simp [hfree, findFirst]
  unfold freeSlotLogged InTable
  rw [hslots, accesses_findFirst_append, hlast]
  by_cases hroom : s.HasRoom
  · refine iff_of_true (fun num hmem => ?_) hroom
    rw [if_neg (mt find_eq_none_iff.mp (not_not.mpr hroom)), List.append_nil] at hmem
    have hnum := List.mem_range'_1.mp (mem_of_mem_findFirst hmem)
    unfold processNumMax
    omega
  · refine iff_of_false (fun hall => ?_) hroom
    rw [if_pos (find_eq_none_iff.mpr hroom)] at hall
    exact absurd (hall 6 (by simp)) (by decide)

theorem freeSlot_lt (hroom : s.HasRoom) {num : ℕ} (hfound : freeSlot s = some num) :
    num < processNumMax := by
  obtain ⟨found, hsearch⟩ := Option.ne_none_iff_exists'.mp (mt find_eq_none_iff.mp
    (not_not.mpr hroom))
  have hslots : List.range' 1 processNumMax = List.range' 1 5 ++ [6] := rfl
  rw [freeSlot, hslots, List.find?_append, hsearch, Option.some_or] at hfound
  obtain rfl := Option.some.inj hfound
  have hmem := List.mem_range'_1.mp (List.mem_of_find?_eq_some hsearch)
  unfold processNumMax
  omega

theorem accesses_executeCommitLogged (num : ℕ) :
    (∀ slot ∈ (executeCommitLogged img s line num frame).accesses, slot = num) ∧
      ∀ next entry image, executeCommit img s line num frame = some (.started next entry image) →
        num ∈ (executeCommitLogged img s line num frame).accesses := by
  unfold executeCommitLogged
  cases executeCommit img s line num frame with
  | none => simp
  | some execution => cases execution <;> simp

theorem accesses_executeLogged (img : Image) (s : Kernel) (line : List UInt8)
    (frame : StackFrame) : ∃ commits,
    (executeLogged img s (some line) frame).accesses = (freeSlotLogged s).accesses ++ commits ∧
      (∀ slot ∈ commits, freeSlot s = some slot) ∧
      ∀ next entry image, execute img s (some line) frame = some (.started next entry image) →
        ∀ num, freeSlot s = some num → num ∈ commits := by
  unfold executeLogged
  dsimp only
  refine ⟨_, rfl, ?_, ?_⟩
  · rw [value_freeSlotLogged]
    cases hfound : freeSlot (loadCurrentProcess s) with
    | none => simp
    | some num =>
        intro slot hmem
        rw [(accesses_executeCommitLogged num).1 slot hmem]
        exact hfound
  · intro next entry image hstart num hfound
    have hsearch : freeSlot (loadCurrentProcess s) = some num := hfound
    obtain ⟨-, hreturned⟩ | ⟨_, hline, ⟨hnone, -⟩ | ⟨other, hother, hcommit⟩⟩ :=
      execute_eq_some hstart
    · contradiction
    · rw [hsearch] at hnone
      contradiction
    · obtain rfl := Option.some.inj hline
      obtain rfl := Option.some.inj (hsearch.symm.trans hother)
      rw [value_freeSlotLogged, hsearch]
      exact (accesses_executeCommitLogged num).2 next entry image hcommit

theorem inTable_append {front back : List ℕ} :
    InTable (front ++ back) ↔ InTable front ∧ InTable back :=
  List.forall_mem_append

theorem executeLogged_inTable_iff :
    InTable (executeLogged img s (some line) frame).accesses ↔ s.HasRoom := by
  obtain ⟨commits, haccesses, hslot, -⟩ := accesses_executeLogged img s line frame
  rw [haccesses, inTable_append, freeSlotLogged_inTable_iff]
  exact and_iff_left_of_imp fun hroom slot hmem => freeSlot_lt hroom (hslot slot hmem)

theorem execute_changesOnly {command : Option (List UInt8)} {execution : Execution}
    (hexecute : execute img s command frame = some execution) :
    s.ChangesOnly execution.kernel (executeLogged img s command frame).accesses := by
  have hmoves := execute_moves hexecute
  cases execution with
  | returned value next => exact .of_eq (congrArg ProcessView.process hmoves)
  | started next entry image =>
      obtain ⟨line, num, dentry, rfl, hfound, -, -, -, -, rfl, -, -⟩ :=
        execute_eq_started hexecute
      obtain ⟨commits, haccesses, -, hcommits⟩ := accesses_executeLogged img s line frame
      intro slot hslot
      rw [haccesses, List.mem_append, not_or] at hslot
      have hne : slot ≠ num := by
        rintro rfl
        exact hslot.2 (hcommits _ _ _ hexecute slot hfound)
      exact Function.update_of_ne hne _ _

end Execute

/-! ## `halt` and the exceptions -/

/-- The running process has a slot of the table, and the slot behind the table is free. -/
structure ProcessView.WithinTable (v : ProcessView) : Prop where
  sound : v.Sound
  taken : v.process v.current ≠ 0
  last_free : v.process processNumMax = 0

theorem ProcessView.WithinTable.current_lt {v : ProcessView} (hwithin : v.WithinTable) :
    v.current < processNumMax := by
  have hmax := hwithin.sound.le_max
  have hne : v.current ≠ processNumMax := by
    intro heq
    have htaken := hwithin.taken
    rw [heq, hwithin.last_free] at htaken
    contradiction
  omega

section Halt

variable {img : Image} {s : Kernel} {status : BitVec 32} {frame : StackFrame}

theorem accesses_haltRestoreLogged (again : Kernel → Logged ℕ (Option Halting))
    (hcallable : (s.pcb s.pcbPtr).Callable) :
    (haltRestoreLogged again s status).accesses = [] := by
  have hloop : haltCleanFds s.pcbPtr openSlots (haltRestorePage (haltRestoreNum s s.pcbPtr)) =
      .returned 0 [] ((haltRestorePage (haltRestoreNum s s.pcbPtr)).modifyPcb s.pcbPtr
        (cleanFds openSlots)) :=
    haltCleanFds_eq (fun fd => one_lt_of_mem_openSlots) hcallable
  unfold haltRestoreLogged
  dsimp only
  rw [hloop]
  rfl

theorem accesses_haltLogged (hcallable : s.view.currentPcb.Callable) :
    (haltLogged img s status frame).accesses = s.view.current ::
      if (haltRelease s).running.totalProcess = 0 then
        (executeLogged img (haltForgetProcess (haltRelease s)) (some shellName) frame).accesses
      else [] := by
  unfold haltLogged haltFuelLogged
  dsimp only [accesses_bind, value_access]
  rw [List.singleton_append, accesses_ite,
    accesses_haltRestoreLogged (s := haltRelease s) _ hcallable, accesses_bind,
    value_executeLogged]
  refine congrArg (List.cons _) (if_congr Iff.rfl ?_ rfl)
  cases hexecute : execute img (haltForgetProcess (haltRelease s)) (some shellName) frame with
  | none => exact List.append_nil _
  | some execution =>
      cases execution with
      | started next entry image => exact List.append_nil _
      | returned value next =>
          have hmoves := execute_moves hexecute
          rw [view_haltForget_haltRelease] at hmoves
          have hview : next.view = s.view.vacate := hmoves
          have hnext : next.view.currentPcb.Callable := hview ▸ hcallable
          rw [whenSome_some]
          dsimp only
          rw [accesses_haltRestoreLogged (s := next) _ hnext, List.append_nil]

/-- The slot which `halt` gives up is room for its shell. -/
theorem haltLogged_inTable (hwithin : s.view.WithinTable) :
    InTable (haltLogged img s status frame).accesses := by
  have hroom : (haltForgetProcess (haltRelease s)).HasRoom :=
    ⟨s.view.current, hwithin.sound.pos, hwithin.current_lt, Function.update_self ..⟩
  rw [accesses_haltLogged hwithin.sound.callable]
  refine List.forall_mem_cons.mpr ⟨hwithin.current_lt, ?_⟩
  split
  · exact executeLogged_inTable_iff.mpr hroom
  · simp

theorem halt_changesOnly {halting : Halting} (hcallable : s.view.currentPcb.Callable)
    (hhalt : halt img s status frame = some halting) :
    s.ChangesOnly halting.answer.1 (haltLogged img s status frame).accesses := by
  have hmoves := halt_moves hcallable hhalt
  rw [accesses_haltLogged hcallable]
  intro num hnum
  rw [List.mem_cons, not_or] at hnum
  have hreleased : (haltForgetProcess (haltRelease s)).process num = s.process num :=
    Function.update_of_ne hnum.1 _ _
  cases halting with
  | resumed value next =>
      have hprocess : next.process = Function.update s.process s.view.current 0 :=
        congrArg ProcessView.process hmoves.2
      refine (congrFun hprocess num).trans ?_
      exact Function.update_of_ne hnum.1 _ _
  | restarted next entry image =>
      unfold halt haltFuel at hhalt
      dsimp only at hhalt
      split at hhalt
      · rename_i hlast
        rw [if_pos hlast] at hnum
        obtain ⟨execution, hexecute, hrest⟩ := Option.bind_eq_some_iff.mp hhalt
        cases execution with
        | started started entry' image' =>
            obtain ⟨rfl, rfl, rfl⟩ := Halting.restarted.inj (Option.some.inj hrest)
            exact (execute_changesOnly hexecute num hnum.2).trans hreleased
        | returned value returned =>
            have hview := execute_moves hexecute
            rw [view_haltForget_haltRelease] at hview
            have heq : returned.view = s.view.vacate := hview
            have hnext : returned.view.currentPcb.Callable := heq ▸ hcallable
            dsimp only at hrest
            rw [haltRestore_eq (s := returned) hnext] at hrest
            cases Option.some.inj hrest
      · rw [haltRestore_eq (s := haltRelease s) hcallable] at hhalt
        cases Option.some.inj hhalt

theorem excHandlerLogged_inTable (hwithin : s.view.WithinTable) (exc : Exc) :
    InTable (excHandlerLogged img s exc frame).accesses := by
  unfold excHandlerLogged
  dsimp only
  cases hprint : printLiteral (if exc = .pf then s else clear s) (ascii exc.text) with
  | none => simp [InTable, whenSome]
  | some printed => exact haltLogged_inTable (excHandler_printed hprint ▸ hwithin)

theorem excHandler_changesOnly {exc : Exc} {halting : Halting}
    (hcallable : s.view.currentPcb.Callable)
    (hexc : excHandler img s exc frame = some halting) :
    s.ChangesOnly halting.answer.1 (excHandlerLogged img s exc frame).accesses := by
  obtain ⟨printed, hprint, hhalt⟩ := Option.bind_eq_some_iff.mp hexc
  have hview := excHandler_printed hprint
  have hprocess : printed.process = s.process := congrArg ProcessView.process hview
  unfold excHandlerLogged
  dsimp only
  rw [hprint, whenSome_some]
  intro num hnum
  exact (halt_changesOnly (hview ▸ hcallable) hhalt num hnum).trans (congrFun hprocess num)

end Halt

/-! ## All operations -/

/-- The operation starts a search, other than `halt` for a slot it has just given up: an
`execute` with a command, or a switch to a terminal that is not started. -/
def Op.Searches (s : Kernel) : Op → Prop
  | .execute command _ => command ≠ none
  | .switchTerminal t _ _ => t ≠ 0 ∧ (s.terminalT t).flag = 0
  | .keyboard scancode _ _ => s.altPress ∧
      (scancode = 0x3C ∧ s.terminalDisplayed ≠ 1 ∧ (s.terminalT 1).flag = 0 ∨
        scancode = 0x3D ∧ s.terminalDisplayed ≠ 2 ∧ (s.terminalT 2).flag = 0)
  | _ => False

section Step

variable {img : Image} {link : Link} {s next : Kernel} {frame : StackFrame}

theorem inTable_nil : InTable [] := by simp [InTable]

theorem switchTerminalLogged_inTable_iff {t : Fin 3} {cpu : Cpu} :
    InTable (switchTerminalLogged img s t cpu frame).accesses ↔
      (t ≠ 0 ∧ (s.terminalT t).flag = 0 → s.HasRoom) := by
  unfold switchTerminalLogged
  dsimp only
  rw [accesses_ite, showTerminal_flag]
  split
  · rename_i hnew
    rw [accesses_bind, accesses_pure, List.append_nil, executeLogged_inTable_iff,
      Kernel.HasRoom, process_beforeExecute]
    exact ⟨fun hroom _ => hroom, fun himp => himp hnew⟩
  · rename_i hold
    exact iff_of_true inTable_nil fun hnew => absurd hnew hold

theorem altSwitchLogged_inTable_iff {t : Fin 3} {cpu : Cpu} :
    InTable (altSwitchLogged img s t cpu frame).accesses ↔
      ((s.altPress ∧ s.terminalDisplayed ≠ t) ∧ t ≠ 0 ∧ (s.terminalT t).flag = 0 →
        s.HasRoom) := by
  unfold altSwitchLogged
  rw [accesses_ite]
  split
  · rename_i hswitch
    rw [switchTerminalLogged_inTable_iff]
    exact ⟨fun himp hboth => himp hboth.2, fun himp hnew => himp ⟨hswitch, hnew⟩⟩
  · rename_i hnone
    exact iff_of_true inTable_nil fun hboth => absurd hboth.1 hnone

theorem keyboardHandlerLogged_inTable_iff {scancode : ℕ} {cpu : Cpu} :
    InTable (keyboardHandlerLogged img s scancode cpu frame).accesses ↔
      ((Op.keyboard scancode cpu frame).Searches s → s.HasRoom) := by
  unfold keyboardHandlerLogged
  split
  · rw [altSwitchLogged_inTable_iff]
    simp [Op.Searches]
  · rw [altSwitchLogged_inTable_iff]
    refine imp_congr_left ?_
    simp [Op.Searches, and_assoc]
  · rw [altSwitchLogged_inTable_iff]
    refine imp_congr_left ?_
    simp [Op.Searches, and_assoc]
  · rename_i hfirst hsecond hthird
    refine iff_of_true inTable_nil fun hsearches => ?_
    rcases hsearches.2 with ⟨heq, -⟩ | ⟨heq, -⟩
    · exact absurd heq hsecond
    · exact absurd heq hthird

theorem stepLogged_result_inTable {effect : Option FdEffect} {result : CallResult}
    (hwithin : s.view.WithinTable) (hmoves : result.Moves s.view effect) :
    InTable (result.stepLogged img frame).accesses := by
  cases result with
  | returned value bytes next => exact inTable_nil
  | pageFault next =>
      have hview : next.view = s.view := hmoves
      unfold CallResult.stepLogged
      rw [accesses_bind, accesses_pure, List.append_nil]
      exact excHandlerLogged_inTable (hview ▸ hwithin) .pf

theorem whenSome_inTable {found : Option CallResult}
    {next : CallResult → Logged ℕ (Option Kernel)}
    (hnext : ∀ result, found = some result → InTable (next result).accesses) :
    InTable (whenSome found next).accesses := by
  cases found with
  | none => exact inTable_nil
  | some result => exact hnext result rfl

theorem stepLogged_inTable_iff (hwithin : s.view.WithinTable) (op : Op) :
    InTable (stepLogged img link s op).accesses ↔ (op.Searches s → s.HasRoom) := by
  cases op with
  | execute command frame =>
      cases command with
      | none => exact iff_of_true inTable_nil fun hsearches => absurd rfl hsearches
      | some line =>
          unfold stepLogged
          rw [accesses_bind, accesses_pure, List.append_nil, executeLogged_inTable_iff]
          exact ⟨fun hroom _ => hroom, fun himp => himp (by simp [Op.Searches])⟩
  | halt status frame =>
      refine iff_of_true ?_ False.elim
      unfold stepLogged
      rw [accesses_bind, accesses_pure, List.append_nil]
      exact haltLogged_inTable hwithin
  | exception exc frame =>
      refine iff_of_true ?_ False.elim
      unfold stepLogged
      rw [accesses_bind, accesses_pure, List.append_nil]
      exact excHandlerLogged_inTable hwithin exc
  | read fd buf nbytes frame =>
      exact iff_of_true (whenSome_inTable fun result hread =>
        stepLogged_result_inTable hwithin (read_moves hread)) False.elim
  | write fd buf nbytes frame =>
      exact iff_of_true (whenSome_inTable fun result hwrite =>
        stepLogged_result_inTable hwithin (write_moves hwrite)) False.elim
  | close fd frame =>
      exact iff_of_true
        (stepLogged_result_inTable hwithin (close_moves hwithin.sound.callable).1) False.elim
  | keyboard scancode cpu frame => exact keyboardHandlerLogged_inTable_iff
  | switchTerminal t cpu frame => exact switchTerminalLogged_inTable_iff
  | openFile filename => exact iff_of_true inTable_nil False.elim
  | getargs buf nbytes => exact iff_of_true inTable_nil False.elim
  | vidmap screenStart => exact iff_of_true inTable_nil False.elim
  | pit cpu => exact iff_of_true inTable_nil False.elim
  | rtcInterrupt => exact iff_of_true inTable_nil False.elim

/-! ## What an operation changes -/

theorem Move.process_eq {v v' : ProcessView} {effect : FdEffect}
    (hmove : Move v (some effect) v') : v'.process = v.process := by
  cases hmove <;> rfl

/-- A call on descriptors leaves the table alone, since one for no descriptor keeps the
whole view. -/
theorem CallResult.Moves.process_eq {effect : Option FdEffect} {result : CallResult}
    (hmoves : result.Moves s.view effect) (hkeeps : effect = none → result.Keeps s.view) :
    result.kernel.process = s.process := by
  cases effect with
  | none => exact congrArg ProcessView.process (hkeeps rfl).view_eq
  | some effect =>
      cases result with
      | returned value bytes next => exact Move.process_eq hmoves
      | pageFault next => exact congrArg ProcessView.process hmoves

theorem read_process {fd nbytes : ℤ} {buf : UserPointer} {result : CallResult}
    (hread : read img s fd buf nbytes = some result) : result.kernel.process = s.process :=
  (read_moves hread).process_eq fun hnone => read_keeps hread (Option.map_eq_none_iff.mp hnone)

theorem close_process (hcallable : s.view.currentPcb.Callable) (fd : ℤ) :
    (close s fd).kernel.process = s.process :=
  (close_moves hcallable).1.process_eq fun hnone => close_keeps (Option.map_eq_none_iff.mp hnone)

theorem openFile_process {filename : Option (List UInt8)} {value : ℤ} {bytes : List UInt8}
    (htyped : NoUntypedOpen img s (.openFile filename))
    (hopen : openFile img s filename = some (.returned value bytes next)) :
    next.process = s.process := by
  have hmoves : (CallResult.returned value bytes next).Moves s.view ((fdIndex value).map .opens) :=
    openFile_move htyped hopen
  exact hmoves.process_eq fun hnone => openFile_keeps hopen (Option.map_eq_none_iff.mp hnone)

theorem pitHandler_process (cpu : Cpu) : (pitHandler link s cpu).1.process = s.process := by
  unfold pitHandler mapVidmap
  split
  · rfl
  · dsimp only
    split <;> rfl

theorem switchTerminal_changesOnly {t : Fin 3} {cpu : Cpu}
    (hswitch : switchTerminal img s t cpu frame = some next) :
    s.ChangesOnly next (switchTerminalLogged img s t cpu frame).accesses := by
  unfold switchTerminal at hswitch
  unfold switchTerminalLogged
  dsimp only at hswitch ⊢
  rw [accesses_ite, accesses_bind, accesses_pure, List.append_nil]
  split at hswitch
  · rename_i hnew
    rw [if_pos hnew]
    obtain ⟨execution, hexecute, hnext⟩ := Option.map_eq_some_iff.mp hswitch
    have hlast : next.process = execution.kernel.process := by
      cases execution with
      | returned value returned => exact hnext ▸ rfl
      | started started entry image => exact hnext ▸ rfl
    intro num hnum
    rw [hlast, execute_changesOnly hexecute num hnum]
    exact congrFun (process_beforeExecute s t cpu) num
  · obtain rfl := Option.some.inj hswitch
    exact .of_eq (congrArg ProcessView.process (view_showTerminal s t))

theorem altSwitch_changesOnly {t : Fin 3} {cpu : Cpu}
    (hswitch : altSwitch img s t cpu frame = some next) :
    s.ChangesOnly next (altSwitchLogged img s t cpu frame).accesses := by
  unfold altSwitch at hswitch
  unfold altSwitchLogged
  rw [accesses_ite]
  split at hswitch
  · rename_i halt
    rw [if_pos halt]
    exact switchTerminal_changesOnly hswitch
  · obtain rfl := Option.some.inj hswitch
    exact .of_eq rfl

theorem keyboardHandler_changesOnly {scancode : ℕ} {cpu : Cpu}
    (hkey : keyboardHandler img s scancode cpu frame = some next) :
    s.ChangesOnly next (keyboardHandlerLogged img s scancode cpu frame).accesses := by
  unfold keyboardHandler at hkey
  split at hkey
  case h_10 => exact altSwitch_changesOnly hkey
  case h_11 => exact altSwitch_changesOnly hkey
  case h_12 => exact altSwitch_changesOnly hkey
  case h_13 => exact .of_eq (congrArg ProcessView.process (view_keyboardTab hkey))
  case h_14 => exact .of_eq (congrArg ProcessView.process (view_keyboardBackspace hkey))
  case h_15 => exact .of_eq (congrArg ProcessView.process (view_keyboardEnter hkey))
  case h_16 => exact .of_eq (congrArg ProcessView.process (view_keyboardPrint hkey))
  all_goals
    obtain rfl := Option.some.inj hkey
    exact .of_eq rfl

theorem result_changesOnly {effect : Option FdEffect} {result : CallResult} {answer : Answer}
    (hcallable : s.view.currentPcb.Callable) (hmoves : result.Moves s.view effect)
    (hprocess : result.kernel.process = s.process)
    (hanswer : result.answer img frame = some (next, answer)) :
    s.ChangesOnly next (result.stepLogged img frame).accesses := by
  cases result with
  | returned value bytes returned =>
      obtain ⟨rfl, -⟩ := Prod.mk.inj (Option.some.inj hanswer)
      exact .of_eq hprocess
  | pageFault faulted =>
      obtain ⟨halting, hexc, heq⟩ := Option.map_eq_some_iff.mp hanswer
      unfold CallResult.stepLogged
      rw [accesses_bind, accesses_pure, List.append_nil]
      intro num hnum
      have hview : faulted.view = s.view := hmoves
      have hchanged := excHandler_changesOnly (hview ▸ hcallable) hexc num hnum
      rw [heq] at hchanged
      exact hchanged.trans (congrFun hprocess num)

/-- The log is complete: an operation changes no entry of the table that it does not
access. -/
theorem step_changesOnly {op : Op} (hsound : s.view.Sound) (htyped : NoUntypedOpen img s op)
    (hstep : step img link s op = some next) :
    s.ChangesOnly next (stepLogged img link s op).accesses := by
  obtain ⟨⟨final, answer⟩, hperform, rfl⟩ := Option.map_eq_some_iff.mp hstep
  cases op with
  | execute command frame =>
      obtain ⟨execution, hexecute, heq⟩ := Option.map_eq_some_iff.mp hperform
      unfold stepLogged
      rw [accesses_bind, accesses_pure, List.append_nil]
      cases execution with
      | returned value s' =>
          obtain ⟨rfl, -⟩ := Prod.mk.inj heq
          exact execute_changesOnly hexecute
      | started s' entry image =>
          obtain ⟨rfl, -⟩ := Prod.mk.inj heq
          exact execute_changesOnly hexecute
  | halt status frame =>
      obtain ⟨halting, hhalt, heq⟩ := Option.map_eq_some_iff.mp hperform
      have hchanged := halt_changesOnly hsound.callable hhalt
      rw [heq] at hchanged
      unfold stepLogged
      rwa [accesses_bind, accesses_pure, List.append_nil]
  | exception exc frame =>
      obtain ⟨halting, hexc, heq⟩ := Option.map_eq_some_iff.mp hperform
      have hchanged := excHandler_changesOnly hsound.callable hexc
      rw [heq] at hchanged
      unfold stepLogged
      rwa [accesses_bind, accesses_pure, List.append_nil]
  | read fd buf nbytes frame =>
      obtain ⟨result, hread, hanswer⟩ := Option.bind_eq_some_iff.mp hperform
      have hchanged := result_changesOnly hsound.callable (read_moves hread) (read_process hread)
        hanswer
      simpa only [stepLogged, hread, whenSome_some] using hchanged
  | write fd buf nbytes frame =>
      obtain ⟨result, hwrite, hanswer⟩ := Option.bind_eq_some_iff.mp hperform
      have hprocess : result.kernel.process = s.process :=
        congrArg ProcessView.process (write_keeps hwrite).view_eq
      have hchanged := result_changesOnly hsound.callable (write_moves hwrite) hprocess hanswer
      simpa only [stepLogged, hwrite, whenSome_some] using hchanged
  | close fd frame =>
      exact result_changesOnly hsound.callable (close_moves hsound.callable).1
        (close_process hsound.callable fd) hperform
  | openFile filename =>
      obtain ⟨result, hopen, hanswer⟩ := Option.bind_eq_some_iff.mp hperform
      cases result with
      | returned value bytes s' =>
          obtain ⟨rfl, -⟩ := Prod.mk.inj (Option.some.inj hanswer)
          exact .of_eq (openFile_process htyped hopen)
      | pageFault s' => contradiction
  | getargs buf nbytes =>
      obtain ⟨rfl, -⟩ := Prod.mk.inj (Option.some.inj hperform)
      exact .of_eq rfl
  | vidmap screenStart =>
      obtain ⟨rfl, -⟩ := Prod.mk.inj (Option.some.inj hperform)
      exact .of_eq (congrArg ProcessView.process (view_vidmap link s screenStart))
  | pit cpu =>
      obtain ⟨rfl, -⟩ := Prod.mk.inj (Option.some.inj hperform)
      exact .of_eq (pitHandler_process cpu)
  | keyboard scancode cpu frame =>
      obtain ⟨s', hkey, heq⟩ := Option.map_eq_some_iff.mp hperform
      obtain ⟨rfl, -⟩ := Prod.mk.inj heq
      exact keyboardHandler_changesOnly hkey
  | switchTerminal t cpu frame =>
      obtain ⟨s', hswitch, heq⟩ := Option.map_eq_some_iff.mp hperform
      obtain ⟨rfl, -⟩ := Prod.mk.inj heq
      exact switchTerminal_changesOnly hswitch
  | rtcInterrupt =>
      obtain ⟨rfl, -⟩ := Prod.mk.inj (Option.some.inj hperform)
      exact .of_eq rfl

end Step

/-! ## Runs -/

/-- The forest of processes fits into the slots of the table. -/
def FitsTable (s : Kernel) : Prop :=
  (∃ family, Scheduled s.view family) ∧ s.process processNumMax = 0

theorem FitsTable.withinTable {s : Kernel} (hfits : FitsTable s) : s.view.WithinTable := by
  obtain ⟨⟨family, hsched⟩, hlast⟩ := hfits
  refine ⟨hsched.sound, ?_, hlast⟩
  rcases hsched.taken s.view.current hsched.sound.pos hsched.sound.le_max with
    ⟨htaken, -⟩ | ⟨-, hfresh⟩
  · rw [htaken]
    exact one_ne_zero
  · exact absurd hsched.current_mem (hfresh s.view.terminalNum)

section Runs

variable {img : Image} {link : Link} {boot first s next : Kernel} {frame : StackFrame}
  {entry image : List UInt8} {ops : List Op}

theorem Booted.fitsTable (hboot : Booted boot)
    (hfirst : execute img boot (some shellName) frame = some (.started first entry image)) :
    FitsTable first := by
  refine ⟨hboot.scheduled hfirst, ?_⟩
  obtain ⟨_, num, _, -, hfound, -, -, -, -, rfl, -, -⟩ := execute_eq_started hfirst
  have hroom : boot.HasRoom := ⟨1, le_rfl, by decide, hboot.process 1 le_rfl (by decide)⟩
  have hlt : num < processNumMax := freeSlot_lt hroom hfound
  refine (Function.update_of_ne hlt.ne' _ _).trans ?_
  exact hboot.process processNumMax (by decide) le_rfl

theorem step_fitsTable {op : Op} (hshell : img.Loadable shellName)
    (htyped : NoUntypedOpen img s op) (hfits : FitsTable s) (hroom : op.Searches s → s.HasRoom)
    (hstep : step img link s op = some next) : FitsTable next := by
  have hwithin := hfits.withinTable
  obtain ⟨⟨family, hsched⟩, hlast⟩ := hfits
  refine ⟨step_scheduled hsched ⟨htyped, fun _ => hshell⟩ hstep, ?_⟩
  have hinside : InTable (stepLogged img link s op).accesses :=
    (stepLogged_inTable_iff hwithin op).mpr hroom
  have hout : processNumMax ∉ (stepLogged img link s op).accesses :=
    fun hmem => lt_irrefl _ (hinside _ hmem)
  rw [step_changesOnly hsched.sound htyped hstep _ hout, hlast]

/-- In a run from the first shell, every index into the process table is below its size if
and only if no search starts while slots 1 to 5 are all taken. -/
theorem slots_inTable_iff (hshell : img.Loadable shellName) (hboot : Booted boot)
    (hfirst : execute img boot (some shellName) frame = some (.started first entry image))
    (htyped : Meets (step img link) (NoUntypedOpen img) first ops) :
    Meets (step img link) (fun s op => InTable (stepLogged img link s op).accesses) first ops ↔
      Meets (step img link) (fun s op => op.Searches s → s.HasRoom) first ops := by
  have hiff : Meets (step img link) (fun s op =>
      InTable (stepLogged img link s op).accesses ∧ NoUntypedOpen img s op) first ops ↔
        Meets (step img link)
          (fun s op => (op.Searches s → s.HasRoom) ∧ NoUntypedOpen img s op) first ops := by
    refine meets_iff_of_invariant FitsTable ?_ ?_ (hboot.fitsTable hfirst)
    · intro state op next hfits hguard hnext
      exact step_fitsTable hshell hguard.2 hfits hguard.1 hnext
    · intro state op hfits
      exact and_congr_left fun _ => stepLogged_inTable_iff hfits.withinTable op
  constructor
  · intro hinside
    exact (hiff.mp (hinside.and htyped)).imp fun _ _ => And.left
  · intro hroom
    exact (hiff.mpr (hroom.and htyped)).imp fun _ _ => And.left

end Runs

theorem slots_inTable_small :
    Meets (step smallImage zeroLink) (fun s op =>
        InTable (stepLogged smallImage zeroLink s op).accesses) shellKernel
        [.execute (some shellName) zeroFrame, .halt 0 zeroFrame] ↔
      Meets (step smallImage zeroLink) (fun s op => op.Searches s → s.HasRoom) shellKernel
        [.execute (some shellName) zeroFrame, .halt 0 zeroFrame] := by
  obtain ⟨entry, image, hfirst⟩ := execute_bootKernel
  exact slots_inTable_iff smallImage_loadable bootKernel_booted hfirst
    (by decide +kernel)

/-- Shells on the three terminals, and two children on the last of them. -/
def fillingRun : List Op :=
  [.switchTerminal 1 ⟨0, 0⟩ zeroFrame, .switchTerminal 2 ⟨0, 0⟩ zeroFrame,
    .execute (some shellName) zeroFrame, .execute (some shellName) zeroFrame]

/-- The next process is the sixth: `execute` reads and writes `process[6]`. -/
theorem sixth_process_overruns : ∃ full final,
    run (step smallImage zeroLink) shellKernel fillingRun = some full ∧
      step smallImage zeroLink full (.execute (some shellName) zeroFrame) = some final ∧
      (∀ num ∈ List.range' 1 6, final.process num = 1) ∧
      ¬ InTable (stepLogged smallImage zeroLink full
        (.execute (some shellName) zeroFrame)).accesses := by
  have hany : (run (step smallImage zeroLink) shellKernel fillingRun).any (fun full =>
      (step smallImage zeroLink full (.execute (some shellName) zeroFrame)).any (fun final =>
        decide (∀ num ∈ List.range' 1 6, final.process num = 1)) &&
      decide (6 ∈ (stepLogged smallImage zeroLink full
        (.execute (some shellName) zeroFrame)).accesses)) = true := by
    decide +kernel
  obtain ⟨full, hfull, hboth⟩ := (Option.any_eq_true _ _).mp hany
  rw [Bool.and_eq_true, decide_eq_true_eq] at hboth
  obtain ⟨hlast, hsix⟩ := hboth
  obtain ⟨final, hfinal, hlive⟩ := (Option.any_eq_true _ _).mp hlast
  refine ⟨full, final, hfull, hfinal, of_decide_eq_true hlive, fun hinside => ?_⟩
  exact absurd (hinside 6 hsix) (by decide)

end VirtualOS
