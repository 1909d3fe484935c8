import VirtualOS.PreemptionSteps
import VirtualOS.ProcessInvariants
import Mathlib.Tactic

/-!
# The kernel as a scheduler of process stacks

Seen from far away the kernel keeps three stacks of process numbers and the
terminal that runs.  Five events act on them: a program that is executed, the
end of the running process, a tick, the selection of a terminal, and everything
else.  Each event has one outcome, down to the number a new process gets.  Every
run of the kernel after its first shell is the run of its events on this model.
-/

namespace VirtualOS

open PartialRuns LinkedStacks

/-! ## The model -/

/-- The processes of each terminal, the one on top first, and the terminal that runs. -/
structure Scheduler where
  stack : Fin 3 → List ℕ
  running : Fin 3

inductive SchedulerEvent where
  | execute (accepted : Bool)
  | exit
  | tick
  | select (t : Fin 3)
  | other
  deriving DecidableEq

namespace Scheduler

/-- The least number from 1 to 6 that no stack holds. -/
def leastFree (family : Fin 3 → List ℕ) : Option ℕ :=
  (List.range' 1 processNumMax).find? fun num => ∀ t, num ∉ family t

/-- A process on top of terminal `t`, which runs from now on; nothing happens when six
processes are alive. -/
def spawn (m : Scheduler) (t : Fin 3) : Scheduler :=
  match leastFree m.stack with
  | none => m
  | some num => ⟨push m.stack t num, t⟩

/-- The first terminal from `t` on that has processes. -/
def nextBusy (m : Scheduler) : ℕ → Fin 3 → Fin 3
  | 0, t => t
  | fuel + 1, t => if m.stack t ≠ [] then t else m.nextBusy fuel (t + 1)

def step (m : Scheduler) : SchedulerEvent → Scheduler
  | .execute accepted => if accepted then m.spawn m.running else m
  | .exit =>
      let popped : Scheduler := ⟨pop m.stack m.running, m.running⟩
      if popped.stack m.running = [] then popped.spawn m.running else popped
  | .tick =>
      if m.stack 1 = [] ∧ m.stack 2 = [] then m
      else { m with running := m.nextBusy 3 (m.running + 1) }
  | .select t => if t ≠ 0 ∧ m.stack t = [] then m.spawn t else m
  | .other => m

end Scheduler

/-! ## The kernel's scheduler -/

/-- The stack of a terminal: the chain of parents from its process on. -/
def Kernel.scheduler (s : Kernel) : Scheduler where
  stack t := (List.range (s.terminalT t).totalProcess.toNat).map (s.ancestor t)
  running := s.terminalNum

/-- The event that an operation stands for. -/
def schedulerEvent (img : Image) (s : Kernel) : Op → SchedulerEvent
  | .execute command frame =>
      .execute (command.any fun line => startsProgram img line frame)
  | .pit _ => .tick
  | op =>
      match switchTarget s op with
      | some t => .select t
      | none => if endsProcess img s op then .exit else .other

/-! ## Slots -/

def ProcessView.freeSlot (v : ProcessView) : Option ℕ :=
  (List.range' 1 processNumMax).find? fun num => v.process num = 0

section Slots

variable {v : ProcessView} {family : Fin 3 → List ℕ} {s next : Kernel} {img : Image}

theorem Forest.freeSlot_eq (hforest : Forest v family) :
    v.freeSlot = Scheduler.leastFree family := by
  unfold ProcessView.freeSlot Scheduler.leastFree
  apply List.find?_congr
  intro num hnum
  rw [List.mem_range'_1] at hnum
  rw [decide_eq_decide]
  rcases hforest.taken num hnum.1 (by omega) with ⟨hone, t, hmem⟩ | ⟨hzero, hfresh⟩
  · simp only [hone, one_ne_zero, false_iff, not_forall, not_not]
    exact ⟨t, hmem⟩
  · simp only [hzero, true_iff]
    exact hfresh

theorem execute_slot {command : Option (List UInt8)} {frame : StackFrame}
    {entry image : List UInt8}
    (hexecute : execute img s command frame = some (.started next entry image)) :
    s.view.freeSlot = some next.view.current := by
  obtain ⟨line, num, dentry, _, hfound, _, _, _, _, rfl, _, _⟩ := execute_eq_started hexecute
  have hslot : s.view.freeSlot = some num := hfound
  rw [hslot, view_startProcess rfl]
  simp [ProcessView.current, ProcessView.start]

theorem halt_slot {status : BitVec 32} {frame : StackFrame} {entry image : List UInt8}
    (hcallable : s.view.currentPcb.Callable)
    (hhalt : halt img s status frame = some (.restarted next entry image)) :
    s.view.vacate.freeSlot = some next.view.current := by
  unfold halt haltFuel at hhalt
  dsimp only at hhalt
  split at hhalt
  · obtain ⟨execution, hexecute, hrest⟩ := Option.bind_eq_some_iff.mp hhalt
    cases execution with
    | started started entry' image' =>
        obtain ⟨rfl, _, _⟩ := Halting.restarted.inj (Option.some.inj hrest)
        rw [← view_haltForget_haltRelease]
        exact execute_slot hexecute
    | returned value returned =>
        have hview : returned.view = s.view.vacate := by
          have hmoves : returned.view = _ := execute_moves hexecute
          rw [hmoves, view_haltForget_haltRelease]
        have hnext : (returned.pcb returned.pcbPtr).Callable := by
          have hpcb : returned.view.currentPcb.Callable := hview ▸ hcallable
          exact hpcb
        dsimp only at hrest
        rw [haltRestore_eq hnext] at hrest
        simp at hrest
  · rw [haltRestore_eq (s := haltRelease s) hcallable] at hhalt
    simp at hhalt

end Slots

/-! ## One operation -/

/-- The stacks and the running terminal of a state. -/
structure Kernel.Schedules (s : Kernel) (m : Scheduler) : Prop where
  scheduled : Scheduled s.view m.stack
  running : s.terminalNum = m.running

section Steps

variable {img : Image} {link : Link} {s next : Kernel} {m : Scheduler} {frame : StackFrame}

theorem Kernel.Schedules.scheduler_eq (hs : s.Schedules m) : s.scheduler = m := by
  have hstack : ∀ t, (List.range (s.terminalT t).totalProcess.toNat).map (s.ancestor t) =
      m.stack t := by
    intro t
    have hcount : (s.terminalT t).totalProcess = (m.stack t).length := hs.scheduled.count t
    apply List.ext_getElem
    · simp [hcount]
    · intro k hleft hright
      rw [List.getElem_map, List.getElem_range, hs.scheduled.ancestor_eq hright]
  cases m
  simp only [Kernel.scheduler, Scheduler.mk.injEq]
  exact ⟨funext hstack, hs.running⟩

theorem Kernel.Schedules.of_view (hs : s.Schedules m) (hview : next.view = s.view) :
    next.Schedules m :=
  ⟨hview ▸ hs.scheduled, (congrArg ProcessView.terminalNum hview).trans hs.running⟩

theorem Scheduler.spawn_of_free {t : Fin 3} {num : ℕ} (hfree : leastFree m.stack = some num) :
    m.spawn t = ⟨push m.stack t num, t⟩ := by
  rw [spawn, hfree]

theorem Scheduler.spawn_of_full {t : Fin 3} (hfull : leastFree m.stack = none) :
    m.spawn t = m := by
  rw [spawn, hfull]

theorem Kernel.Schedules.freeSlot_eq (hs : s.Schedules m) :
    freeSlot s = Scheduler.leastFree m.stack :=
  hs.scheduled.toForest.freeSlot_eq

theorem execute_schedules (hs : s.Schedules m) {command : Option (List UInt8)}
    {execution : Execution} (hexecute : execute img s command frame = some execution) :
    execution.kernel.Schedules
      (m.step (.execute (command.any fun line => startsProgram img line frame))) := by
  have hfree := hs.freeSlot_eq
  obtain ⟨rfl, rfl⟩ | ⟨line, rfl, hline⟩ := execute_eq_some hexecute
  · exact hs.of_view rfl
  · rw [Option.any_some]
    obtain ⟨hfull, printed, hprint, rfl⟩ | ⟨num, hfound, hcommit⟩ := hline
    · have hkept : printed.Schedules m := hs.of_view ((view_printLiteral hprint).trans rfl)
      have hnone : Scheduler.leastFree m.stack = none := hfree.symm.trans hfull
      simp only [Scheduler.step, Scheduler.spawn_of_full hnone, ite_self]
      exact hkept
    · obtain ⟨_, ⟨hrejected, rfl⟩ | ⟨dentry, haccepted, _, rfl⟩⟩ := executeCommit_eq_some hcommit
      · rw [startsProgram_eq, hrejected]
        exact hs.of_view rfl
      · have hsome : Scheduler.leastFree m.stack = some num := hfree.symm.trans hfound
        rw [startsProgram_eq, haccepted, Option.isSome_some]
        simp only [Scheduler.step, if_true, Scheduler.spawn_of_free hsome, ← hs.running]
        have hview : (startProcess (loadCurrentProcess s) num (parseCommand line).2 frame).view =
            s.view.start num (parseCommand line).2 frame := view_startProcess rfl
        refine ⟨?_, rfl⟩
        change Scheduled (startProcess _ _ _ _).view _
        rw [hview]
        exact hs.scheduled.start _ frame (freeSlot_eq_some hfound)

theorem Scheduled.resume_cells {v : ProcessView} {family : Fin 3 → List ℕ}
    (hsched : Scheduled v family) :
    v.totalProcess v.terminalNum - 1 = 0 ↔
      LinkedStacks.pop family v.terminalNum v.terminalNum = [] := by
  obtain ⟨rest, hcells⟩ := hsched.eq_cons
  rw [pop_self, hsched.count, hcells, List.tail_cons, List.length_cons, Nat.cast_add,
    Nat.cast_one, add_sub_cancel_right, Nat.cast_eq_zero, List.length_eq_zero_iff]

theorem Scheduled.vacate_eq_pop {v : ProcessView} {family : Fin 3 → List ℕ}
    (hsched : Scheduled v family) (hlast : v.totalProcess v.terminalNum - 1 = 0) :
    v.vacate = v.pop := by
  obtain ⟨rest, hcells⟩ := hsched.eq_cons
  have hrest : rest = [] := by simpa [hcells] using hsched.resume_cells.mp hlast
  have hprev : v.currentPcb.processNumPrev = 0 := by
    have hlinked := hsched.linked v.terminalNum
    rw [hcells, hrest] at hlinked
    rw [hsched.currentPcb_eq]
    exact hlinked.2.2
  rw [ProcessView.vacate, ProcessView.pop, hprev]

theorem halt_schedules (hshell : img.Loadable shellName) (hs : s.Schedules m)
    {status : BitVec 32} {halting : Halting} (hhalt : halt img s status frame = some halting) :
    halting.answer.1.Schedules (m.step .exit) := by
  obtain ⟨hsched, hrunning⟩ := hs
  have hsound := hsched.sound
  have hmoves := halt_moves hsound.callable hhalt
  have hterminal : s.view.terminalNum = m.running := hrunning
  cases halting with
  | resumed value next =>
      obtain ⟨-, hview⟩ := hmoves
      have hmore : s.view.totalProcess s.view.terminalNum - 1 ≠ 0 := fun hlast => by
        obtain ⟨_, _, _, heq⟩ := halt_restarts hshell hsound.pos hsound.le_max hlast hhalt
        contradiction
      have hcells : pop m.stack m.running m.running ≠ [] := fun hnil =>
        hmore (hsched.resume_cells.mpr (hterminal ▸ hnil))
      simp only [Halting.answer, Scheduler.step, if_neg hcells]
      refine ⟨?_, ?_⟩
      · rw [hview, ← hterminal]
        exact hsched.resume hmore
      · exact (congrArg ProcessView.terminalNum hview).trans hterminal
  | restarted next entry image =>
      obtain ⟨num, argument, hlast, hfree, hview⟩ := hmoves
      have hcells : pop m.stack m.running m.running = [] :=
        hterminal ▸ hsched.resume_cells.mp hlast
      have hslot : s.view.vacate.freeSlot = some num := by
        have hcurrent : next.view.current = num := by
          rw [hview]
          simp [ProcessView.current, ProcessView.start]
        rw [halt_slot hsound.callable hhalt, hcurrent]
      rw [hsched.vacate_eq_pop hlast, hsched.pop.freeSlot_eq, hterminal] at hslot
      simp only [Halting.answer, Scheduler.step, if_pos hcells]
      rw [Scheduler.spawn_of_free hslot]
      refine ⟨?_, ?_⟩
      · rw [hview]
        have hnext := hsched.restart argument frame hlast hfree
        rwa [hterminal] at hnext
      · exact (congrArg ProcessView.terminalNum hview).trans hterminal

theorem excHandler_schedules (hshell : img.Loadable shellName) (hs : s.Schedules m) {exc : Exc}
    {halting : Halting} (hexc : excHandler img s exc frame = some halting) :
    halting.answer.1.Schedules (m.step .exit) := by
  obtain ⟨printed, hprint, hhalt⟩ := Option.bind_eq_some_iff.mp hexc
  exact halt_schedules hshell (hs.of_view (excHandler_printed hprint)) hhalt

theorem Kernel.Schedules.flag_eq_zero (hs : s.Schedules m) (t : Fin 3) :
    (s.terminalT t).flag = 0 ↔ m.stack t = [] := by
  have hflag : (s.terminalT t).flag = if m.stack t = [] then 0 else 1 := hs.scheduled.flag t
  rw [hflag]
  split <;> simp_all

theorem Kernel.Schedules.nextStarted_eq (hs : s.Schedules m) (fuel : ℕ) (t : Fin 3) :
    nextStarted s fuel t = m.nextBusy fuel t := by
  induction fuel generalizing t with
  | zero => rfl
  | succ fuel ih =>
      simp only [nextStarted, Scheduler.nextBusy, ne_eq, hs.flag_eq_zero, ih]

theorem pitHandler_schedules (hs : s.Schedules m) (cpu : Cpu) :
    (pitHandler link s cpu).1.Schedules (m.step .tick) := by
  have hidle : ((s.terminalT 1).flag = 0 ∧ (s.terminalT 2).flag = 0) ↔
      m.stack 1 = [] ∧ m.stack 2 = [] := by
    rw [hs.flag_eq_zero, hs.flag_eq_zero]
  by_cases halone : m.stack 1 = [] ∧ m.stack 2 = []
  · rw [pitHandler, if_pos (hidle.mpr halone), Scheduler.step, if_pos halone]
    exact hs
  · have hbusy := fun hflags => halone (hidle.mp hflags)
    have hview := view_pitHandler link cpu hbusy
    have hflag := nextStarted_flag (s.terminalNum + 1) hbusy
    rw [hs.nextStarted_eq, hs.running] at hview hflag
    rw [Scheduler.step, if_neg halone]
    refine ⟨?_, congrArg ProcessView.terminalNum hview⟩
    rw [hview]
    exact (hs.scheduled.save cpu).dispatch hflag

/-- With a free slot a switch to a terminal without a shell begins it. -/
theorem switchTerminal_begins (hshell : img.Loadable shellName) {t : Fin 3} {cpu : Cpu}
    (hnew : t ≠ 0 ∧ (s.terminalT t).flag = 0) {num : ℕ} (hfound : freeSlot s = some num)
    (hswitch : switchTerminal img s t cpu frame = some next) : next.terminalNum = t := by
  have hbegins : t ≠ 0 ∧ ((showTerminal s t).terminalT t).flag = 0 := by
    rwa [showTerminal_flag]
  rw [switchTerminal] at hswitch
  dsimp only at hswitch
  rw [if_pos hbegins] at hswitch
  have hslot : freeSlot (loadCurrentProcess
      (clear { saveContext (showTerminal s t) cpu with terminalNum := t })) = some num :=
    (freeSlot_congr (process_beforeExecute s t cpu)).trans hfound
  obtain ⟨entry, image, hstarted⟩ := execute_shell_eq frame hshell hslot
  rw [hstarted] at hswitch
  obtain rfl := Option.some.inj hswitch
  exact congrArg ProcessView.terminalNum (view_clear _)

theorem switchTerminal_schedules (hshell : img.Loadable shellName) (hs : s.Schedules m)
    {t : Fin 3} {cpu : Cpu} (hswitch : switchTerminal img s t cpu frame = some next) :
    next.Schedules (m.step (.select t)) := by
  have hnew := hs.flag_eq_zero t
  rcases switchTerminal_view hshell hswitch with ⟨hold, hview⟩ | ⟨hbegins, hview⟩
  · rw [hnew] at hold
    rw [Scheduler.step, if_neg hold]
    exact hs.of_view hview
  · have hempty : t ≠ 0 ∧ m.stack t = [] := ⟨hbegins.1, hnew.mp hbegins.2⟩
    rw [Scheduler.step, if_pos hempty]
    rcases hview with hview | ⟨num, argument, hfound, hview⟩
    · have hfull : Scheduler.leastFree m.stack = none := by
        cases hfree : Scheduler.leastFree m.stack with
        | none => rfl
        | some num =>
            have hterminal := switchTerminal_begins hshell hbegins (hs.freeSlot_eq.trans hfree)
              hswitch
            have hkept : next.terminalNum = s.terminalNum :=
              congrArg ProcessView.terminalNum hview
            have hrunning : m.stack s.terminalNum ≠ [] := hs.scheduled.running
            exact absurd hempty.2 (hterminal.symm.trans hkept ▸ hrunning)
      rw [Scheduler.spawn_of_full hfull]
      refine ⟨?_, (congrArg ProcessView.terminalNum hview).trans hs.running⟩
      rw [hview]
      exact hs.scheduled.save cpu
    · rw [Scheduler.spawn_of_free (hs.freeSlot_eq.symm.trans hfound)]
      refine ⟨?_, congrArg ProcessView.terminalNum hview⟩
      rw [hview]
      exact (hs.scheduled.save cpu).begin t argument frame (freeSlot_eq_some hfound)

/-- A call on a descriptor leaves the processes where they are. -/
theorem Move.schedules {effect : FdEffect} (hmove : Move s.view (some effect) next.view)
    (hs : s.Schedules m) : next.Schedules m := by
  generalize hview : next.view = v at hmove
  have hnext : ∀ {v}, next.view = v → Scheduled v m.stack → v.terminalNum = m.running →
      next.Schedules m := by
    rintro v hview hsched hrunning
    exact ⟨hview ▸ hsched, (congrArg ProcessView.terminalNum hview).trans hrunning⟩
  cases hmove with
  | stay _ => exact hs.of_view hview
  | touch _ pcb hpcb => exact hnext hview (hs.scheduled.touch hpcb) hs.running
  | enumerated fd => exact hnext hview (hs.scheduled.setDirIndex _) hs.running
  | openedDir fd pcb hpcb =>
      exact hnext hview ((hs.scheduled.touch hpcb).setDirIndex 0) hs.running

theorem CallResult.Moves.schedules {effect : FdEffect} {result : CallResult}
    (hmoves : result.Moves s.view (some effect)) (hs : s.Schedules m) :
    result.kernel.Schedules m := by
  cases result with
  | returned value bytes s' => exact Move.schedules hmoves hs
  | pageFault s' => exact hs.of_view hmoves

theorem CallResult.Keeps.schedules {result : CallResult} (hkeeps : result.Keeps s.view)
    (hs : s.Schedules m) : result.kernel.Schedules m :=
  hs.of_view hkeeps.view_eq

theorem answer_schedules (hshell : img.Loadable shellName) {result : CallResult}
    {answer : Answer} (hkept : result.kernel.Schedules m)
    (hanswer : result.answer img frame = some (next, answer)) :
    next.Schedules (m.step (if result.faults then .exit else .other)) := by
  cases result with
  | returned value bytes s' =>
      obtain ⟨rfl, _⟩ := Prod.mk.inj (Option.some.inj hanswer)
      exact hkept
  | pageFault s' =>
      obtain ⟨halting, hexc, heq⟩ := Option.map_eq_some_iff.mp hanswer
      have hexit := excHandler_schedules hshell hkept hexc
      rwa [heq] at hexit

/-- Every completed operation is its event on the stacks. -/
theorem step_schedules (hshell : img.Loadable shellName) (hs : s.Schedules m) {op : Op}
    (htyped : NoUntypedOpen img s op) (hstep : step img link s op = some next) :
    next.Schedules (m.step (schedulerEvent img s op)) := by
  obtain ⟨⟨final, answer⟩, hperform, rfl⟩ := Option.map_eq_some_iff.mp hstep
  have hcallable := hs.scheduled.sound.callable
  cases op with
  | execute command frame =>
      obtain ⟨execution, hexecute, heq⟩ := Option.map_eq_some_iff.mp hperform
      have hnext := execute_schedules hs hexecute
      cases execution <;>
      · obtain ⟨rfl, _⟩ := Prod.mk.inj heq
        exact hnext
  | halt status frame =>
      obtain ⟨halting, hhalt, heq⟩ := Option.map_eq_some_iff.mp hperform
      have hnext := halt_schedules hshell hs hhalt
      rwa [heq] at hnext
  | read fd buf nbytes frame =>
      obtain ⟨result, hread, hanswer⟩ := Option.bind_eq_some_iff.mp hperform
      have hevent : schedulerEvent img s (.read fd buf nbytes frame) =
          if result.faults then .exit else .other := by
        simp [schedulerEvent, switchTarget, endsProcess, hread]
      rw [hevent]
      refine answer_schedules hshell ?_ hanswer
      cases hindex : fdIndex fd with
      | none => exact (read_keeps hread hindex).schedules hs
      | some index =>
          have hmoves := read_moves hread
          rw [hindex] at hmoves
          exact hmoves.schedules hs
  | write fd buf nbytes frame =>
      obtain ⟨result, hwrite, hanswer⟩ := Option.bind_eq_some_iff.mp hperform
      have hevent : schedulerEvent img s (.write fd buf nbytes frame) =
          if result.faults then .exit else .other := by
        simp [schedulerEvent, switchTarget, endsProcess, hwrite]
      rw [hevent]
      exact answer_schedules hshell ((write_keeps hwrite).schedules hs) hanswer
  | openFile filename =>
      obtain ⟨result, hopen, hanswer⟩ := Option.bind_eq_some_iff.mp hperform
      cases result with
      | returned value bytes s' =>
          obtain ⟨rfl, _⟩ := Prod.mk.inj (Option.some.inj hanswer)
          change s'.Schedules m
          cases hindex : fdIndex value with
          | none => exact hs.of_view (openFile_keeps hopen hindex)
          | some index =>
              have hmove := openFile_move htyped hopen
              rw [hindex] at hmove
              exact Move.schedules hmove hs
      | pageFault s' => contradiction
  | close fd frame =>
      have hevent : schedulerEvent img s (.close fd frame) =
          if (close s fd).faults then .exit else .other := rfl
      rw [hevent]
      refine answer_schedules hshell ?_ hperform
      cases hindex : fdIndex fd with
      | none => exact (close_keeps hindex).schedules hs
      | some index =>
          have hmoves : (close s fd).Moves s.view ((fdIndex fd).map .closes) :=
            (close_moves hcallable).1
          rw [hindex] at hmoves
          exact hmoves.schedules hs
  | getargs buf nbytes =>
      obtain ⟨rfl, _⟩ := Prod.mk.inj (Option.some.inj hperform)
      exact hs
  | vidmap screenStart =>
      obtain ⟨rfl, _⟩ := Prod.mk.inj (Option.some.inj hperform)
      exact hs.of_view (view_vidmap link s screenStart)
  | exception exc frame =>
      obtain ⟨halting, hexc, heq⟩ := Option.map_eq_some_iff.mp hperform
      have hnext := excHandler_schedules hshell hs hexc
      rwa [heq] at hnext
  | pit cpu =>
      obtain ⟨rfl, _⟩ := Prod.mk.inj (Option.some.inj hperform)
      exact pitHandler_schedules hs cpu
  | keyboard scancode cpu frame =>
      obtain ⟨s', hkey, heq⟩ := Option.map_eq_some_iff.mp hperform
      obtain ⟨rfl, _⟩ := Prod.mk.inj heq
      rcases keyboardHandler_view hkey with ⟨hnone, hview⟩ | ⟨t, htarget, hswitch⟩
      · have hevent : schedulerEvent img s (.keyboard scancode cpu frame) = .other := by
          simp only [schedulerEvent, hnone, endsProcess, Bool.false_eq_true, if_false]
        rw [hevent]
        exact hs.of_view hview
      · have hevent : schedulerEvent img s (.keyboard scancode cpu frame) = .select t := by
          simp only [schedulerEvent, htarget]
        rw [hevent]
        exact switchTerminal_schedules hshell hs hswitch
  | switchTerminal t cpu frame =>
      obtain ⟨s', hswitch, heq⟩ := Option.map_eq_some_iff.mp hperform
      obtain ⟨rfl, _⟩ := Prod.mk.inj heq
      exact switchTerminal_schedules hshell hs hswitch
  | rtcInterrupt =>
      obtain ⟨rfl, _⟩ := Prod.mk.inj (Option.some.inj hperform)
      exact hs.of_view rfl

end Steps

/-! ## Whole runs -/

/-- The events of a run. -/
def schedulerEvents (img : Image) (step : Kernel → Op → Option Kernel) :
    Kernel → List Op → List SchedulerEvent :=
  PartialRuns.translate step fun s op => [schedulerEvent img s op]

/-- One process on the first terminal. -/
def Scheduler.start : Scheduler := ⟨push (fun _ => []) 0 1, 0⟩

section Runs

variable {img : Image} {link : Link} {boot first s final : Kernel} {frame : StackFrame}
  {entry image : List UInt8} {ops : List Op} {m : Scheduler}

theorem run_schedules (hshell : img.Loadable shellName) (hs : s.Schedules m)
    (htyped : Meets (step img link) (NoUntypedOpen img) s ops)
    (hrun : run (step img link) s ops = some final) :
    final.Schedules ((schedulerEvents img (step img link) s ops).foldl Scheduler.step m) := by
  induction ops generalizing s m with
  | nil =>
      obtain rfl := Option.some.inj hrun
      exact hs
  | cons op rest ih =>
      obtain ⟨next, hnext, hrest⟩ := run_cons_eq_some.mp hrun
      have hstep := step_schedules hshell hs htyped.1 hnext
      have hfinal := ih hstep (htyped.2 next hnext) hrest
      simpa [schedulerEvents, PartialRuns.translate, hnext] using hfinal

theorem Booted.schedules (hboot : Booted boot)
    (hfirst : execute img boot (some shellName) frame = some (.started first entry image)) :
    first.Schedules Scheduler.start := by
  have hforest := hboot.forest
  have hslot := execute_slot hfirst
  rw [hforest.freeSlot_eq] at hslot
  have hone : first.view.current = 1 := by
    have hleast : Scheduler.leastFree (fun _ => []) = some 1 := by decide
    exact Option.some.inj (hslot.symm.trans hleast)
  obtain ⟨num, argument, hfree, hview⟩ := execute_moves hfirst
  have hnum : num = 1 := by
    rw [← hone, hview]
    simp [ProcessView.current, ProcessView.start]
  have hterminal : first.view.terminalNum = 0 :=
    (congrArg ProcessView.terminalNum hview).trans hboot.terminalNum
  refine ⟨?_, hterminal⟩
  have hstarted := hforest.start_scheduled argument frame hfree fun t _ =>
    (hboot.flag t).trans (by simp)
  rw [hview, hnum]
  rw [hnum, show boot.view.terminalNum = 0 from hboot.terminalNum] at hstarted
  exact hstarted

/-- After the first shell, every run of completed operations is the run of its events on
three stacks: which processes there are, in which order, on which terminal and under which
numbers follows from the events alone. -/
theorem kernel_refines_scheduler (hshell : img.Loadable shellName) (hboot : Booted boot)
    (hfirst : execute img boot (some shellName) frame = some (.started first entry image))
    (htyped : Meets (step img link) (NoUntypedOpen img) first ops)
    (hrun : run (step img link) first ops = some final) :
    final.scheduler = (schedulerEvents img (step img link) first ops).foldl Scheduler.step
      Scheduler.start :=
  (run_schedules hshell (hboot.schedules hfirst) htyped hrun).scheduler_eq

end Runs

end VirtualOS
