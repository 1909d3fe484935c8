import VirtualOS.PreemptionInvariant
import Mathlib.Tactic

/-!
# The events under preemption

The statements of `execute` and `halt`, the calls of a process and the interrupts
are read as changes of the process view, and each of them keeps `Threads`.  The
conditions of `Orderly` enter where they are needed: at a round of the search, at
the two uses of `current_process_num`, and where a context is saved.
-/

namespace VirtualOS

open PartialRuns LinkedStacks

/-! ## Statements on the view -/

section Views

variable {img : Image} {s next : Kernel} {frame : StackFrame}

theorem startsProgram_eq (img : Image) (command : List UInt8) (frame : StackFrame) :
    startsProgram img command frame = (acceptedFile img command frame).isSome := by
  unfold startsProgram acceptedFile
  cases readDentryByName img (parseCommand command).1 with
  | none => rfl
  | some dentry =>
      by_cases hmagic : readWord img dentry.inodeNum 0 frame.exeHeader = exeMagicNumber
      · simp [Option.filter, hmagic]
      · simp [Option.filter, hmagic]

theorem executeCommit_cases {command : List UInt8} {num : ℕ} {execution : Execution}
    (hcommit : executeCommit img s command num frame = some execution) :
    (startsProgram img command frame = false ∧ execution = .returned (-1) s) ∨
      (startsProgram img command frame = true ∧ ∃ argument entry image,
        execution = .started (startProcess s num argument frame) entry image) := by
  obtain ⟨_, ⟨hnone, rfl⟩ | ⟨dentry, hsome, _, rfl⟩⟩ := executeCommit_eq_some hcommit
  · exact .inl ⟨by rw [startsProgram_eq, hnone]; rfl, rfl⟩
  · exact .inr ⟨by rw [startsProgram_eq, hsome]; rfl, _, _, _, rfl⟩

theorem Image.Loadable.startsProgram (hshell : img.Loadable shellName) (frame : StackFrame) :
    startsProgram img shellName frame = true := by
  obtain ⟨dentry, haccepted, _⟩ := hshell.acceptedFile frame
  rw [startsProgram_eq, haccepted]
  rfl

theorem haltCleanFd_cases {fd : Fin 8} (hfd : 1 < fd.val)
    (hcallable : s.view.currentPcb.Callable) :
    ∃ next, haltCleanFd s s.pcbPtr fd = .returned 0 [] next ∧
      (next.view = s.view ∨ ∃ pcb, PcbStep s.view.currentPcb (some (.closes fd)) pcb ∧
        next.view = s.view.touch pcb) := by
  unfold haltCleanFd
  split
  · rename_i hflags
    have hopen : (s.view.currentPcb.fileDescArray fd).flags ≠ 0 :=
      ne_of_eq_of_ne hflags one_ne_zero
    have hfops := hcallable fd hfd hopen
    refine ⟨_, close_eq_returned hfd hflags hfops, .inr ⟨_, .closed fd hfd, ?_⟩⟩
    rfl
  · exact ⟨s, rfl, .inl rfl⟩

end Views

/-! ## Statements of a thread -/

section Steps

variable {img : Image} {link : Link} {m next : Machine} {cells : Holdings}

/-- A `halt` holds the slot whose control block it still uses. -/
theorem HaltPoint.Spare.cases {point : HaltPoint} {num : ℕ} {spare : List ℕ}
    (hspare : point.Spare num spare) :
    (spare = [] ∧ point.pcb num = none) ∨
      ∃ slot, spare = [slot] ∧ point.pcb num = some (pcbAddress slot) := by
  cases point with
  | load => exact .inl ⟨hspare, rfl⟩
  | free => exact .inl ⟨hspare, rfl⟩
  | countDown => exact .inr ⟨num, hspare, rfl⟩
  | test => exact .inr ⟨num, hspare, rfl⟩
  | findPcb => exact .inr ⟨num, hspare, rfl⟩
  | restoreNum pcbPtr => exact .inr ⟨num, hspare.1, congrArg some hspare.2⟩
  | _ =>
      obtain ⟨slot, hslot, hptr⟩ := hspare
      exact .inr ⟨slot, hslot, congrArg some hptr⟩

/-- The threads of a machine own what the holdings say. -/
abbrev Machine.Threads (img : Image) (m : Machine) (cells : Holdings) : Prop :=
  VirtualOS.Threads img m.kernel.view m.point m.lost cells

/-- The further slots are those that a thread has found or still leaves. -/
theorem Machine.Threads.mem_spare_iff (hthreads : m.Threads img cells) {t : Fin 3} {num : ℕ}
    (hmax : num ≤ processNumMax) :
    num ∈ cells (.inr t) ↔ m.picked img t = some num ∨ m.halting t = some (pcbAddress num) := by
  have hbound : ∀ slot ∈ cells (.inr t), slot ≤ processNumMax :=
    fun slot hslot => (hthreads.bounds _ slot hslot).2
  have haddress : ∀ slot, cells (.inr t) = [slot] →
      (num ∈ cells (.inr t) ↔ pcbAddress slot = pcbAddress num) := by
    intro slot hslot
    rw [hslot, List.mem_singleton]
    constructor
    · rintro rfl
      rfl
    · exact fun heq => (pcbAddress_injective (hbound slot (by simp [hslot])) hmax heq).symm
  by_cases hflag : m.kernel.view.flag t = 0
  · have hvacant := hthreads.vacant t hflag
    simp [Machine.picked, Machine.halting, hvacant.user, hvacant.spare]
  · have hspare := (hthreads.stands t hflag).spare
    unfold Machine.picked Machine.halting
    cases hpoint : m.point t with
    | user =>
        rw [hpoint] at hspare
        have hnone : cells (.inr t) = [] := hspare
        simp [hnone]
    | execute caller frame point =>
        rw [hpoint] at hspare
        cases point with
        | load command =>
            have hnone : cells (.inr t) = [] := hspare
            simp [hnone]
        | search command i => simp [hspare.1]
        | commit command slot =>
            have hfound : cells (.inr t) =
                if startsProgram img command frame then [slot] else [] := hspare
            rw [hfound]
            by_cases hstarts : startsProgram img command frame = true
            · simp [hstarts, eq_comm]
            · simp [hstarts]
    | halt frame point =>
        rw [hpoint] at hspare
        rcases HaltPoint.Spare.cases hspare with ⟨hnone, hpcb⟩ | ⟨slot, hslot, hpcb⟩
        · have hnum : point.pcb (m.kernel.terminalT t).processNum = none := hpcb
          simp [hnone, hnum]
        · have hnum : point.pcb (m.kernel.terminalT t).processNum = some (pcbAddress slot) := hpcb
          simp [haddress slot hslot, hnum]

theorem Machine.Threads.notMem_spare (hthreads : m.Threads img cells) {t : Fin 3} {num : ℕ}
    (hmax : num ≤ processNumMax) (hunclaimed : m.Unclaimed img t num) :
    num ∉ cells (.inr t) := by
  rw [hthreads.mem_spare_iff hmax]
  rintro (hpicked | hhalting)
  · exact hunclaimed.1 hpicked
  · exact hunclaimed.2 hhalting

/-- A round of the search for a slot. -/
theorem executeSearch_threads (hthreads : m.Threads img cells)
    (horderly : m.Orderly img .statement) {caller : Caller} {frame : StackFrame}
    {command : List UInt8} {i : ℕ}
    (hrunning : m.running = .execute caller frame (.search command i)) {after : Kernel × Point}
    (hstep : executeStatement img m.kernel caller frame (.search command i) = some after) :
    ∃ cells', Threads img after.1.view
      (Function.update m.point m.kernel.terminalNum after.2) m.lost cells' := by
  have hpoint : m.point m.kernel.view.terminalNum = .execute caller frame (.search command i) :=
    hrunning
  have hown := hthreads.own hpoint
  have hwindow := hthreads.own_window hpoint
  obtain ⟨hspare, hpos⟩ := hown.spare
  simp only [executeStatement] at hstep
  split at hstep
  · rename_i hend
    obtain ⟨printed, hprint, rfl⟩ := Option.map_eq_some_iff.mp hstep
    cases caller with
    | halt =>
        -- the slot that `halt` has released is still free, so the search ends before
        obtain ⟨-, num, hle, hfree⟩ := hwindow
        exact absurd (hle.trans hfree.2.1) (by omega)
    | process =>
        refine ⟨cells, ?_⟩
        rw [view_printLiteral hprint]
        exact hthreads.proceed_view ⟨hown.linked, hown.count, hspare, hown.stack⟩ hwindow
  · rename_i hmore
    split at hstep
    · rename_i hzero
      obtain rfl := Option.some.inj hstep
      refine hthreads.find hpoint (by omega) hzero fun hstarts t => ?_
      refine hthreads.notMem_spare (by omega) (horderly.2.1 i ?_ t)
      simp [Machine.finds, hrunning, hzero, hstarts, not_lt.mp hmore]
    · rename_i htaken
      obtain rfl := Option.some.inj hstep
      cases caller with
      | halt =>
          obtain ⟨hname, num, hle, hfree⟩ := hwindow
          have hne : i ≠ num := by
            rintro rfl
            exact htaken hfree.2.2
          exact ⟨cells, hthreads.proceed_view
            ⟨hown.linked, hown.count, ⟨hspare, by omega⟩, hown.stack⟩
            ⟨hname, num, by omega, hfree⟩⟩
      | process =>
          exact ⟨cells, hthreads.proceed_view
            ⟨hown.linked, hown.count, ⟨hspare, by omega⟩, hown.stack⟩ hwindow⟩

/-- The slot that was found is taken, if there is a program to start. -/
theorem executeCommit_threads (hshell : img.Loadable shellName) (hthreads : m.Threads img cells)
    (horderly : m.Orderly img .statement) {caller : Caller} {frame : StackFrame}
    {command : List UInt8} {num : ℕ}
    (hrunning : m.running = .execute caller frame (.commit command num)) {after : Kernel × Point}
    (hstep : executeStatement img m.kernel caller frame (.commit command num) = some after) :
    ∃ cells', Threads img after.1.view
      (Function.update m.point m.kernel.terminalNum after.2) m.lost cells' := by
  have hpoint : m.point m.kernel.view.terminalNum = .execute caller frame (.commit command num) :=
    hrunning
  have hown := hthreads.own hpoint
  have hwindow := hthreads.own_window hpoint
  obtain ⟨execution, hcommit, rfl⟩ := Option.map_eq_some_iff.mp hstep
  rcases executeCommit_cases hcommit with
    ⟨hnone, rfl⟩ | ⟨hstarts, argument, entry, image, rfl⟩
  · cases caller with
    | halt =>
        have hname : command = shellName := hwindow
        rw [hname, hshell.startsProgram frame] at hnone
        contradiction
    | process =>
        have hspare : cells (.inr m.kernel.terminalNum) = [] := by
          have hkept := hown.spare
          simp only [Point.Spare, hnone, Bool.false_eq_true, if_false] at hkept
          exact hkept
        exact ⟨cells, hthreads.proceed_view
          ⟨hown.linked, hown.count, hspare, hown.stack⟩ hwindow⟩
  · have hstored := horderly.2.2 (by simp [Machine.usesCurrent, hrunning, hstarts])
    have hnext := hthreads.commit hpoint hstarts argument
    rw [← view_startProcess hstored] at hnext
    exact ⟨_, hnext⟩

theorem executeStatement_threads (hshell : img.Loadable shellName)
    (hthreads : m.Threads img cells) (horderly : m.Orderly img .statement)
    {caller : Caller} {frame : StackFrame} {point : ExecutePoint}
    (hrunning : m.running = .execute caller frame point) {after : Kernel × Point}
    (hstep : executeStatement img m.kernel caller frame point = some after) :
    ∃ cells', Threads img after.1.view
      (Function.update m.point m.kernel.terminalNum after.2) m.lost cells' := by
  have hpoint : m.point m.kernel.view.terminalNum = .execute caller frame point := hrunning
  have hown := hthreads.own hpoint
  have hwindow := hthreads.own_window hpoint
  cases point with
  | load command =>
      cases command with
      | none =>
          obtain rfl := Option.some.inj hstep
          cases caller with
          | halt => exact absurd hwindow.1 (by simp)
          | process =>
              exact ⟨cells, hthreads.proceed_view
                ⟨hown.linked, hown.count, hown.spare, hown.stack⟩ hwindow⟩
      | some command =>
          obtain rfl := Option.some.inj hstep
          have hspare : cells (.inr m.kernel.terminalNum) = [] := hown.spare
          cases caller with
          | halt =>
              obtain ⟨hname, num, hfree⟩ := hwindow
              exact ⟨cells, hthreads.proceed_view
                ⟨hown.linked, hown.count, ⟨hspare, le_rfl⟩, hown.stack⟩
                ⟨Option.some.inj hname, num, hfree.1, hfree⟩⟩
          | process =>
              exact ⟨cells, hthreads.proceed_view
                ⟨hown.linked, hown.count, ⟨hspare, le_rfl⟩, hown.stack⟩ hwindow⟩
  | search command i => exact executeSearch_threads hthreads horderly hrunning hstep
  | commit command num => exact executeCommit_threads hshell hthreads horderly hrunning hstep

/-- The next descriptor of the process that goes away is closed. -/
theorem haltClean_threads (hthreads : m.Threads img cells) {frame : StackFrame} {pcbPtr : BitVec 32}
    {fd : Fin 8} {rest : List (Fin 8)}
    (hrunning : m.running = .halt frame (.clean pcbPtr (fd :: rest))) {after : Kernel × Point}
    (hstep : haltStatement m.kernel frame (.clean pcbPtr (fd :: rest)) = some after) :
    ∃ cells', Threads img after.1.view
      (Function.update m.point m.kernel.terminalNum after.2) m.lost cells' := by
  have hpoint : m.point m.kernel.view.terminalNum = .halt frame (.clean pcbPtr (fd :: rest)) :=
    hrunning
  have hown := hthreads.own hpoint
  obtain ⟨hptr, hprev, hfds⟩ := hthreads.own_window hpoint
  obtain ⟨slot, hslot, haddress⟩ := hown.spare
  have hmem : slot ∈ cells (.inr m.kernel.view.terminalNum) := by simp [hslot]
  have hcallable : m.kernel.view.currentPcb.Callable := by
    rw [ProcessView.currentPcb, hptr, haddress]
    exact hthreads.callable slot (hthreads.bounds _ slot hmem).2
  have hrest : ∀ other ∈ rest, 1 < other.val :=
    fun other hother => hfds other (by simp [hother])
  obtain ⟨closed, hclose, hview⟩ := haltCleanFd_cases (hfds fd (by simp)) hcallable
  have hfound : m.kernel.pcbPtr = pcbPtr := hptr
  simp only [haltStatement] at hstep
  rw [← hfound, hclose] at hstep
  obtain rfl := Option.some.inj hstep
  refine ⟨cells, ?_⟩
  dsimp only
  rw [hfound]
  rcases hview with hview | ⟨pcb, hpcb, hview⟩
  · rw [hview]
    exact hthreads.proceed_view
      ⟨hown.linked, hown.count, hown.spare, hown.stack⟩ ⟨hptr, hprev, hrest⟩
  · rw [hview]
    refine hthreads.touch (hptr.trans haddress) (.inr hmem) hpcb
      ⟨hown.linked, hown.count, hown.spare, hown.stack⟩ ⟨hptr, ?_, hrest⟩
    have hself : (m.kernel.view.touch pcb).pcb pcbPtr = pcb := by
      rw [← hptr]
      exact Function.update_self ..
    rw [hself, hpcb.prev_eq, ProcessView.currentPcb, hptr]
    exact hprev

theorem haltStatement_threads (hthreads : m.Threads img cells)
    (horderly : m.Orderly img .statement) {frame : StackFrame} {point : HaltPoint}
    (hrunning : m.running = .halt frame point) {after : Kernel × Point}
    (hstep : haltStatement m.kernel frame point = some after) :
    ∃ cells', Threads img after.1.view
      (Function.update m.point m.kernel.terminalNum after.2) m.lost cells' := by
  have hpoint : m.point m.kernel.view.terminalNum = .halt frame point := hrunning
  have hown := hthreads.own hpoint
  have hwindow := hthreads.own_window hpoint
  cases point with
  | load =>
      obtain rfl := Option.some.inj hstep
      exact ⟨cells, hthreads.proceed_view
        ⟨hown.linked, hown.count, hown.spare, hown.stack⟩ hwindow⟩
  | free =>
      obtain rfl := Option.some.inj hstep
      have hstored := horderly.2.2 (by simp [Machine.usesCurrent, hrunning])
      have hnext := hthreads.release hpoint
      rw [← view_haltFreeSlot hstored] at hnext
      exact ⟨_, hnext⟩
  | countDown =>
      obtain rfl := Option.some.inj hstep
      have hnext := hthreads.countDown hpoint
      rw [← view_haltCountDown] at hnext
      exact ⟨_, hnext⟩
  | test =>
      simp only [haltStatement] at hstep
      split at hstep
      · rename_i hlast
        obtain rfl := Option.some.inj hstep
        have hnext := hthreads.forget hpoint hlast
        have hview : (haltForgetProcess m.kernel).view =
            { m.kernel.view with
              processNum := Function.update m.kernel.view.processNum
                m.kernel.view.terminalNum 0 } := view_haltForgetProcess m.kernel
        rw [← hview] at hnext
        exact ⟨_, hnext⟩
      · rename_i hmore
        obtain rfl := Option.some.inj hstep
        refine ⟨cells, hthreads.proceed_view
          ⟨hown.linked, hown.count, hown.spare, fun hnil => hmore ?_⟩ hwindow⟩
        have hcount := hown.count
        rw [hnil] at hcount
        exact hcount
  | findPcb =>
      obtain rfl := Option.some.inj hstep
      have hptr : m.kernel.pcbPtr = pcbAddress (m.kernel.view.processNum m.kernel.terminalNum) :=
        hthreads.pcbPtr_eq (by rw [hpoint]; rfl)
      exact ⟨cells, hthreads.proceed_view
        ⟨hown.linked, hown.count, ⟨hown.spare, hptr⟩, hown.stack⟩ hwindow⟩
  | restoreNum pcbPtr =>
      obtain rfl := Option.some.inj hstep
      have hnext := hthreads.restoreNum hpoint
      rw [← view_haltRestoreNum] at hnext
      exact ⟨_, hnext⟩
  | restorePage pcbPtr =>
      obtain rfl := Option.some.inj hstep
      exact ⟨cells, hthreads.proceed_fields rfl rfl rfl rfl (fun _ _ => rfl) (fun _ _ => rfl)
        ⟨hown.linked, hown.count, hown.spare, hown.stack⟩
        ⟨hwindow.1, hwindow.2, fun fd => one_lt_of_mem_openSlots⟩⟩
  | clean pcbPtr fds =>
      cases fds with
      | nil =>
          obtain ⟨hptr, hprev, -⟩ := hwindow
          obtain rfl := Option.some.inj hstep
          exact ⟨cells, hthreads.proceed_view
            ⟨hown.linked, hown.count, hown.spare, hown.stack⟩ ⟨hptr, hprev⟩⟩
      | cons fd rest => exact haltClean_threads hthreads hrunning hstep
  | restoreTss pcbPtr =>
      obtain rfl := Option.some.inj hstep
      exact ⟨cells, hthreads.proceed_fields rfl rfl rfl rfl (fun _ _ => rfl) (fun _ _ => rfl)
        ⟨hown.linked, hown.count, hown.spare, hown.stack⟩ (congrArg kernelStack hwindow.2)⟩
  | jump pcbPtr =>
      obtain rfl := Option.some.inj hstep
      exact ⟨_, hthreads.leave hpoint⟩

/-! ## Calls of a process in user mode -/

/-- A process leaves user mode, or stays there after a call. -/
def Point.Entry : Point → Prop
  | .user => True
  | .execute .process _ (.load _) => True
  | .halt _ .load => True
  | _ => False

section User

variable {v after : ProcessView} {point : Fin 3 → Point} {lost : Fin 3 → Option Cpu}

theorem Threads.enter (hthreads : Threads img v point lost cells)
    (huser : point v.terminalNum = .user) {p : Point} (hentry : p.Entry) :
    Threads img v (Function.update point v.terminalNum p) lost cells := by
  have hown := hthreads.own huser
  have hwindow := hthreads.own_window huser
  have hkept : Stands img v cells v.terminalNum p ∧ p.Window v := by
    cases p with
    | user => exact ⟨hown, hwindow⟩
    | execute caller frame point =>
        cases caller with
        | halt => exact hentry.elim
        | process =>
            cases point with
            | load command =>
                exact ⟨⟨hown.linked, hown.count, hown.spare, hown.stack⟩, hwindow⟩
            | _ => exact hentry.elim
    | halt frame point =>
        cases point with
        | load => exact ⟨⟨hown.linked, hown.count, hown.spare, hown.stack⟩, hwindow⟩
        | _ => exact hentry.elim
  exact hthreads.proceed_view hkept.1 hkept.2

theorem Threads.setDirIndex (hthreads : Threads img v point lost cells) (dirIndex : ℕ) :
    Threads img (v.setDirIndex dirIndex) point lost cells := by
  have hsame : ∀ t, Untouched v (v.setDirIndex dirIndex) cells cells t :=
    fun t => ⟨rfl, rfl, rfl, rfl, rfl, fun _ _ => rfl⟩
  refine ⟨hthreads.toLedger.congr rfl rfl, ?_, ?_, hthreads.started, hthreads.parked,
    hthreads.saved, ?_⟩
  · exact fun t ht => (hthreads.vacant t ht).of_untouched (hsame t)
  · exact fun t ht => (hthreads.stands t ht).of_untouched (hsame t)
  · have hwindow := hthreads.window
    have hterminal : (v.setDirIndex dirIndex).terminalNum = v.terminalNum := rfl
    rw [hterminal]
    cases hpoint : point v.terminalNum with
    | user => rwa [hpoint] at hwindow
    | execute caller frame p =>
        rw [hpoint] at hwindow
        cases caller with
        | process => exact hwindow
        | halt => cases p <;> exact hwindow
    | halt frame p =>
        rw [hpoint] at hwindow
        cases p <;> exact hwindow

theorem Threads.move (hthreads : Threads img v point lost cells)
    (huser : point v.terminalNum = .user) {effect : FdEffect}
    (hmove : Move v (some effect) after) : Threads img after point lost cells := by
  have hbetween : (point v.terminalNum).between = false := by
    rw [huser]
    rfl
  have hown := hthreads.own huser
  have htouch : ∀ {pcb}, PcbStep v.currentPcb (some effect) pcb →
      Threads img (v.touch pcb) point lost cells := by
    intro pcb hpcb
    have hstep := hthreads.touch (hthreads.pcbPtr_eq hbetween)
      (hown.processNum_mem rfl) hpcb hown (hthreads.own_window huser)
    rwa [← huser, Function.update_eq_self] at hstep
  cases hmove with
  | stay _ => exact hthreads
  | touch _ pcb hpcb => exact htouch hpcb
  | enumerated fd => exact hthreads.setDirIndex _
  | openedDir fd pcb hpcb => exact (htouch hpcb).setDirIndex 0

end User

theorem returned_threads (hthreads : m.Threads img cells) (huser : m.running = .user)
    {effect : Option FdEffect} {s : Kernel} (hmove : Move m.kernel.view effect s.view)
    (hnone : effect = none → s.view = m.kernel.view) :
    Threads img s.view (Function.update m.point m.kernel.terminalNum .user) m.lost cells := by
  have hback : Function.update m.point m.kernel.terminalNum .user = m.point := by
    rw [← huser]
    exact Function.update_eq_self ..
  rw [hback]
  cases effect with
  | none =>
      rw [hnone rfl]
      exact hthreads
  | some effect => exact hthreads.move huser hmove

theorem callResult_threads (hthreads : m.Threads img cells) (huser : m.running = .user)
    {effect : Option FdEffect} {result : CallResult} {frame : StackFrame}
    (hmoves : result.Moves m.kernel.view effect)
    (hnone : effect = none → result.Keeps m.kernel.view) {after : Kernel × Point}
    (hpoint : result.point frame = some after) :
    Threads img after.1.view (Function.update m.point m.kernel.terminalNum after.2) m.lost
      cells := by
  cases result with
  | returned value bytes s =>
      obtain rfl := Option.some.inj hpoint
      exact returned_threads hthreads huser hmoves hnone
  | pageFault s =>
      have hview : s.view = m.kernel.view := hmoves
      obtain ⟨printed, hprint, rfl⟩ := Option.map_eq_some_iff.mp hpoint
      dsimp only
      rw [view_printLiteral hprint, hview]
      exact hthreads.enter huser trivial

theorem callPoint_threads (hthreads : m.Threads img cells) (huser : m.running = .user)
    {op : Op} (htyped : NoUntypedOpen img m.kernel op) {after : Kernel × Point}
    (hcall : callPoint img link m.kernel op = some after) :
    Threads img after.1.view (Function.update m.point m.kernel.terminalNum after.2) m.lost
      cells := by
  have hpoint : m.point m.kernel.view.terminalNum = .user := huser
  have hbetween : (m.point m.kernel.view.terminalNum).between = false := by
    rw [hpoint]
    rfl
  cases op with
  | execute command frame =>
      obtain rfl := Option.some.inj hcall
      exact hthreads.enter huser trivial
  | halt status frame =>
      obtain rfl := Option.some.inj hcall
      exact hthreads.enter huser trivial
  | exception exc frame =>
      obtain ⟨printed, hprint, rfl⟩ := Option.map_eq_some_iff.mp hcall
      have hview : printed.view = m.kernel.view := by
        refine (view_printLiteral hprint).trans ?_
        split
        · rfl
        · exact view_clear m.kernel
      dsimp only
      rw [hview]
      exact hthreads.enter huser trivial
  | read fd buf nbytes frame =>
      obtain ⟨result, hread, hresult⟩ := Option.bind_eq_some_iff.mp hcall
      exact callResult_threads hthreads huser (read_moves hread)
        (fun hnone => read_keeps hread (Option.map_eq_none_iff.mp hnone)) hresult
  | write fd buf nbytes frame =>
      obtain ⟨result, hwrite, hresult⟩ := Option.bind_eq_some_iff.mp hcall
      exact callResult_threads hthreads huser (write_moves hwrite)
        (fun _ => write_keeps hwrite) hresult
  | openFile filename =>
      obtain ⟨result, hopen, hresult⟩ := Option.bind_eq_some_iff.mp hcall
      cases result with
      | pageFault s => contradiction
      | returned value bytes s =>
          obtain rfl := Option.some.inj hresult
          exact returned_threads hthreads huser (openFile_move htyped hopen) fun hnone =>
            openFile_keeps hopen (Option.map_eq_none_iff.mp hnone)
  | close fd frame =>
      have hcallable : m.kernel.view.currentPcb.Callable := by
        rw [ProcessView.currentPcb, hthreads.pcbPtr_eq hbetween]
        exact hthreads.callable _ (hthreads.current_bounds hbetween).2
      exact callResult_threads hthreads huser (close_moves hcallable).1
        (fun hnone => close_keeps (Option.map_eq_none_iff.mp hnone)) hcall
  | getargs buf nbytes =>
      obtain rfl := Option.some.inj hcall
      exact hthreads.enter huser trivial
  | vidmap screenStart =>
      obtain rfl := Option.some.inj hcall
      dsimp only
      rw [view_vidmap]
      exact hthreads.enter huser trivial
  | _ => contradiction

end Steps

/-! ## Interrupts -/

section Interrupts

variable {img : Image} {link : Link} {s next : Kernel} {cpu : Cpu} {frame : StackFrame}

theorem freeSlot_congr (hprocess : next.process = s.process) : freeSlot next = freeSlot s := by
  rw [freeSlot, freeSlot, hprocess]

/-- A switch begins a terminal when it has no shell and a slot is free.  When no slot
is free it only saves the context. -/
theorem switchTerminal_view (hshell : img.Loadable shellName) {t : Fin 3}
    (hswitch : switchTerminal img s t cpu frame = some next) :
    (¬ (t ≠ 0 ∧ (s.terminalT t).flag = 0) ∧ next.view = s.view) ∨
      ((t ≠ 0 ∧ (s.terminalT t).flag = 0) ∧
        (next.view = s.view.save cpu ∨ ∃ num argument, freeSlot s = some num ∧
          next.view = { s.view.save cpu with terminalNum := t }.start num argument frame)) := by
  have hshow := view_showTerminal s t
  have hflag : ((showTerminal s t).terminalT t).flag = (s.terminalT t).flag :=
    congrFun (congrArg ProcessView.flag hshow) t
  unfold switchTerminal at hswitch
  dsimp only at hswitch
  rw [hflag] at hswitch
  split at hswitch
  · rename_i hnew
    refine .inr ⟨hnew, ?_⟩
    obtain ⟨execution, hexecute, rfl⟩ := Option.map_eq_some_iff.mp hswitch
    generalize hcleared : clear { saveContext (showTerminal s t) cpu with terminalNum := t } =
      cleared at hexecute
    have hclear : cleared.view = { s.view.save cpu with terminalNum := t } := by
      rw [← hcleared, view_clear, ← hshow]
      rfl
    have hfree : freeSlot (loadCurrentProcess cleared) = freeSlot s :=
      freeSlot_congr (congrArg ProcessView.process hclear)
    cases hfound : freeSlot s with
    | some num =>
        obtain ⟨entry, image, hstarted⟩ :=
          execute_shell_eq frame hshell (hfree.trans hfound)
        obtain rfl := Option.some.inj (hstarted.symm.trans hexecute)
        refine .inr ⟨num, [], rfl, ?_⟩
        rw [← hclear]
        exact view_startProcess rfl
    | none =>
        have hmoves := execute_moves hexecute
        cases execution with
        | started after entry image =>
            obtain ⟨num, _, hnum, _⟩ := hmoves
            obtain ⟨found, hsome⟩ := freeSlot_isSome (s := loadCurrentProcess cleared) hnum
            rw [hfree, hfound] at hsome
            contradiction
        | returned value after =>
            refine .inl ?_
            dsimp only
            rw [view_set_terminalNum, show after.view = _ from hmoves, hclear]
            rfl
  · rename_i hold
    obtain rfl := Option.some.inj hswitch
    exact .inl ⟨hold, hshow⟩

/-- Only the switching keys reach the processes. -/
theorem keyboardHandler_view {scancode : ℕ}
    (hkey : keyboardHandler img s scancode cpu frame = some next) :
    (switchTarget s (.keyboard scancode cpu frame) = none ∧ next.view = s.view) ∨
      ∃ t, switchTarget s (.keyboard scancode cpu frame) = some t ∧
        switchTerminal img s t cpu frame = some next := by
  have halt : ∀ t, altSwitch img s t cpu frame = some next →
      switchTarget s (.keyboard scancode cpu frame) =
        (if s.altPress ∧ s.terminalDisplayed ≠ t then some t else none) →
      (switchTarget s (.keyboard scancode cpu frame) = none ∧ next.view = s.view) ∨
        ∃ t, switchTarget s (.keyboard scancode cpu frame) = some t ∧
          switchTerminal img s t cpu frame = some next := by
    intro t haltSwitch htarget
    rw [htarget]
    unfold altSwitch at haltSwitch
    split at haltSwitch
    · rename_i hpressed
      exact .inr ⟨t, if_pos hpressed, haltSwitch⟩
    · rename_i hpressed
      obtain rfl := Option.some.inj haltSwitch
      exact .inl ⟨if_neg hpressed, rfl⟩
  unfold keyboardHandler at hkey
  split at hkey
  case h_10 => exact halt 0 hkey rfl
  case h_11 => exact halt 1 hkey rfl
  case h_12 => exact halt 2 hkey rfl
  case h_13 => exact .inl ⟨rfl, view_keyboardTab hkey⟩
  case h_14 => exact .inl ⟨rfl, view_keyboardBackspace hkey⟩
  case h_15 => exact .inl ⟨rfl, view_keyboardEnter hkey⟩
  case h_16 =>
    refine .inl ⟨?_, view_keyboardPrint hkey⟩
    simp_all [switchTarget]
  all_goals
    obtain rfl := Option.some.inj hkey
    exact .inl ⟨rfl, rfl⟩

variable {m : Machine} {cells : Holdings}

theorem pit_threads (link : Link) (hthreads : m.Threads img cells)
    (horderly : m.Orderly img (.op (.pit cpu))) :
    (m.interrupted cpu (pitHandler link m.kernel cpu).1).Threads img cells := by
  by_cases hidle : (m.kernel.terminalT 1).flag = 0 ∧ (m.kernel.terminalT 2).flag = 0
  · have hsame : (pitHandler link m.kernel cpu).1 = m.kernel := by
      rw [pitHandler, if_pos hidle]
    simpa [Machine.interrupted, hsame] using hthreads
  · have hbetween := horderly.1 (decide_eq_true hidle)
    have hview := view_pitHandler link cpu hidle
    have hnum : (pitHandler link m.kernel cpu).1.terminalNum =
        nextStarted m.kernel 3 (m.kernel.terminalNum + 1) := congrArg ProcessView.terminalNum hview
    have hdispatch := hthreads.dispatch hbetween cpu
      (nextStarted_flag (m.kernel.terminalNum + 1) hidle)
    rw [← hview] at hdispatch
    change Threads img _ m.point (if (pitHandler link m.kernel cpu).1.terminalNum =
      m.kernel.terminalNum then m.lost else _) cells
    rw [hnum]
    exact hdispatch

theorem resumesLost_of_threads (link : Link) (hthreads : m.Threads img cells) {event : Event}
    (horderly : m.Orderly img event) : m.ResumesLost link event := by
  cases event with
  | statement => trivial
  | op op =>
      cases op with
      | pit cpu =>
          intro hbusy
          have hbetween := horderly.1 (decide_eq_true hbusy)
          have hview := view_pitHandler link cpu hbusy
          have hflag := nextStarted_flag (m.kernel.terminalNum + 1) hbusy
          have hnum : (pitHandler link m.kernel cpu).1.terminalNum =
              nextStarted m.kernel 3 (m.kernel.terminalNum + 1) :=
            congrArg ProcessView.terminalNum hview
          have hdispatch := hthreads.dispatch hbetween cpu hflag
          have hparked : (m.point (nextStarted m.kernel 3 (m.kernel.terminalNum + 1))).between =
              false := hthreads.not_between hbetween _
          have hpcb : (pitHandler link m.kernel cpu).1.view.currentPcb =
              (m.kernel.view.save cpu).pcb (pcbAddress (m.kernel.view.processNum
                (nextStarted m.kernel 3 (m.kernel.terminalNum + 1)))) := by
            rw [hview, ProcessView.currentPcb, hdispatch.pcbPtr_eq hparked]
            rfl
          have hloaded : (pitHandler link m.kernel cpu).2 =
              ⟨((pitHandler link m.kernel cpu).1.view.currentPcb).esp,
                ((pitHandler link m.kernel cpu).1.view.currentPcb).ebp⟩ := by
            rw [pitHandler, if_neg hbusy]
            rfl
          rw [hnum, hloaded, hpcb]
          exact hthreads.saved_update hbetween cpu hflag
      | _ => trivial

theorem switch_threads (hshell : img.Loadable shellName) (hthreads : m.Threads img cells)
    {op : Op} {t : Fin 3} (htarget : switchTarget m.kernel op = some t)
    (htakes : m.takesCpu (.op op) = beginsTerminal m.kernel op)
    (horderly : m.Orderly img (.op op))
    (hswitch : switchTerminal img m.kernel t cpu frame = some next) :
    ∃ cells', (m.interrupted cpu next).Threads img cells' := by
  have hbegins : beginsTerminal m.kernel op =
      decide (t ≠ 0 ∧ (m.kernel.terminalT t).flag = 0) := by
    rw [beginsTerminal, htarget]
    rfl
  rcases switchTerminal_view hshell hswitch with ⟨_, hview⟩ | ⟨hnew, hview⟩
  · have hnum : next.terminalNum = m.kernel.terminalNum := congrArg ProcessView.terminalNum hview
    refine ⟨cells, ?_⟩
    simpa [Machine.interrupted, hnum, Machine.Threads, hview] using hthreads
  · have hbegin : beginsTerminal m.kernel op = true := hbegins.trans (decide_eq_true hnew)
    have hbetween := horderly.1 (htakes.trans hbegin)
    rcases hview with hview | ⟨num, argument, hfound, hview⟩
    · have hnum : next.terminalNum = m.kernel.terminalNum :=
        congrArg ProcessView.terminalNum hview
      refine ⟨cells, ?_⟩
      have hsave := hthreads.save hbetween cpu
      simpa [Machine.interrupted, hnum, Machine.Threads, hview] using hsave
    · have hfree := freeSlot_eq_some hfound
      have hfinds : m.finds img (.op op) = some num := by
        rw [Machine.finds, hbegin, if_pos rfl, hfound]
      have hbegun := hthreads.begin hbetween cpu hnew.2 hfree
        (fun u => hthreads.notMem_spare hfree.2.1 (horderly.2.1 num hfinds u)) argument frame
      have hne : next.terminalNum ≠ m.kernel.terminalNum := by
        have hnum : next.terminalNum = t := congrArg ProcessView.terminalNum hview
        rw [hnum]
        rintro rfl
        exact hthreads.started hnew.2
      rw [← hview] at hbegun
      refine ⟨push cells (.inl t) num, ?_⟩
      change Threads img _ m.point (if next.terminalNum = m.kernel.terminalNum then m.lost
        else _) _
      rw [if_neg hne]
      exact hbegun

end Interrupts

end VirtualOS
