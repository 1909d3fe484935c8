import VirtualOS.PreemptiveModel
import Mathlib.Tactic

/-!
# Threads that are not interrupted

Taken apart into statements, `execute` and `halt` still do what they do as completed
operations: a thread that runs through all its statements ends in user mode with the
kernel that the operation leads to.
-/

namespace VirtualOS

open PartialRuns Relation

variable {img : Image} {s : Kernel} {frame : StackFrame}

/-! ## One thread -/

def threadStep (img : Image) : Kernel × Point → Option (Kernel × Point)
  | (_, .user) => none
  | (s, .execute caller frame point) => executeStatement img s caller frame point
  | (s, .halt frame point) => haltStatement s frame point

/-- Some statements of a thread, one after the other. -/
abbrev ThreadRuns (img : Image) : Kernel × Point → Kernel × Point → Prop :=
  ReflTransGen fun before after => threadStep img before = some after

/-- Where a thread stands after an inner `execute`. -/
def Execution.point (caller : Caller) (frame : StackFrame) : Execution → Kernel × Point
  | .returned _ s => (s, caller.back frame)
  | .started s _ _ => (s, .user)

theorem threadRuns_search {caller : Caller} {command : List UInt8} {count num i : ℕ}
    (hend : i + count = processNumMax + 1)
    (hfound : (List.range' i count).find? (fun i => s.process i = 0) = some num) :
    ThreadRuns img (s, .execute caller frame (.search command i))
      (s, .execute caller frame (.commit command num)) := by
  induction count generalizing i with
  | zero => simp at hfound
  | succ count ih =>
      have hmore : ¬ i > processNumMax := by omega
      rw [List.range'_succ, List.find?_cons] at hfound
      by_cases hzero : s.process i = 0
      · rw [decide_eq_true hzero] at hfound
        obtain rfl := Option.some.inj hfound
        refine .single ?_
        simp only [threadStep, executeStatement, if_neg hmore, if_pos hzero]
      · rw [decide_eq_false hzero] at hfound
        refine .head ?_ (ih (by omega) hfound)
        simp only [threadStep, executeStatement, if_neg hmore, if_neg hzero]

theorem threadRuns_full {caller : Caller} {command : List UInt8} {count i : ℕ}
    (hend : i + count = processNumMax + 1)
    (hfull : (List.range' i count).find? (fun i => s.process i = 0) = none) :
    ThreadRuns img (s, .execute caller frame (.search command i))
      (s, .execute caller frame (.search command (processNumMax + 1))) := by
  induction count generalizing i with
  | zero =>
      obtain rfl : i = processNumMax + 1 := by omega
      exact .refl
  | succ count ih =>
      have hmore : ¬ i > processNumMax := by omega
      rw [List.range'_succ, List.find?_cons] at hfull
      by_cases hzero : s.process i = 0
      · rw [decide_eq_true hzero] at hfull
        contradiction
      · rw [decide_eq_false hzero] at hfull
        refine .head ?_ (ih (by omega) hfull)
        simp only [threadStep, executeStatement, if_neg hmore, if_neg hzero]

theorem threadRuns_execute {caller : Caller} {command : Option (List UInt8)}
    {execution : Execution} (hexecute : execute img s command frame = some execution) :
    ThreadRuns img (s, .execute caller frame (.load command)) (execution.point caller frame) := by
  unfold execute at hexecute
  dsimp only at hexecute
  cases command with
  | none =>
      obtain rfl := Option.some.inj hexecute
      exact .single rfl
  | some command =>
      refine .head (b := (loadCurrentProcess s, .execute caller frame (.search command 1))) rfl ?_
      have hcount : 1 + processNumMax = processNumMax + 1 := rfl
      cases hfound : freeSlot (loadCurrentProcess s) with
      | none =>
          rw [hfound] at hexecute
          obtain ⟨printed, hprint, rfl⟩ := Option.map_eq_some_iff.mp hexecute
          refine (threadRuns_full hcount hfound).tail ?_
          simp only [threadStep, executeStatement, gt_iff_lt, Nat.lt_succ_self, if_true, hprint]
          rfl
      | some num =>
          rw [hfound] at hexecute
          refine (threadRuns_search hcount hfound).tail ?_
          simp only [threadStep, executeStatement]
          rw [show executeCommit img (loadCurrentProcess s) command num frame = _ from hexecute]
          cases execution <;> rfl

theorem threadRuns_clean {pcbPtr : BitVec 32} {fds : List (Fin 8)} {s : Kernel}
    {after : Kernel × Point}
    (hend : match haltCleanFds pcbPtr fds s with
      | .returned _ _ s => after = (s, .halt frame (.restoreTss pcbPtr))
      | .pageFault s => faultPoint s frame = some after) :
    ThreadRuns img (s, .halt frame (.clean pcbPtr fds)) after := by
  induction fds generalizing s with
  | nil =>
      obtain rfl := hend
      exact .single rfl
  | cons fd rest ih =>
      rw [haltCleanFds] at hend
      cases hclean : haltCleanFd s pcbPtr fd with
      | returned value bytes closed =>
          rw [hclean] at hend
          refine .head ?_ (ih hend)
          simp only [threadStep, haltStatement, hclean]
      | pageFault faulted =>
          rw [hclean] at hend
          refine .single ?_
          simp only [threadStep, haltStatement, hclean]
          exact hend

theorem threadRuns_restore {again : Kernel → Option Halting} {status : BitVec 32}
    {halting : Halting}
    (hagain : ∀ s halting, again s = some halting → ∃ after, faultPoint s frame = some after ∧
      ThreadRuns img after (halting.answer.1, .user))
    {s : Kernel} (hrestore : haltRestore again s status = some halting) :
    ThreadRuns img (s, .halt frame .findPcb) (halting.answer.1, .user) := by
  refine .head (b := (s, .halt frame (.restoreNum s.pcbPtr))) rfl ?_
  refine .head (b := (haltRestoreNum s s.pcbPtr, .halt frame (.restorePage s.pcbPtr))) rfl ?_
  refine .head (b := (haltRestorePage (haltRestoreNum s s.pcbPtr),
    .halt frame (.clean s.pcbPtr openSlots))) rfl ?_
  unfold haltRestore at hrestore
  dsimp only at hrestore
  cases hclean : haltCleanFds s.pcbPtr openSlots
      (haltRestorePage (haltRestoreNum s s.pcbPtr)) with
  | returned value bytes closed =>
      rw [hclean] at hrestore
      obtain rfl := Option.some.inj hrestore
      refine (threadRuns_clean (by rw [hclean])).trans ?_
      exact .head (b := (haltRestoreTss closed s.pcbPtr, .halt frame (.jump s.pcbPtr))) rfl
        (.single rfl)
  | pageFault faulted =>
      rw [hclean] at hrestore
      obtain ⟨after, hfault, hruns⟩ := hagain faulted halting hrestore
      exact (threadRuns_clean (by rw [hclean]; exact hfault)).trans hruns

theorem threadRuns_haltFuel {fuel : ℕ} {status : BitVec 32} {halting : Halting}
    (hhalt : haltFuel img frame fuel s status = some halting) :
    ThreadRuns img (s, .halt frame .load) (halting.answer.1, .user) := by
  induction fuel generalizing s status halting with
  | zero => contradiction
  | succ fuel ih =>
      have hagain : ∀ s halting,
          ((printLiteral s pageFaultText).bind fun s => haltFuel img frame fuel s 256) =
            some halting →
          ∃ after, faultPoint s frame = some after ∧
            ThreadRuns img after (halting.answer.1, .user) := by
        intro s halting hfault
        obtain ⟨printed, hprint, hrest⟩ := Option.bind_eq_some_iff.mp hfault
        exact ⟨_, Option.map_eq_some_iff.mpr ⟨printed, hprint, rfl⟩, ih hrest⟩
      unfold haltFuel at hhalt
      dsimp only at hhalt
      refine .head (b := (loadCurrentProcess s, .halt frame .free)) rfl ?_
      refine .head (b := (haltFreeSlot (loadCurrentProcess s), .halt frame .countDown)) rfl ?_
      refine .head (b := (haltRelease s, .halt frame .test)) rfl ?_
      split at hhalt
      · rename_i hlast
        obtain ⟨execution, hexecute, hend⟩ := Option.bind_eq_some_iff.mp hhalt
        refine .head (b := (haltForgetProcess (haltRelease s),
          .execute .halt frame (.load (some shellName)))) ?_
          ((threadRuns_execute hexecute).trans ?_)
        · simp only [threadStep, haltStatement, if_pos hlast]
        · cases execution with
          | started started entry image =>
              obtain rfl := Option.some.inj hend
              exact .refl
          | returned value returned => exact threadRuns_restore hagain hend
      · rename_i hmore
        refine .head (b := (haltRelease s, .halt frame .findPcb)) ?_
          (threadRuns_restore hagain hhalt)
        simp only [threadStep, haltStatement, if_neg hmore]

/-! ## The machine -/

theorem terminalNum_printLiteral {next : Kernel} {text : List UInt8}
    (hprint : printLiteral s text = some next) : next.terminalNum = s.terminalNum :=
  congrArg ProcessView.terminalNum (view_printLiteral hprint)

theorem executeCommit_terminalNum {command : List UInt8} {num : ℕ} {execution : Execution}
    (hcommit : executeCommit img s command num frame = some execution) (caller : Caller) :
    (execution.point caller frame).1.terminalNum = s.terminalNum := by
  obtain ⟨-, ⟨_, rfl⟩ | ⟨_, _, _, rfl⟩⟩ := executeCommit_eq_some hcommit
  · rfl
  · rfl

theorem haltCleanFd_terminalNum (s : Kernel) (pcbPtr : BitVec 32) (fd : Fin 8) :
    (haltCleanFd s pcbPtr fd).kernel.terminalNum = s.terminalNum := by
  unfold haltCleanFd close
  split
  · split
    · rfl
    · split
      · rfl
      · split
        · rfl
        · dsimp only
          split <;> rfl
  · rfl

/-- No statement gives the processor away. -/
theorem threadStep_terminalNum {before after : Kernel × Point}
    (hstep : threadStep img before = some after) :
    after.1.terminalNum = before.1.terminalNum := by
  obtain ⟨s, point⟩ := before
  cases point with
  | user => contradiction
  | execute caller frame point =>
      cases point with
      | load command =>
          cases command with
          | none =>
              obtain rfl := Option.some.inj hstep
              rfl
          | some command =>
              obtain rfl := Option.some.inj hstep
              rfl
      | search command i =>
          simp only [threadStep, executeStatement] at hstep
          split at hstep
          · obtain ⟨printed, hprint, rfl⟩ := Option.map_eq_some_iff.mp hstep
            exact terminalNum_printLiteral hprint
          · split at hstep <;>
            · obtain rfl := Option.some.inj hstep
              rfl
      | commit command num =>
          obtain ⟨execution, hcommit, rfl⟩ := Option.map_eq_some_iff.mp hstep
          have hnum := executeCommit_terminalNum hcommit caller
          cases execution <;> exact hnum
  | halt frame point =>
      cases point with
      | test =>
          simp only [threadStep, haltStatement] at hstep
          split at hstep <;>
          · obtain rfl := Option.some.inj hstep
            rfl
      | clean pcbPtr fds =>
          cases fds with
          | nil =>
              obtain rfl := Option.some.inj hstep
              rfl
          | cons fd rest =>
              have hnum := haltCleanFd_terminalNum s pcbPtr fd
              simp only [threadStep, haltStatement] at hstep
              cases hclean : haltCleanFd s pcbPtr fd with
              | returned value bytes closed =>
                  rw [hclean] at hstep hnum
                  obtain rfl := Option.some.inj hstep
                  exact hnum
              | pageFault faulted =>
                  rw [hclean] at hstep hnum
                  obtain ⟨printed, hprint, rfl⟩ := Option.map_eq_some_iff.mp hstep
                  exact (terminalNum_printLiteral hprint).trans hnum
      | _ =>
          obtain rfl := Option.some.inj hstep
          rfl

/-- The statements of the running thread, as a run of the machine. -/
theorem run_statements_of_threadRuns {link : Link} {m : Machine} {after : Kernel × Point}
    (hruns : ThreadRuns img (m.kernel, m.running) after) :
    ∃ count last, run (machineStep img link) m (statements count) = some last ∧
      last.kernel = after.1 ∧ last.running = after.2 := by
  induction hruns with
  | refl => exact ⟨0, m, rfl, rfl, rfl⟩
  | @tail before after _ hstep ih =>
      obtain ⟨count, last, hrun, hkernel, hrunning⟩ := ih
      have hnum := threadStep_terminalNum hstep
      have hlast : machineStep img link last .statement = some (last.proceed after) := by
        obtain ⟨s, point⟩ := before
        dsimp only at hkernel hrunning
        simp only [machineStep, Machine.statement, hrunning]
        cases point with
        | user => contradiction
        | execute caller frame point =>
            dsimp only
            rw [hkernel, show executeStatement img s caller frame point = some after from hstep]
            rfl
        | halt frame point =>
            dsimp only
            rw [hkernel, show haltStatement s frame point = some after from hstep]
            rfl
      refine ⟨count + 1, last.proceed after, ?_, rfl, ?_⟩
      · rw [statements, List.replicate_succ', run_append, ← statements, hrun, Option.bind_some,
          run_cons, hlast]
        rfl
      · rw [← hkernel] at hnum
        simp [Machine.running, Machine.proceed, hnum]

/-- Left alone, a thread that enters `execute` ends as the completed operation does. -/
theorem statements_execute {link : Link} {m : Machine} {command : Option (List UInt8)}
    {execution : Execution} (hpoint : m.running = .execute .process frame (.load command))
    (hexecute : execute img m.kernel command frame = some execution) :
    ∃ count last, run (machineStep img link) m (statements count) = some last ∧
      last.kernel = execution.answer.1 ∧ last.running = .user := by
  have hruns : ThreadRuns img (m.kernel, m.running) (execution.point .process frame) :=
    hpoint ▸ threadRuns_execute hexecute
  obtain ⟨count, last, hrun, hkernel, hrunning⟩ := run_statements_of_threadRuns hruns
  refine ⟨count, last, hrun, ?_, ?_⟩
  · rw [hkernel]
    cases execution <;> rfl
  · rw [hrunning]
    cases execution <;> rfl

theorem statements_halt {link : Link} {m : Machine} {status : BitVec 32} {halting : Halting}
    (hpoint : m.running = .halt frame .load)
    (hhalt : halt img m.kernel status frame = some halting) :
    ∃ count last, run (machineStep img link) m (statements count) = some last ∧
      last.kernel = halting.answer.1 ∧ last.running = .user :=
  run_statements_of_threadRuns (hpoint ▸ threadRuns_haltFuel hhalt)

end VirtualOS
