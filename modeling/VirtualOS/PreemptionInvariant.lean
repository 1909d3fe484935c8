import VirtualOS.PreemptiveModel
import Mathlib.Tactic

/-!
# What the threads own

Every started terminal has a stack of processes and, while its thread is inside
`execute` or `halt`, at most one further slot: the one it has found and not yet
taken, or the one it has released and not yet left.  `Threads` says that these
holdings are separate, that the table marks the stacks, and that each terminal's
fields fit the point at which its thread stands.  Every statement keeps it, as long
as a search does not find what another thread holds and `current_process_num` is
the thread's own.
-/

namespace VirtualOS

open PartialRuns LinkedStacks

/-! ## The invariant -/

/-- The stacks of the terminals on the left, their further slots on the right. -/
abbrev Holdings := Fin 3 ⊕ Fin 3 → List ℕ

/-- The slot is released, but `process_num` still names it. -/
def HaltPoint.leaves : HaltPoint → Bool
  | .countDown => true
  | .test => true
  | .findPcb => true
  | .restoreNum _ => true
  | _ => false

def Point.leaves : Point → Bool
  | .halt _ point => point.leaves
  | _ => false

/-- Released slots that `total_process` still counts. -/
def Point.uncounted : Point → ℕ
  | .halt _ .countDown => 1
  | _ => 0

/-- The further slot of a thread whose terminal has process `num`. -/
def HaltPoint.Spare (num : ℕ) (spare : List ℕ) : HaltPoint → Prop
  | .load => spare = []
  | .free => spare = []
  | .countDown => spare = [num]
  | .test => spare = [num]
  | .findPcb => spare = [num]
  | .restoreNum pcbPtr => spare = [num] ∧ pcbPtr = pcbAddress num
  | .restorePage pcbPtr => ∃ slot, spare = [slot] ∧ pcbPtr = pcbAddress slot
  | .clean pcbPtr _ => ∃ slot, spare = [slot] ∧ pcbPtr = pcbAddress slot
  | .restoreTss pcbPtr => ∃ slot, spare = [slot] ∧ pcbPtr = pcbAddress slot
  | .jump pcbPtr => ∃ slot, spare = [slot] ∧ pcbPtr = pcbAddress slot

def Point.Spare (img : Image) (num : ℕ) (spare : List ℕ) : Point → Prop
  | .user => spare = []
  | .execute _ _ (.load _) => spare = []
  | .execute _ _ (.search _ i) => spare = [] ∧ 1 ≤ i
  | .execute _ frame (.commit command slot) =>
      spare = if startsProgram img command frame then [slot] else []
  | .halt _ point => point.Spare num spare

/-- The stack runs out in the inner `execute` of `halt` only; whether it does is
found out by the test before. -/
def Point.Stack (stack : List ℕ) : Point → Prop
  | .execute .halt _ _ => stack = []
  | .halt _ .countDown => True
  | .halt _ .test => True
  | _ => stack ≠ []

/-- What the running thread relies on: in the two stretches of `halt` its own
bookkeeping, elsewhere that `tss.esp0` is its own. -/
def Point.Window (v : ProcessView) : Point → Prop
  | .execute .halt _ (.load command) => command = some shellName ∧ ∃ num, v.Free num
  | .execute .halt _ (.search command i) =>
      command = shellName ∧ ∃ num, i ≤ num ∧ v.Free num
  | .execute .halt _ (.commit command _) => command = shellName
  | .halt _ (.restorePage pcbPtr) =>
      v.pcbPtr = pcbPtr ∧ (v.pcb pcbPtr).processNumPrev = v.current
  | .halt _ (.clean pcbPtr fds) =>
      v.pcbPtr = pcbPtr ∧ (v.pcb pcbPtr).processNumPrev = v.current ∧ ∀ fd ∈ fds, 1 < fd.val
  | .halt _ (.restoreTss pcbPtr) =>
      v.pcbPtr = pcbPtr ∧ (v.pcb pcbPtr).processNumPrev = v.current
  | _ => v.esp0 = kernelStack v.current

/-- A started terminal whose thread stands at a point. -/
structure Stands (img : Image) (v : ProcessView) (cells : Holdings) (t : Fin 3)
    (point : Point) : Prop where
  linked : Linked v.prev 0 (v.processNum t)
    (if point.leaves then v.processNum t :: cells (.inl t) else cells (.inl t))
  count : v.totalProcess t = ((cells (.inl t)).length + point.uncounted : ℕ)
  spare : point.Spare img (v.processNum t) (cells (.inr t))
  stack : point.Stack (cells (.inl t))

/-- A terminal that has no shell yet. -/
structure Vacant (v : ProcessView) (cells : Holdings) (t : Fin 3) (point : Point) : Prop where
  user : point = .user
  stack : cells (.inl t) = []
  spare : cells (.inr t) = []
  processNum : v.processNum t = 0
  totalProcess : v.totalProcess t = 0

/-- The stack registers in the control block of the process of terminal `t`. -/
def ProcessView.context (v : ProcessView) (t : Fin 3) : Cpu :=
  ⟨(v.pcb (pcbAddress (v.processNum t))).esp, (v.pcb (pcbAddress (v.processNum t))).ebp⟩

/-- The holdings are separate and the table marks those on a stack. -/
structure Ledger (v : ProcessView) (cells : Holdings) : Prop where
  separate : Separate cells
  bounds : ∀ i, ∀ num ∈ cells i, 1 ≤ num ∧ num ≤ processNumMax
  taken : ∀ num, 1 ≤ num → num ≤ processNumMax →
    (v.process num = 1 ∧ ∃ t, num ∈ cells (.inl t)) ∨
      (v.process num = 0 ∧ ∀ t, num ∉ cells (.inl t))
  callable : ∀ num, num ≤ processNumMax → (v.pcb (pcbAddress num)).Callable

structure Threads (img : Image) (v : ProcessView) (point : Fin 3 → Point)
    (lost : Fin 3 → Option Cpu) (cells : Holdings) : Prop extends Ledger v cells where
  vacant : ∀ t, v.flag t = 0 → Vacant v cells t (point t)
  stands : ∀ t, v.flag t ≠ 0 → Stands img v cells t (point t)
  started : v.flag v.terminalNum ≠ 0
  parked : ∀ t, t ≠ v.terminalNum → (point t).between = false
  saved : ∀ t, t ≠ v.terminalNum → v.flag t ≠ 0 → lost t = some (v.context t)
  window : (point v.terminalNum).Window v

/-! ## The ledger -/

section Ledgers

variable {v next : ProcessView} {cells : Holdings} {t : Fin 3} {num : ℕ}

theorem Ledger.free_of_spare (hledger : Ledger v cells) (hmem : num ∈ cells (.inr t)) :
    v.Free num := by
  obtain ⟨hpos, hmax⟩ := hledger.bounds _ num hmem
  rcases hledger.taken num hpos hmax with ⟨_, u, hstack⟩ | ⟨hzero, _⟩
  · exact absurd hstack (hledger.separate.disjoint _ _ (by simp) hmem)
  · exact ⟨hpos, hmax, hzero⟩

theorem Ledger.notMem_stack (hledger : Ledger v cells) (hfree : v.Free num) :
    num ∉ cells (.inl t) := by
  obtain ⟨hpos, hmax, hzero⟩ := hfree
  rcases hledger.taken num hpos hmax with ⟨hone, _⟩ | ⟨_, hstack⟩
  · rw [hone] at hzero
    contradiction
  · exact hstack t

theorem Ledger.congr (hledger : Ledger v cells) (hprocess : next.process = v.process)
    (hpcb : next.pcb = v.pcb) : Ledger next cells := by
  refine ⟨hledger.separate, hledger.bounds, ?_, ?_⟩
  · rw [hprocess]
    exact hledger.taken
  · rw [hpcb]
    exact hledger.callable

theorem Ledger.setAside (hledger : Ledger v cells) (hfree : v.Free num)
    (hspare : ∀ u, num ∉ cells (.inr u)) : Ledger v (push cells (.inr t) num) := by
  have hfresh : Fresh cells num := by
    rintro (u | u)
    · exact hledger.notMem_stack hfree
    · exact hspare u
  refine ⟨hledger.separate.push hfresh, ?_, ?_, hledger.callable⟩
  · intro i other hother
    rcases mem_push.mp hother with ⟨_, rfl⟩ | hold
    · exact ⟨hfree.1, hfree.2.1⟩
    · exact hledger.bounds i other hold
  · simp only [push_of_ne (Sum.inl_ne_inr : Sum.inl _ ≠ Sum.inr t)]
    exact hledger.taken

theorem Ledger.giveUp (hledger : Ledger v cells) : Ledger v (pop cells (.inr t)) := by
  refine ⟨hledger.separate.pop, ?_, ?_, hledger.callable⟩
  · exact fun i other hother => hledger.bounds i other (mem_of_mem_pop hother)
  · simp only [pop_of_ne (Sum.inl_ne_inr : Sum.inl _ ≠ Sum.inr t)]
    exact hledger.taken

theorem Ledger.release (hledger : Ledger v cells) {rest : List ℕ}
    (hcells : cells (.inl v.terminalNum) = num :: rest) :
    Ledger { v with process := Function.update v.process num 0 }
      (push (pop cells (.inl v.terminalNum)) (.inr v.terminalNum) num) := by
  have hfresh := hledger.separate.fresh_pop hcells
  refine ⟨hledger.separate.pop.push hfresh, ?_, ?_, hledger.callable⟩
  · intro i other hother
    rcases mem_push.mp hother with ⟨_, rfl⟩ | hold
    · exact hledger.bounds (.inl v.terminalNum) other (by simp [hcells])
    · exact hledger.bounds i other (mem_of_mem_pop hold)
  · intro other hpos hmax
    simp only [push_of_ne (Sum.inl_ne_inr : Sum.inl _ ≠ Sum.inr v.terminalNum)]
    by_cases hother : other = num
    · subst hother
      exact .inr ⟨by simp, fun t => hfresh (.inl t)⟩
    · rw [Function.update_of_ne hother]
      rcases hledger.taken other hpos hmax with ⟨hone, t, hmem⟩ | ⟨hzero, hunused⟩
      · refine .inl ⟨hone, t, ?_⟩
        by_cases ht : t = v.terminalNum
        · subst ht
          rw [hcells, List.mem_cons] at hmem
          rw [pop_self, hcells]
          exact hmem.resolve_left hother
        · rwa [pop_of_ne (by simpa using ht)]
      · exact .inr ⟨hzero, fun t hmem => hunused t (mem_of_mem_pop hmem)⟩

theorem Ledger.start (hledger : Ledger v cells) (hfresh : Fresh cells num) (hpos : 1 ≤ num)
    (hmax : num ≤ processNumMax) (argument : List UInt8) (frame : StackFrame) :
    Ledger (v.start num argument frame) (push cells (.inl v.terminalNum) num) := by
  refine ⟨hledger.separate.push hfresh, ?_, ?_, ?_⟩
  · intro i other hother
    rcases mem_push.mp hother with ⟨_, rfl⟩ | hold
    · exact ⟨hpos, hmax⟩
    · exact hledger.bounds i other hold
  · intro other hotherPos hotherMax
    by_cases hother : other = num
    · subst hother
      exact .inl ⟨by simp [ProcessView.start], v.terminalNum, by simp⟩
    · have hprocess : (v.start num argument frame).process other = v.process other := by
        simp [ProcessView.start, hother]
      rw [hprocess]
      simp only [mem_push, hother, and_false, false_or]
      exact hledger.taken other hotherPos hotherMax
  · intro other hotherMax
    by_cases hother : other = num
    · subst hother
      rw [ProcessView.start_pcb_self]
      intro fd hfd hflags
      have hlow : ¬ fd.val ≤ 1 := by omega
      simp only [newPcb, hlow, if_false] at hflags ⊢
      exact hledger.callable other hotherMax fd hfd hflags
    · rw [ProcessView.start_pcb_of_ne argument frame hmax hotherMax hother]
      exact hledger.callable other hotherMax

end Ledgers

/-! ## Terminals that a step leaves alone -/

/-- Nothing that terminal `t` relies on changes. -/
structure Untouched (v next : ProcessView) (cells cells' : Holdings) (t : Fin 3) : Prop where
  flag : next.flag t = v.flag t
  processNum : next.processNum t = v.processNum t
  totalProcess : next.totalProcess t = v.totalProcess t
  stack : cells' (.inl t) = cells (.inl t)
  spare : cells' (.inr t) = cells (.inr t)
  pcb : ∀ num, num ∈ cells (.inl t) ∨ num ∈ cells (.inr t) →
    next.pcb (pcbAddress num) = v.pcb (pcbAddress num)

section Frames

variable {img : Image} {v next : ProcessView} {point : Fin 3 → Point}
  {lost : Fin 3 → Option Cpu} {cells cells' : Holdings} {t : Fin 3} {p : Point} {num : ℕ}

theorem Point.Spare.of_leaves {spare : List ℕ} (hspare : p.Spare img num spare)
    (hleaves : p.leaves = true) : spare = [num] := by
  cases p with
  | user => contradiction
  | execute caller frame point => contradiction
  | halt frame point =>
      cases point with
      | countDown => exact hspare
      | test => exact hspare
      | findPcb => exact hspare
      | restoreNum pcbPtr => exact hspare.1
      | _ => contradiction

theorem Stands.of_untouched (hstands : Stands img v cells t p)
    (hsame : Untouched v next cells cells' t) : Stands img next cells' t p := by
  refine ⟨?_, ?_, ?_, ?_⟩
  · rw [hsame.processNum, hsame.stack]
    refine hstands.linked.congr fun cell hcell => congrArg Pcb.processNumPrev (hsame.pcb cell ?_)
    split at hcell
    · rename_i hleaves
      rcases List.mem_cons.mp hcell with rfl | hstack
      · exact .inr (by simp [hstands.spare.of_leaves hleaves])
      · exact .inl hstack
    · exact .inl hcell
  · rw [hsame.totalProcess, hsame.stack]
    exact hstands.count
  · rw [hsame.processNum, hsame.spare]
    exact hstands.spare
  · rw [hsame.stack]
    exact hstands.stack

theorem Vacant.of_untouched (hvacant : Vacant v cells t p)
    (hsame : Untouched v next cells cells' t) : Vacant next cells' t p where
  user := hvacant.user
  stack := hsame.stack.trans hvacant.stack
  spare := hsame.spare.trans hvacant.spare
  processNum := hsame.processNum.trans hvacant.processNum
  totalProcess := hsame.totalProcess.trans hvacant.totalProcess

/-- Outside the inner `execute` of `halt` the process of a started terminal is one of
its holdings. -/
theorem Stands.processNum_mem (hstands : Stands img v cells t p) (hbetween : p.between = false) :
    v.processNum t ∈ cells (.inl t) ∨ v.processNum t ∈ cells (.inr t) := by
  have hlinked := hstands.linked
  by_cases hleaves : p.leaves = true
  · exact .inr (by simp [hstands.spare.of_leaves hleaves])
  · rw [if_neg hleaves] at hlinked
    have hstack : cells (.inl t) ≠ [] := by
      have hkept := hstands.stack
      cases p with
      | user => exact hkept
      | execute caller frame point =>
          cases caller with
          | process => exact hkept
          | halt => contradiction
      | halt frame point =>
          cases point with
          | countDown => contradiction
          | test => contradiction
          | _ => exact hkept
    have hhead := hlinked.head?_eq hstack
    exact .inl (List.mem_of_mem_head? hhead)

theorem Stands.context_eq (hstands : Stands img v cells t p) (hbetween : p.between = false)
    (hsame : Untouched v next cells cells' t) : next.context t = v.context t := by
  have hpcb := hsame.pcb _ (hstands.processNum_mem hbetween)
  rw [ProcessView.context, ProcessView.context, hsame.processNum, hpcb]

theorem Untouched.trans {last : ProcessView} {cells'' : Holdings}
    (hfirst : Untouched v next cells cells' t) (hsecond : Untouched next last cells' cells'' t) :
    Untouched v last cells cells'' t where
  flag := hsecond.flag.trans hfirst.flag
  processNum := hsecond.processNum.trans hfirst.processNum
  totalProcess := hsecond.totalProcess.trans hfirst.totalProcess
  stack := hsecond.stack.trans hfirst.stack
  spare := hsecond.spare.trans hfirst.spare
  pcb num hnum := by
    rw [← hfirst.stack, ← hfirst.spare] at hnum
    exact (hsecond.pcb num hnum).trans (hfirst.pcb num (hfirst.stack ▸ hfirst.spare ▸ hnum))

theorem Untouched.start (hledger : Ledger v cells) (hfresh : Fresh cells num)
    (hmax : num ≤ processNumMax) (argument : List UInt8) (frame : StackFrame)
    (ht : t ≠ v.terminalNum) :
    Untouched v (v.start num argument frame) cells (push cells (.inl v.terminalNum) num) t := by
  refine ⟨Function.update_of_ne ht _ _, Function.update_of_ne ht _ _,
    Function.update_of_ne ht _ _, push_of_ne (by simpa using ht), push_of_ne (by simp), ?_⟩
  have hpcb : ∀ i, ∀ other ∈ cells i,
      (v.start num argument frame).pcb (pcbAddress other) = v.pcb (pcbAddress other) := by
    intro i other hother
    refine ProcessView.start_pcb_of_ne argument frame hmax (hledger.bounds i other hother).2 ?_
    rintro rfl
    exact hfresh i hother
  rintro other (hstack | hspare)
  · exact hpcb _ other hstack
  · exact hpcb _ other hspare

theorem stands_start (hledger : Ledger v cells) (hfresh : Fresh cells num) (hpos : 1 ≤ num)
    (hmax : num ≤ processNumMax) (argument : List UInt8) (frame : StackFrame)
    (hlinked : Linked v.prev 0 v.current (cells (.inl v.terminalNum)))
    (hcount : v.totalProcess v.terminalNum = (cells (.inl v.terminalNum)).length)
    (hspare : cells (.inr v.terminalNum) = []) :
    Stands img (v.start num argument frame) (push cells (.inl v.terminalNum) num)
      v.terminalNum .user := by
  have hprev : (v.start num argument frame).prev num = v.current := by
    rw [ProcessView.prev, ProcessView.start_pcb_self]
    rfl
  refine ⟨?_, ?_, ?_, ?_⟩
  · rw [push_self]
    refine ⟨by simp [ProcessView.start], by omega, ?_⟩
    rw [hprev]
    refine hlinked.congr fun other hother => congrArg Pcb.processNumPrev ?_
    refine ProcessView.start_pcb_of_ne argument frame hmax
      (hledger.bounds _ other hother).2 ?_
    rintro rfl
    exact hfresh _ hother
  · rw [push_self]
    simp [ProcessView.start, hcount, Point.uncounted]
  · rw [push_of_ne (by simp)]
    exact hspare
  · simp [Point.Stack]

theorem Threads.proceed (hthreads : Threads img v point lost cells)
    (hnum : next.terminalNum = v.terminalNum)
    (hothers : ∀ t, t ≠ v.terminalNum → Untouched v next cells cells' t)
    (hledger : Ledger next cells')
    (hstarted : next.flag v.terminalNum ≠ 0)
    (hstands : Stands img next cells' v.terminalNum p) (hwindow : p.Window next) :
    Threads img next (Function.update point v.terminalNum p) lost cells' := by
  refine ⟨hledger, ?_, ?_, hnum ▸ hstarted, ?_, ?_, ?_⟩
  · intro t hflag
    by_cases ht : t = v.terminalNum
    · exact absurd (ht ▸ hflag) hstarted
    · rw [Function.update_of_ne ht]
      have hsame := hothers t ht
      exact (hthreads.vacant t (hsame.flag ▸ hflag)).of_untouched hsame
  · intro t hflag
    by_cases ht : t = v.terminalNum
    · subst ht
      rw [Function.update_self]
      exact hstands
    · rw [Function.update_of_ne ht]
      have hsame := hothers t ht
      exact (hthreads.stands t (hsame.flag ▸ hflag)).of_untouched hsame
  · intro t ht
    rw [hnum] at ht
    rw [Function.update_of_ne ht]
    exact hthreads.parked t ht
  · intro t ht hflag
    rw [hnum] at ht
    have hsame := hothers t ht
    rw [hsame.flag] at hflag
    rw [(hthreads.stands t hflag).context_eq (hthreads.parked t ht) hsame]
    exact hthreads.saved t ht hflag
  · rw [hnum, Function.update_self]
    exact hwindow

theorem Threads.proceed_fields (hthreads : Threads img v point lost cells)
    (hnum : next.terminalNum = v.terminalNum) (hprocess : next.process = v.process)
    (hpcb : next.pcb = v.pcb) (hflag : next.flag = v.flag)
    (hprocessNum : ∀ t, t ≠ v.terminalNum → next.processNum t = v.processNum t)
    (htotal : ∀ t, t ≠ v.terminalNum → next.totalProcess t = v.totalProcess t)
    (hstands : Stands img next cells v.terminalNum p) (hwindow : p.Window next) :
    Threads img next (Function.update point v.terminalNum p) lost cells := by
  refine hthreads.proceed hnum (fun t ht => ?_) (hthreads.toLedger.congr hprocess hpcb) ?_
    hstands hwindow
  · exact ⟨congrFun hflag t, hprocessNum t ht, htotal t ht, rfl, rfl, by simp [hpcb]⟩
  · rw [hflag]
    exact hthreads.started

theorem Threads.proceed_view (hthreads : Threads img v point lost cells)
    (hstands : Stands img v cells v.terminalNum p) (hwindow : p.Window v) :
    Threads img v (Function.update point v.terminalNum p) lost cells :=
  hthreads.proceed_fields rfl rfl rfl rfl (fun _ _ => rfl) (fun _ _ => rfl) hstands hwindow

end Frames

/-! ## The statements keep the invariant -/

section Statements

variable {img : Image} {v : ProcessView} {point : Fin 3 → Point} {lost : Fin 3 → Option Cpu}
  {cells : Holdings} {frame : StackFrame} {caller : Caller} {command : List UInt8} {num : ℕ}

theorem Threads.own (hthreads : Threads img v point lost cells) {p : Point}
    (hpoint : point v.terminalNum = p) : Stands img v cells v.terminalNum p :=
  hpoint ▸ hthreads.stands v.terminalNum hthreads.started

theorem Threads.own_window (hthreads : Threads img v point lost cells) {p : Point}
    (hpoint : point v.terminalNum = p) : p.Window v :=
  hpoint ▸ hthreads.window

theorem Threads.current_bounds (hthreads : Threads img v point lost cells)
    (hbetween : (point v.terminalNum).between = false) :
    1 ≤ v.current ∧ v.current ≤ processNumMax := by
  rcases (hthreads.stands _ hthreads.started).processNum_mem hbetween with hmem | hmem
  · exact hthreads.bounds _ _ hmem
  · exact hthreads.bounds _ _ hmem

theorem Point.window_iff {p : Point} (hbetween : p.between = false) :
    p.Window v ↔ v.esp0 = kernelStack v.current := by
  cases p with
  | user => exact Iff.rfl
  | execute caller frame point =>
      cases caller with
      | process => exact Iff.rfl
      | halt => contradiction
  | halt frame point =>
      cases point with
      | restorePage pcbPtr => contradiction
      | clean pcbPtr fds => contradiction
      | restoreTss pcbPtr => contradiction
      | _ => exact Iff.rfl

/-- Outside the two stretches of `halt` the control block found through `tss.esp0` is
that of the running terminal's process. -/
theorem Threads.pcbPtr_eq (hthreads : Threads img v point lost cells)
    (hbetween : (point v.terminalNum).between = false) : v.pcbPtr = pcbAddress v.current := by
  rw [ProcessView.pcbPtr, (Point.window_iff hbetween).mp hthreads.window,
    kernelStack_and_pcbMask (hthreads.current_bounds hbetween).2]

theorem Stands.eq_cons {t : Fin 3} {p : Point} (hstands : Stands img v cells t p)
    (hleaves : p.leaves = false) (hstack : cells (.inl t) ≠ []) :
    ∃ rest, cells (.inl t) = v.processNum t :: rest := by
  have hlinked := hstands.linked
  rw [if_neg (by simp [hleaves])] at hlinked
  cases hcells : cells (.inl t) with
  | nil => exact absurd hcells hstack
  | cons cell rest =>
      rw [hcells] at hlinked
      exact ⟨rest, by rw [hlinked.1]⟩

theorem Threads.find (hthreads : Threads img v point lost cells)
    (hpoint : point v.terminalNum = .execute caller frame (.search command num))
    (hmax : num ≤ processNumMax) (hzero : v.process num = 0)
    (hspare : startsProgram img command frame = true → ∀ t, num ∉ cells (.inr t)) :
    ∃ cells', Threads img v (Function.update point v.terminalNum
      (.execute caller frame (.commit command num))) lost cells' := by
  have hown := hthreads.own hpoint
  have hwindow := hthreads.own_window hpoint
  obtain ⟨hnone, hpos⟩ := hown.spare
  have hstack : Point.Stack (cells (.inl v.terminalNum))
      (.execute caller frame (.commit command num)) := by
    cases caller with
    | process => exact hown.stack
    | halt => exact hown.stack
  have hkept : Point.Window v (.execute caller frame (.commit command num)) := by
    cases caller with
    | process => exact hwindow
    | halt => exact hwindow.1
  by_cases hstarts : startsProgram img command frame = true
  · have hledger : Ledger v (push cells (.inr v.terminalNum) num) :=
      hthreads.setAside ⟨hpos, hmax, hzero⟩ (hspare hstarts)
    have hkeep : push cells (.inr v.terminalNum) num (.inl v.terminalNum) =
        cells (.inl v.terminalNum) := push_of_ne (by simp)
    refine ⟨_, hthreads.proceed rfl (fun t ht => ?_) hledger hthreads.started ?_ hkept⟩
    · exact ⟨rfl, rfl, rfl, push_of_ne (by simp), push_of_ne (by simpa using ht), fun _ _ => rfl⟩
    · refine ⟨hkeep ▸ hown.linked, hkeep ▸ hown.count, ?_, hkeep ▸ hstack⟩
      simp only [Point.Spare, hstarts, if_true, push_self, hnone]
  · refine ⟨cells, hthreads.proceed_view ⟨hown.linked, hown.count, ?_, hstack⟩ hkept⟩
    simp only [Point.Spare, hstarts, hnone]
    rfl

theorem Threads.commit (hthreads : Threads img v point lost cells)
    (hpoint : point v.terminalNum = .execute caller frame (.commit command num))
    (hstarts : startsProgram img command frame = true) (argument : List UInt8) :
    Threads img (v.start num argument frame) (Function.update point v.terminalNum .user) lost
      (push (pop cells (.inr v.terminalNum)) (.inl v.terminalNum) num) := by
  have hown := hthreads.own hpoint
  have hspare : cells (.inr v.terminalNum) = [num] := by
    have hkept := hown.spare
    simpa only [Point.Spare, hstarts, if_true] using hkept
  obtain ⟨hpos, hmax⟩ := hthreads.bounds (.inr v.terminalNum) num (by simp [hspare])
  have hfresh := hthreads.separate.fresh_pop hspare
  have hledger : Ledger v (pop cells (.inr v.terminalNum)) := hthreads.giveUp
  have hkeep : pop cells (.inr v.terminalNum) (.inl v.terminalNum) =
      cells (.inl v.terminalNum) := pop_of_ne (by simp)
  refine hthreads.proceed rfl (fun t ht => ?_) (hledger.start hfresh hpos hmax argument frame)
    ?_ ?_ ?_
  · have hpopped : Untouched v v cells (pop cells (.inr v.terminalNum)) t :=
      ⟨rfl, rfl, rfl, pop_of_ne (by simp), pop_of_ne (by simpa using ht), fun _ _ => rfl⟩
    exact hpopped.trans (.start hledger hfresh hmax argument frame ht)
  · simp [ProcessView.start]
  · refine stands_start hledger hfresh hpos hmax argument frame ?_ ?_ ?_
    · rw [hkeep]
      exact hown.linked
    · rw [hkeep]
      exact hown.count
    · rw [pop_self, hspare, List.tail_cons]
  · simp [Point.Window, ProcessView.start, ProcessView.current]

theorem Threads.release (hthreads : Threads img v point lost cells)
    (hpoint : point v.terminalNum = .halt frame .free) :
    Threads img { v with process := Function.update v.process v.current 0 }
      (Function.update point v.terminalNum (.halt frame .countDown)) lost
      (push (pop cells (.inl v.terminalNum)) (.inr v.terminalNum) v.current) := by
  have hown := hthreads.own hpoint
  have hspare : cells (.inr v.terminalNum) = [] := hown.spare
  obtain ⟨rest, hcells⟩ := hown.eq_cons rfl hown.stack
  have hstack : push (pop cells (.inl v.terminalNum)) (.inr v.terminalNum) v.current
      (.inl v.terminalNum) = rest := by
    rw [push_of_ne (by simp), pop_self, hcells, List.tail_cons]
  refine hthreads.proceed rfl (fun t ht => ?_) (hthreads.toLedger.release hcells)
    hthreads.started ?_ (hthreads.own_window hpoint)
  · refine ⟨rfl, rfl, rfl, ?_, ?_, fun _ _ => rfl⟩
    · rw [push_of_ne (by simp), pop_of_ne (by simpa using ht)]
    · rw [push_of_ne (by simpa using ht), pop_of_ne (by simp)]
  · refine ⟨?_, ?_, ?_, trivial⟩
    · have hlinked : Linked v.prev 0 v.current (cells (.inl v.terminalNum)) := hown.linked
      rw [hcells] at hlinked
      rw [hstack]
      exact hlinked
    · have hcount := hown.count
      rw [hcells] at hcount
      rw [hstack]
      exact hcount
    · simp [Point.Spare, HaltPoint.Spare, pop_of_ne, hspare, ProcessView.current]

theorem Threads.countDown (hthreads : Threads img v point lost cells)
    (hpoint : point v.terminalNum = .halt frame .countDown) :
    Threads img
      { v with
        totalProcess := Function.update v.totalProcess v.terminalNum
          (v.totalProcess v.terminalNum - 1) }
      (Function.update point v.terminalNum (.halt frame .test)) lost cells := by
  have hown := hthreads.own hpoint
  refine hthreads.proceed_fields rfl rfl rfl rfl (fun _ _ => rfl)
    (fun t ht => Function.update_of_ne ht _ _) ?_ (hthreads.own_window hpoint)
  refine ⟨hown.linked, ?_, hown.spare, trivial⟩
  have hcount := hown.count
  simp only [Point.uncounted] at hcount ⊢
  rw [Function.update_self, hcount]
  omega

theorem Threads.forget (hthreads : Threads img v point lost cells)
    (hpoint : point v.terminalNum = .halt frame .test)
    (hlast : v.totalProcess v.terminalNum = 0) :
    Threads img { v with processNum := Function.update v.processNum v.terminalNum 0 }
      (Function.update point v.terminalNum
        (.execute .halt frame (.load (some shellName)))) lost
      (pop cells (.inr v.terminalNum)) := by
  have hown := hthreads.own hpoint
  have hspare : cells (.inr v.terminalNum) = [v.current] := hown.spare
  have hcount := hown.count
  rw [hlast] at hcount
  have hstack : cells (.inl v.terminalNum) = [] := by
    rw [← List.length_eq_zero_iff]
    omega
  have hkeep : ∀ t, pop cells (.inr v.terminalNum) (.inl t) = cells (.inl t) :=
    fun t => pop_of_ne (by simp)
  have hledger : Ledger v (pop cells (.inr v.terminalNum)) := hthreads.giveUp
  refine hthreads.proceed rfl (fun t ht => ?_) (hledger.congr rfl rfl) hthreads.started ?_
    ⟨rfl, v.current, ?_⟩
  · exact ⟨rfl, Function.update_of_ne ht _ _, rfl, hkeep t, pop_of_ne (by simpa using ht),
      fun _ _ => rfl⟩
  · refine ⟨?_, ?_, ?_, ?_⟩
    · rw [hkeep, hstack]
      simp [Point.leaves]
    · rw [hkeep, hstack]
      exact hlast
    · simp [Point.Spare, hspare]
    · rw [hkeep]
      exact hstack
  · exact hthreads.free_of_spare (t := v.terminalNum) (by simp [hspare])

theorem Threads.restoreNum (hthreads : Threads img v point lost cells) {pcbPtr : BitVec 32}
    (hpoint : point v.terminalNum = .halt frame (.restoreNum pcbPtr)) :
    Threads img
      { v with
        processNum := Function.update v.processNum v.terminalNum
          (v.pcb pcbPtr).processNumPrev }
      (Function.update point v.terminalNum (.halt frame (.restorePage pcbPtr))) lost cells := by
  have hown := hthreads.own hpoint
  obtain ⟨hspare, hptr⟩ := hown.spare
  have hfound := hthreads.pcbPtr_eq (by rw [hpoint]; rfl)
  refine hthreads.proceed_fields rfl rfl rfl rfl (fun t ht => Function.update_of_ne ht _ _)
    (fun _ _ => rfl) ?_ ⟨hfound.trans hptr.symm, ?_⟩
  · refine ⟨?_, hown.count, ⟨_, hspare, hptr⟩, hown.stack⟩
    have hlinked : Linked v.prev 0 v.current (v.current :: cells (.inl v.terminalNum)) :=
      hown.linked
    change Linked v.prev 0 (Function.update v.processNum v.terminalNum
      (v.pcb pcbPtr).processNumPrev v.terminalNum) (cells (.inl v.terminalNum))
    rw [Function.update_self, hptr]
    exact hlinked.2.2
  · simp [ProcessView.current]

theorem Threads.touch (hthreads : Threads img v point lost cells) {p : Point} {slot : ℕ}
    {pcb : Pcb} {effect : Option FdEffect} (hptr : v.pcbPtr = pcbAddress slot)
    (hslot : slot ∈ cells (.inl v.terminalNum) ∨ slot ∈ cells (.inr v.terminalNum))
    (hstep : PcbStep v.currentPcb effect pcb) (hstands : Stands img v cells v.terminalNum p)
    (hwindow : p.Window (v.touch pcb)) :
    Threads img (v.touch pcb) (Function.update point v.terminalNum p) lost cells := by
  have hmax : slot ≤ processNumMax := by
    rcases hslot with hmem | hmem
    · exact (hthreads.bounds _ _ hmem).2
    · exact (hthreads.bounds _ _ hmem).2
  have hset : v.touch pcb = v.setPcb slot pcb := by
    rw [ProcessView.touch, ProcessView.setPcb, hptr]
  have hold : v.currentPcb = v.pcb (pcbAddress slot) := by
    rw [ProcessView.currentPcb, hptr]
  have hother : ∀ num, num ≤ processNumMax → num ≠ slot →
      (v.touch pcb).pcb (pcbAddress num) = v.pcb (pcbAddress num) := by
    intro num hnum hne
    rw [hset]
    exact v.setPcb_pcb_of_ne hmax hnum hne
  have hself : (v.touch pcb).pcb (pcbAddress slot) = pcb := by
    rw [hset]
    exact v.setPcb_pcb_self
  refine hthreads.proceed rfl (fun t ht => ?_) ⟨hthreads.separate, hthreads.bounds,
    hthreads.taken, ?_⟩ hthreads.started ?_ hwindow
  · refine ⟨rfl, rfl, rfl, rfl, rfl, fun num hnum => ?_⟩
    have hapart : num ≠ slot := by
      rintro rfl
      rcases hnum with hnum | hnum <;> rcases hslot with hmem | hmem
      · exact hthreads.separate.disjoint (.inl t) (.inl _) (by simpa using ht) hnum hmem
      · exact hthreads.separate.disjoint (.inl t) (.inr _) (by simp) hnum hmem
      · exact hthreads.separate.disjoint (.inr t) (.inl _) (by simp) hnum hmem
      · exact hthreads.separate.disjoint (.inr t) (.inr _) (by simpa using ht) hnum hmem
    rcases hnum with hnum | hnum
    · exact hother num (hthreads.bounds _ _ hnum).2 hapart
    · exact hother num (hthreads.bounds _ _ hnum).2 hapart
  · intro num hnum
    by_cases hne : num = slot
    · subst hne
      rw [hself]
      exact hstep.callable (hold ▸ hthreads.callable num hnum)
    · rw [hother num hnum hne]
      exact hthreads.callable num hnum
  · refine ⟨?_, hstands.count, hstands.spare, hstands.stack⟩
    refine hstands.linked.congr fun num hnum => ?_
    rw [ProcessView.prev, ProcessView.prev]
    by_cases hne : num = slot
    · subst hne
      rw [hself, hstep.prev_eq, hold]
    · refine congrArg Pcb.processNumPrev (hother num ?_ hne)
      split at hnum
      · rename_i hleaves
        rcases List.mem_cons.mp hnum with rfl | hmem
        · exact (hthreads.bounds (.inr v.terminalNum) _
            (by simp [hstands.spare.of_leaves hleaves])).2
        · exact (hthreads.bounds _ _ hmem).2
      · exact (hthreads.bounds _ _ hnum).2

theorem Threads.leave (hthreads : Threads img v point lost cells) {pcbPtr : BitVec 32}
    (hpoint : point v.terminalNum = .halt frame (.jump pcbPtr)) :
    Threads img v (Function.update point v.terminalNum .user) lost
      (pop cells (.inr v.terminalNum)) := by
  have hown := hthreads.own hpoint
  have hwindow := hthreads.own_window hpoint
  obtain ⟨slot, hspare, _⟩ := hown.spare
  have hkeep : ∀ t, pop cells (.inr v.terminalNum) (.inl t) = cells (.inl t) :=
    fun t => pop_of_ne (by simp)
  refine hthreads.proceed rfl (fun t ht => ?_) hthreads.giveUp hthreads.started ?_ hwindow
  · exact ⟨rfl, rfl, rfl, hkeep t, pop_of_ne (by simpa using ht), fun _ _ => rfl⟩
  · refine ⟨?_, ?_, ?_, ?_⟩
    · rw [hkeep]
      exact hown.linked
    · rw [hkeep]
      exact hown.count
    · simp [Point.Spare, hspare]
    · rw [hkeep]
      exact hown.stack

end Statements

/-! ## Interrupts keep the invariant -/

section Interrupts

variable {img : Image} {v : ProcessView} {point : Fin 3 → Point} {lost : Fin 3 → Option Cpu}
  {cells : Holdings} {t : Fin 3}

theorem Threads.not_between (hthreads : Threads img v point lost cells)
    (hbetween : (point v.terminalNum).between = false) (t : Fin 3) :
    (point t).between = false := by
  by_cases ht : t = v.terminalNum
  · rw [ht]
    exact hbetween
  · exact hthreads.parked t ht

theorem Threads.save (hthreads : Threads img v point lost cells)
    (hbetween : (point v.terminalNum).between = false) (cpu : Cpu) :
    Threads img (v.save cpu) point lost cells := by
  have hown := hthreads.stands v.terminalNum hthreads.started
  have hesp0 := (Point.window_iff hbetween).mp hthreads.window
  have hwindow : (point v.terminalNum).Window (v.save cpu) :=
    (Point.window_iff hbetween).mpr hesp0
  have htouch := hthreads.touch (hthreads.pcbPtr_eq hbetween) (hown.processNum_mem hbetween)
    (.saved cpu) hown hwindow
  rwa [Function.update_eq_self] at htouch

theorem Threads.save_context (hthreads : Threads img v point lost cells)
    (hbetween : (point v.terminalNum).between = false) (cpu : Cpu) :
    (v.save cpu).context v.terminalNum = cpu := by
  have hptr : v.pcbPtr = pcbAddress (v.processNum v.terminalNum) := hthreads.pcbPtr_eq hbetween
  have hpcb : (v.save cpu).pcb (pcbAddress (v.processNum v.terminalNum)) =
      { v.currentPcb with esp := cpu.esp, ebp := cpu.ebp } := by
    rw [← hptr]
    exact Function.update_self ..
  change Cpu.mk ((v.save cpu).pcb (pcbAddress (v.processNum v.terminalNum))).esp
    ((v.save cpu).pcb (pcbAddress (v.processNum v.terminalNum))).ebp = cpu
  rw [hpcb]

theorem Threads.saved_update (hthreads : Threads img v point lost cells)
    (hbetween : (point v.terminalNum).between = false) (cpu : Cpu) (hflag : v.flag t ≠ 0) :
    Function.update lost v.terminalNum (some cpu) t = some ((v.save cpu).context t) := by
  by_cases ht : t = v.terminalNum
  · subst ht
    rw [Function.update_self, hthreads.save_context hbetween cpu]
  · rw [Function.update_of_ne ht]
    exact (hthreads.save hbetween cpu).saved t ht hflag

theorem Threads.dispatch (hthreads : Threads img v point lost cells)
    (hbetween : (point v.terminalNum).between = false) (cpu : Cpu) (hflag : v.flag t ≠ 0) :
    Threads img ((v.save cpu).dispatch t) point
      (if t = v.terminalNum then lost else Function.update lost v.terminalNum (some cpu))
      cells := by
  have hsave := hthreads.save hbetween cpu
  have hsame : ∀ u, Untouched (v.save cpu) ((v.save cpu).dispatch t) cells cells u :=
    fun u => ⟨rfl, rfl, rfl, rfl, rfl, fun _ _ => rfl⟩
  have hparked := hthreads.not_between hbetween
  refine ⟨hsave.toLedger.congr rfl rfl, ?_, ?_, hflag, fun u _ => hparked u, ?_, ?_⟩
  · exact fun u hu => (hsave.vacant u hu).of_untouched (hsame u)
  · exact fun u hu => (hsave.stands u hu).of_untouched (hsame u)
  · intro u hu hstarted
    have hne : u ≠ t := hu
    by_cases ht : t = v.terminalNum
    · rw [if_pos ht]
      exact hsave.saved u (ht ▸ hne) hstarted
    · rw [if_neg ht]
      exact hthreads.saved_update hbetween cpu hstarted
  · exact (Point.window_iff (hparked t)).mpr rfl

theorem Threads.begin (hthreads : Threads img v point lost cells)
    (hbetween : (point v.terminalNum).between = false) (cpu : Cpu) (hflag : v.flag t = 0)
    {num : ℕ} (hfree : v.Free num) (hspare : ∀ u, num ∉ cells (.inr u))
    (argument : List UInt8) (frame : StackFrame) :
    Threads img ({ v.save cpu with terminalNum := t }.start num argument frame) point
      (Function.update lost v.terminalNum (some cpu)) (push cells (.inl t) num) := by
  have hsave := hthreads.save hbetween cpu
  obtain ⟨hpos, hmax, _⟩ := id hfree
  have hfresh : Fresh cells num := by
    rintro (u | u)
    · exact hthreads.notMem_stack hfree
    · exact hspare u
  have hledger : Ledger { v.save cpu with terminalNum := t } cells :=
    hsave.toLedger.congr rfl rfl
  have hvacant := hsave.vacant t hflag
  have hne : t ≠ v.terminalNum := by
    rintro rfl
    exact hthreads.started hflag
  have hothers : ∀ u, u ≠ t → Untouched (v.save cpu)
      ({ v.save cpu with terminalNum := t }.start num argument frame) cells
      (push cells (.inl t) num) u := by
    intro u hu
    have hsame : Untouched (v.save cpu) { v.save cpu with terminalNum := t } cells cells u :=
      ⟨rfl, rfl, rfl, rfl, rfl, fun _ _ => rfl⟩
    exact hsame.trans (.start hledger hfresh hmax argument frame hu)
  have hstarted : ({ v.save cpu with terminalNum := t }.start num argument frame).flag t ≠ 0 := by
    simp [ProcessView.start]
  have hparked := hthreads.not_between hbetween
  refine ⟨hledger.start hfresh hpos hmax argument frame, ?_, ?_, hstarted,
    fun u _ => hparked u, ?_, ?_⟩
  · intro u hu
    by_cases hut : u = t
    · exact absurd (hut ▸ hu) hstarted
    · exact (hsave.vacant u ((hothers u hut).flag ▸ hu)).of_untouched (hothers u hut)
  · intro u hu
    by_cases hut : u = t
    · subst hut
      rw [hvacant.user]
      refine stands_start hledger hfresh hpos hmax argument frame ?_ ?_ hvacant.spare
      · rw [hvacant.stack]
        exact hvacant.processNum
      · rw [hvacant.stack]
        exact hvacant.totalProcess
    · exact (hsave.stands u ((hothers u hut).flag ▸ hu)).of_untouched (hothers u hut)
  · intro u hu hflagged
    have hut : u ≠ t := hu
    have hold : v.flag u ≠ 0 := by
      rw [(hothers u hut).flag] at hflagged
      exact hflagged
    rw [hthreads.saved_update hbetween cpu hold,
      (hsave.stands u hold).context_eq (hparked u) (hothers u hut)]
  · refine (Point.window_iff (hparked t)).mpr ?_
    simp [ProcessView.start, ProcessView.current]

end Interrupts

end VirtualOS
