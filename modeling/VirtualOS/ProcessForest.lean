import VirtualOS.LinkedStacks
import VirtualOS.OperationMoves
import Mathlib.Tactic

/-!
# The forest of processes

The processes of a terminal form a stack: the running one on top, below it the
parents that wait in `execute`.  The stack is stored as a chain of control
blocks linked by `process_num_prev`, and the three chains share the six slots of
the table.  `Scheduled` carries the abstract stacks of a state; every move keeps
it, and the statements about the table, the counters and the running context are
read off from it.
-/

namespace VirtualOS

open PartialRuns LinkedStacks

/-! ## The invariant -/

def ProcessView.prev (v : ProcessView) (num : ℕ) : ℕ :=
  (v.pcb (pcbAddress num)).processNumPrev

/-- The stacks of the terminals, `family t` with its top first. -/
structure Forest (v : ProcessView) (family : Fin 3 → List ℕ) : Prop where
  linked : ∀ t, Linked v.prev 0 (v.processNum t) (family t)
  separate : Separate family
  le_max : ∀ t, ∀ num ∈ family t, num ≤ processNumMax
  count : ∀ t, v.totalProcess t = (family t).length
  taken : ∀ num, 1 ≤ num → num ≤ processNumMax →
    (v.process num = 1 ∧ ∃ t, num ∈ family t) ∨ (v.process num = 0 ∧ Fresh family num)
  own : ∀ t, ∀ num ∈ family t, (v.pcb (pcbAddress num)).processNum = num
  callable : ∀ num, num ≤ processNumMax → (v.pcb (pcbAddress num)).Callable

/-- A forest whose running terminal has the processor. -/
structure Scheduled (v : ProcessView) (family : Fin 3 → List ℕ) : Prop
    extends Forest v family where
  running : family v.terminalNum ≠ []
  esp0 : v.esp0 = kernelStack v.current
  page : v.page = userPage v.current
  flag : ∀ t, v.flag t = if family t = [] then 0 else 1

section Addresses

variable {pcbs : BitVec 32 → Pcb} {pcb : Pcb} {num other : ℕ}

theorem update_pcb_of_ne (hnum : num ≤ processNumMax) (hother : other ≤ processNumMax)
    (hne : other ≠ num) :
    Function.update pcbs (pcbAddress num) pcb (pcbAddress other) = pcbs (pcbAddress other) := by
  apply Function.update_of_ne
  intro heq
  exact hne (pcbAddress_injective hother hnum heq)

def ProcessView.setPcb (v : ProcessView) (num : ℕ) (pcb : Pcb) : ProcessView :=
  { v with pcb := Function.update v.pcb (pcbAddress num) pcb }

theorem ProcessView.setPcb_pcb_self (v : ProcessView) :
    (v.setPcb num pcb).pcb (pcbAddress num) = pcb := by
  simp only [ProcessView.setPcb, Function.update_self]

theorem ProcessView.setPcb_pcb_of_ne (v : ProcessView) (hnum : num ≤ processNumMax)
    (hother : other ≤ processNumMax) (hne : other ≠ num) :
    (v.setPcb num pcb).pcb (pcbAddress other) = v.pcb (pcbAddress other) := by
  simp only [ProcessView.setPcb, update_pcb_of_ne hnum hother hne]

theorem ProcessView.start_pcb_of_ne {v : ProcessView} (argument : List UInt8)
    (frame : StackFrame) (hnum : num ≤ processNumMax) (hother : other ≤ processNumMax)
    (hne : other ≠ num) :
    (v.start num argument frame).pcb (pcbAddress other) = v.pcb (pcbAddress other) := by
  simp only [ProcessView.start, update_pcb_of_ne hnum hother hne]

theorem ProcessView.start_pcb_self {v : ProcessView} (argument : List UInt8)
    (frame : StackFrame) :
    (v.start num argument frame).pcb (pcbAddress num) =
      newPcb v.current num argument frame (v.pcb (pcbAddress num)) := by
  simp only [ProcessView.start, Function.update_self]

end Addresses

section Steps

variable {v : ProcessView} {family : Fin 3 → List ℕ} {num : ℕ}

theorem Forest.pos_of_mem (hforest : Forest v family) {t : Fin 3} (hmem : num ∈ family t) :
    1 ≤ num := by
  have hbottom := (hforest.linked t).bottom_notMem
  rcases Nat.eq_zero_or_pos num with rfl | hpos
  · exact absurd hmem hbottom
  · exact hpos

theorem Forest.process_eq_one (hforest : Forest v family) {t : Fin 3}
    (hmem : num ∈ family t) : v.process num = 1 := by
  rcases hforest.taken num (hforest.pos_of_mem hmem) (hforest.le_max t num hmem) with
    htaken | hfree
  · exact htaken.1
  · exact absurd hmem (hfree.2 t)

theorem Forest.fresh_of_free (hforest : Forest v family) (hfree : v.Free num) :
    Fresh family num := by
  obtain ⟨hpos, hmax, hzero⟩ := hfree
  rcases hforest.taken num hpos hmax with htaken | hfresh
  · rw [htaken.1] at hzero
    contradiction
  · exact hfresh.2

theorem Scheduled.eq_cons (hsched : Scheduled v family) :
    ∃ rest, family v.terminalNum = v.current :: rest := by
  have hlinked := hsched.linked v.terminalNum
  cases hcells : family v.terminalNum with
  | nil => exact absurd hcells hsched.running
  | cons cell rest =>
      rw [hcells] at hlinked
      exact ⟨rest, by rw [← hlinked.1]; rfl⟩

theorem Scheduled.current_mem (hsched : Scheduled v family) :
    v.current ∈ family v.terminalNum := by
  obtain ⟨rest, hcells⟩ := hsched.eq_cons
  simp [hcells]

theorem Scheduled.current_le (hsched : Scheduled v family) : v.current ≤ processNumMax :=
  hsched.le_max _ _ hsched.current_mem

/-- The control block a call finds through `tss.esp0` is the running process's. -/
theorem Scheduled.pcbPtr_eq (hsched : Scheduled v family) :
    v.pcbPtr = pcbAddress v.current := by
  rw [ProcessView.pcbPtr, hsched.esp0, kernelStack_and_pcbMask hsched.current_le]

theorem Scheduled.sound (hsched : Scheduled v family) : v.Sound where
  pos := hsched.pos_of_mem hsched.current_mem
  le_max := hsched.current_le
  callable := by
    rw [ProcessView.currentPcb, hsched.pcbPtr_eq]
    exact hsched.callable _ hsched.current_le

theorem Forest.setPcb (hforest : Forest v family) {pcb : Pcb} (hnum : num ≤ processNumMax)
    (hprev : pcb.processNumPrev = (v.pcb (pcbAddress num)).processNumPrev)
    (hown : pcb.processNum = (v.pcb (pcbAddress num)).processNum)
    (hcallable : pcb.Callable) : Forest (v.setPcb num pcb) family := by
  have hcases : ∀ cell, cell ≤ processNumMax →
      (cell = num ∧ (v.setPcb num pcb).pcb (pcbAddress cell) = pcb) ∨
        (v.setPcb num pcb).pcb (pcbAddress cell) = v.pcb (pcbAddress cell) := by
    intro cell hcell
    by_cases hne : cell = num
    · subst hne
      exact .inl ⟨rfl, v.setPcb_pcb_self⟩
    · exact .inr (v.setPcb_pcb_of_ne hnum hcell hne)
  refine ⟨?_, hforest.separate, hforest.le_max, hforest.count, hforest.taken, ?_, ?_⟩
  · intro t
    apply (hforest.linked t).congr
    intro cell hcell
    rw [ProcessView.prev, ProcessView.prev]
    rcases hcases cell (hforest.le_max t cell hcell) with ⟨rfl, heq⟩ | heq
    · rw [heq, hprev]
    · rw [heq]
  · intro t cell hcell
    have hkept := hforest.own t cell hcell
    rcases hcases cell (hforest.le_max t cell hcell) with ⟨rfl, heq⟩ | heq
    · rw [heq, hown, hkept]
    · rw [heq, hkept]
  · intro cell hcell
    rcases hcases cell hcell with ⟨rfl, heq⟩ | heq
    · rw [heq]
      exact hcallable
    · rw [heq]
      exact hforest.callable cell hcell

theorem PcbStep.callable {pcb next : Pcb} {effect : Option FdEffect}
    (hstep : PcbStep pcb effect next)
    (hcallable : pcb.Callable) : next.Callable := by
  cases hstep with
  | opened fd row inode _ _ =>
      intro other hother hflags
      by_cases hne : other = fd
      · subst hne
        simp [Pcb.setFd]
      · simp only [Pcb.setFd, Function.update_of_ne hne] at hflags ⊢
        exact hcallable other hother hflags
  | closed fd _ => exact hcallable.close fd
  | advanced fd filePos =>
      intro other hother hflags
      by_cases hne : other = fd
      · subst hne
        simp only [Pcb.setFd, Function.update_self] at hflags ⊢
        exact hcallable other hother hflags
      · simp only [Pcb.setFd, Function.update_of_ne hne] at hflags ⊢
        exact hcallable other hother hflags
  | saved cpu => exact hcallable

theorem PcbStep.prev_eq {pcb next : Pcb} {effect : Option FdEffect}
    (hstep : PcbStep pcb effect next) :
    next.processNumPrev = pcb.processNumPrev := by
  cases hstep <;> rfl

theorem PcbStep.num_eq {pcb next : Pcb} {effect : Option FdEffect}
    (hstep : PcbStep pcb effect next) :
    next.processNum = pcb.processNum := by
  cases hstep <;> rfl

section Start

variable (argument : List UInt8) (frame : StackFrame)

theorem Forest.start_pcb (hforest : Forest v family) (hmax : num ≤ processNumMax)
    (hfresh : Fresh family num) {t : Fin 3} {cell : ℕ} (hcell : cell ∈ family t) :
    (v.start num argument frame).pcb (pcbAddress cell) = v.pcb (pcbAddress cell) := by
  apply ProcessView.start_pcb_of_ne argument frame hmax (hforest.le_max t cell hcell)
  rintro rfl
  exact hfresh t hcell

theorem Forest.start_linked (hforest : Forest v family) (hpos : 1 ≤ num)
    (hmax : num ≤ processNumMax) (hfresh : Fresh family num) (t : Fin 3) :
    Linked (v.start num argument frame).prev 0 ((v.start num argument frame).processNum t)
      (push family v.terminalNum num t) := by
  have hkeep : ∀ u, ∀ cell ∈ family u,
      (v.start num argument frame).prev cell = v.prev cell := by
    intro u cell hcell
    rw [ProcessView.prev, hforest.start_pcb argument frame hmax hfresh hcell, ProcessView.prev]
  by_cases ht : t = v.terminalNum
  · subst ht
    rw [push_self]
    refine ⟨by simp [ProcessView.start], by omega, ?_⟩
    have hprev : (v.start num argument frame).prev num = v.current := by
      rw [ProcessView.prev, ProcessView.start_pcb_self]
      rfl
    rw [hprev]
    exact (hforest.linked _).congr (hkeep _)
  · rw [push_of_ne ht]
    have hnum : (v.start num argument frame).processNum t = v.processNum t := by
      simp [ProcessView.start, ht]
    rw [hnum]
    exact (hforest.linked t).congr (hkeep t)

theorem Forest.start_taken (hforest : Forest v family) {cell : ℕ} (hpos : 1 ≤ cell)
    (hmax : cell ≤ processNumMax) :
    ((v.start num argument frame).process cell = 1 ∧
        ∃ t, cell ∈ push family v.terminalNum num t) ∨
      ((v.start num argument frame).process cell = 0 ∧
        Fresh (push family v.terminalNum num) cell) := by
  by_cases hcell : cell = num
  · subst hcell
    exact .inl ⟨by simp [ProcessView.start], v.terminalNum, by simp⟩
  · have hprocess : (v.start num argument frame).process cell = v.process cell := by
      simp [ProcessView.start, hcell]
    rw [hprocess]
    rcases hforest.taken cell hpos hmax with ⟨hone, t, hmem⟩ | ⟨hzero, hunused⟩
    · exact .inl ⟨hone, t, mem_push.mpr (.inr hmem)⟩
    · refine .inr ⟨hzero, fun t hmem => ?_⟩
      rcases mem_push.mp hmem with ⟨_, rfl⟩ | hold
      · exact hcell rfl
      · exact hunused t hold

theorem Forest.start_callable (hforest : Forest v family) (hmax : num ≤ processNumMax)
    {cell : ℕ} (hcellMax : cell ≤ processNumMax) :
    ((v.start num argument frame).pcb (pcbAddress cell)).Callable := by
  by_cases hcell : cell = num
  · subst hcell
    rw [ProcessView.start_pcb_self]
    intro fd hfd hflags
    have hlow : ¬ fd.val ≤ 1 := by omega
    simp only [newPcb, hlow, if_false] at hflags ⊢
    exact hforest.callable cell hcellMax fd hfd hflags
  · rw [ProcessView.start_pcb_of_ne argument frame hmax hcellMax hcell]
    exact hforest.callable cell hcellMax

theorem Forest.start (hforest : Forest v family) (hfree : v.Free num) :
    Forest (v.start num argument frame) (push family v.terminalNum num) := by
  have hfresh := hforest.fresh_of_free hfree
  obtain ⟨hpos, hmax, _⟩ := hfree
  constructor
  case linked => exact hforest.start_linked argument frame hpos hmax hfresh
  case separate => exact hforest.separate.push hfresh
  case le_max =>
    intro t cell hcell
    rcases mem_push.mp hcell with ⟨_, rfl⟩ | hold
    · exact hmax
    · exact hforest.le_max t cell hold
  case count =>
    intro t
    by_cases ht : t = v.terminalNum
    · subst ht
      simp [ProcessView.start, hforest.count]
    · simp [ProcessView.start, ht, push_of_ne ht, hforest.count]
  case taken => exact fun cell hpos hmax => hforest.start_taken argument frame hpos hmax
  case own =>
    intro t cell hcell
    rcases mem_push.mp hcell with ⟨_, rfl⟩ | hold
    · rw [ProcessView.start_pcb_self]
      rfl
    · rw [hforest.start_pcb argument frame hmax hfresh hold]
      exact hforest.own t cell hold
  case callable => exact fun cell => hforest.start_callable argument frame hmax

end Start

/-- The running process leaves its stack: its slot is free, its parent on top. -/
def ProcessView.pop (v : ProcessView) : ProcessView :=
  { v with
    process := Function.update v.process v.current 0
    processNum := Function.update v.processNum v.terminalNum v.currentPcb.processNumPrev
    totalProcess := Function.update v.totalProcess v.terminalNum
      (v.totalProcess v.terminalNum - 1) }

theorem Scheduled.pop (hsched : Scheduled v family) :
    Forest v.pop (pop family v.terminalNum) := by
  obtain ⟨rest, hcells⟩ := hsched.eq_cons
  have hfresh := hsched.separate.fresh_pop hcells
  have hlinked := hsched.linked v.terminalNum
  rw [hcells] at hlinked
  refine ⟨?_, hsched.separate.pop, ?_, ?_, ?_, ?_, hsched.callable⟩
  · intro t
    by_cases ht : t = v.terminalNum
    · subst ht
      rw [pop_self, hcells]
      simp only [ProcessView.pop, Function.update_self, List.tail_cons]
      rw [ProcessView.currentPcb, hsched.pcbPtr_eq]
      exact hlinked.2.2
    · rw [pop_of_ne ht]
      simp only [ProcessView.pop, Function.update_of_ne ht]
      exact hsched.linked t
  · exact fun t cell hcell => hsched.le_max t cell (mem_of_mem_pop hcell)
  · intro t
    by_cases ht : t = v.terminalNum
    · subst ht
      simp [ProcessView.pop, hsched.count, hcells]
    · simp [ProcessView.pop, ht, pop_of_ne ht, hsched.count]
  · intro cell hpos hmax
    by_cases hcell : cell = v.current
    · subst hcell
      exact .inr ⟨by simp [ProcessView.pop], hfresh⟩
    · simp only [ProcessView.pop, Function.update_of_ne hcell]
      rcases hsched.taken cell hpos hmax with ⟨hone, t, hmem⟩ | ⟨hzero, hunused⟩
      · refine .inl ⟨hone, t, ?_⟩
        by_cases ht : t = v.terminalNum
        · subst ht
          rw [hcells, List.mem_cons] at hmem
          rw [pop_self, hcells]
          exact hmem.resolve_left hcell
        · rwa [pop_of_ne ht]
      · exact .inr ⟨hzero, fun t hmem => hunused t (mem_of_mem_pop hmem)⟩
  · exact fun t cell hcell => hsched.own t cell (mem_of_mem_pop hcell)

/-! ## The moves keep the invariant -/

theorem Scheduled.touch_eq (hsched : Scheduled v family) (pcb : Pcb) :
    v.touch pcb = v.setPcb v.current pcb := by
  rw [ProcessView.touch, ProcessView.setPcb, hsched.pcbPtr_eq]

theorem Scheduled.currentPcb_eq (hsched : Scheduled v family) :
    v.currentPcb = v.pcb (pcbAddress v.current) := by
  rw [ProcessView.currentPcb, hsched.pcbPtr_eq]

theorem Scheduled.touch (hsched : Scheduled v family) {pcb : Pcb} {effect : Option FdEffect}
    (hstep : PcbStep v.currentPcb effect pcb) : Scheduled (v.touch pcb) family := by
  rw [hsched.touch_eq]
  have hpcb := hsched.currentPcb_eq
  have hforest : Forest (v.setPcb v.current pcb) family := hsched.setPcb hsched.current_le
    (hpcb ▸ hstep.prev_eq) (hpcb ▸ hstep.num_eq) (hstep.callable hsched.sound.callable)
  exact { hforest with
    running := hsched.running
    esp0 := hsched.esp0
    page := hsched.page
    flag := hsched.flag }

theorem Forest.start_scheduled (hforest : Forest v family) (argument : List UInt8)
    (frame : StackFrame) (hfree : v.Free num)
    (hflag : ∀ t, t ≠ v.terminalNum → v.flag t = if family t = [] then 0 else 1) :
    Scheduled (v.start num argument frame) (push family v.terminalNum num) := by
  have hnext := hforest.start argument frame hfree
  have hcurrent : (v.start num argument frame).current = num := by
    simp [ProcessView.current, ProcessView.start]
  refine { hnext with running := ?_, esp0 := ?_, page := ?_, flag := ?_ }
  · change push family v.terminalNum num v.terminalNum ≠ []
    simp
  · rw [hcurrent, ProcessView.start]
  · rw [hcurrent, ProcessView.start]
  · intro t
    by_cases ht : t = v.terminalNum
    · subst ht
      simp [ProcessView.start]
    · simp only [ProcessView.start, Function.update_of_ne ht, push_of_ne ht]
      exact hflag t ht

theorem Scheduled.start (hsched : Scheduled v family) (argument : List UInt8)
    (frame : StackFrame) (hfree : v.Free num) :
    Scheduled (v.start num argument frame) (push family v.terminalNum num) :=
  hsched.toForest.start_scheduled argument frame hfree fun t _ => hsched.flag t

theorem Scheduled.save (hsched : Scheduled v family) (cpu : Cpu) :
    Scheduled (v.save cpu) family :=
  hsched.touch (.saved cpu)

theorem Scheduled.dispatch (hsched : Scheduled v family) {t : Fin 3}
    (hflag : v.flag t ≠ 0) : Scheduled (v.dispatch t) family := by
  have hforest : Forest (v.dispatch t) family :=
    ⟨hsched.linked, hsched.separate, hsched.le_max, hsched.count, hsched.taken, hsched.own,
      hsched.callable⟩
  have hcells : family t ≠ [] := by
    intro hnil
    rw [hsched.flag t, if_pos hnil] at hflag
    exact hflag rfl
  exact { hforest with
    running := hcells
    esp0 := by simp only [ProcessView.dispatch, ProcessView.current]
    page := by simp only [ProcessView.dispatch, ProcessView.current]
    flag := hsched.flag }

theorem Scheduled.setDirIndex (hsched : Scheduled v family) (dirIndex : ℕ) :
    Scheduled (v.setDirIndex dirIndex) family := by
  have hforest : Forest (v.setDirIndex dirIndex) family :=
    ⟨hsched.linked, hsched.separate, hsched.le_max, hsched.count, hsched.taken, hsched.own,
      hsched.callable⟩
  exact { hforest with
    running := hsched.running
    esp0 := hsched.esp0
    page := hsched.page
    flag := hsched.flag }

theorem Scheduled.begin (hsched : Scheduled v family) (t : Fin 3) (argument : List UInt8)
    (frame : StackFrame) (hfree : v.Free num) :
    Scheduled ({ v with terminalNum := t }.start num argument frame) (push family t num) := by
  have hforest : Forest { v with terminalNum := t } family :=
    ⟨hsched.linked, hsched.separate, hsched.le_max, hsched.count, hsched.taken, hsched.own,
      hsched.callable⟩
  exact hforest.start_scheduled argument frame hfree fun u _ => hsched.flag u

theorem cleanPcb_callable {pcb : Pcb} (hcallable : pcb.Callable) : (cleanPcb pcb).Callable := by
  intro fd hfd hflags
  by_cases hopen : (pcb.fileDescArray fd).flags = 1
  · simp [cleanPcb, hfd, hopen] at hflags
  · simp only [cleanPcb, hopen, and_false, if_false] at hflags ⊢
    exact hcallable fd hfd hflags

theorem Scheduled.resume (hsched : Scheduled v family)
    (hmore : v.totalProcess v.terminalNum - 1 ≠ 0) :
    Scheduled v.resume (LinkedStacks.pop family v.terminalNum) := by
  obtain ⟨rest, hcells⟩ := hsched.eq_cons
  have hrest : rest ≠ [] := by
    rintro rfl
    rw [hsched.count, hcells] at hmore
    simp at hmore
  have hpcb := hsched.currentPcb_eq
  have hpopped : Forest (v.pop.setPcb v.current (cleanPcb v.currentPcb))
      (LinkedStacks.pop family v.terminalNum) :=
    hsched.pop.setPcb hsched.current_le (by rw [hpcb]; rfl) (by rw [hpcb]; rfl)
      (cleanPcb_callable hsched.sound.callable)
  have hforest : Forest v.resume (LinkedStacks.pop family v.terminalNum) := by
    obtain ⟨hlinked, hseparate, hle, hcount, htaken, hown, hcallable⟩ := hpopped
    have heq : v.resume.pcb = (v.pop.setPcb v.current (cleanPcb v.currentPcb)).pcb := by
      simp only [ProcessView.resume, ProcessView.setPcb, ProcessView.pop, hsched.pcbPtr_eq]
    refine ⟨?_, hseparate, hle, hcount, htaken, ?_, ?_⟩
    · have hprev : v.resume.prev = (v.pop.setPcb v.current (cleanPcb v.currentPcb)).prev := by
        funext cell
        rw [ProcessView.prev, heq, ProcessView.prev]
      intro t
      rw [hprev]
      exact hlinked t
    · rw [heq]
      exact hown
    · rw [heq]
      exact hcallable
  have hcurrent : v.resume.current = v.currentPcb.processNumPrev := by
    simp [ProcessView.current, ProcessView.resume]
  refine { hforest with running := ?_, esp0 := ?_, page := ?_, flag := ?_ }
  · change LinkedStacks.pop family v.terminalNum v.terminalNum ≠ []
    simpa [hcells] using hrest
  · rw [hcurrent, ProcessView.resume]
  · rw [hcurrent, ProcessView.resume]
  · intro t
    by_cases ht : t = v.terminalNum
    · subst ht
      have hflag := hsched.flag v.terminalNum
      rw [if_neg hsched.running] at hflag
      rw [pop_self, hcells, List.tail_cons, if_neg hrest]
      exact hflag
    · rw [pop_of_ne ht]
      exact hsched.flag t

theorem Scheduled.restart (hsched : Scheduled v family) (argument : List UInt8)
    (frame : StackFrame) (hlast : v.totalProcess v.terminalNum - 1 = 0)
    (hfree : v.vacate.Free num) :
    Scheduled (v.vacate.start num argument frame)
      (push (LinkedStacks.pop family v.terminalNum) v.terminalNum num) := by
  obtain ⟨rest, hcells⟩ := hsched.eq_cons
  have hrest : rest = [] := by
    rw [hsched.count, hcells] at hlast
    simpa using hlast
  subst hrest
  have hprev : v.currentPcb.processNumPrev = 0 := by
    have hlinked := hsched.linked v.terminalNum
    rw [hcells] at hlinked
    rw [hsched.currentPcb_eq]
    exact hlinked.2.2
  have hvacate : v.vacate = v.pop := by
    rw [ProcessView.vacate, ProcessView.pop, hprev]
  rw [hvacate] at hfree ⊢
  refine hsched.pop.start_scheduled argument frame hfree fun t ht => ?_
  have hother : t ≠ v.terminalNum := ht
  rw [pop_of_ne hother]
  exact hsched.flag t

theorem Move.scheduled {next : ProcessView} {effect : Option FdEffect}
    (hmove : Move v effect next) (hsched : Scheduled v family) :
    ∃ family', Scheduled next family' ∧
      (family' = family ∨ ∃ t num, v.Free num ∧ family' = push family t num) := by
  cases hmove with
  | stay _ => exact ⟨family, hsched, .inl rfl⟩
  | touch _ pcb hpcb => exact ⟨family, hsched.touch hpcb, .inl rfl⟩
  | enumerated fd => exact ⟨family, hsched.setDirIndex _, .inl rfl⟩
  | openedDir fd pcb hpcb =>
      exact ⟨family, (hsched.touch hpcb).setDirIndex 0, .inl rfl⟩
  | start num argument frame hfree =>
      exact ⟨_, hsched.start argument frame hfree, .inr ⟨v.terminalNum, num, hfree, rfl⟩⟩
  | dispatch t cpu hflag =>
      exact ⟨family, (hsched.save cpu).dispatch hflag, .inl rfl⟩
  | begin t cpu num argument frame _ hfree =>
      exact ⟨_, (hsched.save cpu).begin t argument frame hfree, .inr ⟨t, num, hfree, rfl⟩⟩

theorem End.scheduled {next : ProcessView} (hend : End v next)
    (hsched : Scheduled v family) : ∃ family', Scheduled next family' := by
  cases hend with
  | resume hmore => exact ⟨_, hsched.resume hmore⟩
  | restart num argument frame hlast hfree =>
      exact ⟨_, hsched.restart argument frame hlast hfree⟩

end Steps

/-! ## The processes that do not run -/

section Frames

variable {v next : ProcessView} {family : Fin 3 → List ℕ} {num : ℕ} {t : Fin 3}

/-- A move changes the control block of a process on a stack only if it runs, and
then by one step. -/
theorem Move.pcb_cases {effect : Option FdEffect} (hmove : Move v effect next)
    (hsched : Scheduled v family) (hmem : num ∈ family t) :
    next.pcb (pcbAddress num) = v.pcb (pcbAddress num) ∨
      v.current = num ∧
        PcbStep (v.pcb (pcbAddress num)) effect (next.pcb (pcbAddress num)) := by
  have hmax := hsched.le_max t num hmem
  have htouch : ∀ {pcb}, PcbStep v.currentPcb effect pcb →
      (v.touch pcb).pcb (pcbAddress num) = v.pcb (pcbAddress num) ∨
        v.current = num ∧
          PcbStep (v.pcb (pcbAddress num)) effect ((v.touch pcb).pcb (pcbAddress num)) := by
    intro pcb hpcb
    rw [hsched.touch_eq]
    by_cases hne : num = v.current
    · rw [hne, v.setPcb_pcb_self, ← hsched.currentPcb_eq]
      exact .inr ⟨rfl, hpcb⟩
    · exact .inl (v.setPcb_pcb_of_ne hsched.current_le hmax hne)
  have hfresh : ∀ {other}, v.Free other → num ≠ other := by
    rintro other hfree rfl
    exact hsched.toForest.fresh_of_free hfree t hmem
  cases hmove with
  | stay _ => exact .inl rfl
  | touch _ pcb hpcb => exact htouch hpcb
  | enumerated fd => exact .inl rfl
  | openedDir fd pcb hpcb => exact htouch hpcb
  | start other argument frame hfree =>
      exact .inl
        (ProcessView.start_pcb_of_ne argument frame hfree.2.1 hmax (hfresh hfree))
  | dispatch u cpu _ => exact htouch (.saved cpu)
  | begin u cpu other argument frame _ hfree =>
      rw [ProcessView.start_pcb_of_ne argument frame hfree.2.1 hmax (hfresh hfree)]
      exact htouch (.saved cpu)

theorem Move.pcb_eq {effect : Option FdEffect} (hmove : Move v effect next)
    (hsched : Scheduled v family) (hmem : num ∈ family t) (hne : num ≠ v.current) :
    next.pcb (pcbAddress num) = v.pcb (pcbAddress num) :=
  (hmove.pcb_cases hsched hmem).resolve_right fun hruns => hne hruns.1.symm

theorem End.pcb_eq (hend : End v next) (hsched : Scheduled v family)
    (hmem : num ∈ family t) (hne : num ≠ v.current) :
    next.pcb (pcbAddress num) = v.pcb (pcbAddress num) := by
  have hmax := hsched.le_max t num hmem
  cases hend with
  | resume _ =>
      have hclean : v.resume.pcb = (v.setPcb v.current (cleanPcb v.currentPcb)).pcb := by
        simp only [ProcessView.resume, ProcessView.setPcb, hsched.pcbPtr_eq]
      rw [hclean]
      exact v.setPcb_pcb_of_ne hsched.current_le hmax hne
  | restart other argument frame _ hfree =>
      have hother : num ≠ other := by
        rintro rfl
        have hzero := hfree.2.2
        simp only [ProcessView.vacate, Function.update_of_ne hne] at hzero
        rw [hsched.process_eq_one hmem] at hzero
        contradiction
      exact ProcessView.start_pcb_of_ne argument frame hfree.2.1 hmax hother

theorem Move.mem {effect : Option FdEffect} (hmove : Move v effect next)
    (hsched : Scheduled v family) (hmem : num ∈ family t) :
    ∃ family', Scheduled next family' ∧ num ∈ family' t := by
  obtain ⟨family', hnext, hsame | ⟨u, other, _, hpush⟩⟩ := hmove.scheduled hsched
  · exact ⟨family', hnext, hsame ▸ hmem⟩
  · exact ⟨family', hnext, hpush ▸ mem_push.mpr (.inr hmem)⟩

theorem End.mem (hend : End v next) (hsched : Scheduled v family)
    (hmem : num ∈ family t) (hne : num ≠ v.current) :
    ∃ family', Scheduled next family' ∧ num ∈ family' t := by
  obtain ⟨rest, hcells⟩ := hsched.eq_cons
  have hpop : num ∈ pop family v.terminalNum t := by
    by_cases ht : t = v.terminalNum
    · subst ht
      rw [hcells, List.mem_cons] at hmem
      rw [pop_self, hcells]
      exact hmem.resolve_left hne
    · rwa [pop_of_ne ht]
  cases hend with
  | resume hmore => exact ⟨_, hsched.resume hmore, hpop⟩
  | restart other argument frame hlast hfree =>
      exact ⟨_, hsched.restart argument frame hlast hfree, mem_push.mpr (.inr hpop)⟩

end Frames

/-! ## Runs -/

section Runs

variable {img : Image} {link : Link}

/-- The operation gives no untyped entry a descriptor, and a shell can be loaded again if it
ends a process. -/
structure Op.Proper (img : Image) (s : Kernel) (op : Op) : Prop where
  typed : NoUntypedOpen img s op
  shell : endsProcess img s op = true → img.Loadable shellName

/-- The operation does not end process `num`. -/
def Spares (img : Image) (num : ℕ) (s : Kernel) (op : Op) : Prop :=
  s.running.processNum = num → endsProcess img s op = false

theorem step_scheduled {s next : Kernel} {op : Op} {family : Fin 3 → List ℕ}
    (hsched : Scheduled s.view family) (hop : op.Proper img s)
    (hstep : step img link s op = some next) : ∃ family', Scheduled next.view family' := by
  rcases step_cases hop.shell hsched.sound hop.typed hstep with ⟨_, hmove⟩ | ⟨_, hend⟩
  · obtain ⟨family', hnext, _⟩ := hmove.scheduled hsched
    exact ⟨family', hnext⟩
  · exact hend.scheduled hsched

theorem run_scheduled_of_proper {s final : Kernel} {ops : List Op}
    {family : Fin 3 → List ℕ} (hsched : Scheduled s.view family)
    (hproper : Meets (step img link) (fun state op => op.Proper img state) s ops)
    (hrun : run (step img link) s ops = some final) :
    ∃ family', Scheduled final.view family' := by
  refine run_invariant_of_meets (fun s : Kernel => ∃ family, Scheduled s.view family)
    ?_ ⟨family, hsched⟩ hproper hrun
  rintro state op next ⟨family', hstate⟩ hop hnext
  exact step_scheduled hstate hop hnext

theorem run_scheduled {s final : Kernel} {ops : List Op} {family : Fin 3 → List ℕ}
    (hshell : img.Loadable shellName) (hsched : Scheduled s.view family)
    (htyped : Meets (step img link) (NoUntypedOpen img) s ops)
    (hrun : run (step img link) s ops = some final) :
    ∃ family', Scheduled final.view family' :=
  run_scheduled_of_proper hsched (htyped.imp fun _ _ hop => ⟨hop, fun _ => hshell⟩) hrun

/-- The state in which the kernel starts its first shell: no process, no started
terminal, and control blocks that were never written. -/
structure Booted (s : Kernel) : Prop where
  terminalNum : s.terminalNum = 0
  process : ∀ num, 1 ≤ num → num ≤ processNumMax → s.process num = 0
  processNum : ∀ t, (s.terminalT t).processNum = 0
  flag : ∀ t, (s.terminalT t).flag = 0
  totalProcess : ∀ t, (s.terminalT t).totalProcess = 0
  flags : ∀ address fd, ((s.pcb address).fileDescArray fd).flags = 0
  fops : ∀ address fd, ((s.pcb address).fileDescArray fd).fops = none

theorem Booted.forest {s : Kernel} (hboot : Booted s) : Forest s.view fun _ => [] where
  linked t := hboot.processNum t
  separate := ⟨by simp, by simp⟩
  le_max := by simp
  count t := (hboot.totalProcess t).trans (by simp)
  taken num hpos hmax := .inr ⟨hboot.process num hpos hmax, by simp [Fresh]⟩
  own := by simp
  callable num _ fd _ hflags := absurd (hboot.flags (pcbAddress num) fd) hflags

theorem Booted.scheduled {s first : Kernel} {frame : StackFrame} {entry image : List UInt8}
    (hboot : Booted s)
    (hfirst : execute img s (some shellName) frame = some (.started first entry image)) :
    ∃ family, Scheduled first.view family := by
  obtain ⟨num, argument, hfree, hview⟩ := execute_moves hfirst
  rw [hview]
  exact ⟨_, hboot.forest.start_scheduled argument frame hfree fun t _ =>
    (hboot.flag t).trans (by simp)⟩

end Runs

end VirtualOS
