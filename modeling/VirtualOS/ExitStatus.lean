import VirtualOS.ChildBracket
import Mathlib.Tactic

/-!
# The value that `execute` delivers

A process that calls `execute` gets a value back in one of three ways: the call
returns at once, the child halts, or an exception ends the child.  The header of
the system calls promises `-1`, the low byte of the status, and 256.  The code
passes the whole status on, and returns 0 when the table is full; the theorem of
this file says exactly when the value is the promised one.
-/

namespace VirtualOS

open PartialRuns LinkedStacks

/-- How a call of `execute` came to its end. -/
inductive Outcome where
  | notStarted
  | exception
  | halted (ebx : BitVec 32)

def Outcome.promised : Outcome → ℤ
  | .notStarted => -1
  | .exception => 256
  | .halted ebx => (ebx &&& 0xFF).toNat

def Op.outcome : Op → Outcome
  | .halt status _ => .halted status
  | _ => .exception

/-- The states along a run of `call`. -/
def callStep (call : Kernel → Op → Option (Kernel × Answer)) (s : Kernel) (op : Op) :
    Option Kernel :=
  (call s op).map Prod.fst

/-- A call of `execute` in state `s` and the state and the answer with which it
returns to its caller: at once, or when the child that it started is ended by an
operation of the child.  In between, the operations `call` meet a guard. -/
inductive Concludes (img : Image) (call : Kernel → Op → Option (Kernel × Answer))
    (guard : Kernel → Op → Prop) (s : Kernel) (command : Option (List UInt8))
    (frame : StackFrame) : Outcome → Kernel → Answer → Prop where
  | returned {value : ℤ} {next : Kernel}
      (hexecute : call s (.execute command frame) = some (next, ⟨some value, []⟩)) :
      Concludes img call guard s command frame .notStarted next ⟨some value, []⟩
  | ended {child last next : Kernel} {during : List Op} {op : Op} {answer : Answer}
      (hexecute : call s (.execute command frame) = some (child, ⟨none, []⟩))
      (hguard : Meets (callStep call) guard child (during ++ [op]))
      (hrun : run (callStep call) child during = some last)
      (halive : Meets (callStep call) (Spares img child.running.processNum) child during)
      (hruns : last.running.processNum = child.running.processNum)
      (hends : endsProcess img last op = true)
      (hcall : call last op = some (next, answer)) :
      Concludes img call guard s command frame op.outcome next answer

/-- The calls that keep the promise: a search that finds a slot, an exception, and
a status which is a byte. -/
def Outcome.Kept (s : Kernel) (command : Option (List UInt8)) : Outcome → Prop
  | .notStarted => command = none ∨ ∃ num, freeSlot s = some num
  | .exception => True
  | .halted ebx => ebx.toNat < 256

/-! ## Calls that start nothing -/

section Concluding

variable {img : Image} {link : Link} {s next : Kernel} {command : Option (List UInt8)}
  {frame : StackFrame}

theorem perform_execute_returned {value : ℤ} :
    perform img link s (.execute command frame) = some (next, ⟨some value, []⟩) ↔
      execute img s command frame = some (.returned value next) := by
  constructor
  · intro hperform
    obtain ⟨execution, hexecute, hanswer⟩ := Option.map_eq_some_iff.mp hperform
    cases execution with
    | returned value' s' =>
        simp only [Execution.answer, Prod.mk.injEq, Answer.mk.injEq, Option.some.injEq] at hanswer
        rw [hexecute, hanswer.1, hanswer.2.1]
    | started s' entry image => simp [Execution.answer] at hanswer
  · intro hexecute
    simp only [perform, hexecute, Option.map_some, Execution.answer]

theorem perform_execute_started :
    perform img link s (.execute command frame) = some (next, ⟨none, []⟩) ↔
      ∃ entry image, execute img s command frame = some (.started next entry image) := by
  constructor
  · intro hperform
    obtain ⟨execution, hexecute, hanswer⟩ := Option.map_eq_some_iff.mp hperform
    cases execution with
    | returned value' s' => simp [Execution.answer] at hanswer
    | started s' entry image =>
        simp only [Execution.answer, Prod.mk.injEq, and_true] at hanswer
        exact ⟨entry, image, hanswer ▸ hexecute⟩
  · rintro ⟨entry, image, hexecute⟩
    simp only [perform, hexecute, Option.map_some, Execution.answer]

theorem executeCommit_returned {words : List UInt8} {num : ℕ} {value : ℤ}
    (hcommit : executeCommit img s words num frame = some (.returned value next)) :
    value = -1 := by
  obtain ⟨-, ⟨_, hreturned⟩ | ⟨_, _, _, hstarted⟩⟩ := executeCommit_eq_some hcommit
  · exact (Execution.returned.inj hreturned).1
  · contradiction

theorem execute_returned_iff {value : ℤ}
    (hexecute : execute img s command frame = some (.returned value next)) :
    value = -1 ↔ Outcome.notStarted.Kept s command := by
  obtain ⟨rfl, hreturned⟩ | ⟨words, rfl, ⟨hfull, _, _, hreturned⟩ | ⟨num, hfound, hcommit⟩⟩ :=
    execute_eq_some hexecute
  · exact iff_of_true (Execution.returned.inj hreturned).1 (.inl rfl)
  · have hnone : freeSlot s = none := hfull
    obtain ⟨rfl, -⟩ := Execution.returned.inj hreturned
    simp [Outcome.Kept, hnone]
  · exact iff_of_true (executeCommit_returned hcommit) (.inr ⟨num, hfound⟩)

/-! ## Calls that start a child -/

def Op.endStatus : Op → BitVec 32
  | .halt status _ => status
  | _ => 256

theorem excHandler_halts {exc : Exc} {halting : Halting}
    (hexc : excHandler img s exc frame = some halting) :
    ∃ printed : Kernel, printed.view = s.view ∧ halt img printed 256 frame = some halting := by
  obtain ⟨printed, hprint, hhalt⟩ := Option.bind_eq_some_iff.mp hexc
  exact ⟨printed, excHandler_printed hprint, hhalt⟩

theorem faults_halts {result : CallResult} {effect : Option FdEffect} {answer : Answer}
    (hmoves : result.Moves s.view effect) (hfaults : result.faults = true)
    (hanswer : result.answer img frame = some (next, answer)) :
    ∃ (halted : Kernel) (halting : Halting), halted.view = s.view ∧
      halt img halted 256 frame = some halting ∧ halting.answer = (next, answer) := by
  cases result with
  | returned value bytes s' => cases hfaults
  | pageFault s' =>
      obtain ⟨halting, hexc, heq⟩ := Option.map_eq_some_iff.mp hanswer
      obtain ⟨printed, hview, hhalt⟩ := excHandler_halts hexc
      exact ⟨printed, halting, hview.trans hmoves, hhalt, heq⟩

theorem perform_halts {op : Op} {answer : Answer} (hsound : s.view.Sound)
    (hends : endsProcess img s op = true)
    (hperform : perform img link s op = some (next, answer)) :
    ∃ (halted : Kernel) (frame : StackFrame) (halting : Halting), halted.view = s.view ∧
      halt img halted op.endStatus frame = some halting ∧ halting.answer = (next, answer) := by
  cases op with
  | halt status frame =>
      obtain ⟨halting, hhalt, heq⟩ := Option.map_eq_some_iff.mp hperform
      exact ⟨s, frame, halting, rfl, hhalt, heq⟩
  | exception exc frame =>
      obtain ⟨halting, hexc, heq⟩ := Option.map_eq_some_iff.mp hperform
      obtain ⟨printed, hview, hhalt⟩ := excHandler_halts hexc
      exact ⟨printed, frame, halting, hview, hhalt, heq⟩
  | read fd buf nbytes frame =>
      obtain ⟨result, hread, hanswer⟩ := Option.bind_eq_some_iff.mp hperform
      have hfaults : result.faults = true := by simpa [endsProcess, hread] using hends
      obtain ⟨halted, halting, hhalts⟩ := faults_halts (read_moves hread) hfaults hanswer
      exact ⟨halted, frame, halting, hhalts⟩
  | write fd buf nbytes frame =>
      obtain ⟨result, hwrite, hanswer⟩ := Option.bind_eq_some_iff.mp hperform
      have hfaults : result.faults = true := by simpa [endsProcess, hwrite] using hends
      obtain ⟨halted, halting, hhalts⟩ := faults_halts (write_moves hwrite) hfaults hanswer
      exact ⟨halted, frame, halting, hhalts⟩
  | close fd frame =>
      have hfaults : (close s fd).faults = false := (close_moves hsound.callable).2
      exact absurd (hfaults.symm.trans hends) Bool.false_ne_true
  | _ => exact absurd hends Bool.false_ne_true

theorem Waiting.not_last {v : ProcessView} {t : Fin 3} {child parent : ℕ} {rest : List ℕ}
    {pcb : Pcb} (hwait : Waiting v t child parent rest pcb) (hchild : v.current = child) :
    v.totalProcess v.terminalNum - 1 ≠ 0 := by
  obtain ⟨⟨family, front, hsched, hcells⟩, -⟩ := hwait
  have ht : v.terminalNum = t :=
    hsched.separate.eq_of_mem (hchild ▸ hsched.current_mem) (by simp [hcells])
  have hcount := hsched.count t
  rw [hcells, List.length_append, List.length_cons, List.length_cons] at hcount
  rw [ht]
  omega

theorem ended_delivers {last : Kernel} {op : Op} {answer : Answer} {t : Fin 3}
    {child parent : ℕ} {rest : List ℕ} {pcb : Pcb} (hshell : img.Loadable shellName)
    (hwait : Waiting last.view t child parent rest pcb)
    (hruns : last.running.processNum = child) (hends : endsProcess img last op = true)
    (hperform : perform img link last op = some (next, answer)) :
    answer.value = some op.endStatus.toInt ∧ next.terminalNum = t ∧
      next.running.processNum = parent := by
  obtain ⟨family, -, hsched, -⟩ := hwait.family
  obtain ⟨halted, frame, halting, hview, hhalt, hanswer⟩ :=
    perform_halts hsched.sound hends hperform
  have hsound : halted.view.Sound := hview ▸ hsched.sound
  have hmoves := halt_moves hsound.callable hhalt
  have hend := halt_ends hshell hsound.callable hsound.pos hsound.le_max hhalt
  rw [hview] at hmoves hend
  rw [hanswer] at hend
  obtain ⟨ht, hnum, -⟩ := hwait.end_child hend hruns
  refine ⟨?_, ht, ?_⟩
  · cases halting with
    | resumed value resumed =>
        obtain ⟨rfl, -⟩ := hmoves
        exact congrArg (fun pair => pair.2.value) hanswer.symm
    | restarted restarted entry image =>
        obtain ⟨num, argument, hlast, -⟩ := hmoves
        exact absurd hlast (hwait.not_last hruns)
  · have hnext : next.terminalNum = t := ht
    rw [Kernel.running, hnext]
    exact hnum

theorem toInt_eq_low_byte_iff (ebx : BitVec 32) :
    ebx.toInt = (ebx &&& 0xFF).toNat ↔ ebx.toNat < 256 := by
  have hbyte : (ebx &&& 0xFF).toNat = ebx.toNat % 2 ^ 8 := by
    rw [BitVec.toNat_and]
    exact Nat.and_two_pow_sub_one_eq_mod ebx.toNat 8
  have hlt := ebx.isLt
  rw [hbyte, BitVec.toInt_eq_toNat_cond]
  split <;> omega

theorem endStatus_promised_iff (s : Kernel) (command : Option (List UInt8)) (op : Op) :
    op.endStatus.toInt = op.outcome.promised ↔ op.outcome.Kept s command := by
  cases op with
  | halt status frame => exact toInt_eq_low_byte_iff status
  | _ => exact iff_of_true rfl trivial

/-! ## The law and its limits -/

/-- In every state reached without an `open` of an untyped entry, a call of
`execute` delivers a value to its caller, and this is the promised one exactly
when a slot was found for the child and the status of the child is a byte. -/
theorem execute_delivers_iff {boot first : Kernel} {shellFrame : StackFrame}
    {entry image : List UInt8} {before : List Op} {outcome : Outcome} {answer : Answer}
    (hshell : img.Loadable shellName) (hboot : Booted boot)
    (hfirst : execute img boot (some shellName) shellFrame = some (.started first entry image))
    (hbefore : Meets (step img link) (NoUntypedOpen img) first before)
    (hreach : run (step img link) first before = some s)
    (hconcludes : Concludes img (perform img link) (NoUntypedOpen img) s command frame outcome
      next answer) :
    ∃ value, answer.value = some value ∧ next.terminalNum = s.terminalNum ∧
      next.running.processNum = s.running.processNum ∧
      (value = outcome.promised ↔ outcome.Kept s command) := by
  cases hconcludes with
  | returned hperform =>
      have hexecute := perform_execute_returned.mp hperform
      have hview : next.view = s.view := execute_moves hexecute
      exact ⟨_, rfl, congrArg ProcessView.terminalNum hview,
        congrArg ProcessView.current hview, execute_returned_iff hexecute⟩
  | ended hstarted hguard hrun halive hruns hends hperform =>
      obtain ⟨_, _, hexecute⟩ := perform_execute_started.mp hstarted
      obtain ⟨_, hstart⟩ := hboot.scheduled hfirst
      obtain ⟨family, hsched⟩ := run_scheduled hshell hstart hbefore hreach
      obtain ⟨rest, hcells⟩ := hsched.eq_cons
      have hwait := run_waiting hshell (meets_append.mp hguard).1 halive
        (Waiting.of_execute hsched hcells hexecute) hrun
      obtain ⟨hvalue, ht, hnum⟩ := ended_delivers hshell hwait hruns hends hperform
      exact ⟨_, hvalue, ht, hnum, endStatus_promised_iff s command _⟩

end Concluding

theorem concludes_childKernel {status : BitVec 32} {next : Kernel} {answer : Answer}
    (hperform : perform smallImage zeroLink childKernel (.halt status zeroFrame) =
      some (next, answer)) :
    Concludes smallImage (perform smallImage zeroLink) (NoUntypedOpen smallImage) shellKernel
      (some shellName) zeroFrame (.halted status) next answer := by
  obtain ⟨entry, image, hexecute⟩ := execute_shellKernel
  have hrun : run (step smallImage zeroLink) childKernel [] = some childKernel := rfl
  have hends : endsProcess smallImage childKernel (.halt status zeroFrame) = true := rfl
  have htyped : Meets (step smallImage zeroLink) (NoUntypedOpen smallImage) childKernel
      ([] ++ [.halt status zeroFrame]) := ⟨.of_opened_none rfl, fun _ _ => trivial⟩
  exact .ended (perform_execute_started.mpr ⟨entry, image, hexecute⟩) htyped hrun
    (meets_nil _ _) rfl hends hperform

end VirtualOS
