import VirtualOS.KernelStores
import Mathlib.Tactic

/-!
# A failed `execute`

`execute` returns to its caller in four places: for a null command, when no slot is
free, when the name is not found and when the header is not that of a program.  All
of them come before its first store to a table, so that a call which starts nothing
leaves everything as it was but `current_process_num` and, in a full system, the
screen.  This holds of every state, hence also of those in which `halt` and
`switch_terminal` enter `execute`.  The exception are words that do not fit their
arrays: a name that runs over `start` moves the zero behind it to any address.
-/

namespace VirtualOS

open PageWalk

section Tables

variable (img : Image) (layout : Layout) (pageTable : ℕ → BitVec 32)
  (rest : BitVec 32 → ℕ → BitVec 32) (command : Option (List UInt8)) (frame : StackFrame)

/-- What is the same before a call of `execute` and after it. -/
structure Kernel.LeftAlone (s next : Kernel) : Prop where
  process : next.process = s.process
  pcb : next.pcb = s.pcb
  processNum : ∀ t, (next.terminalT t).processNum = (s.terminalT t).processNum
  flag : ∀ t, (next.terminalT t).flag = (s.terminalT t).flag
  totalProcess : ∀ t, (next.terminalT t).totalProcess = (s.terminalT t).totalProcess
  esp0 : next.esp0 = s.esp0
  pageDirectory : next.pageDirectory = s.pageDirectory
  userPageTable : next.userPageTable = s.userPageTable
  videoPageTable : next.videoPageTable = s.videoPageTable
  userMemory : ∀ ram address, InUserPage address →
    next.load layout pageTable rest
        (memoryAfter ram (executeStores img layout pageTable rest s command frame)) address =
      s.load layout pageTable rest ram address
  /-- Only `current_process_num` differs, unless there was no slot. -/
  refused : command = none ∨ freeSlot s ≠ none → next = loadCurrentProcess s
  /-- In a full system only the screen of the running terminal differs besides. -/
  full : command ≠ none → freeSlot s = none →
    (loadCurrentProcess s).PrintsOn s.terminalNum next

end Tables

section Failures

variable {img : Image} {layout : Layout} {pageTable : ℕ → BitVec 32}
  {rest : BitVec 32 → ℕ → BitVec 32} {s next : Kernel} {command : Option (List UInt8)}
  {frame : StackFrame} {value : ℤ}

theorem executeLoad_of_returned
    (hreturned : execute img s command frame = some (.returned value next)) :
    executeLoad img s command frame = none := by
  obtain ⟨rfl, -⟩ | ⟨line, rfl, ⟨hfull, -⟩ | ⟨num, hfound, hcommit⟩⟩ :=
    execute_eq_some hreturned
  · rfl
  · have hnone : freeSlot s = none := hfull
    simp only [executeLoad, hnone, Option.bind_some, Option.bind_none]
  · obtain ⟨-, ⟨hrejected, -⟩ | ⟨_, _, _, hstarted⟩⟩ := executeCommit_eq_some hcommit
    · unfold executeLoad
      simp only [hrejected, Option.map_none, ite_self, Option.bind_some]
      exact Option.bind_fun_none _
    · contradiction

theorem returned_of_slot
    (hreturned : execute img s command frame = some (.returned value next))
    (hslot : command = none ∨ freeSlot s ≠ none) : next = loadCurrentProcess s := by
  obtain ⟨-, heq⟩ | ⟨line, rfl, ⟨hfull, -⟩ | ⟨num, -, hcommit⟩⟩ := execute_eq_some hreturned
  · exact (Execution.returned.inj heq).2
  · exact absurd hfull (hslot.resolve_left (by simp))
  · obtain ⟨-, ⟨-, heq⟩ | ⟨_, _, _, hstarted⟩⟩ := executeCommit_eq_some hcommit
    · exact (Execution.returned.inj heq).2
    · contradiction

theorem returned_printsOn
    (hreturned : execute img s command frame = some (.returned value next)) :
    (loadCurrentProcess s).PrintsOn s.terminalNum next := by
  by_cases hslot : command = none ∨ freeSlot s ≠ none
  · rw [returned_of_slot hreturned hslot]
    exact .refl _ _
  · rw [not_or, not_not] at hslot
    obtain ⟨hnone, -⟩ | ⟨_, -, ⟨-, printed, hprint, heq⟩ | ⟨num, hfound, -⟩⟩ :=
      execute_eq_some hreturned
    · exact absurd hnone hslot.1
    · obtain ⟨-, rfl⟩ := Execution.returned.inj heq
      exact printLiteral_printsOn hprint
    · have hnone : freeSlot (loadCurrentProcess s) = none := hslot.2
      rw [hnone] at hfound
      contradiction

/-- Whenever `execute` returns without starting a process, in whatever state and for
whatever command, it leaves the process table, the control blocks, the terminals, the
page tables and the memory of the caller as they were. -/
theorem execute_leaves_alone (layout : Layout) (pageTable : ℕ → BitVec 32)
    (rest : BitVec 32 → ℕ → BitVec 32)
    (hreturned : execute img s command frame = some (.returned value next)) :
    s.LeftAlone img layout pageTable rest command frame next := by
  have hprints := returned_printsOn hreturned
  have hview : next.view = s.view := (view_of_printsOn hprints).trans rfl
  have hstores : executeStores img layout pageTable rest s command frame = [] := by
    simp only [executeStores, executeLoad_of_returned hreturned]
  obtain ⟨terminalT, videoMem, cursorPos, hsame⟩ := hprints.sameOutside
  refine ⟨congrArg ProcessView.process hview, congrArg ProcessView.pcb hview,
    congrFun (congrArg ProcessView.processNum hview), congrFun (congrArg ProcessView.flag hview),
    congrFun (congrArg ProcessView.totalProcess hview), congrArg ProcessView.esp0 hview, ?_, ?_,
    ?_, fun ram address _ => ?_, returned_of_slot hreturned, fun _ _ => hprints⟩
  · rw [hsame]
    rfl
  · rw [hsame]
    rfl
  · rw [hsame]
    rfl
  · rw [hstores, hsame]
    rfl

end Failures

theorem execute_leaves_alone_unknown : ∃ next,
    execute smallImage pagedShell (some (ascii "sh")) zeroFrame = some (.returned (-1) next) ∧
      pagedShell.LeftAlone smallImage smallLayout (fun _ => 0) (fun _ _ => 0)
        (some (ascii "sh")) zeroFrame next := by
  have hfound : freeSlot (loadCurrentProcess pagedShell) = some 2 := by decide +kernel
  have hrejected : acceptedFile smallImage (ascii "sh") zeroFrame = none := by decide +kernel
  have hreturned := execute_of_rejected (s := pagedShell) hfound (by decide) (by decide) hrejected
  exact ⟨_, hreturned, execute_leaves_alone smallLayout _ _ hreturned⟩

/-! ## Words that fit their arrays -/

section Names

variable {img : Image} {map : MemoryMap} {s next : Kernel} {command : Option (List UInt8)}
  {frame : StackFrame} {value : ℤ}

def ShortWords (line : List UInt8) : Prop :=
  (parseCommand line).1.length < keyboardBufSize ∧ (parseCommand line).2.length < keyboardBufSize

instance (line : List UInt8) : Decidable (ShortWords line) :=
  inferInstanceAs (Decidable (_ ∧ _))

theorem not_returned_of_executeLoaded {line bytes : List UInt8} {num : ℕ} :
    executeLoaded img map s line frame num bytes ≠ some (.done (.returned value next)) := by
  intro hreturned
  obtain ⟨dentry, -, hstored⟩ := Option.bind_eq_some_iff.mp hreturned
  obtain ⟨stored, -, hresult⟩ := Option.map_eq_some_iff.mp hstored
  split at hresult <;> simp at hresult

theorem executeThrough_of_longName {line : List UInt8}
    (hload : executeLoad img s (some line) frame = none) (hlong : LongName line)
    (hslot : (freeSlot s).isSome) :
    executeThrough img map s (some line) frame = executeLong map s line frame := by
  unfold executeThrough
  simp only [hload, hlong, hslot, and_self, if_true]

/-- A zero behind the frame goes where the page tables lead it. -/
theorem executeLong_of_far {line : List UInt8}
    (hfar : 212 ≤ (nameEnd line frame - frame.cmd).toNat)
    (hstored : (loadCurrentProcess s).storeBuffer map (nameEnd line frame) [0] =
      some (next, true)) :
    executeLong map s line frame = some (.done (.returned (-1) next)) := by
  have hbehind : ¬ (nameEnd line frame - frame.cmd).toNat ≤ filenameLen := by
    unfold filenameLen
    omega
  unfold executeLong
  dsimp only
  rw [if_neg hbehind, if_neg (not_lt.mpr hfar), hstored]
  rfl

end Names

/-- The frame of `execute` on the kernel stack of the first shell. -/
def shellFrame : StackFrame := { zeroFrame with ebp := 0x7FFFB8 }

/-- A name of 211 bytes whose last three lie over `start`, so that the zero goes to the
process counter of the first terminal. -/
def longName : List UInt8 := List.replicate 208 (0x61 : UInt8) ++ [0x6B, 0x3F, 0x3F]

end VirtualOS
