import VirtualOS.ConsoleIndependence
import Mathlib.Tactic

/-!
# What an operation does to the page tables

Three tables are written after boot: the page directory at its entries for 128MB
and 132MB, and the first words of the two tables for 132MB.  `execute` and `halt`
move only the entry for 128MB; `vidmap` and the timer also move what 132MB
refers to.  The terminal on display changes in `switch_terminal` alone.
-/

namespace VirtualOS

open PartialRuns

structure Mapping where
  directory : ℕ → BitVec 32
  userPageTable : ℕ → BitVec 32
  videoPageTable : ℕ → BitVec 32

def Kernel.mapping (s : Kernel) : Mapping where
  directory := s.pageDirectory
  userPageTable := s.userPageTable
  videoPageTable := s.videoPageTable

namespace Mapping

def setPage (m : Mapping) (entry : BitVec 32) : Mapping :=
  { m with directory := Function.update m.directory pdeIndex entry }

/-- 132MB refers to the text page of the display. -/
def showVideo (link : Link) (m : Mapping) : Mapping :=
  { m with
    directory := Function.update m.directory vidmapIndex (userEntry link.userPageTable)
    userPageTable := Function.update m.userPageTable 0 (userEntry videoAddress) }

/-- 132MB refers to the text page kept for terminal `t`. -/
def showBuffer (link : Link) (t : Fin 3) (m : Mapping) : Mapping :=
  { m with
    directory := Function.update m.directory vidmapIndex (userEntry link.videoPageTable)
    videoPageTable := Function.update m.videoPageTable 0 (userEntry (link.videoMemory t)) }

end Mapping

/-- Nothing but the entry for 128MB changes. -/
def Kernel.Remaps (s next : Kernel) : Prop :=
  next.terminalDisplayed = s.terminalDisplayed ∧
    ∃ entry, next.mapping = s.mapping.setPage entry

namespace Kernel.Remaps

variable {s middle next : Kernel}

theorem of_eq (hshown : next.terminalDisplayed = s.terminalDisplayed)
    (hmapping : next.mapping = s.mapping) : s.Remaps next := by
  refine ⟨hshown, s.pageDirectory pdeIndex, ?_⟩
  rw [hmapping, Mapping.setPage]
  simp [mapping]

theorem trans (hfirst : s.Remaps middle) (hsecond : middle.Remaps next) : s.Remaps next := by
  obtain ⟨hshown, entry, hmapping⟩ := hfirst
  obtain ⟨hshown', entry', hmapping'⟩ := hsecond
  refine ⟨hshown'.trans hshown, entry', ?_⟩
  rw [hmapping', hmapping]
  simp [Mapping.setPage]

theorem of_sameOutside (hsame : s.SameOutside next) : s.Remaps next := by
  obtain ⟨terminalT, videoMem, cursorPos, rfl⟩ := hsame
  exact of_eq rfl rfl

end Kernel.Remaps

/-! ## `execute` and `halt` -/

theorem remaps_startProcess (s : Kernel) (num : ℕ) (argument : List UInt8)
    (frame : StackFrame) : s.Remaps (startProcess s num argument frame) :=
  ⟨rfl, userPage num, rfl⟩

theorem execute_remaps {img : Image} {s : Kernel} {command : Option (List UInt8)}
    {frame : StackFrame} {execution : Execution}
    (hexecute : execute img s command frame = some execution) :
    s.Remaps execution.kernel := by
  have hload : s.Remaps (loadCurrentProcess s) := .of_eq rfl rfl
  obtain ⟨_, rfl⟩ | ⟨_, _, ⟨_, _, hprint, rfl⟩ | ⟨_, _, hcommit⟩⟩ := execute_eq_some hexecute
  · exact hload
  · exact hload.trans (.of_sameOutside (printLiteral_printsOn hprint).sameOutside)
  · obtain ⟨_, ⟨_, rfl⟩ | ⟨_, _, _, rfl⟩⟩ := executeCommit_eq_some hcommit
    · exact hload
    · exact hload.trans (remaps_startProcess _ _ _ _)

theorem remaps_haltRelease (s : Kernel) : s.Remaps (haltRelease s) := .of_eq rfl rfl

theorem remaps_haltForgetProcess (s : Kernel) : s.Remaps (haltForgetProcess s) := .of_eq rfl rfl

theorem haltRestore_remaps {again : Kernel → Option Halting} {s : Kernel} {status : BitVec 32}
    {halting : Halting} (hcallable : (s.pcb s.pcbPtr).Callable)
    (hrestore : haltRestore again s status = some halting) :
    s.Remaps halting.answer.1 := by
  rw [haltRestore_eq hcallable] at hrestore
  obtain rfl := Option.some.inj hrestore
  exact ⟨rfl, userPage (haltRestoreNum s s.pcbPtr).running.processNum, rfl⟩

theorem halt_remaps {img : Image} {s : Kernel} {status : BitVec 32} {frame : StackFrame}
    {halting : Halting} (hcallable : s.view.currentPcb.Callable)
    (hhalt : halt img s status frame = some halting) : s.Remaps halting.answer.1 := by
  unfold halt haltFuel at hhalt
  dsimp only at hhalt
  split at hhalt
  · obtain ⟨execution, hexecute, hrest⟩ := Option.bind_eq_some_iff.mp hhalt
    have hforget : s.Remaps execution.kernel :=
      ((remaps_haltRelease s).trans (remaps_haltForgetProcess _)).trans
        (execute_remaps hexecute)
    cases execution with
    | started next entry image =>
        obtain rfl := Option.some.inj hrest
        exact hforget
    | returned value next =>
        have hview : next.view = (haltForgetProcess (haltRelease s)).view :=
          execute_moves hexecute
        rw [view_haltForget_haltRelease] at hview
        have hnext : next.view.currentPcb.Callable := hview ▸ hcallable
        exact hforget.trans (haltRestore_remaps hnext hrest)
  · exact (remaps_haltRelease s).trans
      (haltRestore_remaps (s := haltRelease s) hcallable hhalt)

/-! ## `vidmap`, the timer and the display -/

/-- The test of `vidmap` on its pointer. -/
def AcceptsStart (screenStart : BitVec 32) : Prop :=
  0x8000000 ≤ screenStart.toNat ∧ screenStart.toNat ≤ 0x8400000

instance (screenStart : BitVec 32) : Decidable (AcceptsStart screenStart) :=
  inferInstanceAs (Decidable (_ ∧ _))

theorem vidmap_of_not_accepts (link : Link) (s : Kernel) {screenStart : BitVec 32}
    (hstart : ¬ AcceptsStart screenStart) : vidmap link s screenStart = (-1, s) := by
  unfold vidmap
  rw [if_pos]
  unfold AcceptsStart at hstart
  omega

theorem vidmap_of_accepts (link : Link) (s : Kernel) {screenStart : BitVec 32}
    (hstart : AcceptsStart screenStart) :
    (vidmap link s screenStart).2.mapping = s.mapping.showVideo link ∧
      (vidmap link s screenStart).2.terminalDisplayed = s.terminalDisplayed := by
  unfold vidmap
  rw [if_neg]
  · exact ⟨rfl, rfl⟩
  · unfold AcceptsStart at hstart
    omega

theorem pitHandler_mapping (link : Link) {s : Kernel}
    (hsome : ¬ ((s.terminalT 1).flag = 0 ∧ (s.terminalT 2).flag = 0)) (cpu : Cpu) :
    (pitHandler link s cpu).1.terminalDisplayed = s.terminalDisplayed ∧
      ∃ entry, (pitHandler link s cpu).1.mapping =
        if (pitHandler link s cpu).1.terminalNum = s.terminalDisplayed then
          (s.mapping.setPage entry).showVideo link
        else
          (s.mapping.setPage entry).showBuffer link (pitHandler link s cpu).1.terminalNum := by
  unfold pitHandler
  rw [if_neg hsome]
  dsimp only
  unfold mapVidmap
  split
  · rename_i hshown
    exact ⟨rfl, _, (if_pos hshown).symm⟩
  · rename_i hhidden
    exact ⟨rfl, _, (if_neg hhidden).symm⟩

theorem switchTerminal_mapping {img : Image} {s next : Kernel} {newTerminal : Fin 3}
    {cpu : Cpu} {frame : StackFrame}
    (hswitch : switchTerminal img s newTerminal cpu frame = some next) :
    next.terminalDisplayed = newTerminal ∧ ∃ entry, next.mapping = s.mapping.setPage entry := by
  unfold switchTerminal at hswitch
  dsimp only at hswitch
  split at hswitch
  · obtain ⟨execution, hexecute, hnext⟩ := Option.map_eq_some_iff.mp hswitch
    have hprints := clear_printsOn
      { saveContext (showTerminal s newTerminal) cpu with terminalNum := newTerminal }
    have hclear : (showTerminal s newTerminal).Remaps execution.kernel :=
      (Kernel.Remaps.of_eq rfl rfl).trans
        ((Kernel.Remaps.of_sameOutside hprints.sameOutside).trans (execute_remaps hexecute))
    have hlast : next.terminalDisplayed = execution.kernel.terminalDisplayed ∧
        next.mapping = execution.kernel.mapping := by
      cases execution with
      | returned value s => exact hnext ▸ ⟨rfl, rfl⟩
      | started s entry image => exact hnext ▸ ⟨rfl, rfl⟩
    obtain ⟨hshown, entry, hmapping⟩ := hclear
    exact ⟨hlast.1.trans hshown, entry, hlast.2.trans hmapping⟩
  · obtain rfl := Option.some.inj hswitch
    have hself : s.Remaps s := .of_eq rfl rfl
    obtain ⟨-, entry, hmapping⟩ := hself
    exact ⟨rfl, entry, hmapping⟩

end VirtualOS
