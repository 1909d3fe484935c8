import VirtualOS.AddressTranslation
import Mathlib.Tactic

/-!
# The page at 132MB and the display

A process that has called `vidmap` should see the display at 132MB while its
terminal is shown, and the text page kept for its terminal otherwise.  The timer
maps 132MB this way for the terminal it dispatches.  `vidmap` always maps the
display, and `switch_terminal` changes what is shown without mapping anything, so
that a run is followed together with a record of the calls of `vidmap` and of
the terminal for which 132MB was last mapped.
-/

namespace VirtualOS

open PartialRuns PageWalk

/-! ## What 132MB refers to -/

/-- What a process of the running terminal should find at 132MB. -/
structure Kernel.VidmapFollows (s : Kernel) (layout : Layout) (pageTable : ℕ → BitVec 32)
    (rest : BitVec 32 → ℕ → BitVec 32) : Prop where
  screen_iff : s.translate layout pageTable rest 0x8400000 = some ⟨0xB8000, true⟩ ↔
    s.terminalNum = s.terminalDisplayed
  buffer : s.terminalNum ≠ s.terminalDisplayed →
    s.translate layout pageTable rest 0x8400000 =
      some ⟨frameOf (layout.videoMemory s.terminalNum), true⟩

/-- 132MB was mapped for terminal `t`, while it was shown or not. -/
def Mapping.MadeFor (link : Link) (m : Mapping) (t : Fin 3) : Bool → Prop
  | true => m.directory vidmapIndex = userEntry link.userPageTable ∧
      m.userPageTable 0 = userEntry videoAddress
  | false => m.directory vidmapIndex = userEntry link.videoPageTable ∧
      m.videoPageTable 0 = userEntry (link.videoMemory t)

theorem Mapping.MadeFor.setPage {link : Link} {m : Mapping} {t : Fin 3} {shown : Bool}
    (hmade : m.MadeFor link t shown) (entry : BitVec 32) :
    (m.setPage entry).MadeFor link t shown := by
  have hne : vidmapIndex ≠ pdeIndex := by decide
  have hindex : (m.setPage entry).directory vidmapIndex = m.directory vidmapIndex := by
    simp [Mapping.setPage, hne]
  cases shown with
  | true => exact ⟨hindex.trans hmade.1, hmade.2⟩
  | false => exact ⟨hindex.trans hmade.1, hmade.2⟩

theorem Mapping.madeFor_showVideo (link : Link) (m : Mapping) (t : Fin 3) :
    (m.showVideo link).MadeFor link t true := by
  simp [MadeFor, showVideo]

theorem Mapping.madeFor_showBuffer (link : Link) (m : Mapping) (t : Fin 3) :
    (m.showBuffer link t).MadeFor link t false := by
  simp [MadeFor, showBuffer]

theorem userEntry_eq (address : BitVec 32) : userEntry address = address ||| 0x07 := by
  rw [userEntry, BitVec.or_assoc]
  rfl

section Walk

variable {s : Kernel} {layout : Layout} {pageTable : ℕ → BitVec 32}
  {rest : BitVec 32 → ℕ → BitVec 32}

theorem translate_vidmap {table : BitVec 32} (target : BitVec 32)
    (haligned : frameOf table = table)
    (hpde : s.pageDirectory vidmapIndex = userEntry table)
    (hpte : s.frames layout pageTable rest table 0 = userEntry target) :
    s.translate layout pageTable rest 0x8400000 = some ⟨frameOf target, true⟩ := by
  obtain ⟨hpresent, hsmall, hframe, huser⟩ :=
    tableEntry_spec 0x07 haligned rfl rfl rfl
  rw [userEntry_eq] at hpde hpte
  have hword : Present (target ||| 0x07) ∧ (target ||| 0x07).getLsbD 2 = true ∧
      frameOf (target ||| 0x07) = frameOf target := by
    refine ⟨?_, ?_, ?_⟩
    · rw [Present, BitVec.getLsbD_or]
      exact Bool.or_true _
    · rw [BitVec.getLsbD_or]
      exact Bool.or_true _
    · rw [frameOf_or]
      exact BitVec.or_zero
  have hindex : (0x8400000 : BitVec 32).toNat / 2 ^ 12 % 2 ^ 10 = 0 := by decide
  have hentry : s.frames layout pageTable rest (frameOf (table ||| 0x07))
      ((0x8400000 : BitVec 32).toNat / 2 ^ 12 % 2 ^ 10) = target ||| 0x07 := by
    rw [hframe, hindex, hpte]
  have hstart : (0x8400000 &&& 0xFFF : BitVec 32) = 0 := by decide
  rw [Kernel.translate, walk_of_table hpde hpresent hsmall hentry,
    if_neg (not_not.mpr hword.1), huser, hword.2.1, hword.2.2, hstart]
  exact congrArg (fun physical => some (Translation.mk physical true)) (BitVec.add_zero _)

theorem frameOf_videoMemory_ne (layout : Layout) (t : Fin 3) :
    frameOf (layout.videoMemory t) ≠ 0xB8000 := by
  intro heq
  obtain ⟨hlow, -⟩ := layout.videoMemory_kernel t
  have hframe := frameOf_toNat (layout.videoMemory t)
  have hvideo : (0xB8000 : BitVec 32).toNat = 0xB8000 := rfl
  rw [heq] at hframe
  omega

theorem Mapping.MadeFor.vidmapFollows (pageTable : ℕ → BitVec 32)
    (rest : BitVec 32 → ℕ → BitVec 32)
    (hmade : s.mapping.MadeFor layout.toLink s.terminalNum
      (decide (s.terminalNum = s.terminalDisplayed))) :
    s.VidmapFollows layout pageTable rest := by
  by_cases hshown : s.terminalNum = s.terminalDisplayed
  · rw [decide_eq_true hshown] at hmade
    have hwalk : s.translate layout pageTable rest 0x8400000 = some ⟨0xB8000, true⟩ :=
      translate_vidmap videoAddress layout.userPageTable_aligned hmade.1 (by
        rw [Kernel.frames, if_neg layout.user_ne_page, if_pos rfl]
        exact hmade.2)
    exact ⟨iff_of_true hwalk hshown, fun hne => absurd hshown hne⟩
  · rw [decide_eq_false hshown] at hmade
    have hwalk : s.translate layout pageTable rest 0x8400000 =
        some ⟨frameOf (layout.videoMemory s.terminalNum), true⟩ :=
      translate_vidmap _ layout.videoPageTable_aligned hmade.1 (by
        rw [Kernel.frames, if_neg layout.video_ne_page, if_neg layout.video_ne_user, if_pos rfl]
        exact hmade.2)
    refine ⟨?_, fun _ => hwalk⟩
    rw [hwalk]
    have hne := frameOf_videoMemory_ne layout s.terminalNum
    constructor
    · intro heq
      exact absurd (congrArg Translation.physical (Option.some.inj heq)) hne
    · intro heq
      exact absurd heq hshown

end Walk

/-! ## The record of a run -/

/-- Which processes have called `vidmap` since they started, and for which
terminal, shown or not, 132MB was last mapped. -/
structure Vidmaps where
  called : ℕ → Bool
  madeFor : Option (Fin 3 × Bool)

def noVidmaps : Vidmaps := ⟨fun _ => false, none⟩

def Execution.starts : Execution → Bool
  | .returned _ _ => false
  | .started _ _ _ => true

def Halting.starts : Halting → Bool
  | .resumed _ _ => false
  | .restarted _ _ _ => true

def beginsProcess (img : Image) (s : Kernel) : Op → Bool
  | .execute command frame => (execute img s command frame).any Execution.starts
  | .halt status frame => (halt img s status frame).any Halting.starts
  | .switchTerminal newTerminal cpu frame =>
      newTerminal ≠ 0 ∧ (s.terminalT newTerminal).flag = 0 ∧
        (execute img (clear { saveContext (showTerminal s newTerminal) cpu with
          terminalNum := newTerminal }) (some shellName) frame).any Execution.starts
  | _ => false

/-- The record after an operation that leads from `s` to `next`. -/
def Vidmaps.record (maps : Vidmaps) (img : Image) (s next : Kernel) : Op → Vidmaps
  | .vidmap screenStart =>
      if AcceptsStart screenStart then
        { called := Function.update maps.called s.running.processNum true
          madeFor := some (s.terminalNum, true) }
      else maps
  | .pit _ =>
      if (s.terminalT 1).flag = 0 ∧ (s.terminalT 2).flag = 0 then maps
      else { maps with
        madeFor := some (next.terminalNum, next.terminalNum = next.terminalDisplayed) }
  | op =>
      if beginsProcess img s op then
        { maps with called := Function.update maps.called next.running.processNum false }
      else maps

/-- One operation on the kernel together with its record. -/
def recordStep (img : Image) (link : Link) (state : Kernel × Vidmaps) (op : Op) :
    Option (Kernel × Vidmaps) :=
  (step img link state.1 op).map fun next => (next, state.2.record img state.1 next op)

/-- A switch to a terminal that gets its first shell, which then runs. -/
def BeginsShell (img : Image) (s : Kernel) (newTerminal : Fin 3) : Prop :=
  newTerminal ≠ 0 ∧ (s.terminalT newTerminal).flag = 0 ∧ img.Loadable shellName ∧
    ∃ num, freeSlot s = some num

/-- The display stays out of the way of `vidmap`: the call comes from the terminal
that is shown, a process that has made it goes on only if its terminal is shown as
before, and a parent that has made it is resumed only if 132MB was last mapped for
its terminal as it is shown now. -/
def KeepsDisplay (img : Image) (state : Kernel × Vidmaps) : Op → Prop
  | .vidmap screenStart => AcceptsStart screenStart →
      state.1.terminalNum = state.1.terminalDisplayed
  | .switchTerminal newTerminal _ _ =>
      state.2.called state.1.running.processNum = true →
        BeginsShell img state.1 newTerminal ∨
          (state.1.terminalNum = newTerminal ↔
            state.1.terminalNum = state.1.terminalDisplayed)
  | .halt _ _ =>
      state.2.called (state.1.pcb state.1.pcbPtr).processNumPrev = true →
        state.2.madeFor = some (state.1.terminalNum,
          decide (state.1.terminalNum = state.1.terminalDisplayed))
  | _ => True

/-! ## The invariant -/

structure Recorded (layout : Layout) (state : Kernel × Vidmaps) : Prop where
  own : state.1.view.OnOwnPage
  made : ∀ t shown, state.2.madeFor = some (t, shown) →
    state.1.mapping.MadeFor layout.toLink t shown
  follows : state.2.called state.1.running.processNum = true →
    state.2.madeFor = some (state.1.terminalNum,
      decide (state.1.terminalNum = state.1.terminalDisplayed))

section Steps

variable {img : Image} {layout : Layout} {s next : Kernel} {maps : Vidmaps}

theorem Recorded.of_remaps (hrecorded : Recorded layout (s, maps))
    (called : ℕ → Bool) (hown : next.view.OnOwnPage)
    (hmapping : ∃ entry, next.mapping = s.mapping.setPage entry)
    (hfollows : called next.running.processNum = true →
      maps.madeFor = some (next.terminalNum,
        decide (next.terminalNum = next.terminalDisplayed))) :
    Recorded layout (next, { maps with called := called }) where
  own := hown
  made t shown hmade := by
    obtain ⟨entry, hmapping⟩ := hmapping
    have hkept := (hrecorded.made t shown hmade).setPage entry
    exact hmapping ▸ hkept
  follows := hfollows

theorem Recorded.of_view_eq (hrecorded : Recorded layout (s, maps)) (hremaps : s.Remaps next)
    (hview : next.view = s.view) : Recorded layout (next, maps) := by
  have hcurrent : next.running.processNum = s.running.processNum :=
    congrArg ProcessView.current hview
  have hnum : next.terminalNum = s.terminalNum := congrArg ProcessView.terminalNum hview
  refine hrecorded.of_remaps maps.called (hview ▸ hrecorded.own) hremaps.2
    fun hcalled => ?_
  rw [hcurrent] at hcalled
  rw [hnum, hremaps.1]
  exact hrecorded.follows hcalled

theorem Recorded.of_starts (hrecorded : Recorded layout (s, maps))
    (hown : next.view.OnOwnPage) (hmapping : ∃ entry, next.mapping = s.mapping.setPage entry) :
    Recorded layout (next, { maps with
      called := Function.update maps.called next.running.processNum false }) := by
  refine hrecorded.of_remaps _ hown hmapping fun hcalled => ?_
  simp at hcalled

theorem recorded_execute {command : Option (List UInt8)} {frame : StackFrame}
    (hrecorded : Recorded layout (s, maps)) (hown : next.view.OnOwnPage)
    (hstep : step img layout.toLink s (.execute command frame) = some next) :
    Recorded layout (next, maps.record img s next (.execute command frame)) := by
  obtain ⟨⟨final, answer⟩, hperform, rfl⟩ := Option.map_eq_some_iff.mp hstep
  obtain ⟨execution, hexecute, heq⟩ := Option.map_eq_some_iff.mp hperform
  have hstarts : beginsProcess img s (.execute command frame) = execution.starts := by
    simp [beginsProcess, hexecute]
  have hremaps := execute_remaps hexecute
  have hmoves := execute_moves hexecute
  simp only [Vidmaps.record, hstarts]
  cases execution with
  | returned value s' =>
      obtain ⟨rfl, _⟩ := Prod.mk.inj heq
      exact hrecorded.of_view_eq hremaps hmoves
  | started s' entry image =>
      obtain ⟨rfl, _⟩ := Prod.mk.inj heq
      exact hrecorded.of_starts hown hremaps.2

theorem recorded_halt {status : BitVec 32} {frame : StackFrame}
    (hrecorded : Recorded layout (s, maps)) (hown : next.view.OnOwnPage)
    (hkeeps : KeepsDisplay img (s, maps) (.halt status frame))
    (hstep : step img layout.toLink s (.halt status frame) = some next) :
    Recorded layout (next, maps.record img s next (.halt status frame)) := by
  obtain ⟨⟨final, answer⟩, hperform, rfl⟩ := Option.map_eq_some_iff.mp hstep
  obtain ⟨halting, hhalt, heq⟩ := Option.map_eq_some_iff.mp hperform
  have hstarts : beginsProcess img s (.halt status frame) = halting.starts := by
    simp [beginsProcess, hhalt]
  have hremaps := halt_remaps hrecorded.own.callable hhalt
  have hmoves := halt_moves hrecorded.own.callable hhalt
  simp only [Vidmaps.record, hstarts]
  cases halting with
  | resumed value s' =>
      obtain ⟨rfl, _⟩ := Prod.mk.inj heq
      have hcurrent : s'.running.processNum = (s.pcb s.pcbPtr).processNumPrev := by
        have hresume := congrArg ProcessView.current hmoves.2
        exact hresume.trans (by simp [ProcessView.current, ProcessView.resume]; rfl)
      have hnum : s'.terminalNum = s.terminalNum := congrArg ProcessView.terminalNum hmoves.2
      refine hrecorded.of_remaps maps.called hown hremaps.2 fun hcalled => ?_
      have hmade := hkeeps (hcurrent ▸ hcalled)
      have hshown : s'.terminalDisplayed = s.terminalDisplayed := hremaps.1
      rw [hnum, hshown]
      exact hmade
  | restarted s' entry image =>
      obtain ⟨rfl, _⟩ := Prod.mk.inj heq
      exact hrecorded.of_starts hown hremaps.2

theorem recorded_vidmap {screenStart : BitVec 32} (hrecorded : Recorded layout (s, maps))
    (hown : next.view.OnOwnPage)
    (hkeeps : KeepsDisplay img (s, maps) (.vidmap screenStart))
    (hstep : step img layout.toLink s (.vidmap screenStart) = some next) :
    Recorded layout (next, maps.record img s next (.vidmap screenStart)) := by
  obtain rfl := Option.some.inj hstep
  by_cases hstart : AcceptsStart screenStart
  · obtain ⟨hmapping, hshown⟩ := vidmap_of_accepts layout.toLink s hstart
    have hdisplay := hkeeps hstart
    have hnum : (vidmap layout.toLink s screenStart).2.terminalNum = s.terminalNum :=
      congrArg ProcessView.terminalNum (view_vidmap layout.toLink s screenStart)
    simp only [Vidmaps.record, if_pos hstart]
    refine ⟨hown, ?_, fun _ => ?_⟩
    · rintro t shown hmade
      obtain ⟨rfl, rfl⟩ := Prod.mk.inj (Option.some.inj hmade)
      exact hmapping ▸ Mapping.madeFor_showVideo layout.toLink s.mapping s.terminalNum
    · dsimp only
      rw [hnum, hshown, decide_eq_true hdisplay]
  · simp only [Vidmaps.record, if_neg hstart]
    have hsame : (vidmap layout.toLink s screenStart).2 = s :=
      congrArg Prod.snd (vidmap_of_not_accepts layout.toLink s hstart)
    rw [hsame]
    exact hrecorded

theorem recorded_pit {cpu : Cpu} (hrecorded : Recorded layout (s, maps))
    (hown : next.view.OnOwnPage)
    (hstep : step img layout.toLink s (.pit cpu) = some next) :
    Recorded layout (next, maps.record img s next (.pit cpu)) := by
  obtain rfl := Option.some.inj hstep
  by_cases hidle : (s.terminalT 1).flag = 0 ∧ (s.terminalT 2).flag = 0
  · have hsame : (pitHandler layout.toLink s cpu).1 = s := by
      rw [pitHandler, if_pos hidle]
    simp only [Vidmaps.record, if_pos hidle]
    rw [hsame]
    exact hrecorded
  · obtain ⟨hshown, entry, hmapping⟩ := pitHandler_mapping layout.toLink hidle cpu
    simp only [Vidmaps.record, if_neg hidle]
    refine ⟨hown, ?_, fun _ => rfl⟩
    rintro t shown hmade
    obtain ⟨rfl, rfl⟩ := Prod.mk.inj (Option.some.inj hmade)
    dsimp only
    rw [hmapping, hshown]
    split
    · rename_i hdisplay
      rw [decide_eq_true hdisplay]
      exact Mapping.madeFor_showVideo _ _ _
    · rename_i hdisplay
      rw [decide_eq_false hdisplay]
      exact Mapping.madeFor_showBuffer _ _ _

theorem execute_of_beginsShell {newTerminal : Fin 3} (cpu : Cpu) (frame : StackFrame)
    (hbegins : BeginsShell img s newTerminal) :
    ∃ started entry image, execute img (clear { saveContext (showTerminal s newTerminal) cpu with
      terminalNum := newTerminal }) (some shellName) frame =
        some (.started started entry image) := by
  obtain ⟨-, -, hshell, num, hfound⟩ := hbegins
  obtain ⟨hpos, hmax, hzero⟩ := freeSlot_eq_some hfound
  have hfree : (clear { saveContext (showTerminal s newTerminal) cpu with
      terminalNum := newTerminal }).view.Free num :=
    ⟨hpos, hmax, (congrFun (process_beforeExecute s newTerminal cpu) num).trans hzero⟩
  exact execute_shell frame hshell hfree

theorem switchTerminal_cases {newTerminal : Fin 3} {cpu : Cpu} {frame : StackFrame}
    (hswitch : switchTerminal img s newTerminal cpu frame = some next) :
    beginsProcess img s (.switchTerminal newTerminal cpu frame) = true ∨
      (beginsProcess img s (.switchTerminal newTerminal cpu frame) = false ∧
        ¬ BeginsShell img s newTerminal ∧
        next.running.processNum = s.running.processNum ∧ next.terminalNum = s.terminalNum) := by
  unfold switchTerminal at hswitch
  dsimp only at hswitch
  rw [showTerminal_flag] at hswitch
  by_cases hnew : newTerminal ≠ 0 ∧ (s.terminalT newTerminal).flag = 0
  · rw [if_pos hnew] at hswitch
    obtain ⟨execution, hexecute, hnext⟩ := Option.map_eq_some_iff.mp hswitch
    have hstarts : beginsProcess img s (.switchTerminal newTerminal cpu frame) =
        execution.starts := by
      simp [beginsProcess, hnew.1, hnew.2, hexecute]
    have hmoves := execute_moves hexecute
    cases execution with
    | started s' entry image => exact .inl hstarts
    | returned value s' =>
        refine .inr ⟨hstarts, fun hbegins => ?_, ?_, hnext ▸ rfl⟩
        · obtain ⟨_, _, _, hstarted⟩ := execute_of_beginsShell cpu frame hbegins
          rw [hexecute] at hstarted
          cases hstarted
        · have hview : s'.view = _ := hmoves
          have hnums : s'.view.processNum = s.view.processNum := by
            rw [hview, view_clear, ← view_showTerminal s newTerminal]
            rfl
          rw [← hnext]
          exact congrFun hnums s.terminalNum
  · rw [if_neg hnew] at hswitch
    obtain rfl := Option.some.inj hswitch
    refine .inr ⟨?_, fun hbegins => hnew ⟨hbegins.1, hbegins.2.1⟩, ?_, rfl⟩
    · exact decide_eq_false fun hstarts => hnew ⟨hstarts.1, hstarts.2.1⟩
    · exact congrArg ProcessView.current (view_showTerminal s newTerminal)

theorem recorded_switchTerminal {newTerminal : Fin 3} {cpu : Cpu} {frame : StackFrame}
    (hrecorded : Recorded layout (s, maps)) (hown : next.view.OnOwnPage)
    (hkeeps : KeepsDisplay img (s, maps) (.switchTerminal newTerminal cpu frame))
    (hstep : step img layout.toLink s (.switchTerminal newTerminal cpu frame) = some next) :
    Recorded layout (next, maps.record img s next (.switchTerminal newTerminal cpu frame)) := by
  obtain ⟨⟨final, answer⟩, hperform, rfl⟩ := Option.map_eq_some_iff.mp hstep
  obtain ⟨s', hswitch, heq⟩ := Option.map_eq_some_iff.mp hperform
  obtain ⟨rfl, _⟩ := Prod.mk.inj heq
  obtain ⟨hshown, hmapping⟩ := switchTerminal_mapping hswitch
  rcases switchTerminal_cases hswitch with hstarts | ⟨hstarts, hbegins, hcurrent, hnum⟩
  · simp only [Vidmaps.record, hstarts]
    exact hrecorded.of_starts hown hmapping
  · simp only [Vidmaps.record, hstarts]
    refine hrecorded.of_remaps maps.called hown hmapping fun hcalled => ?_
    rw [hcurrent] at hcalled
    have hsame := (hkeeps hcalled).resolve_left hbegins
    dsimp only at hsame
    rw [hnum, hshown]
    simp only [hsame]
    exact hrecorded.follows hcalled

theorem recordStep_recorded {op : Op} {state : Kernel × Vidmaps} {after : Kernel × Vidmaps}
    (hop : op.Maps) (hrecorded : Recorded layout state) (hkeeps : KeepsDisplay img state op)
    (hstep : recordStep img layout.toLink state op = some after) :
    Recorded layout after := by
  obtain ⟨s, maps⟩ := state
  obtain ⟨next, hnext, rfl⟩ := Option.map_eq_some_iff.mp hstep
  have hown := step_onOwnPage hop hrecorded.own hnext
  cases op with
  | execute command frame => exact recorded_execute hrecorded hown hnext
  | halt status frame => exact recorded_halt hrecorded hown hkeeps hnext
  | vidmap screenStart => exact recorded_vidmap hrecorded hown hkeeps hnext
  | pit cpu => exact recorded_pit hrecorded hown hnext
  | switchTerminal newTerminal cpu frame =>
      exact recorded_switchTerminal hrecorded hown hkeeps hnext
  | _ => exact hop.elim

end Steps

/-! ## The law and its limits -/

/-- When every step keeps the display out of the way, a process that has called
`vidmap` finds its terminal at 132MB. -/
theorem vidmapFollows_of_run {img : Image} {layout : Layout} {pageTable : ℕ → BitVec 32}
    {rest : BitVec 32 → ℕ → BitVec 32} {boot first final : Kernel} {maps : Vidmaps}
    {command : Option (List UInt8)} {frame : StackFrame} {entry image : List UInt8}
    {ops : List Op} (hboot : Booted boot)
    (hfirst : execute img boot command frame = some (.started first entry image))
    (hops : ∀ op ∈ ops, op.Maps)
    (hkeeps : Meets (recordStep img layout.toLink) (KeepsDisplay img) (first, noVidmaps) ops)
    (hrun : run (recordStep img layout.toLink) (first, noVidmaps) ops = some (final, maps))
    (hcalled : maps.called final.running.processNum = true) :
    final.VidmapFollows layout pageTable rest := by
  have hstart : Recorded layout (first, noVidmaps) :=
    ⟨hboot.onOwnPage hfirst, by simp [noVidmaps], by simp [noVidmaps]⟩
  have hfinal := run_invariant_of_meets (Recorded layout)
    (fun state op next hstate hguard hnext =>
      recordStep_recorded hguard.1 hstate hguard.2 hnext)
    hstart ((meets_of_forall_mem hops _).and hkeeps) hrun
  exact (hfinal.made _ _ (hfinal.follows hcalled)).vidmapFollows pageTable rest

/-- The shell of terminal 0 calls `vidmap`, terminal 1 starts, and a tick goes back
to terminal 0, which is no longer shown. -/
def hiddenRun : List Op :=
  [.vidmap 0x8000100, .switchTerminal 1 ⟨0, 0⟩ zeroFrame, .pit ⟨0, 0⟩]

theorem hiddenRun_keepsDisplay :
    Meets (recordStep smallImage smallLayout.toLink) (KeepsDisplay smallImage)
      (pagedShell, noVidmaps) hiddenRun := by
  refine ⟨fun _ => rfl, fun mapped hmapped => ⟨fun _ => .inl ?_, fun begun _ => ?_⟩⟩
  · obtain rfl := Option.some.inj hmapped
    exact ⟨by decide, rfl, smallImage_loadable, 2, by decide +kernel⟩
  · exact ⟨trivial, fun _ _ => trivial⟩

theorem vidmapFollows_of_hiddenRun : ∃ final maps,
    run (recordStep smallImage smallLayout.toLink) (pagedShell, noVidmaps) hiddenRun =
        some (final, maps) ∧
      maps.called final.running.processNum = true ∧
      final.VidmapFollows smallLayout (fun _ => 0) fun _ _ => 0 := by
  obtain ⟨entry, image, hfirst⟩ := execute_pagedKernel
  have hany : (run (recordStep smallImage smallLayout.toLink) (pagedShell, noVidmaps)
      hiddenRun).any (fun state => state.2.called state.1.running.processNum) = true := by
    decide +kernel
  obtain ⟨⟨final, maps⟩, hrun, hcalled⟩ := (Option.any_eq_true _ _).mp hany
  exact ⟨final, maps, hrun, hcalled, vidmapFollows_of_run pagedKernel_booted hfirst
    (by simp [hiddenRun, Op.Maps]) hiddenRun_keepsDisplay hrun hcalled⟩

/-- The shell of terminal 0 calls `vidmap` while terminal 1 is shown: it is given
the display. -/
theorem vidmap_background_maps_display : ∃ final maps,
    run (recordStep smallImage smallLayout.toLink) (pagedShell, noVidmaps)
        [.switchTerminal 1 ⟨0, 0⟩ zeroFrame, .pit ⟨0, 0⟩, .vidmap 0x8000100] =
        some (final, maps) ∧
      maps.called final.running.processNum = true ∧
      final.terminalNum ≠ final.terminalDisplayed ∧
      ¬ final.VidmapFollows smallLayout (fun _ => 0) fun _ _ => 0 := by
  have hany : (run (recordStep smallImage smallLayout.toLink) (pagedShell, noVidmaps)
      [.switchTerminal 1 ⟨0, 0⟩ zeroFrame, .pit ⟨0, 0⟩, .vidmap 0x8000100]).any (fun state =>
        state.2.called state.1.running.processNum &&
          (decide (state.1.terminalNum ≠ state.1.terminalDisplayed) &&
            decide (state.1.translate smallLayout (fun _ => 0) (fun _ _ => 0) 0x8400000 =
              some ⟨0xB8000, true⟩))) = true := by
    decide +kernel
  obtain ⟨⟨final, maps⟩, hrun, hfinal⟩ := (Option.any_eq_true _ _).mp hany
  simp only [Bool.and_eq_true, decide_eq_true_eq] at hfinal
  obtain ⟨hcalled, hhidden, hwalk⟩ := hfinal
  exact ⟨final, maps, hrun, hcalled, hhidden,
    fun hfollows => hhidden (hfollows.screen_iff.mp hwalk)⟩

end VirtualOS
