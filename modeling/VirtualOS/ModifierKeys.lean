import VirtualOS.LineDiscipline
import VirtualOS.ProcessInvariants
import Mathlib.Data.List.GetD
import Mathlib.Tactic

/-!
# The modifier keys over whole streams of scancodes

The handler keeps one flag for each kind of modifier key, which only the scancodes of
these keys change: every other operation of the kernel leaves the four flags alone.
The keyboard itself is described by the keys that are down.  The two Shift keys share a
flag, so that the release of one clears it while the other is held; but for this overlap
the flags tell which keys are down, and a printable key gives the character of the map
that they select.
-/

namespace VirtualOS

open PartialRuns

/-! ## The flags -/

/-- The statics `CTRL_PRESS`, `CAPSLOCK_PRESS`, `SHIFT_PRESS` and `ALT_PRESS`. -/
structure Modifiers where
  ctrlPress : Bool
  capslockPress : Bool
  shiftPress : Bool
  altPress : Bool
  deriving DecidableEq

def Kernel.modifiers (s : Kernel) : Modifiers where
  ctrlPress := s.ctrlPress
  capslockPress := s.capslockPress
  shiftPress := s.shiftPress
  altPress := s.altPress

def Modifiers.clear : Modifiers := ⟨false, false, false, false⟩

def Modifiers.after (flags : Modifiers) (scancode : ℕ) : Modifiers :=
  match scancode with
  | 0x1D => { flags with ctrlPress := true }
  | 0x2A => { flags with shiftPress := true }
  | 0x36 => { flags with shiftPress := true }
  | 0x38 => { flags with altPress := true }
  | 0x3A => { flags with capslockPress := !flags.capslockPress }
  | 0x9D => { flags with ctrlPress := false }
  | 0xAA => { flags with shiftPress := false }
  | 0xB6 => { flags with shiftPress := false }
  | 0xB8 => { flags with altPress := false }
  | _ => flags

/-- The scancodes that reach the handler in an operation. -/
def Op.scancodes : Op → List ℕ
  | .keyboard scancode _ _ => [scancode]
  | _ => []

/-! ## Nothing but the handler touches the flags -/

section Frame

variable {img : Image} {link : Link} {s next : Kernel} {frame : StackFrame}

theorem Kernel.SameOutside.modifiers (hsame : s.SameOutside next) :
    next.modifiers = s.modifiers := by
  obtain ⟨_, _, _, rfl⟩ := hsame
  rfl

theorem modifiers_clear (s : Kernel) : (clear s).modifiers = s.modifiers :=
  (clear_printsOn s).sameOutside.modifiers

theorem modifiers_printLiteral {text : List UInt8} (hprint : printLiteral s text = some next) :
    next.modifiers = s.modifiers :=
  (printLiteral_printsOn hprint).sameOutside.modifiers

theorem modifiers_clearDisplayed (s : Kernel) :
    (clearDisplayed s).modifiers = s.modifiers := by
  unfold clearDisplayed
  exact modifiers_clear _

theorem modifiers_keyboardPrint {scancode : ℕ} (hkey : keyboardPrint s scancode = some next) :
    next.modifiers = s.modifiers := by
  by_cases hchord : s.ctrlPress ∧ keyOf keyboardOriginal scancode = 0x6C
  · unfold keyboardPrint at hkey
    split at hkey
    · exact Option.some.inj hkey ▸ rfl
    · obtain rfl := Option.some.inj hkey
      exact modifiers_clearDisplayed s
  · exact (sameOutside_keyboardPrint hchord hkey).modifiers

theorem sameOutside_keyboardTab (hkey : keyboardTab s = some next) : s.SameOutside next := by
  unfold keyboardTab at hkey
  generalize List.replicate 4 space = blanks at hkey
  induction blanks generalizing s with
  | nil => exact Option.some.inj hkey ▸ .refl s
  | cons c rest ih =>
      obtain ⟨middle, hstep, hrest⟩ := run_cons_eq_some.mp hkey
      obtain ⟨echoed, hput, hpush⟩ := Option.bind_eq_some_iff.mp hstep
      exact ((sameOutside_putc2screen hput).trans (sameOutside_pushKey hpush)).trans (ih hrest)

theorem modifiers_rtcWrite {value : BitVec 32} (hwrite : rtcWrite s value = some next) :
    next.modifiers = s.modifiers := by
  obtain ⟨isPower, _, rfl⟩ := Option.map_eq_some_iff.mp hwrite
  simp only [enableIrq, disableIrq, irqRtc, lt_irrefl, if_false]
  rfl

theorem modifiers_fopsRead {fd : Fin 8} {nbytes : ℕ} {row : Option FileType}
    {result : CallResult} (hread : fopsRead img s fd nbytes row = some result) :
    result.kernel.modifiers = s.modifiers := by
  rcases row with _ | _ | _ | _ | _
  · exact Option.some.inj hread ▸ rfl
  · exact Option.some.inj hread ▸ rfl
  · obtain rfl := Option.some.inj hread
    unfold dirRead
    split
    · rfl
    · split <;> rfl
  · exact Option.some.inj hread ▸ rfl
  · obtain ⟨⟨s', bytes⟩, hline, rfl⟩ := Option.map_eq_some_iff.mp hread
    exact (sameOutside_terminalRead hline).modifiers

theorem modifiers_read {fd nbytes : ℤ} {buf : UserPointer} {result : CallResult}
    (hread : read img s fd buf nbytes = some result) :
    result.kernel.modifiers = s.modifiers := by
  unfold read at hread
  split at hread
  · split at hread
    · exact Option.some.inj hread ▸ rfl
    · split at hread
      · exact Option.some.inj hread ▸ rfl
      · exact modifiers_fopsRead hread
  · exact Option.some.inj hread ▸ rfl

theorem modifiers_fopsWrite {buf : ℕ → UInt8} {nbytes : ℕ} {row : Option FileType}
    {result : CallResult} (hwrite : fopsWrite s buf nbytes row = some result) :
    result.kernel.modifiers = s.modifiers := by
  rcases row with _ | _ | _ | _ | _
  · exact Option.some.inj hwrite ▸ rfl
  · obtain ⟨rated, hrate, rfl⟩ := Option.map_eq_some_iff.mp hwrite
    exact modifiers_rtcWrite hrate
  · exact Option.some.inj hwrite ▸ rfl
  · exact Option.some.inj hwrite ▸ rfl
  · obtain ⟨printed, hprint, rfl⟩ := Option.map_eq_some_iff.mp hwrite
    exact modifiers_printLiteral hprint

theorem modifiers_write {fd nbytes : ℤ} {buf : UserPointer} {result : CallResult}
    (hwrite : write s fd buf nbytes = some result) :
    result.kernel.modifiers = s.modifiers := by
  unfold write at hwrite
  split at hwrite
  · split at hwrite
    · exact Option.some.inj hwrite ▸ rfl
    · exact modifiers_fopsWrite hwrite
  · exact Option.some.inj hwrite ▸ rfl

theorem modifiers_openByType {fd : Fin 8} {dentry : Dentry}
    (hopen : openByType s fd dentry = some next) : next.modifiers = s.modifiers := by
  unfold openByType at hopen
  split_ifs at hopen
  · obtain ⟨rated, hrate, rfl⟩ := Option.map_eq_some_iff.mp hopen
    have hrated : rated.modifiers = s.modifiers := modifiers_rtcWrite hrate
    exact hrated
  all_goals exact Option.some.inj hopen ▸ rfl

theorem modifiers_openFile {filename : Option (List UInt8)} {result : CallResult}
    (hopen : openFile img s filename = some result) :
    result.kernel.modifiers = s.modifiers := by
  unfold openFile at hopen
  split at hopen
  · exact Option.some.inj hopen ▸ rfl
  · split at hopen
    · exact Option.some.inj hopen ▸ rfl
    · obtain ⟨opened, htype, rfl⟩ := Option.map_eq_some_iff.mp hopen
      have hopened : opened.modifiers = s.modifiers := modifiers_openByType htype
      exact hopened

theorem modifiers_close (s : Kernel) (fd : ℤ) : (close s fd).kernel.modifiers = s.modifiers := by
  unfold close
  split
  · rfl
  · split_ifs
    · rfl
    · rfl
    · dsimp only
      split <;> rfl

theorem modifiers_execute {command : Option (List UInt8)} {execution : Execution}
    (hexecute : execute img s command frame = some execution) :
    execution.kernel.modifiers = s.modifiers := by
  obtain ⟨_, rfl⟩ | ⟨line, _, ⟨_, printed, hprint, rfl⟩ | ⟨num, _, hcommit⟩⟩ :=
    execute_eq_some hexecute
  · rfl
  · have hprinted : printed.modifiers = (loadCurrentProcess s).modifiers :=
      modifiers_printLiteral hprint
    exact hprinted
  · obtain ⟨-, ⟨_, rfl⟩ | ⟨dentry, _, _, rfl⟩⟩ := executeCommit_eq_some hcommit
    · rfl
    · rfl

theorem modifiers_haltCleanFds (pcbPtr : BitVec 32) (fds : List (Fin 8)) (s : Kernel) :
    (haltCleanFds pcbPtr fds s).kernel.modifiers = s.modifiers := by
  induction fds generalizing s with
  | nil => rfl
  | cons fd rest ih =>
      have hfirst : (haltCleanFd s pcbPtr fd).kernel.modifiers = s.modifiers := by
        unfold haltCleanFd
        split
        · exact modifiers_close s _
        · rfl
      unfold haltCleanFds
      cases hclean : haltCleanFd s pcbPtr fd with
      | returned value bytes s' =>
          rw [hclean] at hfirst
          exact (ih s').trans hfirst
      | pageFault s' =>
          rw [hclean] at hfirst
          exact hfirst

theorem modifiers_haltRestore {again : Kernel → Option Halting} {status : BitVec 32}
    {halting : Halting}
    (hagain : ∀ faulted, again faulted = some halting →
      halting.answer.1.modifiers = faulted.modifiers)
    (hrestore : haltRestore again s status = some halting) :
    halting.answer.1.modifiers = s.modifiers := by
  have hclean := modifiers_haltCleanFds s.pcbPtr openSlots
    (haltRestorePage (haltRestoreNum s s.pcbPtr))
  unfold haltRestore at hrestore
  dsimp only at hrestore
  split at hrestore
  · rename_i hend
    rw [hend] at hclean
    obtain rfl := Option.some.inj hrestore
    exact hclean
  · rename_i faulted hend
    rw [hend] at hclean
    exact (hagain faulted hrestore).trans hclean

theorem modifiers_haltFuel {fuel : ℕ} {status : BitVec 32} {halting : Halting}
    (hhalt : haltFuel img frame fuel s status = some halting) :
    halting.answer.1.modifiers = s.modifiers := by
  induction fuel generalizing s status with
  | zero => contradiction
  | succ fuel ih =>
      have hagain : ∀ faulted, ((printLiteral faulted pageFaultText).bind fun printed =>
          haltFuel img frame fuel printed 256) = some halting →
            halting.answer.1.modifiers = faulted.modifiers := by
        intro faulted hfault
        obtain ⟨printed, hprint, hrest⟩ := Option.bind_eq_some_iff.mp hfault
        exact (ih hrest).trans (modifiers_printLiteral hprint)
      unfold haltFuel at hhalt
      dsimp only at hhalt
      split at hhalt
      · obtain ⟨execution, hexecute, hlast⟩ := Option.bind_eq_some_iff.mp hhalt
        have hshell := modifiers_execute hexecute
        cases execution with
        | returned value s' => exact (modifiers_haltRestore hagain hlast).trans hshell
        | started s' entry image =>
            obtain rfl := Option.some.inj hlast
            exact hshell
      · have hreleased : (haltRelease s).modifiers = s.modifiers := rfl
        exact (modifiers_haltRestore hagain hhalt).trans hreleased

theorem modifiers_excHandler {exc : Exc} {halting : Halting}
    (hexc : excHandler img s exc frame = some halting) :
    halting.answer.1.modifiers = s.modifiers := by
  obtain ⟨printed, hprint, hhalt⟩ := Option.bind_eq_some_iff.mp hexc
  refine ((modifiers_haltFuel hhalt).trans (modifiers_printLiteral hprint)).trans ?_
  split
  · rfl
  · exact modifiers_clear s

theorem modifiers_answer {result : CallResult} {final : Kernel × Answer}
    (hanswer : result.answer img frame = some final) :
    final.1.modifiers = result.kernel.modifiers := by
  cases result with
  | returned value bytes s' => exact Option.some.inj hanswer ▸ rfl
  | pageFault s' =>
      obtain ⟨halting, hexc, rfl⟩ := Option.map_eq_some_iff.mp hanswer
      exact modifiers_excHandler hexc

theorem modifiers_pitHandler (link : Link) (s : Kernel) (cpu : Cpu) :
    (pitHandler link s cpu).1.modifiers = s.modifiers := by
  unfold pitHandler mapVidmap
  split
  · rfl
  · dsimp only
    split <;> rfl

theorem modifiers_switchTerminal {newTerminal : Fin 3} {cpu : Cpu}
    (hswitch : switchTerminal img s newTerminal cpu frame = some next) :
    next.modifiers = s.modifiers := by
  unfold switchTerminal at hswitch
  dsimp only at hswitch
  split at hswitch
  · obtain ⟨execution, hexecute, hnext⟩ := Option.map_eq_some_iff.mp hswitch
    have hshell := (modifiers_execute hexecute).trans (modifiers_clear _)
    cases execution with
    | returned value s' => exact hnext ▸ hshell
    | started s' entry image => exact hnext ▸ hshell
  · exact Option.some.inj hswitch ▸ rfl

theorem modifiers_altSwitch {newTerminal : Fin 3} {cpu : Cpu}
    (hswitch : altSwitch img s newTerminal cpu frame = some next) :
    next.modifiers = s.modifiers := by
  unfold altSwitch at hswitch
  split at hswitch
  · exact modifiers_switchTerminal hswitch
  · exact Option.some.inj hswitch ▸ rfl

theorem modifiers_keyboardHandler {scancode : ℕ} {cpu : Cpu}
    (hkey : keyboardHandler img s scancode cpu frame = some next) :
    next.modifiers = s.modifiers.after scancode := by
  unfold keyboardHandler at hkey
  split at hkey
  case h_10 | h_11 | h_12 => exact modifiers_altSwitch hkey
  case h_13 => exact (sameOutside_keyboardTab hkey).modifiers
  case h_14 => exact (sameOutside_keyboardBackspace hkey).modifiers
  case h_15 => exact (sameOutside_keyboardEnter hkey).modifiers
  case h_16 =>
    rw [modifiers_keyboardPrint hkey]
    unfold Modifiers.after
    split <;> first | rfl | contradiction
  all_goals exact Option.some.inj hkey ▸ rfl

theorem step_modifiers {op : Op} (hstep : step img link s op = some next) :
    next.modifiers = op.scancodes.foldl Modifiers.after s.modifiers := by
  obtain ⟨final, hperform, rfl⟩ := Option.map_eq_some_iff.mp hstep
  cases op with
  | execute command frame =>
      obtain ⟨execution, hexecute, rfl⟩ := Option.map_eq_some_iff.mp hperform
      have hkept := modifiers_execute hexecute
      cases execution <;> exact hkept
  | halt status frame =>
      obtain ⟨halting, hhalt, rfl⟩ := Option.map_eq_some_iff.mp hperform
      exact modifiers_haltFuel hhalt
  | read fd buf nbytes frame =>
      obtain ⟨result, hread, hanswer⟩ := Option.bind_eq_some_iff.mp hperform
      exact (modifiers_answer hanswer).trans (modifiers_read hread)
  | write fd buf nbytes frame =>
      obtain ⟨result, hwrite, hanswer⟩ := Option.bind_eq_some_iff.mp hperform
      exact (modifiers_answer hanswer).trans (modifiers_write hwrite)
  | openFile filename =>
      obtain ⟨result, hopen, hanswer⟩ := Option.bind_eq_some_iff.mp hperform
      cases result with
      | returned value bytes s' =>
          obtain rfl := Option.some.inj hanswer
          exact modifiers_openFile hopen
      | pageFault s' => contradiction
  | close fd frame => exact (modifiers_answer hperform).trans (modifiers_close s fd)
  | getargs buf nbytes => exact Option.some.inj hperform ▸ rfl
  | vidmap screenStart =>
      obtain rfl := Option.some.inj hperform
      unfold vidmap
      dsimp only
      split <;> rfl
  | exception exc frame =>
      obtain ⟨halting, hexc, rfl⟩ := Option.map_eq_some_iff.mp hperform
      exact modifiers_excHandler hexc
  | pit cpu =>
      obtain rfl := Option.some.inj hperform
      exact modifiers_pitHandler link s cpu
  | keyboard scancode cpu frame =>
      obtain ⟨s', hkey, rfl⟩ := Option.map_eq_some_iff.mp hperform
      exact modifiers_keyboardHandler hkey
  | switchTerminal newTerminal cpu frame =>
      obtain ⟨s', hswitch, rfl⟩ := Option.map_eq_some_iff.mp hperform
      exact modifiers_switchTerminal hswitch
  | rtcInterrupt => exact Option.some.inj hperform ▸ rfl

end Frame

def keyStream (ops : List Op) : List ℕ := ops.flatMap Op.scancodes

theorem run_modifiers {img : Image} {link : Link} {s final : Kernel} {ops : List Op}
    (hrun : run (step img link) s ops = some final) :
    final.modifiers = (keyStream ops).foldl Modifiers.after s.modifiers := by
  induction ops generalizing s with
  | nil => exact Option.some.inj hrun ▸ rfl
  | cons op rest ih =>
      obtain ⟨next, hstep, hrest⟩ := run_cons_eq_some.mp hrun
      unfold keyStream
      rw [List.flatMap_cons, List.foldl_append, ← step_modifiers hstep]
      exact ih hrest

/-! ## The keys of the keyboard -/

/-- A keyboard: which modifier keys are down, and the parity of the presses of Caps Lock. -/
structure Held where
  shiftL : Bool
  shiftR : Bool
  ctrl : Bool
  alt : Bool
  caps : Bool
  /-- The last scancode of a Shift key was a release with the other Shift key down. -/
  overlap : Bool
  deriving DecidableEq

namespace Held

def released : Held := ⟨false, false, false, false, false, false⟩

def shift (held : Held) : Bool := held.shiftL || held.shiftR

def after (held : Held) (scancode : ℕ) : Held :=
  match scancode with
  | 0x1D => { held with ctrl := true }
  | 0x2A => { held with shiftL := true, overlap := false }
  | 0x36 => { held with shiftR := true, overlap := false }
  | 0x38 => { held with alt := true }
  | 0x3A => { held with caps := !held.caps }
  | 0x9D => { held with ctrl := false }
  | 0xAA => { held with shiftL := false, overlap := held.shiftR }
  | 0xB6 => { held with shiftR := false, overlap := held.shiftL }
  | 0xB8 => { held with alt := false }
  | _ => held

/-- Only a key that is up is pressed, and only a key that is down is released. -/
def Admits (held : Held) (scancode : ℕ) : Prop :=
  match scancode with
  | 0x1D => held.ctrl = false
  | 0x9D => held.ctrl = true
  | 0x2A => held.shiftL = false
  | 0xAA => held.shiftL = true
  | 0x36 => held.shiftR = false
  | 0xB6 => held.shiftR = true
  | 0x38 => held.alt = false
  | 0xB8 => held.alt = true
  | _ => True

instance (held : Held) (scancode : ℕ) : Decidable (held.Admits scancode) := by
  unfold Admits
  split <;> infer_instance

end Held

def heldAfter (codes : List ℕ) : Held := codes.foldl Held.after .released

/-- The presses and releases of each modifier key alternate. -/
def Physical (codes : List ℕ) : Prop :=
  Meets (fun held scancode => some (Held.after held scancode)) Held.Admits .released codes

instance (codes : List ℕ) : Decidable (Physical codes) := by
  unfold Physical
  infer_instance

/-- The flags tell what is held.  An overlap leaves the flag of Shift cleared. -/
structure Reflects (flags : Modifiers) (held : Held) : Prop where
  ctrl : flags.ctrlPress = held.ctrl
  caps : flags.capslockPress = held.caps
  alt : flags.altPress = held.alt
  shift : flags.shiftPress = (held.shift && !held.overlap)

namespace Reflects

variable {flags : Modifiers} {held : Held}

/-- A press of a Shift key ends an overlap, and the release of one begins an overlap
exactly if the other stays down. -/
theorem after (hreflects : Reflects flags held) (scancode : ℕ) :
    Reflects (flags.after scancode) (held.after scancode) := by
  obtain ⟨hctrl, hcaps, halt, hshift⟩ := hreflects
  unfold Modifiers.after
  split
  case h_1 | h_6 => exact ⟨rfl, hcaps, halt, hshift⟩
  case h_4 | h_9 => exact ⟨hctrl, hcaps, rfl, hshift⟩
  case h_5 => exact ⟨hctrl, congrArg not hcaps, halt, hshift⟩
  case h_2 | h_3 => exact ⟨hctrl, hcaps, halt, by simp [Held.after, Held.shift]⟩
  case h_7 | h_8 => exact ⟨hctrl, hcaps, halt, by simp [Held.after, Held.shift]⟩
  case h_10 =>
    have hsame : held.after scancode = held := by
      unfold Held.after
      split <;> first | rfl | contradiction
    rw [hsame]
    exact ⟨hctrl, hcaps, halt, hshift⟩

theorem foldl (hreflects : Reflects flags held) (codes : List ℕ) :
    Reflects (codes.foldl Modifiers.after flags) (codes.foldl Held.after held) := by
  induction codes generalizing flags held with
  | nil => exact hreflects
  | cons scancode rest ih => exact ih (hreflects.after scancode)

end Reflects

/-! ## Printable keys -/

/-- The keyboard map for the state of Caps Lock and of Shift. -/
def mapFor (caps shift : Bool) : List UInt8 :=
  match caps, shift with
  | true, false => keyboardCapslock
  | false, true => keyboardShift
  | true, true => keyboardCapsshift
  | false, false => keyboardOriginal

theorem activeMap_eq (s : Kernel) : activeMap s = mapFor s.capslockPress s.shiftPress := by
  unfold activeMap
  cases s.capslockPress <;> cases s.shiftPress <;> rfl

/-- The scancode of a key with a printable character. -/
def Printable (scancode : ℕ) : Prop :=
  space ≤ keyOf keyboardOriginal scancode ∧ keyOf keyboardOriginal scancode < 0x7F

instance (scancode : ℕ) : Decidable (Printable scancode) := by
  unfold Printable
  infer_instance

theorem Printable.lt {scancode : ℕ} (hprintable : Printable scancode) : scancode < 0x60 := by
  by_contra hbeyond
  have hlength : keyboardOriginal.length ≤ 0x60 := by decide
  have hzero : keyOf keyboardOriginal scancode = 0 :=
    List.getD_eq_default _ _ (hlength.trans (not_lt.mp hbeyond))
  unfold Printable at hprintable
  rw [hzero] at hprintable
  exact absurd hprintable (by decide)

theorem Printable.keyOf_ne_zero {scancode : ℕ} (hprintable : Printable scancode)
    (caps shift : Bool) : keyOf (mapFor caps shift) scancode ≠ 0 := by
  have hmaps : ∀ code < 0x60, Printable code →
      ∀ caps shift : Bool, keyOf (mapFor caps shift) code ≠ 0 := by decide +kernel
  exact hmaps scancode hprintable.lt hprintable caps shift

theorem Printable.keyboardHandler {scancode : ℕ} (hprintable : Printable scancode)
    (img : Image) (s : Kernel) (cpu : Cpu) (frame : StackFrame) :
    keyboardHandler img s scancode cpu frame = keyboardPrint s scancode := by
  unfold VirtualOS.keyboardHandler
  split
  case h_16 => rfl
  all_goals exact absurd hprintable (by decide)

theorem Printable.step {scancode : ℕ} (hprintable : Printable scancode) (img : Image)
    (link : Link) (s : Kernel) (cpu : Cpu) (frame : StackFrame) :
    step img link s (.keyboard scancode cpu frame) = VirtualOS.keyboardPrint s scancode := by
  rw [← hprintable.keyboardHandler img s cpu frame]
  unfold VirtualOS.step perform
  rw [Option.map_map]
  exact Option.map_id'

/-- The displayed terminal has room for a character and a newline behind it. -/
def Kernel.BufferHasRoom (s : Kernel) : Prop :=
  (s.terminalT s.terminalDisplayed).numBuf < keyboardBufSize - 1

theorem Printable.keyboardPrint {scancode : ℕ} {s : Kernel} (hprintable : Printable scancode)
    (hroom : s.BufferHasRoom)
    (hplain : ¬ (s.ctrlPress ∧ keyOf keyboardOriginal scancode = 0x6C)) :
    keyboardPrint s scancode =
      (putc2screen s (keyOf (mapFor s.capslockPress s.shiftPress) scancode)).bind fun shown =>
        pushKey shown (keyOf (mapFor s.capslockPress s.shiftPress) scancode) := by
  have hkept : ∀ shown, putc2screen s (keyOf (activeMap s) scancode) = some shown →
      activeMap shown = activeMap s := by
    intro shown hput
    obtain ⟨_, _, _, rfl⟩ := sameOutside_putc2screen hput
    rfl
  rw [← activeMap_eq]
  have hchar : keyOf (activeMap s) scancode ≠ 0 := by
    rw [activeMap_eq]
    exact hprintable.keyOf_ne_zero _ _
  unfold VirtualOS.keyboardPrint
  rw [if_neg (not_le.mpr hprintable.lt), if_neg hplain, if_neg (not_le.mpr hroom), if_pos hchar]
  cases hput : putc2screen s (keyOf (activeMap s) scancode) with
  | none => rfl
  | some shown => rw [Option.bind_some, Option.bind_some, hkept shown hput]

theorem step_chord {img : Image} {link : Link} {s : Kernel} {scancode : ℕ}
    (hctrl : s.ctrlPress = true) (hkey : keyOf keyboardOriginal scancode = 0x6C)
    (cpu : Cpu) (frame : StackFrame) :
    step img link s (.keyboard scancode cpu frame) = some (clearDisplayed s) := by
  have hprintable : Printable scancode := by
    unfold Printable
    rw [hkey]
    decide
  rw [hprintable.step]
  unfold keyboardPrint
  rw [if_neg (not_le.mpr hprintable.lt), if_pos ⟨hctrl, hkey⟩]

/-! ## The keyboard and the kernel -/

/-- Ctrl is held and the key is L: the chord that clears the screen. -/
def Held.Clears (held : Held) (scancode : ℕ) : Prop :=
  held.ctrl = true ∧ keyOf keyboardOriginal scancode = 0x6C

def Held.character (held : Held) (scancode : ℕ) : UInt8 :=
  keyOf (mapFor held.caps held.shift) scancode

/-- The flags show the keys that are held, and a printable key is echoed and stored as the
character for these, or clears the screen. -/
structure Kernel.Obeys (img : Image) (link : Link) (s : Kernel) (held : Held) : Prop where
  ctrl : s.ctrlPress = held.ctrl
  alt : s.altPress = held.alt
  shift : held.overlap = false → s.shiftPress = held.shift
  typed : ∀ scancode cpu frame, Printable scancode → s.BufferHasRoom →
    held.overlap = false → ¬ held.Clears scancode →
      step img link s (.keyboard scancode cpu frame) =
        (putc2screen s (held.character scancode)).bind fun shown =>
          pushKey shown (held.character scancode)
  cleared : ∀ scancode cpu frame, held.Clears scancode →
    step img link s (.keyboard scancode cpu frame) = some (clearDisplayed s)

/-- Whatever the kernel does between the keys, after every stream of scancodes it obeys the
keyboard.  That presses and releases alternate is not even needed. -/
theorem kernel_obeys_keyboard {img : Image} {link : Link} {s final : Kernel} {ops : List Op}
    (hclear : s.modifiers = .clear) (hrun : run (step img link) s ops = some final) :
    final.Obeys img link (heldAfter (keyStream ops)) := by
  have hreflects : Reflects final.modifiers (heldAfter (keyStream ops)) := by
    rw [run_modifiers hrun, hclear]
    exact Reflects.foldl ⟨rfl, rfl, rfl, rfl⟩ _
  generalize heldAfter (keyStream ops) = held at hreflects ⊢
  have hshift : held.overlap = false → final.shiftPress = held.shift := by
    intro hoverlap
    have hflag := hreflects.shift
    rw [hoverlap, Bool.not_false, Bool.and_true] at hflag
    exact hflag
  have hctrl : final.ctrlPress = held.ctrl := hreflects.ctrl
  have hcaps : final.capslockPress = held.caps := hreflects.caps
  refine ⟨hctrl, hreflects.alt, hshift, ?_, ?_⟩
  · intro scancode cpu frame hprintable hroom hoverlap hplain
    unfold Held.Clears at hplain
    unfold Held.character
    rw [← hctrl] at hplain
    rw [← hcaps, ← hshift hoverlap, hprintable.step, hprintable.keyboardPrint hroom hplain]
  · intro scancode cpu frame hclears
    exact step_chord (hctrl.trans hclears.1) hclears.2 cpu frame

def strokes (codes : List ℕ) : List Op :=
  codes.map fun scancode => .keyboard scancode ⟨0, 0⟩ zeroFrame

/-- Shift is held while a letter is typed. -/
theorem kernel_obeys_keyboard_letter : ∃ final,
    run (step smallImage zeroLink) shellKernel (strokes [0x2A, 0x1E, 0xAA]) = some final ∧
      final.Obeys smallImage zeroLink (heldAfter (keyStream (strokes [0x2A, 0x1E, 0xAA]))) := by
  have hsome : (run (step smallImage zeroLink) shellKernel
      (strokes [0x2A, 0x1E, 0xAA])).isSome = true := by decide +kernel
  obtain ⟨final, hrun⟩ := Option.isSome_iff_exists.mp hsome
  exact ⟨final, hrun, kernel_obeys_keyboard rfl hrun⟩

/-- With the left Shift key released and the right one still down, the flag is cleared and
the letter A is stored in lower case.  With Ctrl held, the letter L is not stored. -/
theorem overlap_and_chord :
    (Physical [0x2A, 0x36, 0xAA] ∧ (heldAfter [0x2A, 0x36, 0xAA]).shift = true ∧
      ∃ held next, run (step smallImage zeroLink) shellKernel
          (strokes [0x2A, 0x36, 0xAA]) = some held ∧ held.shiftPress = false ∧
        step smallImage zeroLink held (.keyboard 0x1E ⟨0, 0⟩ zeroFrame) = some next ∧
        (next.terminalT 0).keyBuf 0 = 0x61) ∧
    (Physical [0x1D] ∧ Printable 0x26 ∧
      ∃ held next, run (step smallImage zeroLink) shellKernel (strokes [0x1D]) = some held ∧
        held.BufferHasRoom ∧
        step smallImage zeroLink held (.keyboard 0x26 ⟨0, 0⟩ zeroFrame) = some next ∧
        (next.terminalT 0).numBuf = 0) := by
  refine ⟨⟨by decide, by decide, ?_⟩, ⟨by decide, by decide +kernel, ?_⟩⟩
  · have hany : (run (step smallImage zeroLink) shellKernel
        (strokes [0x2A, 0x36, 0xAA])).any (fun held => !held.shiftPress &&
          (step smallImage zeroLink held (.keyboard 0x1E ⟨0, 0⟩ zeroFrame)).any fun next =>
            decide ((next.terminalT 0).keyBuf 0 = 0x61)) = true := by decide +kernel
    obtain ⟨held, hrun, hboth⟩ := (Option.any_eq_true _ _).mp hany
    obtain ⟨hflag, htyped⟩ := Bool.and_eq_true_iff.mp hboth
    obtain ⟨next, hstep, hstored⟩ := (Option.any_eq_true _ _).mp htyped
    exact ⟨held, next, hrun, by simpa using hflag, hstep, of_decide_eq_true hstored⟩
  · refine ⟨{ shellKernel with ctrlPress := true },
      clearDisplayed { shellKernel with ctrlPress := true }, rfl, ?_, ?_, ?_⟩
    · unfold Kernel.BufferHasRoom
      decide
    · exact step_chord rfl (by decide +kernel) _ _
    · rfl

end VirtualOS
