import VirtualOS.StandaloneConsole
import VirtualOS.ProcessInvariants
import Mathlib.Tactic

/-!
# The terminals are independent consoles

The kernel keeps one page for the displayed terminal and one buffer for each of
the others, with two routines for output.  This file reads the three consoles
off a state and shows that every operation feeds one of them and leaves the
other two alone, so that each terminal goes through the states of a console
that is fed with the operations addressed to it.
-/

namespace VirtualOS

open PartialRuns

/-! ## The consoles of a state -/

def Terminal.console (term : Terminal) (screen : Screen) : Console where
  screen := screen
  screenX := term.screenX
  screenY := term.screenY
  startLinePtr := term.startLinePtr
  keyBuf := term.keyBuf
  numBuf := term.numBuf
  bufFlag := term.bufFlag

namespace Kernel

/-- The page of a terminal: the text page of the hardware for the terminal that
is displayed. -/
def logicalScreen (s : Kernel) (t : Fin 3) : Screen :=
  if t = s.terminalDisplayed then s.videoMem else (s.terminalT t).videoMemory

def consoles (s : Kernel) (t : Fin 3) : Console :=
  (s.terminalT t).console (s.logicalScreen t)

end Kernel

/-- The consoles after a partial function on the console `t`. -/
def act (consoles : Fin 3 → Console) (t : Fin 3) (f : Console → Option Console) :
    Option (Fin 3 → Console) :=
  (f (consoles t)).map (Function.update consoles t)

/-- The consoles after operations on the console `t`. -/
def feed (consoles : Fin 3 → Console) (t : Fin 3) (ops : List ConsoleOp) :
    Option (Fin 3 → Console) :=
  act consoles t fun console => run consoleStep console ops

theorem act_some (consoles : Fin 3 → Console) (t : Fin 3) :
    act consoles t some = some consoles := by
  simp [act]

theorem act_bind (consoles : Fin 3 → Console) (t : Fin 3) (f g : Console → Option Console) :
    act consoles t (fun console => (f console).bind g) =
      (act consoles t f).bind fun next => act next t g := by
  unfold act
  cases hfirst : f (consoles t) with
  | none => simp [hfirst]
  | some console =>
      have hupdate : Function.update (Function.update consoles t console) t =
          Function.update consoles t := by
        funext other
        exact Function.update_idem ..
      simp [hfirst, hupdate]

theorem act_ite (consoles : Fin 3 → Console) (t : Fin 3) (p : Console → Prop)
    [DecidablePred p] (f g : Console → Option Console) :
    act consoles t (fun console => if p console then f console else g console) =
      if p (consoles t) then act consoles t f else act consoles t g := by
  unfold act
  by_cases hp : p (consoles t)
  · simp [hp]
  · simp [hp]

theorem consoles_bind
    {first : Option Kernel} {second : Kernel → Option Kernel}
    {consoles : Fin 3 → Console} {t : Fin 3} {f g : Console → Option Console}
    (hfirst : first.map Kernel.consoles = act consoles t f)
    (hsecond : ∀ middle, first = some middle →
      (second middle).map Kernel.consoles = act middle.consoles t g) :
    (first.bind second).map Kernel.consoles =
      act consoles t fun console => (f console).bind g := by
  rw [act_bind, ← hfirst]
  cases hstep : first with
  | none => rfl
  | some middle => exact hsecond middle hstep

theorem consoles_map
    {first : Option Kernel} {second : Kernel → Kernel}
    {consoles : Fin 3 → Console} {t : Fin 3} {f : Console → Option Console}
    {g : Console → Console}
    (hfirst : first.map Kernel.consoles = act consoles t f)
    (hsecond : ∀ middle, first = some middle →
      (second middle).consoles = Function.update middle.consoles t (g (middle.consoles t))) :
    (first.map second).map Kernel.consoles = act consoles t fun console => (f console).map g := by
  simp only [Option.map_eq_bind]
  rw [← Option.map_eq_bind]
  apply consoles_bind hfirst
  intro middle hstep
  exact congrArg some (hsecond middle hstep)

theorem feed_nil (consoles : Fin 3 → Console) (t : Fin 3) :
    feed consoles t [] = some consoles :=
  act_some consoles t

theorem feed_singleton (consoles : Fin 3 → Console) (t : Fin 3) (op : ConsoleOp) :
    feed consoles t [op] = act consoles t fun console => consoleStep console op := by
  simp [feed]

theorem feed_append (consoles : Fin 3 → Console) (t : Fin 3) (first second : List ConsoleOp) :
    feed consoles t (first ++ second) =
      (feed consoles t first).bind fun next => feed next t second := by
  simp only [feed, run_append]
  exact act_bind consoles t _ _

/-! ## Changes of one terminal -/

@[simp] theorem consoles_drawCursor (s : Kernel) : s.drawCursor.consoles = s.consoles := rfl

theorem consoles_modifyTerminal
    {s : Kernel} {t : Fin 3} {f : Terminal → Terminal} (g : Console → Console)
    (hvideo : (f (s.terminalT t)).videoMemory = (s.terminalT t).videoMemory)
    (hconsole : ∀ screen,
      (f (s.terminalT t)).console screen = g ((s.terminalT t).console screen)) :
    (s.modifyTerminal t f).consoles = Function.update s.consoles t (g (s.consoles t)) := by
  funext u
  by_cases hut : u = t
  · subst hut
    simp [Kernel.consoles, Kernel.logicalScreen, Kernel.modifyTerminal, hvideo, hconsole]
  · simp [Kernel.consoles, Kernel.logicalScreen, Kernel.modifyTerminal, hut]

theorem consoles_modifyTerminal_hidden
    {s : Kernel} {t : Fin 3} {f : Terminal → Terminal} (hhidden : t ≠ s.terminalDisplayed) :
    (s.modifyTerminal t f).consoles =
      Function.update s.consoles t
        ((f (s.terminalT t)).console (f (s.terminalT t)).videoMemory) := by
  funext u
  by_cases hut : u = t
  · subst hut
    simp [Kernel.consoles, Kernel.logicalScreen, Kernel.modifyTerminal, hhidden]
  · simp [Kernel.consoles, Kernel.logicalScreen, Kernel.modifyTerminal, hut]

theorem consoles_set_videoMem (s : Kernel) (videoMem : Screen) :
    { s with videoMem := videoMem }.consoles =
      Function.update s.consoles s.terminalDisplayed
        { s.consoles s.terminalDisplayed with screen := videoMem } := by
  funext u
  by_cases hut : u = s.terminalDisplayed
  · subst hut
    simp [Kernel.consoles, Kernel.logicalScreen, Terminal.console]
  · simp [Kernel.consoles, Kernel.logicalScreen, hut]

theorem consoles_displayed (s : Kernel) :
    s.consoles s.terminalDisplayed = (s.terminalT s.terminalDisplayed).console s.videoMem := by
  simp [Kernel.consoles, Kernel.logicalScreen]

theorem consoles_hidden {s : Kernel} {t : Fin 3} (hhidden : t ≠ s.terminalDisplayed) :
    s.consoles t = (s.terminalT t).console (s.terminalT t).videoMemory := by
  simp [Kernel.consoles, Kernel.logicalScreen, hhidden]

/-! ## Output -/

section Cursor

variable (term : Terminal) (screen : Screen)

theorem Terminal.console_stepBack :
    term.stepBack.console screen = (term.console screen).stepBack := by
  unfold Terminal.stepBack Console.stepBack
  by_cases hx : term.screenX = 0
  · simp [Terminal.console, hx]
  · simp [Terminal.console, hx]

theorem Terminal.console_advance :
    term.advance.console screen = (term.console screen).advance := by
  unfold Terminal.advance Console.advance
  by_cases hx : term.screenX + 1 ≥ numCols
  · simp [Terminal.console, hx]
  · simp [Terminal.console, hx]

theorem Terminal.stepBack_videoMemory : term.stepBack.videoMemory = term.videoMemory := by
  unfold Terminal.stepBack
  split <;> rfl

theorem Terminal.advance_videoMemory : term.advance.videoMemory = term.videoMemory := by
  unfold Terminal.advance
  split <;> rfl

end Cursor

theorem consoles_scroll2screen (s : Kernel) :
    (scroll2screen s).consoles =
      Function.update s.consoles s.terminalDisplayed
        (s.consoles s.terminalDisplayed).scrolled := by
  have hrow : (s.consoles s.terminalDisplayed).screenY =
      (s.terminalT s.terminalDisplayed).screenY := rfl
  unfold scroll2screen Console.scrolled
  rw [hrow]
  by_cases hbottom : (s.terminalT s.terminalDisplayed).screenY = numRows
  · rw [if_pos hbottom, if_pos hbottom]
    have hmod := consoles_modifyTerminal (s := { s with videoMem := s.videoMem.scroll })
      (t := s.terminalDisplayed) (f := Terminal.scrollUp)
      (fun console => { console with
        screenY := console.screenY - 1
        startLinePtr := console.startLinePtr - BitVec.ofInt 32 numCols }) rfl (fun _ => rfl)
    rw [hmod, consoles_set_videoMem]
    simp [consoles_displayed, Terminal.console]
  · rw [if_neg hbottom, if_neg hbottom, Function.update_eq_self]

theorem consoles_store2screen (s : Kernel) (f : Terminal → Terminal) (g : Console → Console)
    (hvideo : (f (s.terminalT s.terminalDisplayed)).videoMemory =
      (s.terminalT s.terminalDisplayed).videoMemory)
    (hconsole : ∀ screen, (f (s.terminalT s.terminalDisplayed)).console screen =
      g ((s.terminalT s.terminalDisplayed).console screen)) (videoMem : Screen) :
    (scroll2screen ({ s with videoMem := videoMem }.modifyTerminal
        s.terminalDisplayed f)).drawCursor.consoles =
      Function.update s.consoles s.terminalDisplayed
        (g { s.consoles s.terminalDisplayed with screen := videoMem }).scrolled := by
  have hmod := consoles_modifyTerminal (s := { s with videoMem := videoMem })
    (t := s.terminalDisplayed) (f := f) g hvideo hconsole
  rw [consoles_drawCursor, consoles_scroll2screen]
  have hdisplayed : ({ s with videoMem := videoMem }.modifyTerminal
      s.terminalDisplayed f).terminalDisplayed = s.terminalDisplayed := rfl
  rw [hdisplayed, hmod, consoles_set_videoMem]
  simp

theorem Console.stepBack_set_screen (console : Console) (screen : Screen) :
    { console with screen := screen }.stepBack = { console.stepBack with screen := screen } := by
  unfold Console.stepBack
  by_cases hx : console.screenX = 0
  · simp [hx]
  · simp [hx]

theorem Console.stepBack_screen (console : Console) :
    console.stepBack.screen = console.screen := by
  unfold Console.stepBack
  split <;> rfl

theorem Terminal.position_stepBack (term : Terminal) (screen : Screen) :
    term.stepBack.position = (term.console screen).stepBack.position := by
  rw [← Terminal.console_stepBack]
  rfl

theorem Terminal.console_position (term : Terminal) (screen : Screen) :
    (term.console screen).position = term.screenY * numCols + term.screenX := by
  rw [Int.mul_comm]
  rfl

theorem consoles_putc2screen (s : Kernel) (c : UInt8) :
    (putc2screen s c).map Kernel.consoles =
      act s.consoles s.terminalDisplayed (·.put c) := by
  unfold act putc2screen Console.put
  dsimp only
  by_cases hline : c = newline ∨ c = carriageReturn
  · rw [if_pos hline, if_pos hline, Option.map_some, Option.map_some]
    have hstore := consoles_store2screen s Terminal.newLine Console.newLine rfl
      (fun _ => rfl) s.videoMem
    rw [consoles_displayed]
    rw [consoles_displayed] at hstore
    exact congrArg some hstore
  rw [if_neg hline, if_neg hline]
  by_cases hback : c = backspace
  · rw [if_pos hback, if_pos hback]
    have hposition : (s.consoles s.terminalDisplayed).position =
        (s.terminalT s.terminalDisplayed).screenY * numCols +
          (s.terminalT s.terminalDisplayed).screenX := Terminal.console_position _ _
    rw [hposition]
    by_cases hstart : (s.terminalT s.terminalDisplayed).screenY * numCols +
        (s.terminalT s.terminalDisplayed).screenX =
          (s.terminalT s.terminalDisplayed).startLinePtr.toInt
    · rw [if_pos hstart, if_pos (by exact hstart)]
      simp
    · rw [if_neg hstart, if_neg (by exact hstart)]
      have hstepped : ((s.modifyTerminal s.terminalDisplayed Terminal.stepBack).terminalT
          s.terminalDisplayed).position =
            (s.consoles s.terminalDisplayed).stepBack.position := by
        rw [consoles_displayed, ← Terminal.position_stepBack]
        simp [Kernel.modifyTerminal]
      have hscreen : (s.consoles s.terminalDisplayed).stepBack.screen = s.videoMem := by
        rw [Console.stepBack_screen, consoles_displayed]
        rfl
      rw [hstepped]
      unfold Console.wipeCell
      rw [hscreen]
      have hmem : (s.modifyTerminal s.terminalDisplayed Terminal.stepBack).videoMem =
          s.videoMem := rfl
      rw [hmem]
      cases Screen.store s.videoMem
          ((s.consoles s.terminalDisplayed).stepBack.position * 2) 0 with
      | none => rfl
      | some videoMem =>
          have hstore := consoles_store2screen s Terminal.stepBack Console.stepBack
            (Terminal.stepBack_videoMemory _) (Terminal.console_stepBack _) videoMem
          rw [Console.stepBack_set_screen] at hstore
          exact congrArg some hstore
  · rw [if_neg hback, if_neg hback]
    unfold Console.draw
    have hposition : (s.consoles s.terminalDisplayed).position =
        (s.terminalT s.terminalDisplayed).position := rfl
    have hscreen : (s.consoles s.terminalDisplayed).screen = s.videoMem := by
      rw [consoles_displayed]
      rfl
    rw [hposition, hscreen]
    cases Screen.store s.videoMem ((s.terminalT s.terminalDisplayed).position * 2) c with
    | none => rfl
    | some videoMem =>
        rw [Option.bind_some, Option.bind_some]
        cases Screen.store videoMem
            ((s.terminalT s.terminalDisplayed).position * 2 + 1) attrib with
        | none => rfl
        | some videoMem =>
            exact congrArg some (consoles_store2screen s Terminal.advance Console.advance
              (Terminal.advance_videoMemory _) (Terminal.console_advance _) videoMem)

theorem consoles_scrollBuffer {s : Kernel} (hhidden : s.terminalNum ≠ s.terminalDisplayed) :
    (scrollBuffer s).consoles =
      Function.update s.consoles s.terminalNum (s.consoles s.terminalNum).scrolled := by
  have hrow : (s.consoles s.terminalNum).screenY = s.running.screenY := rfl
  unfold scrollBuffer Console.scrolled
  rw [hrow]
  by_cases hbottom : s.running.screenY = numRows
  · rw [if_pos hbottom, if_pos hbottom, consoles_modifyTerminal_hidden hhidden,
      consoles_hidden hhidden]
    rfl
  · rw [if_neg hbottom, if_neg hbottom, Function.update_eq_self]

theorem consoles_storeBuffer {s : Kernel} (hhidden : s.terminalNum ≠ s.terminalDisplayed)
    (f : Terminal → Terminal) :
    (scrollBuffer (s.modifyTerminal s.terminalNum f)).consoles =
      Function.update s.consoles s.terminalNum
        ((f s.running).console (f s.running).videoMemory).scrolled := by
  have hhidden' : (s.modifyTerminal s.terminalNum f).terminalNum ≠
      (s.modifyTerminal s.terminalNum f).terminalDisplayed := hhidden
  have hrunning : (s.modifyTerminal s.terminalNum f).terminalNum = s.terminalNum := rfl
  rw [consoles_scrollBuffer hhidden', hrunning, consoles_modifyTerminal_hidden hhidden]
  simp [Kernel.running]

theorem consoles_putc (s : Kernel) (c : UInt8) :
    (putc s c).map Kernel.consoles = act s.consoles s.terminalNum (·.put c) := by
  unfold putc
  by_cases hshown : s.terminalNum = s.terminalDisplayed
  · rw [if_pos hshown, consoles_putc2screen, hshown]
  rw [if_neg hshown]
  unfold act Console.put
  have hconsole : s.consoles s.terminalNum = s.running.console s.running.videoMemory :=
    consoles_hidden hshown
  dsimp only
  rw [hconsole]
  by_cases hline : c = newline ∨ c = carriageReturn
  · rw [if_pos hline, if_pos hline]
    exact congrArg some (consoles_storeBuffer hshown Terminal.newLine)
  rw [if_neg hline, if_neg hline]
  by_cases hback : c = backspace
  · rw [if_pos hback, if_pos hback]
    rw [Terminal.console_position]
    by_cases hstart : s.running.screenY * numCols + s.running.screenX =
        s.running.startLinePtr.toInt
    · rw [if_pos hstart, if_pos (by exact hstart), Option.map_some, Option.map_some, ← hconsole,
        Function.update_eq_self]
    · rw [if_neg hstart, if_neg (by exact hstart)]
      unfold Console.wipeCell
      rw [Console.stepBack_screen, ← Terminal.position_stepBack]
      have hscreen : (s.running.console s.running.videoMemory).screen =
          s.running.videoMemory := rfl
      rw [hscreen]
      cases Screen.store s.running.videoMemory (s.running.stepBack.position * 2) 0 with
      | none => rfl
      | some videoMemory =>
          have hstore := consoles_storeBuffer hshown fun term =>
            { term.stepBack with videoMemory := videoMemory }
          rw [← Terminal.console_stepBack]
          exact congrArg some hstore
  · rw [if_neg hback, if_neg hback]
    unfold Console.draw
    have hposition : (s.running.console s.running.videoMemory).position =
        s.running.position := rfl
    have hscreen : (s.running.console s.running.videoMemory).screen =
        s.running.videoMemory := rfl
    rw [hposition, hscreen]
    cases Screen.store s.running.videoMemory (s.running.position * 2) c with
    | none => rfl
    | some videoMemory =>
        rw [Option.bind_some, Option.bind_some]
        cases Screen.store videoMemory (s.running.position * 2 + 1) attrib with
        | none => rfl
        | some videoMemory =>
            have hstore := consoles_storeBuffer hshown fun term =>
              { term.advance with videoMemory := videoMemory }
            have hadvance := congrArg (fun console : Console =>
              Function.update s.consoles s.terminalNum console.scrolled)
                (Terminal.console_advance s.running videoMemory)
            exact congrArg some (hstore.trans hadvance)

theorem consoles_printLiteral (s : Kernel) (text : List UInt8) :
    (printLiteral s text).map Kernel.consoles =
      feed s.consoles s.terminalNum (text.map .put) := by
  induction text generalizing s with
  | nil => exact (feed_nil s.consoles s.terminalNum).symm
  | cons c rest ih =>
      apply consoles_bind (consoles_putc s c)
      intro middle hput
      have hrunning : middle.terminalNum = s.terminalNum :=
        congrArg ProcessView.terminalNum (view_putc hput)
      rw [← hrunning]
      exact ih middle

theorem consoles_home (s : Kernel) :
    (s.modifyTerminal s.terminalNum Terminal.home).consoles =
      Function.update s.consoles s.terminalNum (s.consoles s.terminalNum).home :=
  consoles_modifyTerminal Console.home rfl fun _ => rfl

theorem consoles_clear (s : Kernel) :
    (clear s).consoles =
      Function.update s.consoles s.terminalNum (s.consoles s.terminalNum).clear := by
  unfold clear
  dsimp only
  rw [consoles_drawCursor, consoles_home]
  by_cases hshown : s.terminalNum = s.terminalDisplayed
  · rw [if_neg (by simpa using hshown), consoles_set_videoMem, ← hshown]
    have hscreen : (s.consoles s.terminalNum).screen = s.videoMem := by
      rw [hshown, consoles_displayed]
      rfl
    simp [Console.clear, Console.home, hscreen]
  · rw [if_pos hshown, consoles_modifyTerminal_hidden hshown]
    simp [Console.clear, Console.home, consoles_hidden hshown, Terminal.console,
      Kernel.modifyTerminal]

/-! ## Keys -/

/-- Output changes the terminals, the text page and the cursor, and nothing else. -/
def Kernel.SameOutside (s next : Kernel) : Prop :=
  ∃ terminalT videoMem cursorPos,
    next = { s with terminalT := terminalT, videoMem := videoMem, cursorPos := cursorPos }

theorem Kernel.SameOutside.refl (s : Kernel) : s.SameOutside s := ⟨_, _, _, rfl⟩

theorem Kernel.SameOutside.trans {s middle next : Kernel}
    (hfirst : s.SameOutside middle) (hsecond : middle.SameOutside next) :
    s.SameOutside next := by
  obtain ⟨terminalT, videoMem, cursorPos, rfl⟩ := hfirst
  obtain ⟨terminalT, videoMem, cursorPos, rfl⟩ := hsecond
  exact ⟨_, _, _, rfl⟩

theorem sameOutside_modifyTerminal (s : Kernel) (t : Fin 3) (f : Terminal → Terminal) :
    s.SameOutside (s.modifyTerminal t f) := ⟨_, _, _, rfl⟩

theorem Kernel.PrintsOn.sameOutside {t : Fin 3} {s next : Kernel}
    (hprints : s.PrintsOn t next) : s.SameOutside next := by
  obtain ⟨_, _, _, _, rfl⟩ := hprints
  exact ⟨_, _, _, rfl⟩

theorem sameOutside_putc2screen {s next : Kernel} {c : UInt8}
    (hput : putc2screen s c = some next) : s.SameOutside next :=
  (putc2screen_printsOn hput).sameOutside

theorem sameOutside_pushKey {s next : Kernel} {c : UInt8}
    (hpush : pushKey s c = some next) : s.SameOutside next := by
  obtain ⟨keyBuf, _, rfl⟩ := Option.map_eq_some_iff.mp hpush
  exact sameOutside_modifyTerminal s _ _

theorem consoles_pushKey (s : Kernel) (c : UInt8) :
    (pushKey s c).map Kernel.consoles = act s.consoles s.terminalDisplayed (·.push c) := by
  unfold pushKey act Console.push
  dsimp only
  have hbuf : (s.consoles s.terminalDisplayed).keyBuf =
      (s.terminalT s.terminalDisplayed).keyBuf := rfl
  have hnum : (s.consoles s.terminalDisplayed).numBuf =
      (s.terminalT s.terminalDisplayed).numBuf := rfl
  rw [hbuf, hnum]
  cases LineBuffer.store (s.terminalT s.terminalDisplayed).keyBuf
      (s.terminalT s.terminalDisplayed).numBuf c with
  | none => rfl
  | some keyBuf =>
      exact congrArg some (consoles_modifyTerminal
        (fun console => { console with keyBuf := keyBuf, numBuf := console.numBuf + 1 }) rfl
        fun _ => rfl)

theorem consoles_echo (s : Kernel) (c : UInt8) :
    ((putc2screen s c).bind fun s => pushKey s c).map Kernel.consoles =
      act s.consoles s.terminalDisplayed (·.echo c) := by
  apply consoles_bind (consoles_putc2screen s c)
  intro middle hput
  obtain ⟨terminalT, videoMem, cursorPos, rfl⟩ := sameOutside_putc2screen hput
  exact consoles_pushKey _ c

theorem consoles_keyboardTab (s : Kernel) :
    (keyboardTab s).map Kernel.consoles = act s.consoles s.terminalDisplayed (·.tab) := by
  unfold keyboardTab Console.tab
  generalize List.replicate 4 space = blanks
  induction blanks generalizing s with
  | nil => exact (act_some s.consoles s.terminalDisplayed).symm
  | cons c rest ih =>
      apply consoles_bind (consoles_echo s c)
      intro middle hecho
      obtain ⟨echoed, hput, hpush⟩ := Option.bind_eq_some_iff.mp hecho
      obtain ⟨terminalT, videoMem, cursorPos, rfl⟩ :=
        (sameOutside_putc2screen hput).trans (sameOutside_pushKey hpush)
      exact ih _

theorem consoles_keyboardBackspace (s : Kernel) :
    (keyboardBackspace s).map Kernel.consoles =
      act s.consoles s.terminalDisplayed (·.erase) := by
  unfold keyboardBackspace Console.erase
  rw [act_ite, act_some, apply_ite (Option.map Kernel.consoles)]
  congr 1
  apply consoles_map (consoles_putc2screen s backspace)
  intro middle hput
  obtain ⟨terminalT, videoMem, cursorPos, rfl⟩ := sameOutside_putc2screen hput
  exact consoles_modifyTerminal
    (fun console => { console with numBuf := console.numBuf - 1 }) rfl fun _ => rfl

theorem consoles_keyboardEnter (s : Kernel) :
    (keyboardEnter s).map Kernel.consoles =
      act s.consoles s.terminalDisplayed (·.enter) := by
  unfold keyboardEnter Console.enter
  rw [act_ite, act_some, apply_ite (Option.map Kernel.consoles)]
  congr 1
  apply consoles_bind (consoles_pushKey s newline)
  intro stored hpush
  obtain ⟨terminalT, videoMem, cursorPos, rfl⟩ := sameOutside_pushKey hpush
  apply consoles_map (consoles_putc2screen _ newline)
  intro echoed hput
  obtain ⟨terminalT, videoMem, cursorPos, rfl⟩ := sameOutside_putc2screen hput
  exact consoles_modifyTerminal
    (fun console => { console with bufFlag := console.bufFlag + 1 }) rfl fun _ => rfl

theorem consoles_set_terminalNum (s : Kernel) (t : Fin 3) :
    { s with terminalNum := t }.consoles = s.consoles := rfl

theorem consoles_clearDisplayed (s : Kernel) :
    (clearDisplayed s).consoles =
      Function.update s.consoles s.terminalDisplayed
        (s.consoles s.terminalDisplayed).reset := by
  have hempty := consoles_modifyTerminal (s := s) (t := s.terminalDisplayed)
    (f := fun term => { term.home with keyBuf := fun _ => 0, numBuf := 0, bufFlag := 0 })
    (fun console => { console.home with keyBuf := fun _ => 0, numBuf := 0, bufFlag := 0 }) rfl
    fun _ => rfl
  unfold clearDisplayed
  dsimp only
  rw [consoles_set_terminalNum]
  generalize hmiddle : (s.modifyTerminal s.terminalDisplayed fun term =>
    { term.home with keyBuf := fun _ => 0, numBuf := 0, bufFlag := 0 }) = middle
  rw [hmiddle] at hempty
  have hdisplayed : middle.terminalDisplayed = s.terminalDisplayed := by
    rw [← hmiddle]
    rfl
  have hclear : (clear { middle with terminalNum := middle.terminalDisplayed }).consoles =
      Function.update middle.consoles middle.terminalDisplayed
        (middle.consoles middle.terminalDisplayed).clear :=
    consoles_clear { middle with terminalNum := middle.terminalDisplayed }
  rw [hclear, hdisplayed, hempty]
  simp [Console.reset, Console.clear, Console.home]

/-- The key that a scancode of `keyboard_print` stands for. -/
def printedKeys (s : Kernel) (scancode : ℕ) : List ConsoleOp :=
  if scancode ≥ 0x60 then []
  else if s.ctrlPress ∧ keyOf keyboardOriginal scancode = 0x6C then [.reset]
  else if keyOf (activeMap s) scancode ≠ 0 then [.type (keyOf (activeMap s) scancode)]
  else []

theorem consoles_keyboardPrint (s : Kernel) (scancode : ℕ) :
    (keyboardPrint s scancode).map Kernel.consoles =
      feed s.consoles s.terminalDisplayed (printedKeys s scancode) := by
  unfold keyboardPrint printedKeys
  by_cases hbeyond : scancode ≥ 0x60
  · rw [if_pos hbeyond, if_pos hbeyond, feed_nil]
    rfl
  rw [if_neg hbeyond, if_neg hbeyond]
  by_cases hctrl : s.ctrlPress ∧ keyOf keyboardOriginal scancode = 0x6C
  · rw [if_pos hctrl, if_pos hctrl, feed_singleton, Option.map_some, consoles_clearDisplayed]
    rfl
  rw [if_neg hctrl, if_neg hctrl]
  by_cases hkey : keyOf (activeMap s) scancode ≠ 0
  · rw [if_pos hkey, if_pos hkey, feed_singleton]
    unfold consoleStep Console.type
    dsimp only
    rw [act_ite, act_some, apply_ite (Option.map Kernel.consoles)]
    congr 1
    have hmap : ((putc2screen s (keyOf (activeMap s) scancode)).bind fun s =>
          pushKey s (keyOf (activeMap s) scancode)) =
        (putc2screen s (keyOf (activeMap s) scancode)).bind fun middle =>
          pushKey middle (keyOf (activeMap s) scancode) := by
      apply Option.bind_congr
      intro middle hput
      obtain ⟨terminalT, videoMem, cursorPos, rfl⟩ := sameOutside_putc2screen hput
      rfl
    rw [hmap, consoles_echo]
  · rw [if_neg hkey, if_neg hkey, feed_nil, ite_self]
    rfl

/-! ## Reads -/

theorem consoles_terminalRead (s : Kernel) (nbytes : ℕ) :
    (terminalRead s nbytes).map (fun result => (result.1.consoles, result.2)) =
      ((s.consoles s.terminalNum).read nbytes).map fun result =>
        (Function.update s.consoles s.terminalNum result.1, result.2) := by
  unfold terminalRead Console.read
  have hflag : (s.consoles s.terminalNum).bufFlag = s.running.bufFlag := rfl
  have hbuf : (s.consoles s.terminalNum).keyBuf = s.running.keyBuf := rfl
  rw [hflag, hbuf]
  by_cases hwait : s.running.bufFlag = 0
  · rw [if_pos hwait, if_pos hwait]
    rfl
  rw [if_neg hwait, if_neg hwait]
  cases copyLine s.running.keyBuf nbytes 0 with
  | none => rfl
  | some bytes =>
      have hmod := consoles_modifyTerminal (s := s) (t := s.terminalNum)
        (f := fun term =>
          { term with
            keyBuf := LineBuffer.dropBytes term.keyBuf bytes.length
            numBuf := term.numBuf - bytes.length
            bufFlag := term.bufFlag - 1 })
        (fun console =>
          { console with
            keyBuf := LineBuffer.dropBytes console.keyBuf bytes.length
            numBuf := console.numBuf - bytes.length
            bufFlag := console.bufFlag - 1 }) rfl fun _ => rfl
      simp only [Option.map_some]
      rw [hmod]
      rfl

/-! ## Switching and starting processes -/

theorem consoles_showTerminal (s : Kernel) (newTerminal : Fin 3) :
    (showTerminal s newTerminal).consoles = s.consoles := by
  funext u
  have hscreen : (showTerminal s newTerminal).logicalScreen u = s.logicalScreen u := by
    simp only [showTerminal, Kernel.logicalScreen, Kernel.drawCursor, Kernel.modifyTerminal]
    by_cases hnew : u = newTerminal
    · subst hnew
      by_cases hshown : u = s.terminalDisplayed
      · simp [hshown]
      · simp [hshown]
    · by_cases hshown : u = s.terminalDisplayed
      · subst hshown
        simp [hnew]
      · simp [hnew, hshown]
  have hterm : ∀ screen, ((showTerminal s newTerminal).terminalT u).console screen =
      (s.terminalT u).console screen := by
    intro screen
    simp only [showTerminal, Kernel.drawCursor, Kernel.modifyTerminal]
    by_cases hshown : u = s.terminalDisplayed
    · simp [hshown, Terminal.console]
    · simp [hshown]
  rw [Kernel.consoles, Kernel.consoles, hscreen, hterm]

theorem consoles_startProcess (s : Kernel) (num : ℕ) (argument : List UInt8)
    (frame : StackFrame) : (startProcess s num argument frame).consoles = s.consoles := by
  have hterm := consoles_modifyTerminal (s := s) (t := s.terminalNum)
    (f := fun term =>
      { term with flag := 1, processNum := num, totalProcess := term.totalProcess + 1 }) id rfl
    fun _ => rfl
  rw [id, Function.update_eq_self] at hterm
  exact hterm

theorem consoles_mapVidmap (link : Link) (s : Kernel) :
    (mapVidmap link s).consoles = s.consoles := by
  unfold mapVidmap
  split <;> rfl

theorem consoles_pitHandler (link : Link) (s : Kernel) (cpu : Cpu) :
    (pitHandler link s cpu).1.consoles = s.consoles := by
  unfold pitHandler
  split
  · rfl
  · exact consoles_mapVidmap link _

theorem executeCommit_consoles {img : Image} {s : Kernel} {command : List UInt8} {num : ℕ}
    {frame : StackFrame} {execution : Execution}
    (hcommit : executeCommit img s command num frame = some execution) :
    execution.kernel.consoles = s.consoles := by
  obtain ⟨-, ⟨_, rfl⟩ | ⟨dentry, _, _, rfl⟩⟩ := executeCommit_eq_some hcommit
  · rfl
  · exact consoles_startProcess s _ _ _

def slotMessage (s : Kernel) : List ConsoleOp :=
  if (freeSlot s).isNone then noMoreProcess.map .put else []

theorem execute_consoles {img : Image} {s : Kernel} {command : List UInt8}
    {frame : StackFrame} {execution : Execution}
    (hexecute : execute img s (some command) frame = some execution) :
    feed s.consoles s.terminalNum (slotMessage s) = some execution.kernel.consoles := by
  have hfree : freeSlot (loadCurrentProcess s) = freeSlot s := rfl
  obtain ⟨hnull, _⟩ | ⟨line, hline, ⟨hfull, printed, hprint, rfl⟩ | ⟨num, hfound, hcommit⟩⟩ :=
    execute_eq_some hexecute
  · contradiction
  · have hconsoles := consoles_printLiteral (loadCurrentProcess s) noMoreProcess
    rw [hprint] at hconsoles
    unfold slotMessage
    rw [← hfree, hfull]
    exact hconsoles.symm
  · have hconsoles := executeCommit_consoles hcommit
    unfold slotMessage
    rw [← hfree, hfound, Option.isNone_some, if_neg Bool.false_ne_true, feed_nil, hconsoles]
    rfl

/-- What `switch_terminal` writes to the terminal it shows. -/
def switchOps (s : Kernel) (newTerminal : Fin 3) : List ConsoleOp :=
  if newTerminal ≠ 0 ∧ (s.terminalT newTerminal).flag = 0 then .clear :: slotMessage s else []

theorem switchTerminal_consoles {img : Image} {s next : Kernel} {newTerminal : Fin 3}
    {cpu : Cpu} {frame : StackFrame}
    (hswitch : switchTerminal img s newTerminal cpu frame = some next) :
    feed s.consoles newTerminal (switchOps s newTerminal) = some next.consoles := by
  unfold switchTerminal at hswitch
  dsimp only at hswitch
  unfold switchOps
  rw [showTerminal_flag] at hswitch
  by_cases hnew : newTerminal ≠ 0 ∧ (s.terminalT newTerminal).flag = 0
  · rw [if_pos hnew] at hswitch ⊢
    obtain ⟨execution, hexecute, hnext⟩ := Option.map_eq_some_iff.mp hswitch
    have hconsoles := execute_consoles hexecute
    have hlast : next.consoles = execution.kernel.consoles := by
      cases execution with
      | returned value s => rw [← hnext]; rfl
      | started s entry image => rw [← hnext]; rfl
    have hmessage : slotMessage (clear { saveContext (showTerminal s newTerminal) cpu with
        terminalNum := newTerminal }) = slotMessage s := by
      unfold slotMessage freeSlot
      rw [process_beforeExecute]
    have hclear : (clear { saveContext (showTerminal s newTerminal) cpu with
        terminalNum := newTerminal }).consoles =
          Function.update s.consoles newTerminal (s.consoles newTerminal).clear := by
      rw [← consoles_showTerminal s newTerminal]
      exact consoles_clear { saveContext (showTerminal s newTerminal) cpu with
        terminalNum := newTerminal }
    have hrunning : (clear { saveContext (showTerminal s newTerminal) cpu with
        terminalNum := newTerminal }).terminalNum = newTerminal :=
      congrArg ProcessView.terminalNum (view_clear
        { saveContext (showTerminal s newTerminal) cpu with terminalNum := newTerminal })
    rw [hmessage, hrunning, hclear] at hconsoles
    rw [hlast, ← hconsoles]
    exact feed_append s.consoles newTerminal [.clear] (slotMessage s)
  · rw [if_neg hnew] at hswitch ⊢
    obtain rfl := Option.some.inj hswitch
    rw [feed_nil, consoles_showTerminal]

/-! ## Operations and whom they address -/

/-- What processes and the user do to the terminals. -/
inductive ScreenOp where
  | putc (c : UInt8)
  | write (buf : ℕ → UInt8) (nbytes : ℕ)
  | clear
  | read (nbytes : ℕ)
  | keyboard (scancode : ℕ) (cpu : Cpu) (frame : StackFrame)
  | pit (cpu : Cpu)
  | switchTerminal (newTerminal : Fin 3) (cpu : Cpu) (frame : StackFrame)

def screenStep (img : Image) (link : Link) (s : Kernel) : ScreenOp → Option Kernel
  | .putc c => putc s c
  | .write buf nbytes => terminalWrite s buf nbytes
  | .clear => some (clear s)
  | .read nbytes => (terminalRead s nbytes).map Prod.fst
  | .keyboard scancode cpu frame => keyboardHandler img s scancode cpu frame
  | .pit cpu => some (pitHandler link s cpu).1
  | .switchTerminal newTerminal cpu frame => switchTerminal img s newTerminal cpu frame

def altOps (s : Kernel) (newTerminal : Fin 3) : Fin 3 × List ConsoleOp :=
  (newTerminal,
    if s.altPress ∧ s.terminalDisplayed ≠ newTerminal then switchOps s newTerminal else [])

/-- A key addresses the displayed terminal, unless it shows another one. -/
def keyOps (s : Kernel) : ℕ → Fin 3 × List ConsoleOp
  | 0x1D | 0x2A | 0x36 | 0x38 | 0x3A | 0x9D | 0xAA | 0xB6 | 0xB8 => (s.terminalDisplayed, [])
  | 0x3B => altOps s 0
  | 0x3C => altOps s 1
  | 0x3D => altOps s 2
  | 0x0F => (s.terminalDisplayed, [.tab])
  | 0x0E => (s.terminalDisplayed, [.erase])
  | 0x1C => (s.terminalDisplayed, [.enter])
  | scancode => (s.terminalDisplayed, printedKeys s scancode)

/-- The terminal that an operation addresses, and what it does there. -/
def addressed (s : Kernel) : ScreenOp → Fin 3 × List ConsoleOp
  | .putc c => (s.terminalNum, [.put c])
  | .write buf nbytes => (s.terminalNum, ((List.range nbytes).map buf).map .put)
  | .clear => (s.terminalNum, [.clear])
  | .read nbytes => (s.terminalNum, [.read nbytes])
  | .keyboard scancode _ _ => keyOps s scancode
  | .pit _ => (s.terminalNum, [])
  | .switchTerminal newTerminal _ _ => (newTerminal, switchOps s newTerminal)

theorem altSwitch_consoles {img : Image} {s next : Kernel} {newTerminal : Fin 3}
    {cpu : Cpu} {frame : StackFrame}
    (hswitch : altSwitch img s newTerminal cpu frame = some next) :
    feed s.consoles (altOps s newTerminal).1 (altOps s newTerminal).2 = some next.consoles := by
  unfold altSwitch at hswitch
  unfold altOps
  by_cases halt : s.altPress ∧ s.terminalDisplayed ≠ newTerminal
  · rw [if_pos halt] at hswitch ⊢
    exact switchTerminal_consoles hswitch
  · rw [if_neg halt] at hswitch ⊢
    obtain rfl := Option.some.inj hswitch
    exact feed_nil _ _

theorem keyboardHandler_consoles {img : Image} {s next : Kernel} {scancode : ℕ}
    {cpu : Cpu} {frame : StackFrame}
    (hkey : keyboardHandler img s scancode cpu frame = some next) :
    feed s.consoles (keyOps s scancode).1 (keyOps s scancode).2 = some next.consoles := by
  have hdisplayed : ∀ {result : Option Kernel} {op : ConsoleOp}, result = some next →
      result.map Kernel.consoles =
        act s.consoles s.terminalDisplayed (fun console => consoleStep console op) →
      feed s.consoles s.terminalDisplayed [op] = some next.consoles := by
    intro result op hresult hconsoles
    rw [feed_singleton, ← hconsoles, hresult]
    rfl
  unfold keyboardHandler at hkey
  split at hkey
  case h_10 | h_11 | h_12 => exact altSwitch_consoles hkey
  case h_13 => exact hdisplayed hkey (consoles_keyboardTab s)
  case h_14 => exact hdisplayed hkey (consoles_keyboardBackspace s)
  case h_15 => exact hdisplayed hkey (consoles_keyboardEnter s)
  case h_16 =>
    have hprint := consoles_keyboardPrint s scancode
    rw [hkey] at hprint
    unfold keyOps
    split <;> first | contradiction | exact hprint.symm
  all_goals
    obtain rfl := Option.some.inj hkey
    exact feed_nil _ _

theorem screenStep_feeds {img : Image} {link : Link} {s next : Kernel} {op : ScreenOp}
    (hstep : screenStep img link s op = some next) :
    feed s.consoles (addressed s op).1 (addressed s op).2 = some next.consoles := by
  cases op with
  | putc c =>
      have hput := consoles_putc s c
      rw [show putc s c = some next from hstep] at hput
      exact (feed_singleton s.consoles s.terminalNum (.put c)).trans hput.symm
  | write buf nbytes =>
      have hprint := consoles_printLiteral s ((List.range nbytes).map buf)
      rw [show printLiteral s ((List.range nbytes).map buf) = some next from hstep] at hprint
      exact hprint.symm
  | clear =>
      obtain rfl := Option.some.inj hstep
      rw [consoles_clear]
      exact feed_singleton s.consoles s.terminalNum .clear
  | read nbytes =>
      obtain ⟨⟨next', bytes⟩, hread, rfl⟩ := Option.map_eq_some_iff.mp hstep
      have hconsoles := consoles_terminalRead s nbytes
      rw [hread] at hconsoles
      have hfst := congrArg (Option.map Prod.fst) hconsoles
      simp only [addressed, feed_singleton, act, consoleStep, Option.map_map] at hfst ⊢
      exact hfst.symm
  | keyboard scancode cpu frame => exact keyboardHandler_consoles hstep
  | pit cpu =>
      obtain rfl := Option.some.inj hstep
      rw [consoles_pitHandler]
      exact feed_nil s.consoles s.terminalNum
  | switchTerminal newTerminal cpu frame => exact switchTerminal_consoles hstep

def OnConsole (guard : Console → ConsoleOp → Prop) (s : Kernel) (op : ScreenOp) : Prop :=
  Meets consoleStep guard (s.consoles (addressed s op).1) (addressed s op).2

instance {guard : Console → ConsoleOp → Prop} [∀ console op, Decidable (guard console op)]
    (s : Kernel) (op : ScreenOp) : Decidable (OnConsole guard s op) :=
  inferInstanceAs (Decidable (Meets consoleStep guard _ _))

/-- What the guarded operations of a console keep, the operations of the kernel
keep for every terminal. -/
theorem screenStep_invariant (Inv : Console → Prop) {guard : Console → ConsoleOp → Prop}
    (hconsole : ∀ console op next, Inv console → guard console op →
      consoleStep console op = some next → Inv next)
    {img : Image} {link : Link} {s next : Kernel} {op : ScreenOp}
    (hinv : ∀ t, Inv (s.consoles t)) (hguard : OnConsole guard s op)
    (hstep : screenStep img link s op = some next) :
    ∀ t, Inv (next.consoles t) := by
  obtain ⟨console, hrun, hupdate⟩ := Option.map_eq_some_iff.mp (screenStep_feeds hstep)
  have hfed : Inv console :=
    run_invariant_of_meets Inv hconsole (hinv (addressed s op).1) hguard hrun
  intro t
  rw [← hupdate]
  by_cases haddressed : t = (addressed s op).1
  · rw [haddressed, Function.update_self]
    exact hfed
  · rw [Function.update_of_ne haddressed]
    exact hinv t

/-- The operations on the console `t` that an operation of the kernel stands for. -/
def addressedTo (t : Fin 3) (s : Kernel) (op : ScreenOp) : List ConsoleOp :=
  if (addressed s op).1 = t then (addressed s op).2 else []

theorem run_addressedTo {img : Image} {link : Link} {s next : Kernel} {op : ScreenOp}
    (t : Fin 3) (hstep : screenStep img link s op = some next) :
    run consoleStep (s.consoles t) (addressedTo t s op) = some (next.consoles t) := by
  obtain ⟨console, hrun, hupdate⟩ := Option.map_eq_some_iff.mp (screenStep_feeds hstep)
  dsimp only at hrun
  unfold addressedTo
  by_cases haddressed : (addressed s op).1 = t
  · rw [if_pos haddressed, ← haddressed, hrun, ← hupdate, Function.update_self]
  · rw [if_neg haddressed, run_nil, ← hupdate, Function.update_of_ne (Ne.symm haddressed)]

/-- In every run each terminal goes through the states of a console on its own
which is fed with the operations addressed to the terminal, in their order. -/
theorem terminals_refine_consoles {img : Image} {link : Link} {s final : Kernel}
    {ops : List ScreenOp} (hrun : run (screenStep img link) s ops = some final) (t : Fin 3) :
    run consoleStep (s.consoles t) (translate (screenStep img link) (addressedTo t) s ops) =
      some (final.consoles t) :=
  run_translate (fun state => state.consoles t)
    (fun _ _ _ hstep => run_addressedTo t hstep) hrun

/-- Output of the first shell, Alt+F2, keys and a read on the second terminal, a
tick, and output of the first shell in the background. -/
def switchingRun : List ScreenOp :=
  [.putc 0x61, .keyboard 0x38 ⟨0, 0⟩ zeroFrame, .keyboard 0x3C ⟨0, 0⟩ zeroFrame,
    .keyboard 0x30 ⟨0, 0⟩ zeroFrame, .keyboard 0x1C ⟨0, 0⟩ zeroFrame, .read 128,
    .pit ⟨0, 0⟩, .putc 0x63, .keyboard 0x3B ⟨0, 0⟩ zeroFrame]

theorem terminals_refine_consoles_switchingRun : ∃ final,
    run (screenStep smallImage zeroLink) shellKernel switchingRun = some final ∧
      run consoleStep (shellKernel.consoles 0)
        (translate (screenStep smallImage zeroLink) (addressedTo 0) shellKernel switchingRun) =
          some (final.consoles 0) := by
  have hsome : (run (screenStep smallImage zeroLink) shellKernel switchingRun).isSome := by
    decide +kernel
  obtain ⟨final, hrun⟩ := Option.isSome_iff_exists.mp hsome
  exact ⟨final, hrun, terminals_refine_consoles hrun 0⟩

end VirtualOS
