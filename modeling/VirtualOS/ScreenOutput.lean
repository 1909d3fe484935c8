import VirtualOS.PartialRuns
import VirtualOS.KernelState
import Mathlib.Tactic

/-!
# Output to the terminals

`putc` writes a byte for the running process.  While its terminal is shown the
work is done by `putc2screen` on the text page of the hardware; otherwise `putc`
repeats the same steps on the buffer the terminal keeps in memory.  The two
routines are written out separately in `lib.c` and are kept apart here.
-/

namespace VirtualOS

open PartialRuns

def newline : UInt8 := 0x0A
def carriageReturn : UInt8 := 0x0D
def backspace : UInt8 := 0x08
def space : UInt8 := 0x20

/-- The bytes of a string constant of the source. -/
def ascii (text : String) : List UInt8 :=
  text.toList.map fun char => UInt8.ofNat char.toNat

/-! ## Loops over a text page -/

def Screen.get (screen : Screen) (offset : ℕ) : UInt8 :=
  if h : offset < 4000 then screen ⟨offset, h⟩ else 0

def Screen.set (screen : Screen) (offset : ℕ) (value : UInt8) : Screen :=
  if h : offset < 4000 then Function.update screen ⟨offset, h⟩ value else screen

/-- The character bytes move up by one row and the last row is cleaned. -/
def Screen.scroll (screen : Screen) : Screen :=
  let shifted := (List.range 24).foldl (fun screen y =>
    (List.range 80).foldl (fun screen x =>
      let ptr := 80 * y + x
      screen.set (ptr * 2) (screen.get ((ptr + 80) * 2))) screen) screen
  let ptr := 24 * 80
  (List.range 80).foldl (fun screen x => screen.set ((ptr + x) * 2) 0) shifted

/-- Every cell becomes a blank with the default attribute. -/
def Screen.blank (screen : Screen) : Screen :=
  (List.range 2000).foldl (fun screen i =>
    (screen.set (i * 2) space).set (i * 2 + 1) attrib) screen

/-! ## Cursor movement -/

namespace Terminal

def position (term : Terminal) : ℤ := numCols * term.screenY + term.screenX

def newLine (term : Terminal) : Terminal :=
  { term with
    screenY := term.screenY + 1
    screenX := 0
    startLinePtr := BitVec.ofInt 32 ((term.screenY + 1) * numCols) }

def stepBack (term : Terminal) : Terminal :=
  if term.screenX = 0 then
    { term with screenX := numCols - 1, screenY := term.screenY - 1 }
  else { term with screenX := term.screenX - 1 }

def advance (term : Terminal) : Terminal :=
  if term.screenX + 1 ≥ numCols then
    { term with screenX := (term.screenX + 1) % numCols, screenY := term.screenY + 1 }
  else { term with screenX := term.screenX + 1 }

def scrollUp (term : Terminal) : Terminal :=
  { term with
    screenY := term.screenY - 1
    startLinePtr := term.startLinePtr - BitVec.ofInt 32 numCols }

def home (term : Terminal) : Terminal :=
  { term with screenX := 0, screenY := 0, startLinePtr := 0 }

end Terminal

/-! ## The displayed terminal -/

/-- The last part of `putc2screen`: scroll when the cursor has left the page. -/
def scroll2screen (s : Kernel) : Kernel :=
  if (s.terminalT s.terminalDisplayed).screenY = numRows then
    { s with videoMem := s.videoMem.scroll }.modifyTerminal s.terminalDisplayed
      Terminal.scrollUp
  else s

def putc2screen (s : Kernel) (c : UInt8) : Option Kernel :=
  let d := s.terminalDisplayed
  let shown := s.terminalT d
  if c = newline ∨ c = carriageReturn then
    some (scroll2screen (s.modifyTerminal d Terminal.newLine)).drawCursor
  else if c = backspace then
    if shown.screenY * numCols + shown.screenX = shown.startLinePtr.toInt then some s
    else
      let s := s.modifyTerminal d Terminal.stepBack
      (s.videoMem.store ((s.terminalT d).position * 2) 0).map fun videoMem =>
        (scroll2screen { s with videoMem := videoMem }).drawCursor
  else
    (s.videoMem.store (shown.position * 2) c).bind fun videoMem =>
      (videoMem.store (shown.position * 2 + 1) attrib).map fun videoMem =>
        (scroll2screen ({ s with videoMem := videoMem }.modifyTerminal d
          Terminal.advance)).drawCursor

/-! ## The running terminal -/

/-- The last part of `putc`, on the buffer of the running terminal. -/
def scrollBuffer (s : Kernel) : Kernel :=
  if s.running.screenY = numRows then
    s.modifyTerminal s.terminalNum fun term =>
      { term.scrollUp with videoMemory := term.videoMemory.scroll }
  else s

def putc (s : Kernel) (c : UInt8) : Option Kernel :=
  if s.terminalNum = s.terminalDisplayed then putc2screen s c
  else
    let t := s.terminalNum
    let term := s.running
    if c = newline ∨ c = carriageReturn then
      some (scrollBuffer (s.modifyTerminal t Terminal.newLine))
    else if c = backspace then
      if term.screenY * numCols + term.screenX = term.startLinePtr.toInt then some s
      else
        (term.videoMemory.store (term.stepBack.position * 2) 0).map fun videoMemory =>
          scrollBuffer (s.modifyTerminal t fun term =>
            { term.stepBack with videoMemory := videoMemory })
    else
      (term.videoMemory.store (term.position * 2) c).bind fun videoMemory =>
        (videoMemory.store (term.position * 2 + 1) attrib).map fun videoMemory =>
          scrollBuffer (s.modifyTerminal t fun term =>
            { term.advance with videoMemory := videoMemory })

/-- `printf` of a format without conversions, and `puts`: one `putc` a byte. -/
def printLiteral (s : Kernel) (text : List UInt8) : Option Kernel := run putc s text

/-- `clear`: the page of the running terminal, on the hardware or in memory. -/
def clear (s : Kernel) : Kernel :=
  let s :=
    if s.terminalNum ≠ s.terminalDisplayed then
      s.modifyTerminal s.terminalNum fun term =>
        { term with videoMemory := term.videoMemory.blank }
    else { s with videoMem := s.videoMem.blank }
  (s.modifyTerminal s.terminalNum Terminal.home).drawCursor

/-! ## What output changes -/

/-- The terminals agree but for the page and the cursor. -/
def Terminal.SameButScreen (term next : Terminal) : Prop :=
  ∃ videoMemory screenX screenY startLinePtr,
    next = { term with
      videoMemory := videoMemory, screenX := screenX, screenY := screenY,
      startLinePtr := startLinePtr }

namespace Terminal.SameButScreen

variable {term middle next : Terminal}

theorem refl (term : Terminal) : term.SameButScreen term := ⟨_, _, _, _, rfl⟩

theorem trans (hfirst : term.SameButScreen middle) (hsecond : middle.SameButScreen next) :
    term.SameButScreen next := by
  obtain ⟨_, _, _, _, rfl⟩ := hfirst
  obtain ⟨_, _, _, _, rfl⟩ := hsecond
  exact ⟨_, _, _, _, rfl⟩

theorem stepBack (term : Terminal) : term.SameButScreen term.stepBack := by
  unfold Terminal.stepBack
  split <;> exact ⟨_, _, _, _, rfl⟩

theorem advance (term : Terminal) : term.SameButScreen term.advance := by
  unfold Terminal.advance
  split <;> exact ⟨_, _, _, _, rfl⟩

end Terminal.SameButScreen

/-- Nothing changes but the page and the cursor of terminal `t`. -/
def Kernel.PrintsOn (t : Fin 3) (s next : Kernel) : Prop :=
  ∃ term videoMem cursorPos, (s.terminalT t).SameButScreen term ∧
    next = { s with
      terminalT := Function.update s.terminalT t term, videoMem := videoMem,
      cursorPos := cursorPos }

namespace Kernel.PrintsOn

variable {t : Fin 3} {s middle next : Kernel}

theorem refl (t : Fin 3) (s : Kernel) : s.PrintsOn t s := by
  refine ⟨s.terminalT t, s.videoMem, s.cursorPos, .refl _, ?_⟩
  rw [Function.update_eq_self]

theorem trans (hfirst : s.PrintsOn t middle) (hsecond : middle.PrintsOn t next) :
    s.PrintsOn t next := by
  obtain ⟨term, videoMem, cursorPos, hsame, rfl⟩ := hfirst
  obtain ⟨term', videoMem', cursorPos', hsame', rfl⟩ := hsecond
  have hmiddle : term.SameButScreen term' := by simpa using hsame'
  refine ⟨term', videoMem', cursorPos', hsame.trans hmiddle, ?_⟩
  simp only [Function.update_idem]

theorem modifyTerminal (s : Kernel) {f : Terminal → Terminal}
    (hsame : (s.terminalT t).SameButScreen (f (s.terminalT t))) :
    s.PrintsOn t (s.modifyTerminal t f) := ⟨_, _, _, hsame, rfl⟩

theorem setVideoMem (t : Fin 3) (s : Kernel) (videoMem : Screen) :
    s.PrintsOn t { s with videoMem := videoMem } :=
  ⟨_, _, _, .refl _, by rw [Function.update_eq_self]⟩

theorem drawCursor (t : Fin 3) (s : Kernel) : s.PrintsOn t s.drawCursor :=
  ⟨_, _, _, .refl _, by rw [Function.update_eq_self]; rfl⟩

theorem scroll2screen (s : Kernel) :
    s.PrintsOn s.terminalDisplayed (VirtualOS.scroll2screen s) := by
  unfold VirtualOS.scroll2screen
  split
  · exact (setVideoMem _ s _).trans (modifyTerminal _ ⟨_, _, _, _, rfl⟩)
  · exact refl _ s

theorem scrollBuffer (s : Kernel) : s.PrintsOn s.terminalNum (VirtualOS.scrollBuffer s) := by
  unfold VirtualOS.scrollBuffer
  split
  · exact modifyTerminal s ⟨_, _, _, _, rfl⟩
  · exact refl _ s

end Kernel.PrintsOn

theorem putc2screen_printsOn {s next : Kernel} {c : UInt8} (hput : putc2screen s c = some next) :
    s.PrintsOn s.terminalDisplayed next := by
  have hdraw : ∀ stored : Kernel, stored.terminalDisplayed = s.terminalDisplayed →
      s.PrintsOn s.terminalDisplayed stored →
        s.PrintsOn s.terminalDisplayed (scroll2screen stored).drawCursor := by
    intro stored hshown hstored
    exact (hstored.trans (hshown ▸ .scroll2screen stored)).trans (.drawCursor _ _)
  unfold putc2screen at hput
  dsimp only at hput
  split at hput
  · obtain rfl := Option.some.inj hput
    exact hdraw _ rfl (.modifyTerminal s ⟨_, _, _, _, rfl⟩)
  · split at hput
    · split at hput
      · obtain rfl := Option.some.inj hput
        exact .refl _ s
      · obtain ⟨videoMem, _, rfl⟩ := Option.map_eq_some_iff.mp hput
        exact hdraw _ rfl ((Kernel.PrintsOn.modifyTerminal s (.stepBack _)).trans
          (.setVideoMem _ _ _))
    · obtain ⟨videoMem, _, hmap⟩ := Option.bind_eq_some_iff.mp hput
      obtain ⟨videoMem', _, rfl⟩ := Option.map_eq_some_iff.mp hmap
      exact hdraw _ rfl ((Kernel.PrintsOn.setVideoMem _ s _).trans
        (.modifyTerminal _ (.advance _)))

theorem putc_printsOn {s next : Kernel} {c : UInt8} (hput : putc s c = some next) :
    s.PrintsOn s.terminalNum next := by
  have hscroll : ∀ f : Terminal → Terminal, s.running.SameButScreen (f s.running) →
      s.PrintsOn s.terminalNum (scrollBuffer (s.modifyTerminal s.terminalNum f)) :=
    fun f hsame => (Kernel.PrintsOn.modifyTerminal s hsame).trans (.scrollBuffer _)
  unfold putc at hput
  dsimp only at hput
  split at hput
  · rename_i hshown
    rw [hshown]
    exact putc2screen_printsOn hput
  · split at hput
    · obtain rfl := Option.some.inj hput
      exact hscroll _ ⟨_, _, _, _, rfl⟩
    · split at hput
      · split at hput
        · obtain rfl := Option.some.inj hput
          exact .refl _ s
        · obtain ⟨videoMemory, _, rfl⟩ := Option.map_eq_some_iff.mp hput
          exact hscroll _ ((Terminal.SameButScreen.stepBack _).trans ⟨_, _, _, _, rfl⟩)
      · obtain ⟨videoMemory, _, hmap⟩ := Option.bind_eq_some_iff.mp hput
        obtain ⟨videoMemory', _, rfl⟩ := Option.map_eq_some_iff.mp hmap
        exact hscroll _ ((Terminal.SameButScreen.advance _).trans ⟨_, _, _, _, rfl⟩)

theorem printLiteral_printsOn {s next : Kernel} {text : List UInt8}
    (hprint : printLiteral s text = some next) : s.PrintsOn s.terminalNum next := by
  induction text generalizing s with
  | nil =>
      obtain rfl := Option.some.inj hprint
      exact .refl _ _
  | cons c rest ih =>
      obtain ⟨middle, hput, hrest⟩ := run_cons_eq_some.mp hprint
      have hfirst := putc_printsOn hput
      have hnum : middle.terminalNum = s.terminalNum := by
        obtain ⟨_, _, _, _, rfl⟩ := hfirst
        rfl
      exact hfirst.trans (hnum ▸ ih hrest)

theorem clear_printsOn (s : Kernel) : s.PrintsOn s.terminalNum (clear s) := by
  have hhome : ∀ blank : Kernel, blank.terminalNum = s.terminalNum →
      s.PrintsOn s.terminalNum blank → s.PrintsOn s.terminalNum
        (blank.modifyTerminal blank.terminalNum Terminal.home).drawCursor := by
    intro blank hnum hblank
    rw [hnum]
    exact (hblank.trans (.modifyTerminal _ ⟨_, _, _, _, rfl⟩)).trans (.drawCursor _ _)
  unfold clear
  split
  · exact hhome _ rfl (.modifyTerminal s ⟨_, _, _, _, rfl⟩)
  · exact hhome _ rfl (.setVideoMem _ s _)

end VirtualOS
