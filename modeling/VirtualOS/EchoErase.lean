import VirtualOS.TextPages
import Mathlib.Tactic

/-!
# Taking typed text back

A typed character is echoed where the cursor is and the page may scroll under
it; a backspace goes one cell back and wipes it.  As many backspaces as there
were characters return the cursor to the cell where the text began, which the
scrolls have moved up with the rest of the page.
-/

namespace VirtualOS

open PartialRuns

/-- Bytes that are echoed as they are. -/
def IsPlain (c : UInt8) : Prop := c ≠ newline ∧ c ≠ carriageReturn ∧ c ≠ backspace

instance (c : UInt8) : Decidable (IsPlain c) := by
  unfold IsPlain
  infer_instance

def Terminal.moved (term : Terminal) (c : UInt8) : Terminal :=
  if c = newline ∨ c = carriageReturn then term.newLine
  else if c = backspace then
    if term.screenY * numCols + term.screenX = term.startLinePtr.toInt then term else term.stepBack
  else term.advance

/-- How often the page scrolls while a text is echoed. -/
def scrollCount : Kernel → List UInt8 → ℕ
  | _, [] => 0
  | s, c :: rest =>
      (if ((s.terminalT s.terminalDisplayed).moved c).screenY = numRows then 1 else 0) +
        (putc2screen s c).elim 0 fun next => scrollCount next rest

/-- As many backspaces as there were characters have brought the displayed
terminal back to where they began, on a page that has scrolled. -/
structure TakenBack (s next : Kernel) (count scrolls : ℕ) : Prop where
  inGrid : (next.terminalT s.terminalDisplayed).InGrid
  position_eq : (next.terminalT s.terminalDisplayed).position =
    (s.terminalT s.terminalDisplayed).position - 80 * scrolls
  start_eq : (next.terminalT s.terminalDisplayed).startLinePtr.toInt =
    (s.terminalT s.terminalDisplayed).startLinePtr.toInt - 80 * scrolls
  room : (next.terminalT s.terminalDisplayed).position + count ≤ 2000
  wiped : ∀ cell : ℕ, (next.terminalT s.terminalDisplayed).position ≤ cell →
    cell < (next.terminalT s.terminalDisplayed).position + count →
      next.videoMem.get (cell * 2) = 0
  kept : ∀ cell : ℕ, cell < (next.terminalT s.terminalDisplayed).position →
    next.videoMem.get (cell * 2) = s.videoMem.get ((cell + 80 * scrolls) * 2)

namespace Console

theorem InGrid.position_nonneg {console : Console} (hgrid : console.InGrid) :
    0 ≤ console.position := by
  have hoffset := hgrid.inCells.offsets.1.1
  omega

theorem InGrid.position_lt {console : Console} (hgrid : console.InGrid) :
    console.position < 2000 := by
  have hoffset := hgrid.inCells.offsets.1.2
  omega

theorem InGrid.start_le_position {console : Console} (hgrid : console.InGrid) :
    console.startLinePtr.toInt ≤ console.position := hgrid.start_le

theorem InGrid.advance_bottom {console : Console} (hgrid : console.InGrid) :
    console.advance.screenY = numRows ↔ console.position = 1999 := by
  obtain ⟨⟨hx, hx', hy, hy'⟩, -⟩ := hgrid
  unfold Console.advance Console.position numRows numCols
  split <;> dsimp only <;> omega

theorem advance_screen (console : Console) : console.advance.screen = console.screen := by
  unfold Console.advance
  split <;> rfl

/-! ## Echo -/

/-- `count` characters have been echoed from the cursor of `first` on, and the
page has scrolled `scrolls` times. -/
structure Echoed (first : Console) (count scrolls : ℕ) (console : Console) : Prop where
  inGrid : console.InGrid
  position_eq : console.position = first.position + count - 80 * scrolls
  start_eq : console.startLinePtr.toInt = first.startLinePtr.toInt - 80 * scrolls
  low : scrolls = 0 ∨ 1920 ≤ console.position
  kept : ∀ cell : ℕ, (cell : ℤ) < first.position - 80 * scrolls →
    console.screen.get (cell * 2) = first.screen.get ((cell + 80 * scrolls) * 2)

theorem Echoed.refl {first : Console} (hgrid : first.InGrid) : first.Echoed 0 0 first :=
  ⟨hgrid, by simp, by simp, .inl rfl, fun _ _ => rfl⟩

theorem Echoed.put {first console : Console} {count scrolls : ℕ} {c : UInt8}
    (hechoed : first.Echoed count scrolls console) (hplain : IsPlain c)
    (hroom : console.advance.screenY = numRows → -2 ^ 31 + 80 ≤ console.startLinePtr.toInt) :
    ∃ next, console.put c = some next ∧
      first.Echoed (count + 1)
        (scrolls + if console.advance.screenY = numRows then 1 else 0) next := by
  obtain ⟨hgrid, hposition, hstart, hlow, hkept⟩ := hechoed
  have hline : ¬ (c = newline ∨ c = carriageReturn) := by
    rintro (rfl | rfl)
    · exact hplain.1 rfl
    · exact hplain.2.1 rfl
  have hat : console.At console.position console.startLinePtr.toInt := ⟨hgrid, rfl, rfl⟩
  obtain ⟨next, hput, hinGrid, hposition', hstart'⟩ := hat.put_char hline hplain.2.2
    fun hlast => hroom (hgrid.advance_bottom.mpr hlast)
  obtain ⟨screen, hdraw, hget⟩ := hgrid.inCells.draw_get c
  have hnext : next = { console with screen := screen }.advance.scrolled := by
    rw [Console.put, if_neg hline, if_neg hplain.2.2, hdraw] at hput
    exact (Option.some.inj hput).symm
  have hdrawn : { console with screen := screen }.InGrid := hgrid
  have hbottom := hdrawn.advance_bottom
  have hlt := hgrid.position_lt
  refine ⟨next, hput, ?_⟩
  by_cases hlast : console.position = 1999
  · have hscreen : next.screen = screen.scroll := by
      rw [hnext, scrolled_screen, if_pos (hbottom.mpr hlast), advance_screen]
    rw [if_pos hlast] at hposition' hstart'
    rw [if_pos (hgrid.advance_bottom.mpr hlast)]
    refine ⟨hinGrid, by push_cast; omega, by push_cast; omega, .inr (by omega), ?_⟩
    intro cell hcell
    push_cast at hcell
    rw [hscreen, Screen.get_scroll _ (by omega), if_neg (by omega), if_pos (by omega),
      hget _ (by omega), if_neg (by omega), if_neg (by omega),
      show cell * 2 + 160 = (cell + 80) * 2 by ring, hkept (cell + 80) (by push_cast; omega)]
    congr 1
    ring
  · have hscreen : next.screen = screen := by
      rw [hnext, scrolled_screen, if_neg (fun h => hlast (hbottom.mp h)), advance_screen]
    rw [if_neg hlast] at hposition' hstart'
    rw [if_neg (fun h => hlast (hgrid.advance_bottom.mp h))]
    refine ⟨hinGrid, by push_cast; omega, by omega, by omega, ?_⟩
    intro cell hcell
    rw [Nat.add_zero] at hcell ⊢
    rw [hscreen, hget _ (by omega), if_neg (by omega), if_neg (by omega)]
    exact hkept cell hcell

/-! ## Backspaces -/

/-- `count` cells before the cursor of `full` have been wiped. -/
structure Wiped (full : Console) (count : ℕ) (console : Console) : Prop where
  inGrid : console.InGrid
  position_eq : console.position = full.position - count
  start_eq : console.startLinePtr.toInt = full.startLinePtr.toInt
  wiped : ∀ cell : ℕ, console.position ≤ cell → cell < full.position →
    console.screen.get (cell * 2) = 0
  kept : ∀ cell : ℕ, cell < console.position →
    console.screen.get (cell * 2) = full.screen.get (cell * 2)

theorem Wiped.refl {full : Console} (hgrid : full.InGrid) : full.Wiped 0 full :=
  ⟨hgrid, by simp, rfl, fun _ hle hlt => by omega, fun _ _ => rfl⟩

theorem Wiped.put_backspace {full console : Console} {count : ℕ}
    (hwiped : full.Wiped count console) (hfull : full.position < 2000)
    (hpos : 0 < console.position)
    (hinside : console.position ≠ console.startLinePtr.toInt) :
    ∃ next, console.put backspace = some next ∧ full.Wiped (count + 1) next := by
  obtain ⟨hgrid, hposition, hstart, hcells, hkept⟩ := hwiped
  have hat : console.At console.position console.startLinePtr.toInt := ⟨hgrid, rfl, rfl⟩
  obtain ⟨next, hput, hinGrid, hposition', hstart'⟩ := hat.put_backspace hpos hinside
  have hlost : ¬ AtLostStart console.screenX console.screenY console.startLinePtr := by
    rintro ⟨hx, hy, -⟩
    rw [Console.position, hx, hy] at hpos
    exact absurd hpos (by decide)
  have hstep := hgrid.stepBack hinside hlost
  obtain ⟨screen, hwipe, hget⟩ := hstep.inCells.wipeCell_get
  have hrow : console.stepBack.screenY ≠ numRows := ne_of_lt hstep.y_lt
  have hnext : next = { console.stepBack with screen := screen } := by
    rw [Console.put, if_neg (by decide), if_pos rfl, if_neg hinside, hwipe, Option.map_some,
      Console.scrolled, if_neg hrow] at hput
    exact (Option.some.inj hput).symm
  have hback : console.stepBack.position = console.position - 1 := by
    rw [← hposition', hnext]
    rfl
  have hchars : ∀ cell : ℕ, cell < 2000 → next.screen.get (cell * 2) =
      if (cell : ℤ) = console.position - 1 then 0 else console.screen.get (cell * 2) := by
    intro cell hcell
    rw [hnext, hget _ (by omega), hback, stepBack_screen]
    by_cases heq : (cell : ℤ) = console.position - 1
    · rw [if_pos heq, if_pos (by omega)]
    · rw [if_neg heq, if_neg (by omega)]
  refine ⟨next, hput, hinGrid, by push_cast; omega, by omega, ?_, ?_⟩
  · intro cell hle hlt
    rw [hchars cell (by omega)]
    split
    · rfl
    · exact hcells cell (by omega) hlt
  · intro cell hlt
    rw [hchars cell (by omega), if_neg (by omega)]
    exact hkept cell (by omega)

end Console

/-! ## Runs -/

theorem putc2screen_of_put {s : Kernel} {c : UInt8} {console : Console}
    (hput : (s.consoles s.terminalDisplayed).put c = some console) :
    ∃ next, putc2screen s c = some next ∧ next.terminalDisplayed = s.terminalDisplayed ∧
      next.consoles s.terminalDisplayed = console := by
  have hconsoles := consoles_putc2screen s c
  rw [act, hput, Option.map_some] at hconsoles
  obtain ⟨next, hnext, hupdate⟩ := Option.map_eq_some_iff.mp hconsoles
  have hshown : next.terminalDisplayed = s.terminalDisplayed := by
    obtain ⟨_, _, _, _, rfl⟩ := putc2screen_printsOn hnext
    rfl
  refine ⟨next, hnext, hshown, ?_⟩
  rw [hupdate, Function.update_self]

theorem echo_run {first : Console} {s : Kernel} {text : List UInt8} {count scrolls : ℕ}
    (hechoed : first.Echoed count scrolls (s.consoles s.terminalDisplayed))
    (hplain : ∀ c ∈ text, IsPlain c)
    (hroom : -2 ^ 31 ≤ first.startLinePtr.toInt - 80 * (scrolls + scrollCount s text : ℕ)) :
    ∃ next, run putc2screen s text = some next ∧
      next.terminalDisplayed = s.terminalDisplayed ∧
      first.Echoed (count + text.length) (scrolls + scrollCount s text)
        (next.consoles s.terminalDisplayed) := by
  induction text generalizing s count scrolls with
  | nil => exact ⟨s, rfl, rfl, hechoed⟩
  | cons c rest ih =>
      obtain ⟨hc, hrest⟩ := List.forall_mem_cons.mp hplain
      have hmoved : ((s.terminalT s.terminalDisplayed).moved c).screenY =
          (s.consoles s.terminalDisplayed).advance.screenY := by
        have hline : ¬ (c = newline ∨ c = carriageReturn) := fun h => h.elim hc.1 hc.2.1
        rw [Terminal.moved, if_neg hline, if_neg hc.2.2, Kernel.consoles,
          ← Terminal.console_advance]
        rfl
      have hcount : scrollCount s (c :: rest) =
          (if (s.consoles s.terminalDisplayed).advance.screenY = numRows then 1 else 0) +
            (putc2screen s c).elim 0 fun next => scrollCount next rest := by
        rw [scrollCount, hmoved]
      rw [hcount] at hroom
      have hstart := hechoed.start_eq
      obtain ⟨console, hput, hconsole⟩ := hechoed.put hc fun hbottom => by
        rw [if_pos hbottom] at hroom
        push_cast at hroom
        omega
      obtain ⟨middle, hmiddle, hshown, heq⟩ := putc2screen_of_put hput
      rw [← heq, ← congrArg middle.consoles hshown] at hconsole
      rw [hmiddle, Option.elim_some] at hcount hroom
      obtain ⟨next, hrun, hshown', hnext⟩ := ih hconsole hrest (by rwa [Nat.add_assoc])
      refine ⟨next, run_cons_eq_some.mpr ⟨middle, hmiddle, hrun⟩, hshown'.trans hshown, ?_⟩
      have hlength : count + (c :: rest).length = count + 1 + rest.length := by
        rw [List.length_cons]
        omega
      rw [hcount, hlength, ← Nat.add_assoc, ← congrArg next.consoles hshown]
      exact hnext

theorem erase_run {full : Console} {s : Kernel} (count : ℕ)
    (hfull : full = s.consoles s.terminalDisplayed) (hgrid : full.InGrid)
    (hinside : full.startLinePtr.toInt ≤ full.position - count) (hcount : count ≤ full.position) :
    ∃ next, run putc2screen s (List.replicate count backspace) = some next ∧
      next.terminalDisplayed = s.terminalDisplayed ∧
      full.Wiped count (next.consoles s.terminalDisplayed) := by
  induction count with
  | zero => exact ⟨s, rfl, rfl, hfull ▸ .refl hgrid⟩
  | succ count ih =>
      push_cast at hinside hcount
      obtain ⟨middle, hrun, hshown, hwiped⟩ := ih (by omega) (by omega)
      have hposition := hwiped.position_eq
      have hstart := hwiped.start_eq
      obtain ⟨console, hput, hconsole⟩ :=
        hwiped.put_backspace hgrid.position_lt (by omega) (by omega)
      rw [← congrArg middle.consoles hshown] at hput
      obtain ⟨next, hnext, hshown', heq⟩ := putc2screen_of_put hput
      refine ⟨next, ?_, hshown'.trans hshown, ?_⟩
      · rw [List.replicate_succ', run_append, hrun, Option.bind_some]
        exact run_cons_eq_some.mpr ⟨next, hnext, rfl⟩
      · rw [← congrArg next.consoles hshown, heq]
        exact hconsole

theorem echo_takenBack {s : Kernel} {text : List UInt8}
    (hgrid : (s.terminalT s.terminalDisplayed).InGrid) (hlength : text.length ≤ 127)
    (hplain : ∀ c ∈ text, IsPlain c)
    (hroom : -2 ^ 31 ≤ (s.terminalT s.terminalDisplayed).startLinePtr.toInt -
      80 * scrollCount s text) :
    ∃ next,
      run putc2screen s (text ++ List.replicate text.length backspace) = some next ∧
      next.terminalDisplayed = s.terminalDisplayed ∧
      TakenBack s next text.length (scrollCount s text) := by
  have hfirst : (s.consoles s.terminalDisplayed).InGrid := hgrid
  obtain ⟨echoed, hecho, hshown, hechoed⟩ := echo_run (.refl hfirst) hplain
    (by rw [Nat.zero_add]; exact hroom)
  rw [Nat.zero_add, Nat.zero_add, ← congrArg echoed.consoles hshown] at hechoed
  obtain ⟨hinGrid, hposition, hstart, hlow, hkept⟩ := hechoed
  have hfrom := hfirst.start_le_position
  have hnonneg := hfirst.position_nonneg
  have hlt := hinGrid.position_lt
  obtain ⟨next, herase, hshown', hwiped⟩ :=
    erase_run text.length rfl hinGrid (by omega) (by omega)
  obtain ⟨hgrid', hposition', hstart', hcells, hkept'⟩ := hwiped
  have hshownAll := hshown'.trans hshown
  have hpage : (next.consoles echoed.terminalDisplayed).screen = next.videoMem := by
    rw [← hshown', consoles_displayed]
    rfl
  have hpage₀ : (s.consoles s.terminalDisplayed).screen = s.videoMem := by
    rw [consoles_displayed]
    rfl
  rw [hpage] at hcells hkept'
  rw [hpage₀] at hkept
  rw [congrArg next.consoles hshown] at hgrid' hposition' hstart' hcells hkept'
  have hback : (next.consoles s.terminalDisplayed).position =
      (s.consoles s.terminalDisplayed).position - 80 * scrollCount s text := by
    rw [hposition', hposition]
    ring
  refine ⟨next, ?_, hshownAll, hgrid', hback, hstart'.trans hstart, ?_, ?_, ?_⟩
  · rw [run_append, hecho, Option.bind_some]
    exact herase
  · change (next.consoles s.terminalDisplayed).position + text.length ≤ 2000
    omega
  · intro cell hle hcell
    change (next.consoles s.terminalDisplayed).position ≤ cell at hle
    change cell < (next.consoles s.terminalDisplayed).position + text.length at hcell
    exact hcells cell hle (by omega)
  · intro cell hcell
    change cell < (next.consoles s.terminalDisplayed).position at hcell
    rw [hkept' cell hcell]
    exact hkept cell (by omega)

/-- Echoing a text that fits the key buffer and then as many backspaces, from any state of
the terminal: the text is taken back exactly if the start of the line does not wrap while
the page scrolls. -/
theorem echo_takenBack_iff {s : Kernel} {text : List UInt8}
    (hgrid : (s.terminalT s.terminalDisplayed).InGrid) (hlength : text.length ≤ 127)
    (hplain : ∀ c ∈ text, IsPlain c) :
    (∃ next,
      run putc2screen s (text ++ List.replicate text.length backspace) = some next ∧
      next.terminalDisplayed = s.terminalDisplayed ∧
      TakenBack s next text.length (scrollCount s text)) ↔
      -2 ^ 31 ≤ (s.terminalT s.terminalDisplayed).startLinePtr.toInt -
        80 * scrollCount s text := by
  constructor
  · rintro ⟨next, -, -, htaken⟩
    rw [← htaken.start_eq]
    exact BitVec.le_toInt _
  · exact echo_takenBack hgrid hlength hplain

/-- Two characters typed in the last two cells of the page are taken back over
the scroll. -/
def lastCells : Kernel :=
  bootKernel.modifyTerminal 0 fun term =>
    { term with screenX := 78, screenY := 24, startLinePtr := 24 * 80 }

theorem lastCells_takenBack :
    ∃ next, run putc2screen lastCells
        (ascii "cat" ++ List.replicate (ascii "cat").length backspace) = some next ∧
      next.terminalDisplayed = lastCells.terminalDisplayed ∧
      TakenBack lastCells next (ascii "cat").length (scrollCount lastCells (ascii "cat")) := by
  refine (echo_takenBack_iff ⟨⟨by decide, by decide, by decide, by decide⟩, by decide⟩ (by decide)
    fun c hc => ?_).mpr (by decide +kernel)
  refine ⟨?_, ?_, ?_⟩ <;> exact List.forall_mem_ne'.mpr (by decide) c hc

example : scrollCount lastCells (ascii "cat") = 1 := by decide +kernel

/-- The cursor is in the last cell of a line that has scrolled up by 26843545 rows. -/
def longestLine : Kernel :=
  bootKernel.modifyTerminal 0 fun term =>
    { term with screenX := 79, screenY := 24, startLinePtr := BitVec.ofInt 32 (-26843545 * 80) }

/-- One more character takes the start of the line to the other end of its range. -/
theorem longestLine_wraps :
    (longestLine.terminalT longestLine.terminalDisplayed).InGrid ∧
      scrollCount longestLine (ascii "a") = 1 ∧
      ¬ ∃ next,
        run putc2screen longestLine
          (ascii "a" ++ List.replicate (ascii "a").length backspace) = some next ∧
        next.terminalDisplayed = longestLine.terminalDisplayed ∧
        TakenBack longestLine next (ascii "a").length
          (scrollCount longestLine (ascii "a")) := by
  have hcount : scrollCount longestLine (ascii "a") = 1 := by decide +kernel
  refine ⟨⟨⟨by decide, by decide, by decide, by decide⟩, by decide⟩, hcount, ?_⟩
  rintro ⟨next, -, -, htaken⟩
  have hstart := htaken.start_eq
  have hlow : (longestLine.terminalT longestLine.terminalDisplayed).startLinePtr.toInt =
      -26843545 * 80 := by decide
  have hle := BitVec.le_toInt (next.terminalT longestLine.terminalDisplayed).startLinePtr
  rw [hcount, hlow] at hstart
  omega

end VirtualOS
