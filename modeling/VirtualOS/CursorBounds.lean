import VirtualOS.ConsoleIndependence
import Mathlib.Tactic

/-!
# The cursor and the bounds of the text page

Output moves the cursor of a terminal to the right and down, a backspace moves
it back towards the start of its line, and scrolling takes both up by one row.
The start of a line that is longer than the page leaves the page at the top and
then no longer stops a backspace in the first cell.  Apart from this case the
cursor stays in the grid and every store stays in the page.
-/

namespace VirtualOS

open PartialRuns

/-- A cursor in the 80×25 grid. -/
structure InCells (screenX screenY : ℤ) : Prop where
  zero_le_x : 0 ≤ screenX
  x_lt : screenX < 80
  zero_le_y : 0 ≤ screenY
  y_lt : screenY < 25

/-- A cursor in the grid, not before the start of its line. -/
structure InGrid (screenX screenY : ℤ) (startLinePtr : BitVec 32) : Prop
    extends InCells screenX screenY where
  start_le : startLinePtr.toInt ≤ 80 * screenY + screenX

def Terminal.InGrid (term : Terminal) : Prop :=
  VirtualOS.InGrid term.screenX term.screenY term.startLinePtr

def Console.InCells (console : Console) : Prop :=
  VirtualOS.InCells console.screenX console.screenY

def Console.InGrid (console : Console) : Prop :=
  VirtualOS.InGrid console.screenX console.screenY console.startLinePtr

/-- The first cell of the page, in a line whose start has scrolled away. -/
def AtLostStart (screenX screenY : ℤ) (startLinePtr : BitVec 32) : Prop :=
  screenX = 0 ∧ screenY = 0 ∧ startLinePtr.toInt < 0

instance (screenX screenY : ℤ) (startLinePtr : BitVec 32) :
    Decidable (AtLostStart screenX screenY startLinePtr) := by
  unfold AtLostStart
  infer_instance

/-- A byte that is printed, in the last cell of a line whose start cannot be taken up
by another row. -/
def WrapsStart (screenX screenY : ℤ) (startLinePtr : BitVec 32) (c : UInt8) : Prop :=
  (c ≠ newline ∧ c ≠ carriageReturn ∧ c ≠ backspace) ∧ (screenX = 79 ∧ screenY = 24) ∧
    startLinePtr.toInt < -2 ^ 31 + 80

instance (screenX screenY : ℤ) (startLinePtr : BitVec 32) (c : UInt8) :
    Decidable (WrapsStart screenX screenY startLinePtr c) := by
  unfold WrapsStart
  infer_instance

/-! ## One byte of output -/

theorem Screen.store_isSome (screen : Screen) {offset : ℤ} (value : UInt8)
    (hoffset : 0 ≤ offset ∧ offset < 4000) :
    ∃ stored, screen.store offset value = some stored :=
  ⟨_, dif_pos hoffset⟩

/-- The start of a line goes up by a row as long as it does not wrap. -/
theorem toInt_sub_numCols {startLinePtr : BitVec 32} (hroom : -2 ^ 31 + 80 ≤ startLinePtr.toInt) :
    (startLinePtr - BitVec.ofInt 32 numCols).toInt = startLinePtr.toInt - 80 := by
  have hcols : (BitVec.ofInt 32 numCols).toInt = 80 := by decide
  have hlt : startLinePtr.toInt < 2 ^ 31 := BitVec.toInt_lt
  rw [BitVec.toInt_sub, hcols]
  exact Int.bmod_eq_of_le (by omega) (by omega)

theorem toInt_row {screenY : ℤ} (hy : 0 ≤ screenY ∧ screenY ≤ 25) :
    (BitVec.ofInt 32 (screenY * numCols)).toInt = 80 * screenY := by
  rw [BitVec.toInt_ofInt, numCols, Int.bmod_eq_of_le (by omega) (by omega)]
  omega

namespace Console

theorem InCells.scrolled {console : Console} (hx : 0 ≤ console.screenX ∧ console.screenX < 80)
    (hy : 0 ≤ console.screenY ∧ console.screenY ≤ 25) : console.scrolled.InCells := by
  unfold Console.scrolled numRows
  split
  case isTrue hbottom =>
    constructor <;> dsimp only <;> omega
  case isFalse hbottom =>
    constructor <;> omega

theorem InCells.newLine {console : Console} (hcells : console.InCells) :
    console.newLine.scrolled.InCells := by
  obtain ⟨hx, hx', hy, hy'⟩ := hcells
  apply InCells.scrolled <;> simp only [Console.newLine] <;> omega

theorem InCells.advance {console : Console} (hcells : console.InCells) :
    console.advance.scrolled.InCells := by
  obtain ⟨hx, hx', hy, hy'⟩ := hcells
  apply InCells.scrolled <;> unfold Console.advance numCols <;> split <;> dsimp only <;> omega

theorem InGrid.scrolled {console : Console} (hx : 0 ≤ console.screenX ∧ console.screenX < 80)
    (hy : 0 ≤ console.screenY ∧ console.screenY ≤ 25)
    (hstart : console.startLinePtr.toInt ≤ 80 * console.screenY + console.screenX)
    (hroom : console.screenY = 25 → -2 ^ 31 + 80 ≤ console.startLinePtr.toInt) :
    console.scrolled.InGrid := by
  refine ⟨InCells.scrolled hx hy, ?_⟩
  unfold Console.scrolled numRows
  split
  case isTrue hbottom =>
    dsimp only
    rw [toInt_sub_numCols (hroom hbottom)]
    omega
  case isFalse hbottom => exact hstart

theorem InGrid.newLine {console : Console} (hgrid : console.InGrid) :
    console.newLine.scrolled.InGrid := by
  obtain ⟨⟨hx, hx', hy, hy'⟩, -⟩ := hgrid
  have hrow := @toInt_row (console.screenY + 1) (by omega)
  apply InGrid.scrolled <;> simp only [Console.newLine, hrow] <;> omega

theorem InGrid.advance {console : Console} (hgrid : console.InGrid)
    (hroom : console.screenX = 79 → console.screenY = 24 →
      -2 ^ 31 + 80 ≤ console.startLinePtr.toInt) :
    console.advance.scrolled.InGrid := by
  obtain ⟨⟨hx, hx', hy, hy'⟩, hstart⟩ := hgrid
  apply InGrid.scrolled <;> unfold Console.advance numCols <;> split <;> dsimp only <;> omega

theorem InGrid.stepBack {console : Console} (hgrid : console.InGrid)
    (hstart : console.position ≠ console.startLinePtr.toInt)
    (hlost : ¬ AtLostStart console.screenX console.screenY console.startLinePtr) :
    console.stepBack.InGrid := by
  obtain ⟨⟨hx, hx', hy, hy'⟩, hle⟩ := hgrid
  unfold Console.position numCols at hstart
  unfold AtLostStart at hlost
  unfold Console.stepBack numCols
  split <;> refine ⟨⟨?_, ?_, ?_, ?_⟩, ?_⟩ <;> dsimp only <;> omega

theorem InCells.offsets {console : Console} (hcells : console.InCells) :
    (0 ≤ console.position * 2 ∧ console.position * 2 < 4000) ∧
      (0 ≤ console.position * 2 + 1 ∧ console.position * 2 + 1 < 4000) := by
  obtain ⟨hx, hx', hy, hy'⟩ := hcells
  unfold Console.position numCols
  omega

theorem InCells.draw {console : Console} (hcells : console.InCells) (c : UInt8) :
    ∃ screen, console.draw c = some { console with screen := screen } := by
  obtain ⟨stored, hstored⟩ := Screen.store_isSome console.screen c hcells.offsets.1
  obtain ⟨stored', hstored'⟩ := Screen.store_isSome stored attrib hcells.offsets.2
  exact ⟨stored', by simp [Console.draw, hstored, hstored']⟩

theorem InCells.wipeCell {console : Console} (hcells : console.InCells) :
    ∃ screen, console.wipeCell = some { console with screen := screen } := by
  obtain ⟨stored, hstored⟩ := Screen.store_isSome console.screen 0 hcells.offsets.1
  exact ⟨stored, by simp [Console.wipeCell, hstored]⟩

theorem InGrid.inCells {console : Console} (hgrid : console.InGrid) : console.InCells :=
  hgrid.toInCells

theorem InGrid.put {console : Console} (hgrid : console.InGrid) {c : UInt8}
    (hlost : c = backspace →
      ¬ AtLostStart console.screenX console.screenY console.startLinePtr)
    (hroom : ¬ WrapsStart console.screenX console.screenY console.startLinePtr c) :
    ∃ next, console.put c = some next ∧ next.InGrid := by
  unfold Console.put
  by_cases hline : c = newline ∨ c = carriageReturn
  · exact ⟨_, if_pos hline, hgrid.newLine⟩
  rw [if_neg hline]
  by_cases hback : c = backspace
  · rw [if_pos hback]
    by_cases hstart : console.position = console.startLinePtr.toInt
    · exact ⟨_, if_pos hstart, hgrid⟩
    · have hstep := hgrid.stepBack hstart (hlost hback)
      obtain ⟨screen, hwipe⟩ := hstep.inCells.wipeCell
      have hrow : console.stepBack.screenY ≠ 25 := ne_of_lt hstep.y_lt
      rw [if_neg hstart, hwipe]
      exact ⟨_, rfl, InGrid.scrolled ⟨hstep.zero_le_x, hstep.x_lt⟩
        ⟨hstep.zero_le_y, le_of_lt hstep.y_lt⟩ hstep.start_le fun h => absurd h hrow⟩
  · rw [if_neg hback]
    obtain ⟨screen, hdraw⟩ := hgrid.inCells.draw c
    rw [hdraw]
    have hdrawn : { console with screen := screen }.InGrid := hgrid
    refine ⟨_, rfl, hdrawn.advance fun hx hy => not_lt.mp fun hlow => hroom ?_⟩
    exact ⟨⟨fun h => hline (.inl h), fun h => hline (.inr h), hback⟩, ⟨hx, hy⟩, hlow⟩

end Console

/-! ## The bytes that the routines touch -/

def scrollOffsets : List ℤ :=
  ((List.range 24).flatMap fun y : ℕ => (List.range 80).flatMap fun x : ℕ =>
    [(80 * (y : ℤ) + x) * 2, (80 * (y : ℤ) + x + 80) * 2]) ++
  (List.range 80).map fun x : ℕ => (24 * 80 + (x : ℤ)) * 2

def blankOffsets : List ℤ :=
  (List.range 2000).flatMap fun i : ℕ => [(i : ℤ) * 2, (i : ℤ) * 2 + 1]

namespace Terminal

def scrollTouches (term : Terminal) : List ℤ :=
  if term.screenY = numRows then scrollOffsets else []

/-- The offsets of the page that `putc` and `putc2screen` touch for a byte. -/
def putTouches (term : Terminal) (c : UInt8) : List ℤ :=
  if c = newline ∨ c = carriageReturn then term.newLine.scrollTouches
  else if c = backspace then
    if term.screenY * numCols + term.screenX = term.startLinePtr.toInt then []
    else term.stepBack.position * 2 :: term.stepBack.scrollTouches
  else term.position * 2 :: (term.position * 2 + 1) :: term.advance.scrollTouches

end Terminal

def InPage (offset : ℤ) : Prop := 0 ≤ offset ∧ offset < 4000

theorem inPage_of_mem_scrollOffsets {offset : ℤ} (hmem : offset ∈ scrollOffsets) :
    InPage offset := by
  unfold InPage
  simp only [scrollOffsets, List.mem_append, List.mem_flatMap, List.mem_map, List.mem_range,
    List.mem_cons, List.not_mem_nil, or_false] at hmem
  rcases hmem with ⟨y, hy, x, hx, rfl | rfl⟩ | ⟨x, hx, rfl⟩ <;> omega

theorem inPage_of_mem_blankOffsets {offset : ℤ} (hmem : offset ∈ blankOffsets) :
    InPage offset := by
  unfold InPage
  simp only [blankOffsets, List.mem_flatMap, List.mem_range, List.mem_cons, List.not_mem_nil,
    or_false] at hmem
  obtain ⟨i, hi, rfl | rfl⟩ := hmem <;> omega

theorem Terminal.inPage_of_mem_scrollTouches {term : Terminal} {offset : ℤ}
    (hmem : offset ∈ term.scrollTouches) : InPage offset := by
  unfold Terminal.scrollTouches at hmem
  split at hmem
  · exact inPage_of_mem_scrollOffsets hmem
  · exact absurd hmem List.not_mem_nil

theorem Terminal.InGrid.putTouches {term : Terminal} (hgrid : term.InGrid) {c : UInt8}
    (hlost : c = backspace → ¬ AtLostStart term.screenX term.screenY term.startLinePtr)
    {offset : ℤ} (hmem : offset ∈ term.putTouches c) : InPage offset := by
  have hconsole : (term.console fun _ => 0).InGrid := hgrid
  unfold Terminal.putTouches at hmem
  split at hmem
  · exact Terminal.inPage_of_mem_scrollTouches hmem
  · split at hmem
    case isTrue hback =>
      split at hmem
      · exact absurd hmem List.not_mem_nil
      case isFalse hstart =>
        have hposition : (term.console fun _ => 0).position ≠ term.startLinePtr.toInt := by
          rw [Int.mul_comm] at hstart
          exact hstart
        have hstep := (hconsole.stepBack hposition (hlost hback)).inCells.offsets.1
        rw [← Terminal.position_stepBack] at hstep
        rcases List.mem_cons.mp hmem with rfl | hscroll
        · exact hstep
        · exact Terminal.inPage_of_mem_scrollTouches hscroll
    case isFalse hback =>
      rcases List.mem_cons.mp hmem with rfl | hmem
      · exact hconsole.inCells.offsets.1
      · rcases List.mem_cons.mp hmem with rfl | hscroll
        · exact hconsole.inCells.offsets.2
        · exact Terminal.inPage_of_mem_scrollTouches hscroll

/-! ## Runs -/

/-- Output to the terminals.  A byte comes from the running process or is echoed
on the displayed terminal; either terminal can become another one at any time. -/
inductive DrawOp where
  | putc (c : UInt8)
  | putc2screen (c : UInt8)
  | clear
  | ctrlL
  | schedule (t : Fin 3)
  | display (t : Fin 3)

def drawStep (s : Kernel) : DrawOp → Option Kernel
  | .putc c => putc s c
  | .putc2screen c => putc2screen s c
  | .clear => some (clear s)
  | .ctrlL => some (clearDisplayed s)
  | .schedule t => some { s with terminalNum := t }
  | .display t => some (showTerminal s t)

/-- The offsets of a text page that an operation touches. -/
def touches (s : Kernel) : DrawOp → List ℤ
  | .putc c => s.running.putTouches c
  | .putc2screen c => (s.terminalT s.terminalDisplayed).putTouches c
  | .clear => blankOffsets
  | .ctrlL => blankOffsets
  | .schedule _ => []
  | .display _ => (List.range 4000).map Int.ofNat

/-- A backspace in the first cell, in a line whose start has scrolled away. -/
def OverTop (term : Terminal) (c : UInt8) : Prop :=
  c = backspace ∧ AtLostStart term.screenX term.screenY term.startLinePtr

instance (term : Terminal) (c : UInt8) : Decidable (OverTop term c) := by
  unfold OverTop
  infer_instance

/-- A byte that takes the cursor over the top of the page, or wraps the start of its line. -/
def LosesStart (term : Terminal) (c : UInt8) : Prop :=
  OverTop term c ∨ WrapsStart term.screenX term.screenY term.startLinePtr c

instance (term : Terminal) (c : UInt8) : Decidable (LosesStart term c) := by
  unfold LosesStart
  infer_instance

def DrawOp.LosesStart (s : Kernel) : DrawOp → Prop
  | .putc c => VirtualOS.LosesStart s.running c
  | .putc2screen c => VirtualOS.LosesStart (s.terminalT s.terminalDisplayed) c
  | _ => False

instance (s : Kernel) : (op : DrawOp) → Decidable (op.LosesStart s)
  | .putc c => inferInstanceAs (Decidable (VirtualOS.LosesStart s.running c))
  | .putc2screen c =>
      inferInstanceAs (Decidable (VirtualOS.LosesStart (s.terminalT s.terminalDisplayed) c))
  | .clear => isFalse id
  | .ctrlL => isFalse id
  | .schedule _ => isFalse id
  | .display _ => isFalse id

theorem inGrid_update {consoles : Fin 3 → Console} (hgrid : ∀ t, (consoles t).InGrid)
    {t : Fin 3} {console : Console} (hconsole : console.InGrid) (u : Fin 3) :
    (Function.update consoles t console u).InGrid := by
  by_cases hut : u = t
  · subst hut
    simpa using hconsole
  · simpa [hut] using hgrid u

theorem act_inGrid {s : Kernel} {result : Option Kernel} {t : Fin 3}
    {f : Console → Option Console} (hgrid : ∀ t, (s.consoles t).InGrid)
    (hresult : result.map Kernel.consoles = act s.consoles t f)
    (hconsole : ∃ next, f (s.consoles t) = some next ∧ next.InGrid) :
    ∃ next, result = some next ∧ ∀ t, (next.consoles t).InGrid := by
  obtain ⟨console, hf, hnext⟩ := hconsole
  rw [act, hf, Option.map_some] at hresult
  obtain ⟨next, hsome, hconsoles⟩ := Option.map_eq_some_iff.mp hresult
  refine ⟨next, hsome, fun u => ?_⟩
  rw [hconsoles]
  exact inGrid_update hgrid hnext u

theorem inGrid_home : VirtualOS.InGrid 0 0 0 :=
  ⟨⟨by decide, by decide, by decide, by decide⟩, by decide⟩

theorem drawStep_inGrid {s : Kernel} {op : DrawOp} (hgrid : ∀ t, (s.consoles t).InGrid)
    (hop : ¬ op.LosesStart s) :
    ∃ next, drawStep s op = some next ∧ ∀ t, (next.consoles t).InGrid := by
  cases op with
  | putc c =>
      apply act_inGrid hgrid (consoles_putc s c)
      exact (hgrid s.terminalNum).put (fun hback hlost => hop (.inl ⟨hback, hlost⟩))
        fun hwraps => hop (.inr hwraps)
  | putc2screen c =>
      apply act_inGrid hgrid (consoles_putc2screen s c)
      exact (hgrid s.terminalDisplayed).put (fun hback hlost => hop (.inl ⟨hback, hlost⟩))
        fun hwraps => hop (.inr hwraps)
  | clear =>
      have hclear : (s.consoles s.terminalNum).clear.InGrid := inGrid_home
      refine ⟨_, rfl, fun t => ?_⟩
      rw [consoles_clear]
      exact inGrid_update hgrid hclear t
  | ctrlL =>
      have hreset : (s.consoles s.terminalDisplayed).reset.InGrid := inGrid_home
      refine ⟨_, rfl, fun t => ?_⟩
      rw [consoles_clearDisplayed]
      exact inGrid_update hgrid hreset t
  | schedule t => exact ⟨_, rfl, hgrid⟩
  | display t =>
      refine ⟨_, rfl, fun u => ?_⟩
      rw [consoles_showTerminal]
      exact hgrid u

theorem touches_inPage {s : Kernel} {op : DrawOp} (hgrid : ∀ t, (s.consoles t).InGrid)
    (hop : ¬ op.LosesStart s) : ∀ offset ∈ touches s op, InPage offset := by
  intro offset hmem
  cases op with
  | putc c =>
      have hrunning : s.running.InGrid := hgrid s.terminalNum
      exact hrunning.putTouches (fun hback hlost => hop (.inl ⟨hback, hlost⟩)) hmem
  | putc2screen c =>
      have hshown : (s.terminalT s.terminalDisplayed).InGrid := hgrid s.terminalDisplayed
      exact hshown.putTouches (fun hback hlost => hop (.inl ⟨hback, hlost⟩)) hmem
  | clear => exact inPage_of_mem_blankOffsets hmem
  | ctrlL => exact inPage_of_mem_blankOffsets hmem
  | schedule t => exact absurd hmem List.not_mem_nil
  | display t =>
      obtain ⟨i, hi, rfl⟩ := List.mem_map.mp hmem
      have hlt := List.mem_range.mp hi
      unfold InPage
      constructor <;> simp only [Int.ofNat_eq_natCast] <;> omega

/-- In every run without a backspace over a lost start and without a start that wraps, every
cursor stays in the grid and every byte touched is one of the page. -/
theorem cursor_inGrid_of_run {s : Kernel} {ops : List DrawOp}
    (hstart : ∀ t, (s.terminalT t).InGrid)
    (hmeets : Meets drawStep (fun s op => ¬ op.LosesStart s) s ops) :
    (∃ final, run drawStep s ops = some final ∧ ∀ t, (final.terminalT t).InGrid) ∧
      Meets drawStep (fun s op => ∀ offset ∈ touches s op, InPage offset) s ops := by
  constructor
  · exact run_progress_of_meets (fun s => ∀ t, (s.consoles t).InGrid)
      (fun s op hgrid hop => drawStep_inGrid hgrid hop) hstart hmeets
  · apply hmeets.imp_of_invariant (fun s => ∀ t, (s.consoles t).InGrid) _ _ hstart
    · intro s op next hgrid hop hstep
      obtain ⟨next', hstep', hgrid'⟩ := drawStep_inGrid hgrid hop
      rw [hstep] at hstep'
      obtain rfl := Option.some.inj hstep'
      exact hgrid'
    · exact fun s op hgrid hop => touches_inPage hgrid hop

theorem bootKernel_inGrid (t : Fin 3) : (bootKernel.terminalT t).InGrid := inGrid_home

theorem cursor_inGrid_of_bootKernel :
    ∃ final, run drawStep bootKernel [.putc 0x61, .display 1, .putc backspace, .putc backspace,
      .putc2screen newline, .ctrlL, .clear] = some final ∧ ∀ t, (final.terminalT t).InGrid :=
  (cursor_inGrid_of_run bootKernel_inGrid (by decide +kernel)).1

/-! ## A line longer than the page -/

namespace Console

/-- The cursor of a console, as a position in the page. -/
structure At (console : Console) (position startLinePtr : ℤ) : Prop where
  inGrid : console.InGrid
  position_eq : console.position = position
  start_eq : console.startLinePtr.toInt = startLinePtr

theorem advance_startLinePtr (console : Console) :
    console.advance.startLinePtr = console.startLinePtr := by
  unfold Console.advance
  split <;> rfl

theorem At.put_char {console : Console} {position startLinePtr : ℤ} {c : UInt8}
    (hat : console.At position startLinePtr)
    (hline : ¬ (c = newline ∨ c = carriageReturn)) (hback : c ≠ backspace)
    (hroom : position = 1999 → -2 ^ 31 + 80 ≤ startLinePtr) :
    ∃ next, console.put c = some next ∧
      next.At (if position = 1999 then 1920 else position + 1)
        (if position = 1999 then startLinePtr - 80 else startLinePtr) := by
  obtain ⟨hgrid, hposition, hstart⟩ := hat
  obtain ⟨screen, hdraw⟩ := hgrid.inCells.draw c
  have hdrawn : { console with screen := screen }.InGrid := hgrid
  have hlast : console.screenX = 79 → console.screenY = 24 → position = 1999 := by
    intro hx hy
    rw [Console.position, hx, hy, numCols] at hposition
    omega
  have hadvance := hdrawn.advance fun hx hy => hstart ▸ hroom (hlast hx hy)
  refine ⟨{ console with screen := screen }.advance.scrolled, ?_, hadvance, ?_, ?_⟩
  · rw [Console.put, if_neg hline, if_neg hback, hdraw]
    rfl
  · obtain ⟨⟨hx, hx', hy, hy'⟩, hle⟩ := hgrid
    unfold Console.position numCols at hposition
    unfold Console.scrolled Console.advance numRows numCols Console.position numCols
    split_ifs <;> dsimp only at * <;> omega
  · obtain ⟨⟨hx, hx', hy, hy'⟩, hle⟩ := hgrid
    unfold Console.position numCols at hposition
    by_cases hend : position = 1999
    · have hbottom : { console with screen := screen }.advance.screenY = numRows := by
        unfold Console.advance numRows numCols
        split_ifs <;> dsimp only at * <;> omega
      rw [if_pos hend, Console.scrolled, if_pos hbottom]
      dsimp only
      rw [advance_startLinePtr, toInt_sub_numCols (by rw [hstart]; exact hroom hend), hstart]
    · have hbottom : { console with screen := screen }.advance.screenY ≠ numRows := by
        unfold Console.advance numRows numCols
        split_ifs <;> dsimp only at * <;> omega
      rw [if_neg hend, Console.scrolled, if_neg hbottom, advance_startLinePtr]
      exact hstart

theorem At.put_backspace {console : Console} {position startLinePtr : ℤ}
    (hat : console.At position startLinePtr) (hpos : 0 < position)
    (hinside : position ≠ startLinePtr) :
    ∃ next, console.put backspace = some next ∧ next.At (position - 1) startLinePtr := by
  obtain ⟨hgrid, hposition, hstart⟩ := hat
  have hne : console.position ≠ console.startLinePtr.toInt := by omega
  have hlost : ¬ AtLostStart console.screenX console.screenY console.startLinePtr := by
    rintro ⟨hx, hy, -⟩
    rw [Console.position, hx, hy] at hposition
    simp at hposition
    omega
  have hstep := hgrid.stepBack hne hlost
  obtain ⟨screen, hwipe⟩ := hstep.inCells.wipeCell
  have hrow : console.stepBack.screenY ≠ numRows := ne_of_lt hstep.y_lt
  refine ⟨{ console.stepBack with screen := screen }, ?_, hstep, ?_, ?_⟩
  · rw [Console.put, if_neg (by decide), if_pos rfl, if_neg hne, hwipe, Option.map_some,
      Console.scrolled, if_neg hrow]
  all_goals
    unfold Console.position numCols at hposition
    unfold Console.stepBack numCols
    try unfold Console.position numCols
    split_ifs <;> dsimp only at * <;> omega

end Console

theorem putc_of_put {s : Kernel} {c : UInt8} {console : Console}
    (hput : (s.consoles s.terminalNum).put c = some console) :
    ∃ next, putc s c = some next ∧ next.consoles next.terminalNum = console := by
  have hconsoles := consoles_putc s c
  rw [act, hput, Option.map_some] at hconsoles
  obtain ⟨next, hnext, hupdate⟩ := Option.map_eq_some_iff.mp hconsoles
  have hrunning : next.terminalNum = s.terminalNum :=
    congrArg ProcessView.terminalNum (view_putc hnext)
  refine ⟨next, hnext, ?_⟩
  rw [hupdate, hrunning, Function.update_self]

theorem run_putc_replicate {s : Kernel} {c : UInt8} (P : ℕ → Console → Prop) (n : ℕ)
    (hstart : P 0 (s.consoles s.terminalNum))
    (hput : ∀ k < n, ∀ console, P k console →
      ∃ next, Console.put console c = some next ∧ P (k + 1) next) :
    ∃ final, run drawStep s (List.replicate n (.putc c)) = some final ∧
      P n (final.consoles final.terminalNum) := by
  induction n with
  | zero => exact ⟨s, rfl, hstart⟩
  | succ n ih =>
      obtain ⟨middle, hrun, hmiddle⟩ := ih fun k hk => hput k (by omega)
      obtain ⟨console, hconsole, hlast⟩ := hput n (by omega) _ hmiddle
      obtain ⟨final, hfinal, heq⟩ := putc_of_put hconsole
      refine ⟨final, ?_, by rw [heq]; exact hlast⟩
      rw [List.replicate_succ', run_append, hrun, Option.bind_some]
      exact run_cons_eq_some.mpr ⟨final, hfinal, rfl⟩

theorem run_fill {s : Kernel} (hhome : (s.consoles s.terminalNum).At 0 0) :
    ∃ filled, run drawStep s (List.replicate 2000 (.putc 0x61)) = some filled ∧
      (filled.consoles filled.terminalNum).At 1920 (-80) := by
  have hchar : ∀ k < 1999, ∀ console : Console, console.At (k : ℕ) 0 →
      ∃ next, console.put 0x61 = some next ∧ next.At ((k + 1 : ℕ) : ℤ) 0 := by
    intro k hk console hconsole
    obtain ⟨next, hnext, hat⟩ := hconsole.put_char (c := 0x61) (by decide) (by decide) (by omega)
    rw [if_neg (by omega), if_neg (by omega)] at hat
    exact ⟨next, hnext, by exact_mod_cast hat⟩
  obtain ⟨middle, hmiddle, hat⟩ :=
    run_putc_replicate (fun k console => console.At (k : ℕ) 0) 1999 hhome hchar
  obtain ⟨console, hput, hlast⟩ := hat.put_char (c := 0x61) (by decide) (by decide)
    (by decide)
  obtain ⟨filled, hfilled, heq⟩ := putc_of_put hput
  refine ⟨filled, ?_, by rw [heq]; exact hlast⟩
  rw [show 2000 = 1999 + 1 from rfl, List.replicate_succ', run_append, hmiddle, Option.bind_some]
  exact run_cons_eq_some.mpr ⟨filled, hfilled, rfl⟩

theorem run_takeBack {s : Kernel} (hat : (s.consoles s.terminalNum).At 1920 (-80)) :
    ∃ reached, run drawStep s (List.replicate 1920 (.putc backspace)) = some reached ∧
      (reached.consoles reached.terminalNum).At 0 (-80) := by
  have hback : ∀ k < 1920, ∀ console : Console, console.At (1920 - (k : ℕ)) (-80) →
      ∃ next, console.put backspace = some next ∧
        next.At (1920 - ((k + 1 : ℕ) : ℤ)) (-80) := by
    intro k hk console hconsole
    obtain ⟨next, hnext, hat⟩ := hconsole.put_backspace (by omega) (by omega)
    refine ⟨next, hnext, ?_⟩
    rw [Nat.cast_succ, ← sub_sub]
    exact hat
  exact run_putc_replicate (fun k console => console.At (1920 - (k : ℕ)) (-80)) 1920 hat hback

theorem OverTop.mem_putTouches {term : Terminal} {c : UInt8} (hover : OverTop term c) :
    -2 ∈ term.putTouches c := by
  obtain ⟨rfl, hx, hy, hlost⟩ := hover
  have hback : term.stepBack.position * 2 = -2 := by
    simp [Terminal.stepBack, Terminal.position, hx, hy, numCols]
  have hstart : term.screenY * numCols + term.screenX ≠ term.startLinePtr.toInt := by
    rw [hx, hy]
    omega
  unfold Terminal.putTouches
  rw [if_neg (by decide), if_pos rfl, if_neg hstart, hback]
  exact List.mem_cons_self

theorem AtLostStart.put_eq_none {console : Console}
    (hlost : AtLostStart console.screenX console.screenY console.startLinePtr) :
    console.put backspace = none := by
  obtain ⟨hx, hy, hlost⟩ := hlost
  have hstart : console.position ≠ console.startLinePtr.toInt := by
    rw [Console.position, hx, hy]
    omega
  have hstore : console.stepBack.screen.store (console.stepBack.position * 2) 0 = none := by
    have hback : console.stepBack.position * 2 = -2 := by
      simp [Console.stepBack, Console.position, hx, hy, numCols]
    rw [hback]
    exact dif_neg (by decide)
  rw [Console.put, if_neg (by decide), if_pos rfl, if_neg hstart, Console.wipeCell, hstore]
  rfl

/-- A process that writes 2000 characters and takes 1920 of them back is in the
first cell, and the next backspace writes in front of the page. -/
theorem putc_overTop_touches :
    (∀ t, (bootKernel.terminalT t).InGrid) ∧ ∃ reached,
      run drawStep bootKernel
        (List.replicate 2000 (.putc 0x61) ++ List.replicate 1920 (.putc backspace)) =
          some reached ∧
      -2 ∈ touches reached (.putc backspace) ∧ ¬ InPage (-2) ∧
        drawStep reached (.putc backspace) = none := by
  obtain ⟨filled, hfilled, hlong⟩ := run_fill (s := bootKernel) ⟨inGrid_home, rfl, rfl⟩
  obtain ⟨reached, hreached, hgrid, hposition, hstart⟩ := run_takeBack hlong
  have hlost : AtLostStart reached.running.screenX reached.running.screenY
      reached.running.startLinePtr := by
    obtain ⟨⟨hx, hx', hy, hy'⟩, hle⟩ := hgrid
    unfold Console.position numCols at hposition
    change AtLostStart (reached.consoles reached.terminalNum).screenX
      (reached.consoles reached.terminalNum).screenY
      (reached.consoles reached.terminalNum).startLinePtr
    unfold AtLostStart
    omega
  refine ⟨bootKernel_inGrid, reached, ?_, OverTop.mem_putTouches ⟨rfl, hlost⟩, ?_, ?_⟩
  · rw [run_append, hfilled, Option.bind_some, hreached]
  · rintro ⟨hle, -⟩
    exact absurd hle (by decide)
  · have hconsoles := consoles_putc reached backspace
    have hnone : (reached.consoles reached.terminalNum).put backspace = none :=
      AtLostStart.put_eq_none hlost
    rw [act, hnone] at hconsoles
    exact Option.map_eq_none_iff.mp hconsoles

end VirtualOS
