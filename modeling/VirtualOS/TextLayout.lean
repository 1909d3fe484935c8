import VirtualOS.TextPages
import Mathlib.Data.List.GetD
import Mathlib.Tactic

/-!
# The layout of written text

Text written to a cleared terminal is wrapped into rows of at most eighty bytes,
and the page shows the last twenty-five of them.  The rows are a function of the
text alone; one byte of output adds it to the rows and moves the cursor, the
page and the rows on the page along.
-/

namespace VirtualOS

open PartialRuns

/-! ## Wrapping -/

/-- Rows of text: those that are finished and the current one, which has room. -/
structure TextRows where
  finished : List (List UInt8)
  current : List UInt8
  short : current.length < 80

namespace TextRows

def empty : TextRows := ⟨[], [], by decide⟩

def breakRow (rows : TextRows) : TextRows :=
  ⟨rows.finished ++ [rows.current], [], by decide⟩

def add (rows : TextRows) (c : UInt8) : TextRows :=
  if c = newline ∨ c = carriageReturn then rows.breakRow
  else if hfull : rows.current.length + 1 = 80 then
    ⟨rows.finished ++ [rows.current ++ [c]], [], by decide⟩
  else
    ⟨rows.finished, rows.current ++ [c], by
      have hshort := rows.short
      rw [List.length_append, List.length_singleton]
      omega⟩

def all (rows : TextRows) : List (List UInt8) := rows.finished ++ [rows.current]

end TextRows

def wrapRows (text : List UInt8) : List (List UInt8) := (text.foldl TextRows.add .empty).all

/-- The byte in column `j` of row `i`.  Rows of the cleared page are filled up
with blanks, rows that a scroll brought in with zeros. -/
def rowCell (rows : List (List UInt8)) (i j : ℕ) : UInt8 :=
  (rows.getD i []).getD j (if i < 25 then space else 0)

/-- The characters of the page are those of the rows from `top` on. -/
def Screen.ShowsRows (screen : Screen) (top : ℕ) (rows : List (List UInt8)) : Prop :=
  ∀ i < 25, ∀ j < 80, screen.get ((80 * i + j) * 2) = rowCell rows (top + i) j

/-- A console shows the last rows of a text, with the cursor behind the text. -/
structure Console.Displays (console : Console) (rows : List (List UInt8)) : Prop where
  column : console.screenX = (rows.getLast?.getD []).length
  line : console.screenY = min 24 ((rows.length : ℤ) - 1)
  characters : console.screen.ShowsRows (rows.length - 25) rows
  attributes : ∀ i < 25, ∀ j < 80, console.screen.get ((80 * i + j) * 2 + 1) = attrib

/-! ## Rows on the page -/

theorem getD_append_singleton {α : Type*} (list : List α) (last default : α) (i : ℕ) :
    (list ++ [last]).getD i default =
      if i = list.length then last else list.getD i default := by
  rcases lt_trichotomy i list.length with hlt | heq | hgt
  · rw [if_neg hlt.ne, List.getD_append _ _ _ _ hlt]
  · rw [if_pos heq, heq, List.getD_append_right _ _ _ _ (le_refl _), Nat.sub_self]
    rfl
  · rw [if_neg hgt.ne', List.getD_eq_default list _ hgt.le]
    apply List.getD_eq_default
    rw [List.length_append, List.length_singleton]
    exact hgt

theorem rowCell_append_nil (rows : List (List UInt8)) (i j : ℕ) :
    rowCell (rows ++ [[]]) i j = rowCell rows i j := by
  have hrow : (rows ++ [[]]).getD i [] = rows.getD i [] := by
    rw [getD_append_singleton]
    split
    · rename_i hend
      rw [List.getD_eq_default rows _ hend.ge]
    · rfl
  rw [rowCell, rowCell, hrow]

theorem rowCell_of_length_le {rows : List (List UInt8)} {i j : ℕ} (hi : rows.length ≤ i) :
    rowCell rows i j = if i < 25 then space else 0 := by
  rw [rowCell, List.getD_eq_default rows _ hi]
  rfl

theorem rowCell_append_character (finished : List (List UInt8)) (row : List UInt8) (c : UInt8)
    (i j : ℕ) :
    rowCell (finished ++ [row ++ [c]]) i j =
      if i = finished.length ∧ j = row.length then c
      else rowCell (finished ++ [row]) i j := by
  unfold rowCell
  rw [getD_append_singleton, getD_append_singleton]
  by_cases hi : i = finished.length
  · rw [if_pos hi, if_pos hi, getD_append_singleton]
    by_cases hj : j = row.length
    · rw [if_pos hj, if_pos ⟨hi, hj⟩]
    · rw [if_neg hj, if_neg (show ¬ (i = finished.length ∧ j = row.length) from fun h => hj h.2)]
  · rw [if_neg hi, if_neg hi,
      if_neg (show ¬ (i = finished.length ∧ j = row.length) from fun h => hi h.1)]

theorem Screen.ShowsRows.draw {screen drawn : Screen} {finished : List (List UInt8)}
    {row : List UInt8} {c : UInt8} {top y : ℕ}
    (hshows : screen.ShowsRows top (finished ++ [row])) (hy : top + y = finished.length)
    (hrow : row.length < 80)
    (hdrawn : ∀ cell < 2000, drawn.get (cell * 2) =
      if cell = 80 * y + row.length then c else screen.get (cell * 2)) :
    drawn.ShowsRows top (finished ++ [row ++ [c]]) := by
  intro i hi j hj
  rw [hdrawn _ (by omega), rowCell_append_character]
  by_cases hcell : 80 * i + j = 80 * y + row.length
  · rw [if_pos hcell, if_pos (by omega)]
  · rw [if_neg hcell, if_neg (by omega)]
    exact hshows i hi j hj

/-- A new row below the last one; the page scrolls when it is full. -/
theorem Screen.ShowsRows.nextRow {screen : Screen} {rows : List (List UInt8)} {n : ℕ}
    (hlength : rows.length = n + 1) (hshows : screen.ShowsRows (n - 24) rows) :
    (if 24 ≤ n then screen.scroll else screen).ShowsRows (n + 1 - 24) (rows ++ [[]]) := by
  intro i hi j hj
  rw [rowCell_append_nil]
  by_cases hfull : 24 ≤ n
  · rw [if_pos hfull, Screen.get_scroll _ (by omega), if_neg (by omega)]
    by_cases hlast : i = 24
    · rw [if_neg (by omega), rowCell_of_length_le (by omega), if_neg (by omega)]
    · have hbelow := hshows (i + 1) (by omega) j hj
      rw [if_pos (by omega), show (80 * i + j) * 2 + 160 = (80 * (i + 1) + j) * 2 by ring, hbelow]
      congr 1
      omega
  · rw [if_neg hfull, hshows i hi j hj]
    congr 1
    omega

/-! ## One byte -/

/-- The cursor and the page of a console follow the rows. -/
structure Console.Lays (console : Console) (rows : TextRows) : Prop where
  inCells : console.InCells
  column : console.screenX = rows.current.length
  line : console.screenY = min 24 (rows.finished.length : ℤ)
  characters : console.screen.ShowsRows (rows.finished.length - 24) rows.all
  attributes : ∀ i < 25, ∀ j < 80, console.screen.get ((80 * i + j) * 2 + 1) = attrib

namespace Console

/-- The cursor has gone to the start of the next row, which is scrolled into the page. -/
theorem Lays.of_break {console : Console} {finished : List (List UInt8)} {row : List UInt8}
    (hgrid : console.scrolled.InCells) (hx : console.screenX = 0)
    (hy : console.screenY = min 24 (finished.length : ℤ) + 1)
    (hshows : console.screen.ShowsRows (finished.length - 24) (finished ++ [row]))
    (hattribs : ∀ i < 25, ∀ j < 80, console.screen.get ((80 * i + j) * 2 + 1) = attrib) :
    console.scrolled.Lays ⟨finished ++ [row], [], by decide⟩ := by
  have hlength : (finished ++ [row]).length = finished.length + 1 := by simp
  have hbottom : console.screenY = numRows ↔ 24 ≤ finished.length := by
    rw [hy, numRows]
    omega
  have hnext := hshows.nextRow hlength
  by_cases hfull : 24 ≤ finished.length
  · rw [if_pos hfull] at hnext
    have hscrolled : console.scrolled =
        { console with
          screen := console.screen.scroll
          screenY := console.screenY - 1
          startLinePtr := console.startLinePtr - BitVec.ofInt 32 numCols } :=
      if_pos (hbottom.mpr hfull)
    rw [hscrolled] at hgrid ⊢
    refine ⟨hgrid, hx, ?_, ?_, ?_⟩
    · dsimp only
      rw [hlength]
      omega
    · dsimp only [TextRows.all]
      rw [hlength]
      exact hnext
    · intro i hi j hj
      rw [Screen.get_scroll _ (by omega), if_pos (by omega)]
      exact hattribs i hi j hj
  · rw [if_neg hfull] at hnext
    have hstay : console.scrolled = console := if_neg (fun h => hfull (hbottom.mp h))
    rw [hstay] at hgrid ⊢
    refine ⟨hgrid, hx, ?_, ?_, hattribs⟩
    · dsimp only
      rw [hlength]
      omega
    · dsimp only [TextRows.all]
      rw [hlength]
      exact hnext

theorem Lays.newLine {console : Console} {rows : TextRows} (hlays : console.Lays rows) :
    console.newLine.scrolled.Lays rows.breakRow := by
  apply Lays.of_break hlays.inCells.newLine rfl _ hlays.characters hlays.attributes
  rw [← hlays.line]
  rfl

theorem Lays.draw {console : Console} {rows : TextRows} (hlays : console.Lays rows) (c : UInt8) :
    ∃ screen, console.draw c = some { console with screen := screen } ∧
      screen.ShowsRows (rows.finished.length - 24)
        (rows.finished ++ [rows.current ++ [c]]) ∧
      ∀ i < 25, ∀ j < 80, screen.get ((80 * i + j) * 2 + 1) = attrib := by
  obtain ⟨screen, hdraw, hget⟩ := hlays.inCells.draw_get c
  have hposition : console.position =
      80 * (min 24 rows.finished.length : ℕ) + (rows.current.length : ℤ) := by
    rw [Console.position, numCols, hlays.line, hlays.column]
    push_cast
    rfl
  refine ⟨screen, hdraw, ?_, ?_⟩
  · apply hlays.characters.draw (y := min 24 rows.finished.length) (by omega) rows.short
    intro cell hcell
    rw [hget _ (by omega), hposition]
    by_cases hat : cell = 80 * min 24 rows.finished.length + rows.current.length
    · rw [if_pos hat, if_pos (by omega)]
    · rw [if_neg hat, if_neg (by omega), if_neg (by omega)]
  · intro i hi j hj
    rw [hget _ (by omega), hposition, if_neg (by omega)]
    split
    · rfl
    · exact hlays.attributes i hi j hj

theorem Lays.put {console : Console} {rows : TextRows} (hlays : console.Lays rows) {c : UInt8}
    (hback : c ≠ backspace) :
    ∃ next, console.put c = some next ∧ next.Lays (rows.add c) := by
  unfold Console.put TextRows.add
  by_cases hline : c = newline ∨ c = carriageReturn
  · rw [if_pos hline, if_pos hline]
    exact ⟨_, rfl, hlays.newLine⟩
  · rw [if_neg hline, if_neg hline, if_neg hback]
    obtain ⟨screen, hdraw, hshows, hattribs⟩ := hlays.draw c
    rw [hdraw]
    refine ⟨_, rfl, ?_⟩
    have hdrawn : { console with screen := screen }.InCells := hlays.inCells
    have hgrid := hdrawn.advance
    have hx := hlays.column
    have hshort := rows.short
    by_cases hfull : rows.current.length + 1 = 80
    · have hadvance : { console with screen := screen }.advance =
          { console with
            screen := screen
            screenX := 0
            screenY := console.screenY + 1 } := by
        unfold Console.advance numCols
        dsimp only
        rw [if_pos (by omega), show console.screenX + 1 = 80 by omega]
        rfl
      rw [dif_pos hfull]
      dsimp only
      rw [hadvance] at hgrid ⊢
      apply Lays.of_break hgrid rfl _ hshows hattribs
      dsimp only
      rw [hlays.line]
    · have hadvance : { console with screen := screen }.advance =
          { console with screen := screen, screenX := console.screenX + 1 } := by
        unfold Console.advance numCols
        dsimp only
        rw [if_neg (by omega)]
      have hstay : { console with screen := screen, screenX := console.screenX + 1 }.scrolled =
          { console with screen := screen, screenX := console.screenX + 1 } := by
        rw [Console.scrolled, if_neg]
        exact ne_of_lt hlays.inCells.y_lt
      rw [dif_neg hfull]
      dsimp only
      rw [hadvance, hstay] at hgrid ⊢
      refine ⟨hgrid, ?_, hlays.line, hshows, hattribs⟩
      dsimp only
      rw [hx, List.length_append, List.length_singleton]
      push_cast
      rfl

theorem lays_clear (console : Console) : console.clear.Lays .empty := by
  have hscreen : console.clear.screen = console.screen.blank := by simp only [Console.clear]
  refine ⟨inGrid_home.toInCells, rfl, rfl, ?_, ?_⟩
  · intro i hi j hj
    have hempty : rowCell [[]] i j = rowCell [] i j := rowCell_append_nil [] i j
    have htop : TextRows.empty.finished.length - 24 + i = i := Nat.zero_add i
    have hall : TextRows.empty.all = [[]] := rfl
    rw [hscreen, Screen.get_blank _ (by omega), if_pos (by omega), htop, hall, hempty,
      rowCell_of_length_le (Nat.zero_le i), if_pos hi]
  · intro i hi j hj
    rw [hscreen, Screen.get_blank _ (by omega), if_neg (by omega)]

theorem Lays.displays {console : Console} {rows : TextRows} (hlays : console.Lays rows) :
    console.Displays rows.all := by
  have hlength : rows.all.length = rows.finished.length + 1 := by simp [TextRows.all]
  refine ⟨?_, ?_, ?_, hlays.attributes⟩
  · rw [hlays.column, TextRows.all, List.getLast?_concat]
    rfl
  · rw [hlays.line, hlength]
    push_cast
    omega
  · have htop : rows.all.length - 25 = rows.finished.length - 24 := by omega
    rw [htop]
    exact hlays.characters

end Console

/-! ## A whole text -/

theorem printLiteral_lays {s : Kernel} {rows : TextRows} {text : List UInt8}
    (hlays : (s.consoles s.terminalNum).Lays rows) (hplain : ∀ c ∈ text, c ≠ backspace) :
    ∃ next, printLiteral s text = some next ∧
      (next.consoles next.terminalNum).Lays (text.foldl TextRows.add rows) := by
  induction text generalizing s rows with
  | nil => exact ⟨s, rfl, hlays⟩
  | cons c rest ih =>
      obtain ⟨hback, hrest⟩ := List.forall_mem_cons.mp hplain
      obtain ⟨console, hput, hconsole⟩ := hlays.put hback
      obtain ⟨middle, hputc, heq⟩ := putc_of_put hput
      rw [← heq] at hconsole
      obtain ⟨next, hprint, hnext⟩ := ih hconsole hrest
      exact ⟨next, run_cons_eq_some.mpr ⟨middle, hputc, hprint⟩, hnext⟩

/-- `terminal_write` to a cleared terminal returns the number of its bytes, and
the page of the terminal, whether it is displayed or not, shows the end of the
wrapped text. -/
theorem terminalWrite_displays {s : Kernel} {old : Console}
    (hcleared : s.consoles s.terminalNum = old.clear) (buf : ℕ → UInt8) (nbytes : ℕ)
    (hplain : ∀ i < nbytes, buf i ≠ backspace) :
    ∃ next, fopsWrite s buf nbytes (some .term) = some (.returned nbytes [] next) ∧
      (next.consoles s.terminalNum).Displays (wrapRows ((List.range nbytes).map buf)) := by
  have hstart : (s.consoles s.terminalNum).Lays .empty := by
    rw [hcleared]
    exact old.lays_clear
  have htext : ∀ c ∈ (List.range nbytes).map buf, c ≠ backspace := by
    intro c hmem
    obtain ⟨i, hi, rfl⟩ := List.mem_map.mp hmem
    exact hplain i (List.mem_range.mp hi)
  obtain ⟨next, hprint, hlays⟩ := printLiteral_lays hstart htext
  have hrunning : next.terminalNum = s.terminalNum :=
    congrArg ProcessView.terminalNum (view_printLiteral hprint)
  rw [hrunning] at hlays
  refine ⟨next, ?_, hlays.displays⟩
  rw [fopsWrite, terminalWrite, hprint]
  rfl

theorem consoles_clear_running (s : Kernel) :
    (clear s).consoles (clear s).terminalNum = (s.consoles s.terminalNum).clear := by
  have hrunning : (clear s).terminalNum = s.terminalNum :=
    congrArg ProcessView.terminalNum (view_clear s)
  rw [hrunning, consoles_clear, Function.update_self]

/-- Two rows on the terminal that is displayed and on one that is not. -/
def twoRows (i : ℕ) : UInt8 := (ascii "one\ntwo").getD i 0

theorem terminalWrite_displays_twoRows :
    (∃ next, fopsWrite (clear bootKernel) twoRows 7 (some .term) =
        some (.returned 7 [] next) ∧
      (next.consoles 0).Displays (wrapRows ((List.range 7).map twoRows))) ∧
    ∃ next, fopsWrite (clear { bootKernel with terminalNum := 1 }) twoRows 7 (some .term) =
        some (.returned 7 [] next) ∧
      (next.consoles 1).Displays (wrapRows ((List.range 7).map twoRows)) :=
  ⟨terminalWrite_displays (consoles_clear_running bootKernel) twoRows 7 (by decide),
    terminalWrite_displays (consoles_clear_running { bootKernel with terminalNum := 1 }) twoRows 7
      (by decide)⟩

example : wrapRows (ascii "one\ntwo") = [ascii "one", ascii "two"] := by decide

end VirtualOS
