import VirtualOS.CursorBounds
import Mathlib.Tactic

/-!
# The cells of a text page

The loops over a page move or fill its bytes one by one.  Read byte by byte, a
scroll takes every character from the row below it and leaves the attributes,
and one byte of output changes the cell under the cursor before the page is
scrolled.
-/

namespace VirtualOS

namespace Screen

theorem get_set (screen : Screen) {offset other : ℕ} (value : UInt8) (hother : other < 4000) :
    (screen.set offset value).get other = if other = offset then value else screen.get other := by
  unfold Screen.get Screen.set
  by_cases heq : other = offset
  · subst heq
    simp [hother]
  · by_cases hoffset : offset < 4000
    · simp [hother, hoffset, heq, Function.update_of_ne]
    · simp [hother, hoffset, heq]

theorem get_store {screen stored : Screen} {offset : ℤ} {value : UInt8}
    (hstore : screen.store offset value = some stored) {other : ℕ} (hother : other < 4000) :
    stored.get other = if (other : ℤ) = offset then value else screen.get other := by
  unfold Screen.store at hstore
  split at hstore
  case isTrue hoffset =>
    obtain rfl := Option.some.inj hstore
    unfold Screen.get
    by_cases heq : (other : ℤ) = offset
    · subst heq
      simp [hother]
    · have hne : (⟨other, hother⟩ : Fin 4000) ≠ ⟨offset.toNat, by omega⟩ := by
        intro h
        have := congrArg Fin.val h
        simp only at this
        omega
      simp [hother, heq, hne]
  case isFalse hoffset => contradiction

/-- The first `count` characters of a row are taken from the row below. -/
theorem get_shiftRow (screen : Screen) {y count : ℕ} (hy : y < 24) (hcount : count ≤ 80)
    {offset : ℕ} (hoffset : offset < 4000) :
    Screen.get ((List.range count).foldl (fun (screen : Screen) x =>
        screen.set ((80 * y + x) * 2) (screen.get ((80 * y + x + 80) * 2))) screen) offset =
      if offset % 2 = 0 ∧ 160 * y ≤ offset ∧ offset < 160 * y + 2 * count then
        screen.get (offset + 160)
      else screen.get offset := by
  induction count generalizing offset with
  | zero => rw [if_neg (by omega)]; rfl
  | succ count ih =>
      rw [List.range_succ, List.foldl_append, List.foldl_cons, List.foldl_nil,
        get_set _ _ hoffset, ih (by omega) (by omega), ih (by omega) hoffset]
      by_cases hcell : offset = (80 * y + count) * 2
      · rw [if_pos hcell, if_neg (by omega), if_pos (by omega)]
        congr 1
        omega
      · rw [if_neg hcell]
        by_cases hbefore : offset % 2 = 0 ∧ 160 * y ≤ offset ∧ offset < 160 * y + 2 * count
        · rw [if_pos hbefore, if_pos (by omega)]
        · rw [if_neg hbefore, if_neg (by omega)]

theorem get_shiftRows (screen : Screen) {count : ℕ} (hcount : count ≤ 24) {offset : ℕ}
    (hoffset : offset < 4000) :
    Screen.get ((List.range count).foldl (fun (screen : Screen) y =>
        (List.range 80).foldl (fun (screen : Screen) x =>
          screen.set ((80 * y + x) * 2) (screen.get ((80 * y + x + 80) * 2))) screen) screen)
        offset =
      if offset % 2 = 0 ∧ offset < 160 * count then screen.get (offset + 160)
      else screen.get offset := by
  induction count generalizing offset with
  | zero => rw [if_neg (by omega)]; rfl
  | succ count ih =>
      rw [List.range_succ (n := count), List.foldl_append, List.foldl_cons, List.foldl_nil,
        get_shiftRow _ (by omega) (le_refl 80) hoffset]
      by_cases hrow : offset % 2 = 0 ∧ 160 * count ≤ offset ∧ offset < 160 * count + 2 * 80
      · rw [if_pos hrow, ih (by omega) (by omega), if_neg (by omega), if_pos (by omega)]
      · rw [if_neg hrow, ih (by omega) hoffset]
        by_cases hbefore : offset % 2 = 0 ∧ offset < 160 * count
        · rw [if_pos hbefore, if_pos (by omega)]
        · rw [if_neg hbefore, if_neg (by omega)]

theorem get_clearRow (screen : Screen) {count : ℕ} (hcount : count ≤ 80) {offset : ℕ}
    (hoffset : offset < 4000) :
    Screen.get ((List.range count).foldl (fun (screen : Screen) x =>
        screen.set ((24 * 80 + x) * 2) 0) screen) offset =
      if offset % 2 = 0 ∧ 3840 ≤ offset ∧ offset < 3840 + 2 * count then 0
      else screen.get offset := by
  induction count with
  | zero => rw [if_neg (by omega)]; rfl
  | succ count ih =>
      rw [List.range_succ, List.foldl_append, List.foldl_cons, List.foldl_nil,
        get_set _ _ hoffset, ih (by omega)]
      by_cases hcell : offset = (24 * 80 + count) * 2
      · rw [if_pos hcell, if_pos (by omega)]
      · rw [if_neg hcell]
        by_cases hbefore : offset % 2 = 0 ∧ 3840 ≤ offset ∧ offset < 3840 + 2 * count
        · rw [if_pos hbefore, if_pos (by omega)]
        · rw [if_neg hbefore, if_neg (by omega)]

/-- A scroll moves the characters up by one row, cleans the last row and leaves the
attributes. -/
theorem get_scroll (screen : Screen) {offset : ℕ} (hoffset : offset < 4000) :
    screen.scroll.get offset =
      if offset % 2 = 1 then screen.get offset
      else if offset < 3840 then screen.get (offset + 160) else 0 := by
  unfold Screen.scroll
  rw [get_clearRow _ (le_refl 80) hoffset, get_shiftRows _ (le_refl 24) hoffset]
  by_cases hodd : offset % 2 = 1
  · rw [if_pos hodd, if_neg (by omega), if_neg (by omega)]
  · rw [if_neg hodd]
    by_cases hlast : offset < 3840
    · rw [if_pos hlast, if_neg (by omega), if_pos (by omega)]
    · rw [if_neg hlast, if_pos (by omega)]

theorem get_blankCells (screen : Screen) {count : ℕ} (hcount : count ≤ 2000) {offset : ℕ}
    (hoffset : offset < 4000) :
    Screen.get ((List.range count).foldl (fun (screen : Screen) i =>
        (screen.set (i * 2) space).set (i * 2 + 1) attrib) screen) offset =
      if offset < 2 * count then (if offset % 2 = 0 then space else attrib)
      else screen.get offset := by
  induction count with
  | zero => rw [if_neg (by omega)]; rfl
  | succ count ih =>
      rw [List.range_succ, List.foldl_append, List.foldl_cons, List.foldl_nil,
        get_set _ _ hoffset, get_set _ _ hoffset, ih (by omega)]
      by_cases hodd : offset = count * 2 + 1
      · rw [if_pos hodd, if_pos (by omega), if_neg (by omega)]
      · rw [if_neg hodd]
        by_cases heven : offset = count * 2
        · rw [if_pos heven, if_pos (by omega), if_pos (by omega)]
        · rw [if_neg heven]
          by_cases hbefore : offset < 2 * count
          · rw [if_pos hbefore, if_pos (show offset < 2 * (count + 1) by omega)]
          · rw [if_neg hbefore, if_neg (by omega)]

theorem get_blank (screen : Screen) {offset : ℕ} (hoffset : offset < 4000) :
    screen.blank.get offset = if offset % 2 = 0 then space else attrib := by
  unfold Screen.blank
  rw [get_blankCells screen (le_refl 2000) hoffset, if_pos (by omega)]

end Screen

/-! ## One character on a console -/

namespace Console

theorem InCells.draw_get {console : Console} (hgrid : console.InCells) (c : UInt8) :
    ∃ screen, console.draw c = some { console with screen := screen } ∧
      ∀ offset < 4000, screen.get offset =
        if (offset : ℤ) = console.position * 2 then c
        else if (offset : ℤ) = console.position * 2 + 1 then attrib
        else console.screen.get offset := by
  obtain ⟨stored, hstored⟩ := Screen.store_isSome console.screen c hgrid.offsets.1
  obtain ⟨screen, hscreen⟩ := Screen.store_isSome stored attrib hgrid.offsets.2
  refine ⟨screen, by simp [Console.draw, hstored, hscreen], fun offset hoffset => ?_⟩
  rw [Screen.get_store hscreen hoffset, Screen.get_store hstored hoffset]
  by_cases hcell : (offset : ℤ) = console.position * 2
  · rw [if_neg (by omega), if_pos hcell, if_pos hcell]
  · rw [if_neg hcell, if_neg hcell]

theorem InCells.wipeCell_get {console : Console} (hgrid : console.InCells) :
    ∃ screen, console.wipeCell = some { console with screen := screen } ∧
      ∀ offset < 4000, screen.get offset =
        if (offset : ℤ) = console.position * 2 then 0 else console.screen.get offset := by
  obtain ⟨screen, hscreen⟩ := Screen.store_isSome console.screen 0 hgrid.offsets.1
  refine ⟨screen, by simp [Console.wipeCell, hscreen], fun offset hoffset => ?_⟩
  exact Screen.get_store hscreen hoffset

theorem scrolled_screen (console : Console) :
    console.scrolled.screen =
      if console.screenY = numRows then console.screen.scroll else console.screen := by
  unfold Console.scrolled
  split <;> rfl

end Console

end VirtualOS
