import VirtualOS.BlinkWaves
import VirtualOS.GrepProgram
import Mathlib.Tactic

/-!
# The two frames of `fish`

`add_frames` reads two text files side by side, a character of each in turn, and
adds a blinking record for every place where one of them has something other
than a space.  The records all have the same lengths, so the page shows the two
pictures in turn.
-/

namespace VirtualOS

/-! ## The source -/

/-- The variables that `add_frames` keeps for one file. -/
structure FrameFile (σ : Type) where
  fd : σ
  c : UInt8
  eof : Bool

section Source

variable {σ : Type}

/-- One more character of a file, unless its line has ended. -/
def FrameFile.advance (calls : FileCalls σ) (file : FrameFile σ) : FrameFile σ :=
  if file.c ≠ 10 then
    match calls.read file.fd 1 with
    | none => file
    | some ([], fd) => { fd := fd, c := 10, eof := true }
    | some (char :: _, fd) => { file with fd := fd, c := char }
  else file

/-- A file at the start of a row. -/
def FrameFile.nextRow (file : FrameFile σ) : FrameFile σ :=
  if file.eof then { file with c := 10 } else { file with c := 48 }

/-- The record for two characters: a line that has ended is continued by spaces. -/
def frameRecord (record : Mp1BlinkStruct) (row col : ℕ) (c0 c1 : UInt8) : Mp1BlinkStruct :=
  { record with
    onChar := if c0 = 10 then 32 else c0
    offChar := if c1 = 10 then 32 else c1
    location := BitVec.ofNat 16 (row * 80 + col + 40) }

/-- The loop over the characters of a row. -/
def addRow (calls : FileCalls σ) (record : Mp1BlinkStruct) (row : ℕ) :
    ℕ → ℕ → FrameFile σ → FrameFile σ → Fish → Option (FrameFile σ × FrameFile σ × Fish)
  | 0, _, _, _, _ => none
  | rounds + 1, col, file0, file1, fish =>
      let file0 := file0.advance calls
      let file1 := file1.advance calls
      if file0.c = 10 ∧ file1.c = 10 then some (file0, file1, fish)
      else
        let fish :=
          if (file0.c ≠ 32 ∧ file0.c ≠ 10) ∨ (file1.c ≠ 32 ∧ file1.c ≠ 10) then
            (fish.mp1IoctlAdd (frameRecord record row col file0.c file1.c)).2
          else fish
        addRow calls record row rounds (col + 1) file0 file1 fish

/-- The loop over the rows.  `rounds` bounds both loops. -/
def addRows (calls : FileCalls σ) (record : Mp1BlinkStruct) (width : ℕ) :
    ℕ → ℕ → FrameFile σ → FrameFile σ → Fish → Option Fish
  | 0, _, _, _, _ => none
  | rounds + 1, row, file0, file1, fish =>
      if file0.eof = false ∨ file1.eof = false then
        (addRow calls record row width 0 file0 file1 fish).bind fun result =>
          addRows calls record width rounds (row + 1) result.1.nextRow result.2.1.nextRow
            result.2.2
      else some fish

/-- `add_frames`, on a record whose lengths are set to 15.  No result when a file does not
open: the program halts. -/
def addFrames (calls : FileCalls σ) (rounds : ℕ) (f0 f1 : List UInt8)
    (record : Mp1BlinkStruct) (fish : Fish) : Option Fish :=
  (calls.openFile f0).bind fun fd0 =>
    (calls.openFile f1).bind fun fd1 =>
      addRows calls { record with onLength := 15, offLength := 15 } rounds rounds 0
        ⟨fd0, 48, false⟩ ⟨fd1, 48, false⟩ fish

end Source

/-- The calls for files that are found by name and read in consecutive slices. -/
def namedCalls (files : List UInt8 → Option (List UInt8)) : FileCalls (List UInt8) where
  openFile := files
  read rest n := some (rest.take n, rest.drop n)
  close _ := true

/-! ## The records of a row and of all rows -/

/-- The character of a line at a column; past its end there are spaces. -/
def glyph (line : List UInt8) (col : ℕ) : UInt8 := line.getD col 32

/-- The records for the rest of a row, from a column on. -/
def rowRecords (record : Mp1BlinkStruct) (row : ℕ) :
    ℕ → List UInt8 → List UInt8 → List Mp1BlinkStruct
  | _, [], [] => []
  | col, [], c1 :: line1 =>
      (if c1 ≠ 32 then [frameRecord record row col 32 c1] else []) ++
        rowRecords record row (col + 1) [] line1
  | col, c0 :: line0, [] =>
      (if c0 ≠ 32 then [frameRecord record row col c0 32] else []) ++
        rowRecords record row (col + 1) line0 []
  | col, c0 :: line0, c1 :: line1 =>
      (if c0 ≠ 32 ∨ c1 ≠ 32 then [frameRecord record row col c0 c1] else []) ++
        rowRecords record row (col + 1) line0 line1

/-- The records for the rows from one on. -/
def frameRecords (record : Mp1BlinkStruct) :
    ℕ → List (List UInt8) → List (List UInt8) → List Mp1BlinkStruct
  | _, [], [] => []
  | row, [], line1 :: lines1 =>
      rowRecords record row 0 [] line1 ++ frameRecords record (row + 1) [] lines1
  | row, line0 :: lines0, [] =>
      rowRecords record row 0 line0 [] ++ frameRecords record (row + 1) lines0 []
  | row, line0 :: lines0, line1 :: lines1 =>
      rowRecords record row 0 line0 line1 ++ frameRecords record (row + 1) lines0 lines1

/-! ## The lines of a file -/

/-- The bytes of a file behind the line that is read. -/
def tailBytes (lines : List (List UInt8)) : List UInt8 :=
  lines.flatMap fun line => newline :: line

theorem exists_lines (text : List UInt8) :
    ∃ line rest, text.splitOn newline = line :: rest ∧ text = line ++ tailBytes rest ∧
      ∀ other ∈ line :: rest, newline ∉ other := by
  induction text with
  | nil => exact ⟨[], [], rfl, rfl, by simp⟩
  | cons char text ih =>
      obtain ⟨line, rest, hsplit, htext, hplain⟩ := ih
      by_cases hchar : char = newline
      · subst hchar
        refine ⟨[], line :: rest, ?_, ?_, ?_⟩
        · rw [List.splitOn_cons_eq_if_modifyHead, if_pos (by simp), hsplit]
        · rw [htext]
          rfl
        · simpa using hplain
      · refine ⟨char :: line, rest, ?_, ?_, ?_⟩
        · rw [List.splitOn_cons_eq_if_modifyHead, if_neg (by simpa using hchar), hsplit]
          rfl
        · rw [htext]
          rfl
        · rw [List.forall_mem_cons] at hplain ⊢
          refine ⟨?_, hplain.2⟩
          rw [List.mem_cons, not_or]
          exact ⟨fun heq => hchar heq.symm, hplain.1⟩

/-! ## One row -/

section Rows

variable {files : List UInt8 → Option (List UInt8)} {record : Mp1BlinkStruct}

/-- Inside a line, with `line` of it left and the lines of `rest` after it. -/
structure FrameFile.Within (file : FrameFile (List UInt8)) (line : List UInt8)
    (rest : List (List UInt8)) : Prop where
  c_ne : file.c ≠ 10
  eof_eq : file.eof = false
  fd_eq : file.fd = line ++ tailBytes rest

/-- At the end of a line or of the file, with the lines of `rest` left. -/
structure FrameFile.Ended (file : FrameFile (List UInt8)) (rest : List (List UInt8)) : Prop where
  c_eq : file.c = 10
  eof_iff : file.eof = true ↔ rest = []
  fd_eq : ∀ line lines, rest = line :: lines → file.fd = line ++ tailBytes lines

def FrameFile.InRow (file : FrameFile (List UInt8)) (line : List UInt8)
    (rest : List (List UInt8)) : Prop :=
  file.Within line rest ∨ line = [] ∧ file.Ended rest

theorem FrameFile.Within.advance_cons {file : FrameFile (List UInt8)} {char : UInt8}
    {line : List UInt8} {rest : List (List UInt8)}
    (hwithin : file.Within (char :: line) rest) (hchar : char ≠ 10) :
    (file.advance (namedCalls files)).c = char ∧
      (file.advance (namedCalls files)).Within line rest := by
  have hread : file.advance (namedCalls files) =
      { file with fd := line ++ tailBytes rest, c := char } := by
    simp [FrameFile.advance, hwithin.c_ne, namedCalls, hwithin.fd_eq]
  rw [hread]
  exact ⟨rfl, hchar, hwithin.eof_eq, rfl⟩

theorem FrameFile.Within.advance_nil {file : FrameFile (List UInt8)}
    {rest : List (List UInt8)} (hwithin : file.Within [] rest) :
    (file.advance (namedCalls files)).Ended rest := by
  have hfd := hwithin.fd_eq
  cases rest with
  | nil =>
      have hread : file.advance (namedCalls files) = ⟨[], 10, true⟩ := by
        simp only [tailBytes, List.flatMap_nil, List.append_nil] at hfd
        simp [FrameFile.advance, hwithin.c_ne, namedCalls, hfd]
      rw [hread]
      exact ⟨rfl, by simp, by simp⟩
  | cons line lines =>
      have hread : file.advance (namedCalls files) =
          ⟨line ++ tailBytes lines, 10, false⟩ := by
        simp only [tailBytes, List.flatMap_cons, List.nil_append, List.cons_append] at hfd
        simp [FrameFile.advance, hwithin.c_ne, namedCalls, hfd, newline, hwithin.eof_eq,
          tailBytes]
      rw [hread]
      refine ⟨rfl, by simp, ?_⟩
      rintro line' lines' heq
      obtain ⟨rfl, rfl⟩ := List.cons.inj heq
      rfl

theorem FrameFile.Ended.advance {file : FrameFile (List UInt8)} {rest : List (List UInt8)}
    (hended : file.Ended rest) : file.advance (namedCalls files) = file := by
  simp [FrameFile.advance, hended.c_eq]

theorem FrameFile.InRow.advance_nil (files : List UInt8 → Option (List UInt8))
    {file : FrameFile (List UInt8)}
    {rest : List (List UInt8)} (hrow : file.InRow [] rest) :
    (file.advance (namedCalls files)).Ended rest := by
  rcases hrow with hwithin | ⟨_, hended⟩
  · exact hwithin.advance_nil
  · rwa [hended.advance]

theorem FrameFile.InRow.advance_cons (files : List UInt8 → Option (List UInt8))
    {file : FrameFile (List UInt8)} {char : UInt8}
    {line : List UInt8} {rest : List (List UInt8)} (hrow : file.InRow (char :: line) rest)
    (hchar : char ≠ 10) :
    (file.advance (namedCalls files)).c = char ∧
      (file.advance (namedCalls files)).InRow line rest := by
  rcases hrow with hwithin | ⟨hnil, _⟩
  · have hnext : (file.advance (namedCalls files)).c = char ∧ _ := hwithin.advance_cons hchar
    exact ⟨hnext.1, Or.inl hnext.2⟩
  · exact absurd hnil (by simp)

theorem FrameFile.Ended.inRow {file : FrameFile (List UInt8)} {rest : List (List UInt8)}
    (hended : file.Ended rest) : file.InRow [] rest :=
  Or.inr ⟨rfl, hended⟩

def addRecords (fish : Fish) (records : List Mp1BlinkStruct) : Fish :=
  records.foldl (fun fish record => (fish.mp1IoctlAdd record).2) fish

theorem addRecords_append (fish : Fish) (first second : List Mp1BlinkStruct) :
    addRecords fish (first ++ second) = addRecords (addRecords fish first) second :=
  List.foldl_append

/-- The record that two characters give rise to, if any. -/
def pairRecord (record : Mp1BlinkStruct) (row col : ℕ) (c0 c1 : UInt8) : List Mp1BlinkStruct :=
  if (c0 ≠ 32 ∧ c0 ≠ 10) ∨ (c1 ≠ 32 ∧ c1 ≠ 10) then [frameRecord record row col c0 c1] else []

theorem addRow_succ {calls : FileCalls (List UInt8)} {file0 file1 : FrameFile (List UInt8)}
    {row col rounds : ℕ} {fish : Fish} {c0 c1 : UInt8} (hc0 : (file0.advance calls).c = c0)
    (hc1 : (file1.advance calls).c = c1) (hopen : ¬ (c0 = 10 ∧ c1 = 10)) :
    addRow calls record row (rounds + 1) col file0 file1 fish =
      addRow calls record row rounds (col + 1) (file0.advance calls) (file1.advance calls)
        (addRecords fish (pairRecord record row col c0 c1)) := by
  simp only [addRow, hc0, hc1]
  rw [if_neg hopen, pairRecord]
  congr 1
  split <;> rfl

theorem pairRecord_of_left {row col : ℕ} {c0 : UInt8} (hc0 : c0 ≠ 10) :
    pairRecord record row col c0 10 =
      if c0 ≠ 32 then [frameRecord record row col c0 32] else [] := by
  simp [pairRecord, hc0, frameRecord]

theorem pairRecord_of_right {row col : ℕ} {c1 : UInt8} (hc1 : c1 ≠ 10) :
    pairRecord record row col 10 c1 =
      if c1 ≠ 32 then [frameRecord record row col 32 c1] else [] := by
  simp [pairRecord, hc1, frameRecord]

theorem pairRecord_of_both {row col : ℕ} {c0 c1 : UInt8} (hc0 : c0 ≠ 10) (hc1 : c1 ≠ 10) :
    pairRecord record row col c0 c1 =
      if c0 ≠ 32 ∨ c1 ≠ 32 then [frameRecord record row col c0 c1] else [] := by
  simp [pairRecord, hc0, hc1]

/-- A row adds its records and leaves both files at the end of their lines. -/
theorem addRow_eq {file0 file1 : FrameFile (List UInt8)} (row col : ℕ) {rounds : ℕ}
    {line0 line1 : List UInt8} {rest0 rest1 : List (List UInt8)} (fish : Fish)
    (hrow0 : file0.InRow line0 rest0) (hrow1 : file1.InRow line1 rest1)
    (hplain0 : newline ∉ line0) (hplain1 : newline ∉ line1)
    (hrounds0 : line0.length < rounds) (hrounds1 : line1.length < rounds) :
    ∃ next0 next1,
      addRow (namedCalls files) record row rounds col file0 file1 fish =
        some (next0, next1, addRecords fish (rowRecords record row col line0 line1)) ∧
      next0.Ended rest0 ∧ next1.Ended rest1 := by
  fun_induction rowRecords record row col line0 line1
    generalizing rounds file0 file1 fish with
  | case1 col =>
      obtain ⟨rounds, rfl⟩ := Nat.exists_eq_add_one_of_ne_zero (Nat.ne_zero_of_lt hrounds0)
      have hend0 := hrow0.advance_nil files
      have hend1 := hrow1.advance_nil files
      refine ⟨_, _, ?_, hend0, hend1⟩
      rw [addRow, if_pos ⟨hend0.c_eq, hend1.c_eq⟩]
      rfl
  | case2 col c1 line1 ih =>
      obtain ⟨rounds, rfl⟩ := Nat.exists_eq_add_one_of_ne_zero (Nat.ne_zero_of_lt hrounds0)
      simp only [List.mem_cons, not_or] at hplain1
      have hc1 : c1 ≠ 10 := fun heq => hplain1.1 heq.symm
      have hend0 := hrow0.advance_nil files
      obtain ⟨hchar1, hnext1⟩ := hrow1.advance_cons files hc1
      rw [addRow_succ hend0.c_eq hchar1 fun hboth => hc1 hboth.2, pairRecord_of_right hc1,
        addRecords_append]
      exact ih _ hend0.inRow hnext1 hplain0 hplain1.2 (by simp at hrounds1 ⊢; omega)
        (by simpa using hrounds1)
  | case3 col c0 line0 ih =>
      obtain ⟨rounds, rfl⟩ := Nat.exists_eq_add_one_of_ne_zero (Nat.ne_zero_of_lt hrounds0)
      simp only [List.mem_cons, not_or] at hplain0
      have hc0 : c0 ≠ 10 := fun heq => hplain0.1 heq.symm
      obtain ⟨hchar0, hnext0⟩ := hrow0.advance_cons files hc0
      have hend1 := hrow1.advance_nil files
      rw [addRow_succ hchar0 hend1.c_eq fun hboth => hc0 hboth.1, pairRecord_of_left hc0,
        addRecords_append]
      exact ih _ hnext0 hend1.inRow hplain0.2 hplain1 (by simpa using hrounds0)
        (by simp at hrounds0 ⊢; omega)
  | case4 col c0 line0 c1 line1 ih =>
      obtain ⟨rounds, rfl⟩ := Nat.exists_eq_add_one_of_ne_zero (Nat.ne_zero_of_lt hrounds0)
      simp only [List.mem_cons, not_or] at hplain0 hplain1
      have hc0 : c0 ≠ 10 := fun heq => hplain0.1 heq.symm
      have hc1 : c1 ≠ 10 := fun heq => hplain1.1 heq.symm
      obtain ⟨hchar0, hnext0⟩ := hrow0.advance_cons files hc0
      obtain ⟨hchar1, hnext1⟩ := hrow1.advance_cons files hc1
      rw [addRow_succ hchar0 hchar1 fun hboth => hc0 hboth.1, pairRecord_of_both hc0 hc1,
        addRecords_append]
      exact ih _ hnext0 hnext1 hplain0.2 hplain1.2 (by simpa using hrounds0)
        (by simpa using hrounds1)

/-! ## All rows -/

/-- At the start of a row, with the lines of a file that are left. -/
def FrameFile.AtRow (file : FrameFile (List UInt8)) : List (List UInt8) → Prop
  | [] => file.c = 10 ∧ file.eof = true
  | line :: rest => file.Within line rest

theorem FrameFile.Ended.nextRow {file : FrameFile (List UInt8)} {rest : List (List UInt8)}
    (hended : file.Ended rest) : file.nextRow.AtRow rest := by
  cases rest with
  | nil =>
      have heof : file.eof = true := hended.eof_iff.mpr rfl
      rw [FrameFile.nextRow, if_pos heof]
      exact ⟨rfl, heof⟩
  | cons line lines =>
      have heof : ¬ file.eof = true := fun heof => by simpa using hended.eof_iff.mp heof
      rw [FrameFile.nextRow, if_neg heof]
      exact ⟨by simp, by simpa using heof, hended.fd_eq line lines rfl⟩

theorem FrameFile.AtRow.inRow_nil {file : FrameFile (List UInt8)} (hrow : file.AtRow []) :
    file.InRow [] [] :=
  Or.inr ⟨rfl, hrow.1, by simp [hrow.2], by simp⟩

/-- The rows add their records, up to the end of the longer file. -/
theorem addRows_eq {file0 file1 : FrameFile (List UInt8)} {row width rounds : ℕ}
    {lines0 lines1 : List (List UInt8)} {fish : Fish}
    (hrow0 : file0.AtRow lines0) (hrow1 : file1.AtRow lines1)
    (hplain0 : ∀ line ∈ lines0, newline ∉ line ∧ line.length < width)
    (hplain1 : ∀ line ∈ lines1, newline ∉ line ∧ line.length < width)
    (hrounds0 : lines0.length < rounds) (hrounds1 : lines1.length < rounds) :
    addRows (namedCalls files) record width rounds row file0 file1 fish =
      some (addRecords fish (frameRecords record row lines0 lines1)) := by
  fun_induction frameRecords record row lines0 lines1
    generalizing rounds file0 file1 fish with
  | case1 row =>
      obtain ⟨rounds, rfl⟩ := Nat.exists_eq_add_one_of_ne_zero (Nat.ne_zero_of_lt hrounds0)
      rw [addRows, if_neg (by simp [hrow0.2, hrow1.2])]
      rfl
  | case2 row line1 lines1 ih =>
      obtain ⟨rounds, rfl⟩ := Nat.exists_eq_add_one_of_ne_zero (Nat.ne_zero_of_lt hrounds0)
      rw [List.forall_mem_cons] at hplain1
      obtain ⟨next0, next1, hadd, hend0, hend1⟩ :=
        addRow_eq row 0 fish hrow0.inRow_nil (Or.inl hrow1) (by simp)
        hplain1.1.1 (Nat.zero_lt_of_lt hplain1.1.2) hplain1.1.2
      rw [addRows, if_pos (Or.inr hrow1.eof_eq), hadd, Option.bind_some, addRecords_append]
      exact ih hend0.nextRow hend1.nextRow hplain0 hplain1.2 (by simp at hrounds1 ⊢; omega)
        (by simpa using hrounds1)
  | case3 row line0 lines0 ih =>
      obtain ⟨rounds, rfl⟩ := Nat.exists_eq_add_one_of_ne_zero (Nat.ne_zero_of_lt hrounds0)
      rw [List.forall_mem_cons] at hplain0
      obtain ⟨next0, next1, hadd, hend0, hend1⟩ :=
        addRow_eq row 0 fish (Or.inl hrow0) hrow1.inRow_nil hplain0.1.1
        (by simp) hplain0.1.2 (Nat.zero_lt_of_lt hplain0.1.2)
      rw [addRows, if_pos (Or.inl hrow0.eof_eq), hadd, Option.bind_some, addRecords_append]
      exact ih hend0.nextRow hend1.nextRow hplain0.2 hplain1 (by simpa using hrounds0)
        (by simp at hrounds0 ⊢; omega)
  | case4 row line0 lines0 line1 lines1 ih =>
      obtain ⟨rounds, rfl⟩ := Nat.exists_eq_add_one_of_ne_zero (Nat.ne_zero_of_lt hrounds0)
      rw [List.forall_mem_cons] at hplain0 hplain1
      obtain ⟨next0, next1, hadd, hend0, hend1⟩ :=
        addRow_eq row 0 fish (Or.inl hrow0) (Or.inl hrow1) hplain0.1.1
        hplain1.1.1 hplain0.1.2 hplain1.1.2
      rw [addRows, if_pos (Or.inl hrow0.eof_eq), hadd, Option.bind_some, addRecords_append]
      exact ih hend0.nextRow hend1.nextRow hplain0.2 hplain1.2 (by simpa using hrounds0)
        (by simpa using hrounds1)

end Rows

/-! ## Where the records lie -/

section Places

variable {record user : Mp1BlinkStruct} {row col : ℕ}

/-- A place is blank when both pictures have a space there. -/
def Blank (line0 line1 : List UInt8) (col : ℕ) : Prop :=
  glyph line0 col = 32 ∧ glyph line1 col = 32

theorem lt_of_not_blank {line0 line1 : List UInt8} (hmarked : ¬ Blank line0 line1 col) :
    col < line0.length ∨ col < line1.length := by
  by_contra hbeyond
  rw [not_or, not_lt, not_lt] at hbeyond
  apply hmarked
  constructor
  · simp [glyph, List.getD_eq_getElem?_getD, List.getElem?_eq_none hbeyond.1]
  · simp [glyph, List.getD_eq_getElem?_getD, List.getElem?_eq_none hbeyond.2]

@[simp] theorem glyph_nil (col : ℕ) : glyph [] col = 32 := rfl

@[simp] theorem glyph_cons_zero (char : UInt8) (line : List UInt8) :
    glyph (char :: line) 0 = char := rfl

@[simp] theorem glyph_cons_succ (char : UInt8) (line : List UInt8) (col : ℕ) :
    glyph (char :: line) (col + 1) = glyph line col := rfl

/-- The records of a row: one for every place that is not blank. -/
theorem mem_rowRecords {line0 line1 : List UInt8} :
    user ∈ rowRecords record row col line0 line1 ↔
      ∃ k, ¬ Blank line0 line1 k ∧
        user = frameRecord record row (col + k) (glyph line0 k) (glyph line1 k) := by
  fun_induction rowRecords record row col line0 line1 with
  | case1 col => simp [Blank]
  | case2 col c1 line1 ih =>
      rw [List.mem_append, ← Nat.or_exists_add_one]
      apply or_congr
      · by_cases hc1 : c1 = 32 <;> simp [Blank, hc1]
      · simpa [Blank, Nat.add_assoc, Nat.add_comm 1] using ih
  | case3 col c0 line0 ih =>
      rw [List.mem_append, ← Nat.or_exists_add_one]
      apply or_congr
      · by_cases hc0 : c0 = 32 <;> simp [Blank, hc0]
      · simpa [Blank, Nat.add_assoc, Nat.add_comm 1] using ih
  | case4 col c0 line0 c1 line1 ih =>
      rw [List.mem_append, ← Nat.or_exists_add_one]
      apply or_congr
      · by_cases hc0 : c0 = 32 <;> by_cases hc1 : c1 = 32 <;> simp [Blank, hc0, hc1]
      · simpa [Blank, Nat.add_assoc, Nat.add_comm 1] using ih

theorem mem_frameRecords {lines0 lines1 : List (List UInt8)} :
    user ∈ frameRecords record row lines0 lines1 ↔
      ∃ j, user ∈ rowRecords record (row + j) 0 (lines0.getD j []) (lines1.getD j []) := by
  fun_induction frameRecords record row lines0 lines1 with
  | case1 row => simp [rowRecords]
  | case2 row line1 lines1 ih =>
      rw [List.mem_append, ← Nat.or_exists_add_one]
      exact or_congr (by simp) (by simpa [Nat.add_assoc, Nat.add_comm 1] using ih)
  | case3 row line0 lines0 ih =>
      rw [List.mem_append, ← Nat.or_exists_add_one]
      exact or_congr (by simp) (by simpa [Nat.add_assoc, Nat.add_comm 1] using ih)
  | case4 row line0 lines0 line1 lines1 ih =>
      rw [List.mem_append, ← Nat.or_exists_add_one]
      exact or_congr (by simp) (by simpa [Nat.add_assoc, Nat.add_comm 1] using ih)

theorem location_frameRecord {c0 c1 : UInt8} (hsmall : row * 80 + col + 40 < 2000) :
    (frameRecord record row col c0 c1).location.toNat = row * 80 + col + 40 := by
  change (row * 80 + col + 40) % 2 ^ 16 = _
  exact Nat.mod_eq_of_lt (by omega)

/-- A line fits when it does not reach the right edge of the page. -/
def FitsFrom (col : ℕ) (line : List UInt8) : Prop := col + line.length ≤ 40

instance (col : ℕ) (line : List UInt8) : Decidable (FitsFrom col line) :=
  inferInstanceAs (Decidable (_ ≤ _))

theorem location_of_mem_rowRecords {line0 line1 : List UInt8} (hrow : row < 25)
    (hfits0 : FitsFrom col line0) (hfits1 : FitsFrom col line1)
    (hmem : user ∈ rowRecords record row col line0 line1) :
    row * 80 + col + 40 ≤ user.location.toNat ∧ user.location.toNat < row * 80 + 80 := by
  obtain ⟨k, hmarked, rfl⟩ := mem_rowRecords.mp hmem
  have hk := lt_of_not_blank hmarked
  unfold FitsFrom at hfits0 hfits1
  rw [location_frameRecord (by omega)]
  omega

theorem fitsFrom_cons {char : UInt8} {line : List UInt8} :
    FitsFrom col (char :: line) ↔ FitsFrom (col + 1) line := by
  unfold FitsFrom
  rw [List.length_cons]
  omega

theorem FitsFrom.nil {line : List UInt8} (hfits : FitsFrom col line) : FitsFrom col [] :=
  (Nat.le_add_right _ _).trans hfits

theorem frameRecord_lt {line0 line1 : List UInt8} {c0 c1 : UInt8} (hrow : row < 25)
    (hfits0 : FitsFrom (col + 1) line0) (hfits1 : FitsFrom (col + 1) line1) :
    ∀ other ∈ rowRecords record row (col + 1) line0 line1,
      (frameRecord record row col c0 c1).location.toNat < other.location.toNat := by
  intro other hother
  have hbounds := location_of_mem_rowRecords hrow hfits0 hfits1 hother
  have hcol := hfits0.nil
  simp only [FitsFrom, List.length_nil] at hcol
  rw [location_frameRecord (by omega)]
  omega

/-- The records follow one another by location. -/
def Ascending (records : List Mp1BlinkStruct) : Prop :=
  records.Pairwise fun first second => first.location.toNat < second.location.toNat

theorem Ascending.optional {rest : List Mp1BlinkStruct} {P : Prop} [Decidable P]
    (hrest : Ascending rest) (hfirst : ∀ other ∈ rest, user.location.toNat < other.location.toNat) :
    Ascending ((if P then [user] else []) ++ rest) := by
  split
  · exact List.pairwise_cons.mpr ⟨hfirst, hrest⟩
  · exact hrest

theorem ascending_rowRecords {line0 line1 : List UInt8} (hrow : row < 25)
    (hfits0 : FitsFrom col line0) (hfits1 : FitsFrom col line1) :
    Ascending (rowRecords record row col line0 line1) := by
  fun_induction rowRecords record row col line0 line1 with
  | case1 col => exact List.Pairwise.nil
  | case2 col c1 line1 ih =>
      rw [fitsFrom_cons] at hfits1
      exact (ih hfits1.nil hfits1).optional (frameRecord_lt hrow hfits1.nil hfits1)
  | case3 col c0 line0 ih =>
      rw [fitsFrom_cons] at hfits0
      exact (ih hfits0 hfits0.nil).optional (frameRecord_lt hrow hfits0 hfits0.nil)
  | case4 col c0 line0 c1 line1 ih =>
      rw [fitsFrom_cons] at hfits0 hfits1
      exact (ih hfits0 hfits1).optional (frameRecord_lt hrow hfits0 hfits1)

/-- The rows left fit under the ones above them. -/
def FitsBelow (row : ℕ) (lines : List (List UInt8)) : Prop :=
  row + lines.length ≤ 25 ∧ ∀ line ∈ lines, FitsFrom 0 line

theorem FitsBelow.getD {lines : List (List UInt8)} (hfits : FitsBelow row lines) (j : ℕ) :
    FitsFrom 0 (lines.getD j []) := by
  by_cases hj : j < lines.length
  · rw [List.getD_eq_getElem?_getD, List.getElem?_eq_getElem hj]
    exact hfits.2 _ (List.getElem_mem hj)
  · rw [List.getD_eq_getElem?_getD, List.getElem?_eq_none (not_lt.mp hj)]
    exact Nat.zero_le _

theorem fitsBelow_cons {line : List UInt8} {lines : List (List UInt8)} :
    FitsBelow row (line :: lines) ↔ FitsFrom 0 line ∧ FitsBelow (row + 1) lines := by
  unfold FitsBelow
  rw [List.forall_mem_cons, List.length_cons, Nat.add_right_comm, Nat.add_assoc]
  tauto

theorem FitsBelow.nil {lines : List (List UInt8)} (hfits : FitsBelow row lines) :
    FitsBelow row [] :=
  ⟨(Nat.le_add_right _ _).trans hfits.1, by simp⟩

theorem lt_length_of_lt_getD {lines : List (List UInt8)} {j k : ℕ}
    (hk : k < (lines.getD j []).length) : j < lines.length := by
  by_contra hj
  rw [List.getD_eq_getElem?_getD, List.getElem?_eq_none (not_lt.mp hj)] at hk
  simp at hk

/-- A record of the picture lies in one of its rows. -/
theorem location_of_mem_frameRecords {lines0 lines1 : List (List UInt8)}
    (hfits0 : FitsBelow row lines0) (hfits1 : FitsBelow row lines1)
    (hmem : user ∈ frameRecords record row lines0 lines1) :
    row * 80 + 40 ≤ user.location.toNat ∧ user.location.toNat < 2000 := by
  obtain ⟨j, hj⟩ := mem_frameRecords.mp hmem
  have hrow : row + j < 25 := by
    obtain ⟨k, hmarked, _⟩ := mem_rowRecords.mp hj
    rcases lt_of_not_blank hmarked with hk | hk
    · have := lt_length_of_lt_getD hk
      have := hfits0.1
      omega
    · have := lt_length_of_lt_getD hk
      have := hfits1.1
      omega
  have hbounds := location_of_mem_rowRecords hrow (hfits0.getD j) (hfits1.getD j) hj
  omega

theorem Ascending.append {first second : List Mp1BlinkStruct} (hfirst : Ascending first)
    (hsecond : Ascending second)
    (hbelow : ∀ user ∈ first, ∀ other ∈ second, user.location.toNat < other.location.toNat) :
    Ascending (first ++ second) :=
  List.pairwise_append.mpr ⟨hfirst, hsecond, hbelow⟩

theorem ascending_row_append {line0 line1 : List UInt8} {lines0 lines1 : List (List UInt8)}
    (hfits0 : FitsFrom 0 line0) (hfits1 : FitsFrom 0 line1)
    (hbelow0 : FitsBelow (row + 1) lines0) (hbelow1 : FitsBelow (row + 1) lines1)
    (hrest : Ascending (frameRecords record (row + 1) lines0 lines1)) :
    Ascending (rowRecords record row 0 line0 line1 ++
      frameRecords record (row + 1) lines0 lines1) := by
  have hrow : row < 25 := by
    have := hbelow0.1
    omega
  apply (ascending_rowRecords hrow hfits0 hfits1).append hrest
  intro user huser other hother
  have hfirst := location_of_mem_rowRecords hrow hfits0 hfits1 huser
  have hsecond := location_of_mem_frameRecords hbelow0 hbelow1 hother
  omega

theorem ascending_frameRecords {lines0 lines1 : List (List UInt8)}
    (hfits0 : FitsBelow row lines0) (hfits1 : FitsBelow row lines1) :
    Ascending (frameRecords record row lines0 lines1) := by
  have hnil : FitsFrom 0 [] := Nat.zero_le _
  fun_induction frameRecords record row lines0 lines1 with
  | case1 row => exact List.Pairwise.nil
  | case2 row line1 lines1 ih =>
      rw [fitsBelow_cons] at hfits1
      have hrest := ih hfits1.2.nil hfits1.2
      exact ascending_row_append hnil hfits1.1 hfits1.2.nil hfits1.2 hrest
  | case3 row line0 lines0 ih =>
      rw [fitsBelow_cons] at hfits0
      have hrest := ih hfits0.2 hfits0.2.nil
      exact ascending_row_append hfits0.1 hnil hfits0.2 hfits0.2.nil hrest
  | case4 row line0 lines0 line1 lines1 ih =>
      rw [fitsBelow_cons] at hfits0 hfits1
      have hrest := ih hfits0.2 hfits1.2
      exact ascending_row_append hfits0.1 hfits1.1 hfits0.2 hfits1.2 hrest

/-- The picture's character at a place of the page: it starts in the middle of each row. -/
def pictureAt (text : List UInt8) (location : ℕ) : UInt8 :=
  if 40 ≤ location % 80 then
    glyph ((text.splitOn newline).getD (location / 80) []) (location % 80 - 40)
  else 32

/-- A text that fits into the right half of the page. -/
def FitsHalf (text : List UInt8) : Prop := FitsBelow 0 (text.splitOn newline)

/-- The record for a place of the page. -/
def placeRecord (record : Mp1BlinkStruct) (f0 f1 : List UInt8) (location : ℕ) : Mp1BlinkStruct :=
  frameRecord record (location / 80) (location % 80 - 40) (pictureAt f0 location)
    (pictureAt f1 location)

def pictureRecords (record : Mp1BlinkStruct) (f0 f1 : List UInt8) : List Mp1BlinkStruct :=
  frameRecords record 0 (f0.splitOn newline) (f1.splitOn newline)

def BlankAt (f0 f1 : List UInt8) (location : ℕ) : Prop :=
  pictureAt f0 location = 32 ∧ pictureAt f1 location = 32

instance (f0 f1 : List UInt8) (location : ℕ) : Decidable (BlankAt f0 f1 location) :=
  inferInstanceAs (Decidable (_ ∧ _))

theorem pictureAt_eq (text : List UInt8) {row col : ℕ} (hcol : col < 40) :
    pictureAt text (row * 80 + col + 40) = glyph ((text.splitOn newline).getD row []) col := by
  have hrow : (row * 80 + col + 40) / 80 = row := by omega
  have hmod : (row * 80 + col + 40) % 80 = col + 40 := by omega
  rw [pictureAt, hrow, hmod, if_pos (by omega), Nat.add_sub_cancel]

theorem location_placeRecord (record : Mp1BlinkStruct) {f0 f1 : List UInt8} {location : ℕ}
    (hlocation : location < 2000) (hmarked : ¬ BlankAt f0 f1 location) :
    (placeRecord record f0 f1 location).location.toNat = location := by
  have hhalf : 40 ≤ location % 80 := by
    by_contra hleft
    exact hmarked ⟨if_neg hleft, if_neg hleft⟩
  rw [placeRecord, location_frameRecord (by omega)]
  omega

/-- The records of two pictures: one for every place that is not blank in both. -/
theorem mem_pictureRecords {f0 f1 : List UInt8} (hfits0 : FitsHalf f0) (hfits1 : FitsHalf f1) :
    user ∈ pictureRecords record f0 f1 ↔
      ∃ location < 2000, ¬ BlankAt f0 f1 location ∧ user = placeRecord record f0 f1 location := by
  rw [pictureRecords, mem_frameRecords]
  simp only [mem_rowRecords, Nat.zero_add]
  constructor
  · rintro ⟨row, col, hmarked, rfl⟩
    have hcol : col < 40 := by
      have hline0 := hfits0.getD row
      have hline1 := hfits1.getD row
      unfold FitsFrom at hline0 hline1
      rcases lt_of_not_blank hmarked with hcol | hcol <;> omega
    have hrow : row < 25 := by
      have hrows0 := hfits0.1
      have hrows1 := hfits1.1
      rcases lt_of_not_blank hmarked with hline | hline
      · have := lt_length_of_lt_getD hline
        omega
      · have := lt_length_of_lt_getD hline
        omega
    have hplace : (row * 80 + col + 40) / 80 = row := by omega
    have hmod : (row * 80 + col + 40) % 80 - 40 = col := by omega
    refine ⟨row * 80 + col + 40, by omega, ?_, ?_⟩
    · rw [BlankAt, pictureAt_eq f0 hcol, pictureAt_eq f1 hcol]
      exact hmarked
    · rw [placeRecord, pictureAt_eq f0 hcol, pictureAt_eq f1 hcol, hplace, hmod]
  · rintro ⟨location, _, hmarked, rfl⟩
    have hhalf : 40 ≤ location % 80 := by
      by_contra hleft
      exact hmarked ⟨if_neg hleft, if_neg hleft⟩
    rw [BlankAt, pictureAt, pictureAt, if_pos hhalf, if_pos hhalf] at hmarked
    refine ⟨location / 80, location % 80 - 40, hmarked, ?_⟩
    rw [placeRecord, pictureAt, pictureAt, if_pos hhalf, if_pos hhalf]

theorem glyph_ne_newline {chars : List UInt8} (hplain : newline ∉ chars) (col : ℕ) :
    glyph chars col ≠ 10 := by
  rw [glyph, List.getD_eq_getElem?_getD]
  by_cases hcol : col < chars.length
  · rw [List.getElem?_eq_getElem hcol]
    intro heq
    have hget : chars[col] = newline := heq
    exact hplain (hget ▸ List.getElem_mem hcol)
  · rw [List.getElem?_eq_none (not_lt.mp hcol)]
    decide

theorem pictureAt_ne_newline (text : List UInt8) (location : ℕ) :
    pictureAt text location ≠ 10 := by
  obtain ⟨line, rest, hsplit, _, hplain⟩ := exists_lines text
  unfold pictureAt
  split
  · apply glyph_ne_newline
    rw [hsplit, List.getD_eq_getElem?_getD]
    by_cases hrow : location / 80 < (line :: rest).length
    · rw [List.getElem?_eq_getElem hrow]
      exact hplain _ (List.getElem_mem hrow)
    · rw [List.getElem?_eq_none (not_lt.mp hrow)]
      exact List.not_mem_nil
  · decide

end Places

/-! ## The animation -/

theorem length_le_tailBytes (lines : List (List UInt8)) :
    lines.length ≤ (tailBytes lines).length ∧
      ∀ line ∈ lines, line.length ≤ (tailBytes lines).length := by
  induction lines with
  | nil => simp
  | cons line lines ih =>
      have hlength : (tailBytes (line :: lines)).length =
          line.length + 1 + (tailBytes lines).length := by
        simp only [tailBytes, List.flatMap_cons, List.cons_append, List.length_cons,
          List.length_append]
        omega
      rw [hlength, List.length_cons, List.forall_mem_cons]
      refine ⟨by omega, by omega, fun other hother => ?_⟩
      have := ih.2 other hother
      omega

theorem atRow_start {text : List UInt8} {rounds : ℕ} (hrounds : text.length + 1 < rounds) :
    (⟨text, 48, false⟩ : FrameFile (List UInt8)).AtRow (text.splitOn newline) ∧
      (∀ line ∈ text.splitOn newline, newline ∉ line ∧ line.length < rounds) ∧
      (text.splitOn newline).length < rounds := by
  obtain ⟨line, rest, hsplit, htext, hplain⟩ := exists_lines text
  have hlengths := length_le_tailBytes rest
  have hlength : text.length = line.length + (tailBytes rest).length := by
    rw [htext, List.length_append]
  rw [hsplit]
  refine ⟨⟨by simp, rfl, htext⟩, fun other hother => ⟨hplain other hother, ?_⟩, ?_⟩
  · rcases List.mem_cons.mp hother with rfl | hother
    · omega
    · have := hlengths.2 other hother
      omega
  · rw [List.length_cons]
    omega

/-- The lengths which `add_frames` sets. -/
def halfSecond (record : Mp1BlinkStruct) : Mp1BlinkStruct :=
  { record with onLength := 15, offLength := 15 }

theorem addFrames_eq {files : List UInt8 → Option (List UInt8)} {name0 name1 f0 f1 : List UInt8}
    (hfile0 : files name0 = some f0) (hfile1 : files name1 = some f1) {rounds : ℕ}
    (hrounds0 : f0.length + 1 < rounds) (hrounds1 : f1.length + 1 < rounds)
    (record : Mp1BlinkStruct) (fish : Fish) :
    addFrames (namedCalls files) rounds name0 name1 record fish =
      some (addRecords fish (pictureRecords (halfSecond record) f0 f1)) := by
  obtain ⟨hrow0, hplain0, hlines0⟩ := atRow_start hrounds0
  obtain ⟨hrow1, hplain1, hlines1⟩ := atRow_start hrounds1
  have hopen0 : (namedCalls files).openFile name0 = some f0 := hfile0
  have hopen1 : (namedCalls files).openFile name1 = some f1 := hfile1
  rw [addFrames, hopen0, hopen1, Option.bind_some, Option.bind_some]
  exact addRows_eq hrow0 hrow1 hplain0 hplain1 hlines0 hlines1

theorem run_addRecords (rounds : ℕ) (fish : Fish) (records : List Mp1BlinkStruct) :
    PartialRuns.run (Fish.step rounds) fish (records.map .add) =
      some (addRecords fish records) := by
  induction records generalizing fish with
  | nil => rfl
  | cons record rest ih => exact ih _

theorem Blinkers.length_after_add (blinkers : Blinkers) (records : List Mp1BlinkStruct) :
    (blinkers.after (records.map .add)).entries.length ≤
      blinkers.entries.length + records.length := by
  induction records generalizing blinkers with
  | nil => exact le_rfl
  | cons record rest ih =>
      have hstep : (blinkers.call (.add record)).1.entries.length ≤
          blinkers.entries.length + 1 := by
        rw [Blinkers.call]
        split
        · exact Nat.le_succ _
        · exact le_rfl
      have hrest := ih (blinkers.call (.add record)).1
      rw [List.length_cons]
      exact hrest.trans (by omega)

theorem length_tailBytes_le {lines : List (List UInt8)}
    (hfits : ∀ line ∈ lines, FitsFrom 0 line) :
    (tailBytes lines).length ≤ 41 * lines.length := by
  induction lines with
  | nil => exact Nat.zero_le _
  | cons line lines ih =>
      rw [List.forall_mem_cons] at hfits
      have hline : 0 + line.length ≤ 40 := hfits.1
      have hrest := ih hfits.2
      simp only [tailBytes, List.flatMap_cons, List.cons_append, List.length_cons,
        List.length_append] at hrest ⊢
      omega

theorem FitsHalf.length_lt {text : List UInt8} (hfits : FitsHalf text) :
    text.length + 1 < 2001 := by
  obtain ⟨line, rest, hsplit, htext, _⟩ := exists_lines text
  rw [FitsHalf, hsplit, fitsBelow_cons] at hfits
  have hline : 0 + line.length ≤ 40 := hfits.1
  have hrows : 0 + 1 + rest.length ≤ 25 := hfits.2.1
  have hrest := length_tailBytes_le hfits.2.2
  rw [htext, List.length_append]
  omega

theorem Ascending.length_add_le {records : List Mp1BlinkStruct} (hascending : Ascending records)
    {first last : ℕ} (hbounds : ∀ user ∈ records,
      first ≤ user.location.toNat ∧ user.location.toNat < last) (hle : first ≤ last) :
    first + records.length ≤ last := by
  induction records generalizing first with
  | nil => exact hle
  | cons user rest ih =>
      obtain ⟨habove, hrest⟩ := List.pairwise_cons.mp hascending
      rw [List.forall_mem_cons] at hbounds
      have hnext : user.location.toNat + 1 + rest.length ≤ last :=
        ih hrest (fun other hother => ⟨habove other hother, (hbounds.2 other hother).2⟩)
          hbounds.1.2
      rw [List.length_cons]
      omega

theorem spares_adds_ticks {records : List Mp1BlinkStruct} (ticks : ℕ) {location : BitVec 16}
    (hother : ∀ user ∈ records, user.location ≠ location) :
    ∀ label ∈ records.map .add ++ List.replicate ticks .tasklet,
      BlinkCall.Spares location label := by
  intro label hlabel
  rcases List.mem_append.mp hlabel with hadd | htick
  · obtain ⟨user, huser, rfl⟩ := List.mem_map.mp hadd
    exact hother user huser
  · rw [(List.mem_replicate.mp htick).2]
    trivial

theorem countP_adds_ticks (records : List Mp1BlinkStruct) (ticks : ℕ) :
    (records.map BlinkCall.add ++ List.replicate ticks BlinkCall.tasklet).countP
      BlinkCall.IsTick = ticks := by
  have hadds : (records.map BlinkCall.add).countP BlinkCall.IsTick = 0 := by
    rw [List.countP_eq_zero]
    intro label hlabel
    obtain ⟨user, _, rfl⟩ := List.mem_map.mp hlabel
    simp [BlinkCall.IsTick]
  rw [List.countP_append, hadds, List.countP_replicate]
  simp [BlinkCall.IsTick]

/-- A place without a record keeps its character. -/
theorem Blinkers.after_adds_of_not_mem (vmem : ℕ → UInt8) (records : List Mp1BlinkStruct)
    (ticks : ℕ) (location : BitVec 16) (hother : ∀ user ∈ records, user.location ≠ location) :
    ((⟨[], vmem⟩ : Blinkers).after
        (records.map .add ++ List.replicate ticks .tasklet)).vmem (location.toNat * 2) =
      vmem (location.toNat * 2) := by
  have hlocal : (⟨[], vmem⟩ : Blinkers).Local location [] (vmem (location.toNat * 2)) :=
    ⟨rfl, rfl⟩
  exact (hlocal.after_of_nil (spares_adds_ticks ticks hother)).vmem_eq

/-- The records after `user` leave its place alone, and so do those before. -/
theorem Blinkers.after_adds_of_mem (vmem : ℕ → UInt8) {records : List Mp1BlinkStruct}
    (hascending : Ascending records) (hlength : records.length ≤ 2000) (ticks : ℕ)
    {user : Mp1BlinkStruct} (huser : user ∈ records) (hlocation : user.location.toNat < 2000) :
    ((⟨[], vmem⟩ : Blinkers).after
        (records.map .add ++ List.replicate ticks .tasklet)).vmem (user.location.toNat * 2) =
      squareWave (period user.onLength) (period user.offLength) user.onChar user.offChar
        ticks := by
  obtain ⟨before, after, rfl⟩ := List.append_of_mem huser
  obtain ⟨_, hafter, hbefore⟩ := List.pairwise_append.mp hascending
  rw [List.pairwise_cons] at hafter
  have hne : ∀ {first second : Mp1BlinkStruct},
      first.location.toNat < second.location.toNat → first.location ≠ second.location :=
    fun hlt heq => hlt.ne (congrArg BitVec.toNat heq)
  have hlocal : (⟨[], vmem⟩ : Blinkers).Local user.location [] (vmem (user.location.toNat * 2)) :=
    ⟨rfl, rfl⟩
  have hempty := hlocal.after_of_nil
    (spares_adds_ticks 0 fun other hother => hne (hbefore other hother user (by simp)))
  rw [List.replicate_zero, List.append_nil] at hempty
  have halone : ∀ other ∈ ((⟨[], vmem⟩ : Blinkers).after (before.map .add)).entries,
      other.location ≠ user.location := fun other hother heq =>
    List.filter_eq_nil_iff.mp hempty.entries_eq other hother (decide_eq_true heq)
  have hroom := Blinkers.length_after_add ⟨[], vmem⟩ before
  simp only [List.length_nil, List.length_append, List.length_cons] at hroom hlength
  have hadd : (((⟨[], vmem⟩ : Blinkers).after (before.map .add)).call (.add user)).1 =
      ((⟨[], vmem⟩ : Blinkers).after (before.map .add)).add user.toBlinker := by
    rw [Blinkers.call, if_neg (not_or.mpr ⟨not_le.mpr hlocation, by omega⟩)]
  have hwave := (Blinkers.sole_add halone).after
    (spares_adds_ticks ticks fun other hother => (hne (hafter.1 other hother)).symm)
  rw [List.map_append, List.append_assoc, List.map_cons, List.cons_append, Blinkers.after_append,
    Blinkers.after_cons, hadd, hwave.vmem_eq, countP_adds_ticks, Blinker.paintedAfter_started]

/-- Two texts that fit into the right half of the page are shown in turn, fifteen ticks each:
every place where one of them has a character changes between the two characters, and the
rest of the page stays as it was. -/
theorem add_frames_animates {files : List UInt8 → Option (List UInt8)}
    {name0 name1 f0 f1 : List UInt8} (hfile0 : files name0 = some f0)
    (hfile1 : files name1 = some f1) (hfits0 : FitsHalf f0) (hfits1 : FitsHalf f1)
    (record : Mp1BlinkStruct) (vmem : ℕ → UInt8) (rounds : ℕ) (hrounds : 2000 < rounds)
    (ticks : ℕ) :
    ∃ fish final,
      addFrames (namedCalls files) rounds name0 name1 record (bootFish vmem) = some fish ∧
      PartialRuns.run (Fish.step rounds) fish (List.replicate ticks .tasklet) = some final ∧
      ∀ location < 2000, final.vmem (location * 2) =
        if BlankAt f0 f1 location then vmem (location * 2)
        else squareWave 15 15 (pictureAt f0 location) (pictureAt f1 location) ticks := by
  have hlength0 := hfits0.length_lt
  have hlength1 := hfits1.length_lt
  have hframes := addFrames_eq hfile0 hfile1 (hlength0.trans_le hrounds)
    (hlength1.trans_le hrounds) record (bootFish vmem)
  have hmem : ∀ user, user ∈ pictureRecords (halfSecond record) f0 f1 ↔
      ∃ location < 2000, ¬ BlankAt f0 f1 location ∧
        user = placeRecord (halfSecond record) f0 f1 location :=
    fun user => mem_pictureRecords hfits0 hfits1
  have hascending : Ascending (pictureRecords (halfSecond record) f0 f1) :=
    ascending_frameRecords hfits0 hfits1
  have hbounds : ∀ user ∈ pictureRecords (halfSecond record) f0 f1,
      40 ≤ user.location.toNat ∧ user.location.toNat < 2000 := fun user huser => by
    simpa using location_of_mem_frameRecords hfits0 hfits1 huser
  have hcount := hascending.length_add_le hbounds (by decide)
  obtain ⟨final, left, hrun, hfinal⟩ := (Fish.represents_bootFish vmem).run hrounds
    ((pictureRecords (halfSecond record) f0 f1).map .add ++ List.replicate ticks .tasklet) (by
      intro user huser hzero
      have hadd : user ∈ pictureRecords (halfSecond record) f0 f1 := by
        simpa [List.mem_replicate] using huser
      have hlow := (hbounds user hadd).1
      rw [hzero] at hlow
      exact absurd hlow (by decide))
  rw [PartialRuns.run_append, run_addRecords, Option.bind_some] at hrun
  refine ⟨_, final, hframes, hrun, fun location hlocation => ?_⟩
  rw [hfinal.vmem_eq]
  by_cases hblank : BlankAt f0 f1 location
  · rw [if_pos hblank]
    have hword : (BitVec.ofNat 16 location).toNat = location := Nat.mod_eq_of_lt (by omega)
    have hkept := Blinkers.after_adds_of_not_mem vmem
      (pictureRecords (halfSecond record) f0 f1) ticks (BitVec.ofNat 16 location) (by
        intro user huser heq
        obtain ⟨other, hother, hmarked, rfl⟩ := (hmem user).mp huser
        have hplace := location_placeRecord (halfSecond record) hother hmarked
        rw [heq, hword] at hplace
        exact hmarked (hplace ▸ hblank))
    rwa [hword] at hkept
  · rw [if_neg hblank]
    have hplace := location_placeRecord (halfSecond record) hlocation hblank
    have hwave := Blinkers.after_adds_of_mem vmem hascending (by omega) ticks
      ((hmem _).mpr ⟨location, hlocation, hblank, rfl⟩) (hplace.trans_lt hlocation)
    rw [hplace] at hwave
    rw [hwave]
    have hchar : ∀ text, (if pictureAt text location = 10 then 32 else pictureAt text location) =
        pictureAt text location := fun text => if_neg (pictureAt_ne_newline text location)
    change squareWave 15 15 (if _ then _ else _) (if _ then _ else _) ticks = _
    rw [hchar, hchar]

theorem add_frames_animates_witness :
    ∃ fish final,
      addFrames (namedCalls fun name => if name = [48] then some [60, 62, 10, 94] else some [61])
        2001 [48] [49] ⟨⟨0, 0, 0, 0, 0, 0, 0⟩, none⟩ (bootFish fun _ => 32) = some fish ∧
      PartialRuns.run (Fish.step 2001) fish (List.replicate 20 .tasklet) = some final ∧
      ∀ location < 2000, final.vmem (location * 2) =
        if BlankAt [60, 62, 10, 94] [61] location then 32
        else squareWave 15 15 (pictureAt [60, 62, 10, 94] location) (pictureAt [61] location) 20 :=
  add_frames_animates (by rfl) (by rfl) ⟨by decide, by decide⟩ ⟨by decide, by decide⟩ _
    (fun _ => 32) 2001 (by decide) 20

end VirtualOS
