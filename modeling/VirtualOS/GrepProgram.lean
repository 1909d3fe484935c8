import VirtualOS.MemorySlices
import VirtualOS.ScreenOutput
import Mathlib.Tactic

/-!
# The program `grep`

`do_one_file` reads a file in pieces of at most 1024 bytes into one buffer.  The
lines of a piece are searched where they lie; an unfinished line at its end is
moved to the front of the buffer and the next piece is read behind it.  What the
system calls answer is a parameter.
-/

namespace VirtualOS

open MemorySlices

/-! ## The source -/

/-- What `open`, `read` and `close` answer; nothing stands for `-1`. -/
structure FileCalls (σ : Type) where
  openFile : List UInt8 → Option σ
  read : σ → ℕ → Option (List UInt8 × σ)
  close : σ → Bool

/-- `BUFSIZE`; the buffer has one byte more. -/
def grepBufSize : ℕ := 1024

/-- The loop that looks for the end of a line, over the bytes that are left. -/
def lineEndFrom (data : ℕ → UInt8) (lineEnd : ℕ) : ℕ → ℕ
  | 0 => lineEnd
  | count + 1 =>
      if newline ≠ data lineEnd then lineEndFrom data (lineEnd + 1) count else lineEnd

/-- The number that a `char` stands for in a comparison; it is signed. -/
def charValue (byte : UInt8) : ℤ := byte.toBitVec.toInt

/-- The loop over `check` in one line.  `s` is a string of `char`, `data` of `uint8_t`. -/
def searchLine (s : List UInt8) (data : ℕ → UInt8) (lineStart lineEnd : ℕ) : Bool :=
  (List.range (lineEnd - lineStart)).any fun k =>
    decide (charValue (stringBytes s 0) = (data (lineStart + k)).toNat) &&
      decide (MemorySlices.strncmp data (stringBytes s) (lineStart + k) 0 s.length = 0)

def report (fname line : List UInt8) : List UInt8 := fname ++ ascii ":" ++ line ++ ascii "\n"

/-- The loop over the lines in the buffer: the buffer, `last` and the output after it. -/
def scanLines (s fname : List UInt8) (cnt last : ℕ) :
    ℕ → (ℕ → UInt8) → ℕ → List UInt8 → Option ((ℕ → UInt8) × ℕ × List UInt8)
  | 0, _, _, _ => none
  | fuel + 1, data, lineStart, output =>
      let lineEnd := lineEndFrom data lineStart (last - lineStart)
      let ended := Function.update data lineEnd 0
      if newline ≠ data lineEnd ∧ cnt ≠ 0 ∧ lineStart ≠ 0 then
        (MemorySlices.strcpy ended 0 lineStart (grepBufSize + 1 - lineStart)).map fun moved =>
          (moved, last - lineStart, output)
      else
        let printed :=
          if searchLine s ended lineStart lineEnd then
            (MemorySlices.strlen ended lineStart (grepBufSize + 1 - lineStart)).map fun n =>
              output ++ report fname (slice ended lineStart n)
          else some output
        printed.bind fun output =>
          if lineEnd + 1 ≥ last then some (ended, 0, output)
          else scanLines s fname cnt last fuel ended (lineEnd + 1) output

variable {σ : Type}

/-- The loop over the pieces of the file: the value returned and the output. -/
def grepLoop (calls : FileCalls σ) (s fname : List UInt8) :
    ℕ → σ → (ℕ → UInt8) → ℕ → List UInt8 → Option (ℤ × List UInt8)
  | 0, _, _, _, _ => none
  | fuel + 1, file, data, last, output =>
      match calls.read file (grepBufSize - last) with
      | none => some (-1, output ++ ascii "file read failed\n")
      | some (bytes, file) =>
          let last' := last + bytes.length
          (scanLines s fname bytes.length last' (last' + 1) (store data last bytes) 0 output).bind
            fun result =>
              if bytes.length = 0 then
                if calls.close file then some (0, result.2.2)
                else some (-1, result.2.2 ++ ascii "file close failed\n")
              else grepLoop calls s fname fuel file result.1 result.2.1 result.2.2

/-- `do_one_file`, for a buffer that holds `data` at first. -/
def doOneFile (calls : FileCalls σ) (s fname : List UInt8) (data : ℕ → UInt8) (fuel : ℕ) :
    Option (ℤ × List UInt8) :=
  match calls.openFile fname with
  | none => some (-1, ascii "file open failed\n")
  | some file => grepLoop calls s fname fuel file data 0 []

/-- The calls for a file that is read in consecutive slices. -/
def sliceCalls (file : List UInt8) : FileCalls (List UInt8) where
  openFile _ := some file
  read rest n := some (rest.take n, rest.drop n)
  close _ := true

/-! ## What is to be reported -/

/-- One line of output for each line of the text that contains `s`, in order. -/
def matchingLines (s fname text : List UInt8) : List UInt8 :=
  ((text.splitOn newline).filter fun line => s <:+: line).flatMap (report fname)

/-! ## What is found -/

/-- A line in which `s` is found.  A negative first character is never met. -/
def Found (s line : List UInt8) : Prop := 0 ≤ charValue (stringBytes s 0) ∧ s <:+: line

instance (s line : List UInt8) : Decidable (Found s line) := inferInstanceAs (Decidable (_ ∧ _))

theorem charValue_eq_iff {c : UInt8} (hc : 0 ≤ charValue c) (byte : UInt8) :
    charValue c = byte.toNat ↔ c = byte := by
  have hvalue : charValue c = c.toNat := by
    unfold charValue at hc ⊢
    rw [BitVec.toInt_eq_toNat_cond] at hc ⊢
    have hlt := c.toBitVec.isLt
    split_ifs at hc ⊢ with hsmall
    · rfl
    · omega
  rw [hvalue, Int.natCast_inj, UInt8.toNat_inj]

def reportLine (s fname line : List UInt8) : List UInt8 :=
  if Found s line then report fname line else []

def foundLines (s fname text : List UInt8) : List UInt8 :=
  (text.splitOn newline).flatMap (reportLine s fname)

theorem foundLines_append_newline (s fname first second : List UInt8) :
    foundLines s fname (first ++ newline :: second) =
      foundLines s fname first ++ foundLines s fname second := by
  rw [foundLines, List.splitOn_append_cons_self, List.flatMap_append]
  rfl

theorem foundLines_of_not_mem {s fname line : List UInt8} (hline : newline ∉ line) :
    foundLines s fname line = reportLine s fname line := by
  rw [foundLines, List.splitOn_eq_singleton hline, List.flatMap_singleton]

/-- A string which does not begin with a negative character is found where it is. -/
theorem foundLines_eq {s : List UInt8} (hchar : 0 ≤ charValue (stringBytes s 0))
    (fname text : List UInt8) : foundLines s fname text = matchingLines s fname text := by
  unfold foundLines matchingLines
  induction text.splitOn newline with
  | nil => rfl
  | cons line rest ih =>
      rw [List.flatMap_cons, ih, reportLine, List.filter_cons]
      by_cases hline : s <:+: line
      · rw [if_pos ⟨hchar, hline⟩, if_pos (by simpa using hline), List.flatMap_cons]
      · rw [if_neg (fun h => hline h.2), if_neg (by simpa using hline), List.nil_append]

theorem foundLines_of_neg {s : List UInt8} (hchar : ¬ 0 ≤ charValue (stringBytes s 0))
    (fname text : List UInt8) : foundLines s fname text = [] := by
  refine List.flatMap_eq_nil_iff.mpr fun line _ => ?_
  rw [reportLine, if_neg (fun h => hchar h.1)]

theorem matchingLines_eq_nil_iff {s fname text : List UInt8} :
    matchingLines s fname text = [] ↔ ∀ line ∈ text.splitOn newline, ¬ s <:+: line := by
  rw [matchingLines, List.flatMap_eq_nil_iff]
  constructor
  · intro hnone line hmem hline
    have hreport := hnone line (List.mem_filter.mpr ⟨hmem, by simpa using hline⟩)
    simp [report, ascii] at hreport
  · intro hnone line hmem
    obtain ⟨hmem, hline⟩ := List.mem_filter.mp hmem
    exact absurd (of_decide_eq_true hline) (hnone line hmem)

theorem reportLine_nil {s : List UInt8} (hs : s ≠ []) (fname : List UInt8) :
    reportLine s fname [] = [] := by
  rw [reportLine, if_neg]
  rw [Found, List.infix_nil]
  exact fun h => hs h.2

def joinLines (lines : List (List UInt8)) : List UInt8 :=
  lines.flatMap fun line => line ++ [newline]

theorem joinLines_cons (line : List UInt8) (lines : List (List UInt8)) :
    joinLines (line :: lines) = line ++ newline :: joinLines lines := by
  simp [joinLines]

theorem joinLines_eq_nil {lines : List (List UInt8)} : joinLines lines = [] ↔ lines = [] := by
  cases lines with
  | nil => simp [joinLines]
  | cons line lines => simp [joinLines_cons]

theorem foundLines_joinLines_append {s fname : List UInt8} {lines : List (List UInt8)}
    (hlines : ∀ line ∈ lines, newline ∉ line) (text : List UInt8) :
    foundLines s fname (joinLines lines ++ text) =
      lines.flatMap (reportLine s fname) ++ foundLines s fname text := by
  induction lines with
  | nil => rfl
  | cons line lines ih =>
      obtain ⟨hline, hrest⟩ := List.forall_mem_cons.mp hlines
      rw [joinLines_cons, List.append_assoc, List.cons_append, foundLines_append_newline,
        foundLines_of_not_mem hline, ih hrest, List.flatMap_cons, List.append_assoc]

theorem exists_joinLines (text : List UInt8) : ∃ lines tail,
    text = joinLines lines ++ tail ∧ (∀ line ∈ lines, newline ∉ line) ∧ newline ∉ tail := by
  induction text with
  | nil => exact ⟨[], [], rfl, by simp, List.not_mem_nil⟩
  | cons c rest ih =>
      obtain ⟨lines, tail, rfl, hlines, htail⟩ := ih
      by_cases hc : c = newline
      · subst hc
        refine ⟨[] :: lines, tail, by simp [joinLines_cons], ?_, htail⟩
        exact List.forall_mem_cons.mpr ⟨List.not_mem_nil, hlines⟩
      · cases lines with
        | nil => exact ⟨[], c :: tail, rfl, by simp, by simp [htail, Ne.symm hc]⟩
        | cons line lines =>
            obtain ⟨hline, hrest⟩ := List.forall_mem_cons.mp hlines
            refine ⟨(c :: line) :: lines, tail, by simp [joinLines_cons], ?_, htail⟩
            exact List.forall_mem_cons.mpr ⟨by simp [hline, Ne.symm hc], hrest⟩

end VirtualOS
