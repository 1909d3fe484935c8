import VirtualOS.AccessLogs
import VirtualOS.OperationMoves
import Mathlib.Data.List.GetD
import Mathlib.Tactic

/-!
# The command line

`execute` scans its command with an index, copies the first word to `cmd` and
the next one to `argument`, two buffers of 128 bytes on its stack, and later
copies `argument` to the control block of the new process.  The parser is written
out with a log of the places it reads and writes: it never reads behind
the end of the command, and it writes inside its buffers exactly if both words
are shorter than 128 bytes.
-/

namespace VirtualOS

open AccessLogs AccessLogs.Logged

/-! ## Copies of `lib.c` -/

section Copies

variable {ι : Type} (source destination : ℕ → ι)

/-- The second loop of `strncpy`. -/
def padZeros (i remaining : ℕ) : Logged ι (List UInt8) :=
  forEach (List.range' i remaining) fun j => access (destination j) (0 : UInt8)

/-- `strncpy` from position `i` on, with `remaining` bytes to store.  The byte of the
source is read before the count is tested. -/
def strncpyFrom : List UInt8 → ℕ → ℕ → Logged ι (List UInt8)
  | [], i, remaining => do
      let _ ← access (source i) (0 : UInt8)
      padZeros destination i remaining
  | byte :: _, i, 0 => do
      let _ ← access (source i) byte
      pure []
  | byte :: rest, i, remaining + 1 => do
      let found ← access (source i) byte
      if found = 0 then padZeros destination i (remaining + 1)
      else do
        let stored ← access (destination i) found
        let others ← strncpyFrom rest (i + 1) remaining
        pure (stored :: others)

/-- `strcpy` from position `i` on. -/
def strcpyFrom : List UInt8 → ℕ → Logged ι (List UInt8)
  | [], i => do
      let found ← access (source i) (0 : UInt8)
      let stored ← access (destination i) found
      pure [stored]
  | byte :: rest, i => do
      let found ← access (source i) byte
      let stored ← access (destination i) found
      if found = 0 then pure [stored]
      else do
        let others ← strcpyFrom rest (i + 1)
        pure (stored :: others)

variable {source destination}

theorem value_padZeros (i remaining : ℕ) :
    (padZeros destination i remaining).value = List.replicate remaining 0 := by
  simp [padZeros]

theorem forall_padZeros {good : ι → Prop} (i remaining : ℕ) :
    (∀ place ∈ (padZeros destination i remaining).accesses, good place) ↔
      ∀ j < remaining, good (destination (i + j)) := by
  simp only [padZeros, accesses_forEach, List.forall_mem_flatMap, List.mem_singleton,
    forall_eq, List.mem_range'_1]
  constructor
  · intro hall j hj
    exact hall (i + j) ⟨by omega, by omega⟩
  · rintro hall j ⟨hle, hlt⟩
    have hgood := hall (j - i) (by omega)
    rwa [Nat.add_sub_cancel' hle] at hgood

theorem value_strncpyFrom (bytes : List UInt8) (i remaining : ℕ) :
    (strncpyFrom source destination bytes i remaining).value = strncpyBytes bytes remaining := by
  induction bytes generalizing i remaining with
  | nil => simp [strncpyFrom, value_padZeros, strncpyBytes, cString]
  | cons byte rest ih =>
      cases remaining with
      | zero => simp [strncpyFrom, strncpyBytes]
      | succ remaining =>
          by_cases hzero : byte = 0
          · simp [strncpyFrom, hzero, value_padZeros, strncpyBytes, cString]
          · have hrest := ih (i + 1) remaining
            simp [strncpyFrom, hzero, strncpyBytes, cString] at hrest ⊢
            exact hrest

/-- `strncpy` reads up to the end of the string or of the count, and stores exactly the
count. -/
theorem forall_strncpyFrom {good : ι → Prop} (bytes : List UInt8) (i remaining : ℕ) :
    (∀ place ∈ (strncpyFrom source destination bytes i remaining).accesses, good place) ↔
      (∀ j < min remaining (strlen bytes) + 1, good (source (i + j))) ∧
        ∀ j < remaining, good (destination (i + j)) := by
  induction bytes generalizing i remaining with
  | nil =>
      simp only [strncpyFrom, accesses_bind, List.singleton_append, List.forall_mem_cons,
        forall_padZeros, strlen, Nat.min_zero, Nat.forall_lt_succ_left, Nat.not_lt_zero,
        false_implies, implies_true, and_true, Nat.add_zero]
  | cons byte rest ih =>
      cases remaining with
      | zero => simp [strncpyFrom]
      | succ remaining =>
          by_cases hzero : byte = 0
          · simp only [strncpyFrom, hzero, accesses_bind, if_true,
              List.singleton_append, List.forall_mem_cons, forall_padZeros, strlen, Nat.min_zero,
              Nat.forall_lt_succ_left, Nat.not_lt_zero, false_implies, implies_true, and_true,
              Nat.add_zero]
          · have hmin : min (remaining + 1) (strlen (byte :: rest)) =
                min remaining (strlen rest) + 1 := by
              simp only [strlen, hzero, if_false]
              omega
            have hnext : ∀ j, i + 1 + j = i + (j + 1) := by omega
            rw [hmin, Nat.forall_lt_succ_left, Nat.forall_lt_succ_left (n := remaining)]
            simp only [strncpyFrom, accesses_bind, hzero, if_false,
              List.singleton_append, List.forall_mem_cons, accesses_pure, List.append_nil, ih,
              Nat.add_zero, hnext]
            tauto

theorem value_strcpyFrom {bytes : List UInt8} (i : ℕ) (hbytes : ∀ byte ∈ bytes, byte ≠ 0) :
    (strcpyFrom source destination bytes i).value = bytes ++ [0] := by
  induction bytes generalizing i with
  | nil => rfl
  | cons byte rest ih =>
      obtain ⟨hbyte, hrest⟩ := List.forall_mem_cons.mp hbytes
      simp [strcpyFrom, hbyte, ih _ hrest]

theorem forall_strcpyFrom {good : ι → Prop} {bytes : List UInt8} (i : ℕ)
    (hbytes : ∀ byte ∈ bytes, byte ≠ 0) :
    (∀ place ∈ (strcpyFrom source destination bytes i).accesses, good place) ↔
      ∀ j < bytes.length + 1, good (source (i + j)) ∧ good (destination (i + j)) := by
  induction bytes generalizing i with
  | nil => simp [strcpyFrom]
  | cons byte rest ih =>
      obtain ⟨hbyte, hrest⟩ := List.forall_mem_cons.mp hbytes
      have hnext : ∀ j, i + 1 + j = i + (j + 1) := by omega
      rw [List.length_cons, Nat.forall_lt_succ_left]
      simp only [strcpyFrom, accesses_bind, hbyte, if_false, List.singleton_append,
        List.forall_mem_cons, accesses_pure, List.append_nil, ih _ hrest, Nat.add_zero, hnext]
      tauto

end Copies

theorem storeArgument_eq_strcpy {ι : Type} (source destination : ℕ → ι) (old : LineBuffer)
    {argument : List UInt8} (hargument : ∀ byte ∈ argument, byte ≠ 0) :
    storeArgument old argument = fun i : Fin 128 =>
      (strcpyFrom source destination argument 0).value.getD i.val (old i) := by
  funext i
  rw [value_strcpyFrom 0 hargument]
  unfold storeArgument
  split
  · rename_i hlt
    rw [List.getD_append _ _ _ _ hlt, List.getD_eq_getElem _ _ hlt, List.getD_eq_getElem _ _ hlt]
  · split
    · rename_i heq
      simp [heq]
    · rename_i hlt hne
      rw [List.getD_eq_default _ _ (by simp; omega)]

/-! ## The parser of `execute` -/

/-- The places which the parser of `execute` reads and writes. -/
inductive CommandPlace where
  | command (index : ℕ)
  | cmd (index : ℕ)
  | argument (index : ℕ)
  | pcbArgument (index : ℕ)

/-- The loops for one word: leading blanks, the word, its copy and the terminator.  Also
where the word ends. -/
def copyWord (destination : ℕ → CommandPlace) (command : List UInt8) (start : ℕ) :
    Logged CommandPlace (List UInt8 × ℕ) := do
  let start ← scanWhile CommandPlace.command (fun byte => byte = space)
    (command.drop start) start
  let stop ← scanWhile CommandPlace.command wordByte (command.drop start) start
  let word ← strncpyFrom (fun i => CommandPlace.command (start + i)) destination
    (command.drop start) 0 (stop - start)
  let _ ← access (destination (stop - start)) (0 : UInt8)
  pure (word, stop)

def parseLogged (command : List UInt8) : Logged CommandPlace (List UInt8 × List UInt8) := do
  let name ← copyWord .cmd command 0
  let argument ← copyWord .argument command name.2
  pure (name.1, argument.1)

/-- The parser, and the copy to the control block of a program that starts. -/
def commandLogged (command : List UInt8) (starts : Bool) :
    Logged CommandPlace (List UInt8 × List UInt8) := do
  let words ← parseLogged command
  if starts then do
    let _ ← strcpyFrom CommandPlace.argument CommandPlace.pcbArgument words.2 0
    pure words
  else pure words

/-- A byte of the command up to its NUL, or a byte of the buffer. -/
def CommandPlace.InBounds (command : List UInt8) : CommandPlace → Prop
  | .command index => index ≤ strlen command
  | .cmd index => index < keyboardBufSize
  | .argument index => index < keyboardBufSize
  | .pcbArgument index => index < keyboardBufSize

theorem command_inBounds (command : List UInt8) (index : ℕ) :
    (CommandPlace.command index).InBounds command ↔ index ≤ strlen command := Iff.rfl

section Scans

theorem takeWhile_length_le_strlen {test : UInt8 → Bool} (htest : test 0 = false)
    (bytes : List UInt8) : (bytes.takeWhile test).length ≤ strlen bytes := by
  induction bytes with
  | nil => rfl
  | cons byte rest ih =>
      by_cases hzero : byte = 0
      · simp [hzero, htest]
      · by_cases hbyte : test byte
        · simpa [strlen, hzero, hbyte] using ih
        · simp [hbyte]

theorem strlen_drop {bytes : List UInt8} {count : ℕ} (hcount : count ≤ strlen bytes) :
    strlen (bytes.drop count) = strlen bytes - count := by
  induction bytes generalizing count with
  | nil => simp [strlen]
  | cons byte rest ih =>
      cases count with
      | zero => rfl
      | succ count =>
          by_cases hzero : byte = 0
          · simp [strlen, hzero] at hcount
          · simp only [strlen, hzero, if_false] at hcount ⊢
            rw [List.drop_succ_cons, ih (by omega)]
            omega

theorem drop_takeWhile_length (test : UInt8 → Bool) (bytes : List UInt8) :
    bytes.drop (bytes.takeWhile test).length = bytes.dropWhile test := by
  calc bytes.drop (bytes.takeWhile test).length
      = (bytes.takeWhile test ++ bytes.dropWhile test).drop (bytes.takeWhile test).length := by
        rw [List.takeWhile_append_dropWhile]
    _ = bytes.dropWhile test := List.drop_left

theorem take_takeWhile_length {test : UInt8 → Bool} (htest : test 0 = false)
    (bytes : List UInt8) :
    strncpyBytes bytes (bytes.takeWhile test).length = bytes.takeWhile test := by
  have hlen := takeWhile_length_le_strlen htest bytes
  have htake : (cString bytes).take (bytes.takeWhile test).length = bytes.takeWhile test := by
    calc (cString bytes).take (bytes.takeWhile test).length
        = bytes.take (bytes.takeWhile test).length := (take_eq_take_cString hlen).symm
      _ = (bytes.takeWhile test ++ bytes.dropWhile test).take (bytes.takeWhile test).length := by
        rw [List.takeWhile_append_dropWhile]
      _ = bytes.takeWhile test := List.take_left
  unfold strncpyBytes
  simp [htake]

end Scans

section Words

variable {command : List UInt8} {destination : ℕ → CommandPlace} {start : ℕ}

theorem wordByte_zero : wordByte 0 = false := by decide

def wordStart (command : List UInt8) (start : ℕ) : ℕ :=
  start + ((command.drop start).takeWhile fun byte => byte = space).length

theorem drop_wordStart : command.drop (wordStart command start) =
    (command.drop start).dropWhile fun byte => byte = space := by
  unfold wordStart
  rw [← List.drop_drop, drop_takeWhile_length]

theorem wordStart_le (hstart : start ≤ strlen command) :
    wordStart command start ≤ strlen command := by
  have hspaces : ((command.drop start).takeWhile fun byte => byte = space).length ≤
      strlen (command.drop start) := takeWhile_length_le_strlen (by decide) _
  rw [strlen_drop hstart] at hspaces
  unfold wordStart
  omega

def wordStop (command : List UInt8) (start : ℕ) : ℕ :=
  wordStart command start + (nextWord (command.drop start)).1.length

theorem nextWord_length_le (hstart : start ≤ strlen command) :
    (nextWord (command.drop start)).1.length ≤ strlen command - wordStart command start := by
  have hword := takeWhile_length_le_strlen wordByte_zero (command.drop (wordStart command start))
  rwa [strlen_drop (wordStart_le hstart), drop_wordStart] at hword

theorem wordStop_le (hstart : start ≤ strlen command) :
    wordStop command start ≤ strlen command := by
  have hword := nextWord_length_le hstart
  have hle := wordStart_le hstart
  unfold wordStop
  omega

theorem drop_wordStop :
    command.drop (wordStop command start) = (nextWord (command.drop start)).2 := by
  unfold wordStop nextWord
  dsimp only
  rw [← List.drop_drop, drop_wordStart, drop_takeWhile_length]

theorem value_copyWord :
    (copyWord destination command start).value =
      ((nextWord (command.drop start)).1, wordStop command start) := by
  have hword := take_takeWhile_length wordByte_zero (command.drop (wordStart command start))
  unfold copyWord
  simp only [value_bind, value_scanWhile, value_strncpyFrom, value_pure]
  rw [← wordStart]
  simp only [Nat.add_sub_cancel_left, hword, Prod.mk.injEq]
  rw [drop_wordStart]
  exact ⟨rfl, rfl⟩

theorem copyWord_inBounds_iff (destination : ℕ → CommandPlace) (hstart : start ≤ strlen command) :
    (∀ place ∈ (copyWord destination command start).accesses, place.InBounds command) ↔
      ∀ j < (nextWord (command.drop start)).1.length + 1, (destination j).InBounds command := by
  have hle := wordStart_le hstart
  have hword := nextWord_length_le hstart
  have hspaces : ((command.drop start).takeWhile fun byte => byte = space).length =
      wordStart command start - start := by
    unfold wordStart
    omega
  have hlength : ((command.drop (wordStart command start)).takeWhile wordByte).length =
      (nextWord (command.drop start)).1.length := by
    rw [drop_wordStart]
    rfl
  unfold copyWord
  simp only [accesses_bind, List.forall_mem_append, forall_scanWhile, forall_strncpyFrom,
    value_scanWhile, accesses_pure, List.append_nil, List.forall_mem_singleton]
  rw [← wordStart]
  simp only [Nat.add_sub_cancel_left, hlength, command_inBounds, Nat.zero_add]
  constructor
  · rintro ⟨_, _, ⟨_, hcopied⟩, hlast⟩ j hj
    rcases Nat.lt_succ_iff_lt_or_eq.mp hj with hlt | rfl
    · exact hcopied j hlt
    · exact hlast
  · intro hall
    exact ⟨fun j hj => by omega, fun j hj => by omega, ⟨fun j hj => by omega,
      fun j hj => hall j (by omega)⟩, hall _ (by omega)⟩

end Words

theorem forall_lt_succ_lt_iff (length bound : ℕ) :
    (∀ j < length + 1, j < bound) ↔ length < bound := by
  constructor
  · intro hall
    exact hall length (Nat.lt_succ_self length)
  · intro hlength j hj
    omega

theorem value_parseLogged (command : List UInt8) :
    (parseLogged command).value = parseCommand command := by
  simp only [parseLogged, value_bind, value_copyWord, value_pure, drop_wordStop, List.drop_zero,
    parseCommand]

theorem value_commandLogged (command : List UInt8) (starts : Bool) :
    (commandLogged command starts).value = parseCommand command := by
  unfold commandLogged
  cases starts <;> simp [value_parseLogged]

theorem parseLogged_inBounds_iff (command : List UInt8) :
    (∀ place ∈ (parseLogged command).accesses, place.InBounds command) ↔
      (parseCommand command).1.length < keyboardBufSize ∧
        (parseCommand command).2.length < keyboardBufSize := by
  have hstop : wordStop command 0 ≤ strlen command := wordStop_le (Nat.zero_le _)
  have hname := copyWord_inBounds_iff .cmd (Nat.zero_le (strlen command))
  have hargument := copyWord_inBounds_iff .argument hstop
  simp only [parseLogged, accesses_bind, value_copyWord, accesses_pure, List.append_nil,
    List.forall_mem_append, hname, hargument]
  rw [drop_wordStop, List.drop_zero]
  exact and_congr (forall_lt_succ_lt_iff _ _) (forall_lt_succ_lt_iff _ _)

theorem accesses_commandLogged_false (command : List UInt8) :
    (commandLogged command false).accesses = (parseLogged command).accesses := by
  simp [commandLogged]

theorem ne_zero_of_mem_nextWord {command : List UInt8} {byte : UInt8}
    (hmem : byte ∈ (nextWord command).1) : byte ≠ 0 := by
  have hword : wordByte byte = true := List.mem_takeWhile_imp hmem
  rintro rfl
  exact absurd hword (by decide)

/-- `execute` stays inside its command and its buffers exactly for the commands whose first
two words are shorter than the buffers. -/
theorem command_inBounds_iff (command : List UInt8) (starts : Bool) :
    (∀ place ∈ (commandLogged command starts).accesses, place.InBounds command) ↔
      (parseCommand command).1.length < keyboardBufSize ∧
        (parseCommand command).2.length < keyboardBufSize := by
  have hargument : ∀ byte ∈ (parseCommand command).2, byte ≠ 0 :=
    fun byte hmem => ne_zero_of_mem_nextWord hmem
  cases starts with
  | false =>
      rw [accesses_commandLogged_false, parseLogged_inBounds_iff]
  | true =>
      simp only [commandLogged, if_true, accesses_bind, accesses_pure, List.append_nil,
        List.forall_mem_append, parseLogged_inBounds_iff, value_parseLogged,
        forall_strcpyFrom 0 hargument]
      refine and_iff_left_of_imp fun hshort j hj => ?_
      simp only [CommandPlace.InBounds]
      omega

def longCommand : List UInt8 := List.replicate 128 0x61

/-- A word of 128 bytes: its terminator is stored behind the end of `cmd`. -/
theorem longCommand_overruns :
    ¬ ∀ place ∈ (commandLogged longCommand false).accesses, place.InBounds longCommand := by
  rw [accesses_commandLogged_false, parseLogged_inBounds_iff]
  decide +kernel

end VirtualOS
