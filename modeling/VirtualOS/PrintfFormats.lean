import VirtualOS.NumberStrings
import Mathlib.Tactic

/-!
# Formats of `printf`

`printf` walks over its format and prints a piece at a time: a character, or
what a specifier makes of the next argument.  The specification cuts the format
into pieces.  The code follows it unless the format ends inside a specifier: it
then takes the terminator for an unknown specifier and goes on behind it.
-/

namespace VirtualOS

open PartialRuns MemorySlices

/-! ## The source -/

/-- What a call finds: memory with the format and the strings in it, the words
behind the format on the stack, and what the buffer of a conversion holds when the
specifier at an offset is reached. -/
structure PrintfCall where
  memory : ℕ → UInt8
  format : ℕ
  args : ℕ → BitVec 32
  convBuf : ℕ → ℕ → UInt8

def PrintfCall.byte (call : PrintfCall) (buf : ℕ) : UInt8 := call.memory (call.format + buf)

/-- The bytes that `puts` prints, of a string among `size` bytes. -/
def putsBytes (memory : ℕ → UInt8) (s size : ℕ) : Option (List UInt8) :=
  (MemorySlices.strlen memory s size).map (slice memory s)

/-- The loop that fills `conv_buf` up to index 8. -/
def fillZeros (memory : ℕ → UInt8) (i : ℕ) : ℕ → ℕ → UInt8
  | 0 => memory
  | count + 1 => fillZeros (Function.update memory i 0x30) (i + 1) count

def convertHex (alternate : Bool) (value : BitVec 32) (convBuf : ℕ → UInt8) :
    Option (List UInt8) :=
  if alternate = false then
    (itoa value convBuf 0 16 64).bind fun memory => putsBytes memory 0 64
  else
    (itoa value convBuf 8 16 56).bind fun memory =>
      (MemorySlices.strlen memory 8 56).bind fun startingIndex =>
        putsBytes (fillZeros memory startingIndex (8 - startingIndex)) startingIndex
          (64 - startingIndex)

def convertUnsigned (value : BitVec 32) (convBuf : ℕ → UInt8) : Option (List UInt8) :=
  (itoa value convBuf 0 10 36).bind fun memory => putsBytes memory 0 36

def convertSigned (value : BitVec 32) (convBuf : ℕ → UInt8) : Option (List UInt8) :=
  if value.toInt < 0 then
    (itoa (-value) (Function.update convBuf 0 0x2D) 1 10 35).bind fun memory =>
      putsBytes memory 0 36
  else (itoa value convBuf 0 10 36).bind fun memory => putsBytes memory 0 36

/-- The cases of the inner `switch` but `'#'`: what is printed, and `esp` after it. -/
def convert (call : PrintfCall) (fuel : ℕ) (alternate : Bool) (buf esp : ℕ) :
    Option (List UInt8 × ℕ) :=
  let value := call.args esp
  if call.byte buf = 0x25 then some ([0x25], esp)
  else if call.byte buf = 0x78 then
    (convertHex alternate value (call.convBuf buf)).map fun bytes => (bytes, esp + 1)
  else if call.byte buf = 0x75 then
    (convertUnsigned value (call.convBuf buf)).map fun bytes => (bytes, esp + 1)
  else if call.byte buf = 0x64 then
    (convertSigned value (call.convBuf buf)).map fun bytes => (bytes, esp + 1)
  else if call.byte buf = 0x63 then some ([UInt8.ofNat value.toNat], esp + 1)
  else if call.byte buf = 0x73 then
    (putsBytes call.memory value.toNat fuel).map fun bytes => (bytes, esp + 1)
  else some ([], esp)

/-- Where `format_char_switch` leaves the flags behind, and the offsets it reads. -/
structure Specifier where
  buf : ℕ
  alternate : Bool
  reads : List ℕ

/-- The jumps back to `format_char_switch`. -/
def formatCharSwitch (call : PrintfCall) : ℕ → ℕ → Bool → Option Specifier
  | 0, _, _ => none
  | fuel + 1, buf, alternate =>
      if call.byte buf = 0x23 then
        (formatCharSwitch call fuel (buf + 1) true).map fun found =>
          { found with reads := buf :: found.reads }
      else some ⟨buf, alternate, [buf]⟩

/-- The value of a call, the arguments taken, the bytes printed and the offsets of
the format that were read. -/
structure PrintfResult where
  value : ℕ
  consumed : ℕ
  output : List UInt8
  reads : List ℕ
  deriving DecidableEq

def printfLoop (call : PrintfCall) :
    ℕ → ℕ → ℕ → List UInt8 → List ℕ → Option PrintfResult
  | 0, _, _, _, _ => none
  | fuel + 1, buf, esp, output, reads =>
      if call.byte buf = 0 then some ⟨buf, esp, output, reads ++ [buf]⟩
      else if call.byte buf = 0x25 then
        (formatCharSwitch call fuel (buf + 1) false).bind fun found =>
          (convert call fuel found.alternate found.buf esp).bind fun result =>
            printfLoop call fuel (found.buf + 1) result.2 (output ++ result.1)
              (reads ++ buf :: found.reads)
      else printfLoop call fuel (buf + 1) esp (output ++ [call.byte buf]) (reads ++ [buf])

/-- `printf`, up to the terminal. -/
def printf (call : PrintfCall) (fuel : ℕ) : Option PrintfResult :=
  printfLoop call fuel 0 0 [] []

/-- `printf` on the running terminal. -/
def printfTo (s : Kernel) (call : PrintfCall) (fuel : ℕ) : Option (Kernel × ℕ) :=
  (printf call fuel).bind fun result =>
    (printLiteral s result.output).map fun next => (next, result.value)

/-! ## The pieces of a format -/

inductive Piece where
  | literal (c : UInt8)
  | percent
  | hex (alternate : Bool)
  | unsigned
  | signed
  | character
  | string
  | unknown
  deriving DecidableEq

/-- Where a format stands behind a byte: in the text, or in a specifier. -/
inductive FormatState where
  | text
  | specifier (alternate : Bool)
  deriving DecidableEq

def FormatState.next : FormatState → UInt8 → FormatState
  | .text, c => if c = 0x25 then .specifier false else .text
  | .specifier _, c => if c = 0x23 then .specifier true else .text

/-- The format ends behind a `%` that begins a specifier, or behind its flags. -/
def Dangling (format : List UInt8) : Prop := format.foldl FormatState.next .text ≠ .text

instance (format : List UInt8) : Decidable (Dangling format) := by
  unfold Dangling
  infer_instance

def pieceOf (alternate : Bool) (c : UInt8) : Piece :=
  if c = 0x25 then .percent
  else if c = 0x78 then .hex alternate
  else if c = 0x75 then .unsigned
  else if c = 0x64 then .signed
  else if c = 0x63 then .character
  else if c = 0x73 then .string
  else .unknown

def pieces : FormatState → List UInt8 → List Piece
  | _, [] => []
  | .text, c :: rest =>
      if c = 0x25 then pieces (.specifier false) rest else .literal c :: pieces .text rest
  | .specifier alternate, c :: rest =>
      if c = 0x23 then pieces (.specifier true) rest
      else pieceOf alternate c :: pieces .text rest

namespace Piece

/-- The number of arguments a piece takes. -/
def takes : Piece → ℕ
  | .literal _ | .percent | .unknown => 0
  | .hex _ | .unsigned | .signed | .character | .string => 1

/-- What is printed for a piece, with the next argument and the string it may point to. -/
def render (argument : BitVec 32) (string : List UInt8) : Piece → List UInt8
  | .literal c => [c]
  | .percent => [0x25]
  | .hex false => numeral 16 argument.toNat
  | .hex true =>
      List.replicate (8 - (numeral 16 argument.toNat).length) 0x30 ++ numeral 16 argument.toNat
  | .unsigned => numeral 10 argument.toNat
  | .signed =>
      (if argument.toInt < 0 then [0x2D] else []) ++ numeral 10 argument.toInt.natAbs
  | .character => [UInt8.ofNat argument.toNat]
  | .string => string
  | .unknown => []

end Piece

def argumentCount (parts : List Piece) : ℕ := (parts.map Piece.takes).sum

/-- The concatenation of the pieces, which take the arguments from `k` on. -/
def renderPieces (args : ℕ → BitVec 32) (strings : ℕ → List UInt8) : ℕ → List Piece → List UInt8
  | _, [] => []
  | k, part :: rest =>
      part.render (args k) (strings k) ++ renderPieces args strings (k + part.takes) rest

/-- The arguments that are printed as strings point to strings. -/
def StringsHeld (call : PrintfCall) (strings : ℕ → List UInt8) : ℕ → List Piece → Prop
  | _, [] => True
  | k, part :: rest =>
      (part = .string → HoldsString call.memory (call.args k).toNat (strings k)) ∧
        StringsHeld call strings (k + part.takes) rest

/-- `printf` returns, prints the pieces of the format one after the other, takes the
arguments of the pieces, returns the length of the format and does not read behind the
terminator of the format. -/
def InterpretsFormat (call : PrintfCall) (text : List UInt8) (strings : ℕ → List UInt8) : Prop :=
  ∃ bound, ∀ fuel ≥ bound, ∃ result, printf call fuel = some result ∧
    result.output = renderPieces call.args strings 0 (pieces .text text) ∧
    result.consumed = argumentCount (pieces .text text) ∧
    result.value = text.length ∧
    ∀ offset ∈ result.reads, offset ≤ text.length

/-! ## Conversions -/

theorem putsBytes_eq {memory : ℕ → UInt8} {s size : ℕ} {text : List UInt8}
    (hholds : HoldsString memory s text) (hsize : text.length < size) :
    putsBytes memory s size = some text := by
  rw [putsBytes, hholds.strlen hsize, Option.map_some, hholds.bytes]

theorem puts_itoa (value : BitVec 32) (convBuf : ℕ → UInt8) {radix size : ℕ}
    (hradix : 1 < radix) (hmax : radix ≤ 36)
    (hsize : (numeral radix value.toNat).length < size) :
    ((itoa value convBuf 0 radix size).bind fun memory => putsBytes memory 0 size) =
      some (numeral radix value.toNat) := by
  obtain ⟨written, hitoa, hholds, -⟩ := itoa_holds value convBuf 0 hradix hmax hsize
  rw [hitoa, Option.bind_some, putsBytes_eq hholds hsize]

theorem decimal_length_lt {value size : ℕ} (hvalue : value < 2 ^ 32) (hsize : 10 < size) :
    (numeral 10 value).length < size := by
  have hle : (numeral 10 value).length ≤ 10 :=
    numeral_length_le (by decide) (hvalue.trans (by decide)) (by decide)
  omega

theorem hex_length_le {value : ℕ} (hvalue : value < 2 ^ 32) : (numeral 16 value).length ≤ 8 :=
  numeral_length_le (by decide) hvalue (by decide)

theorem fillZeros_spec (memory : ℕ → UInt8) (i count : ℕ) :
    slice (fillZeros memory i count) i count = List.replicate count 0x30 ∧
      ∀ k, k < i ∨ i + count ≤ k → fillZeros memory i count k = memory k := by
  induction count generalizing memory i with
  | zero => exact ⟨rfl, fun _ _ => rfl⟩
  | succ count ih =>
      obtain ⟨hslice, hother⟩ := ih (Function.update memory i 0x30) (i + 1)
      constructor
      · rw [slice_succ, fillZeros, hslice, hother i (by omega), Function.update_self,
          List.replicate_succ]
      · intro k hk
        rw [fillZeros, hother k (by omega), Function.update_of_ne (by omega)]

/-- The digits lie from index 8 on; the zeros are put in front of them. -/
theorem convertHex_alternate (value : BitVec 32) (convBuf : ℕ → UInt8) :
    convertHex true value convBuf =
      some (List.replicate (8 - (numeral 16 value.toNat).length) 0x30 ++
        numeral 16 value.toNat) := by
  have hle := hex_length_le value.isLt
  have hsize : (numeral 16 value.toNat).length < 56 := by omega
  obtain ⟨written, hitoa, hholds, -⟩ :=
    itoa_holds value convBuf 8 (by decide) (by decide) hsize
  have hne := hholds.ne_zero
  set digits := numeral 16 value.toNat
  obtain ⟨hzeros, hother⟩ := fillZeros_spec written digits.length (8 - digits.length)
  have hpadded : HoldsString (fillZeros written digits.length (8 - digits.length)) digits.length
      (List.replicate (8 - digits.length) 0x30 ++ digits) := by
    refine ⟨?_, ?_, ?_⟩
    · have hdigits : slice (fillZeros written digits.length (8 - digits.length)) 8 digits.length =
          slice written 8 digits.length :=
        slice_congr fun k hk _ => hother k (by omega)
      rw [List.length_append, List.length_replicate, slice_add, hzeros,
        show digits.length + (8 - digits.length) = 8 by omega, hdigits, hholds.bytes]
    · rw [List.length_append, List.length_replicate, hother _ (by omega),
        show digits.length + (8 - digits.length + digits.length) = 8 + digits.length by omega]
      exact hholds.ended
    · intro c hc
      rcases List.mem_append.mp hc with hzero | hdigit
      · rw [(List.mem_replicate.mp hzero).2]
        decide
      · exact hne c hdigit
  rw [convertHex, if_neg (by decide), hitoa, Option.bind_some, hholds.strlen (by omega),
    Option.bind_some]
  apply putsBytes_eq hpadded
  rw [List.length_append, List.length_replicate]
  omega

theorem toNat_neg_of_toInt_neg {value : BitVec 32} (hneg : value.toInt < 0) :
    (-value).toNat = value.toInt.natAbs := by
  have hlt := value.isLt
  have hint := BitVec.toInt_eq_toNat_cond value
  rw [BitVec.toNat_neg]
  split at hint <;> omega

/-- The least number is its own negative, which is printed as an unsigned number. -/
theorem convertSigned_eq (value : BitVec 32) (convBuf : ℕ → UInt8) :
    convertSigned value convBuf = some ((if value.toInt < 0 then [0x2D] else []) ++
      numeral 10 value.toInt.natAbs) := by
  unfold convertSigned
  by_cases hneg : value.toInt < 0
  · have habs := toNat_neg_of_toInt_neg hneg
    have hlt := (-value).isLt
    obtain ⟨written, hitoa, hholds, hbefore⟩ := itoa_holds (-value)
      (Function.update convBuf 0 0x2D) 1 (by decide) (by decide)
      (decimal_length_lt hlt (show 10 < 35 by decide))
    rw [habs] at hholds hlt
    have hsigned : HoldsString written 0 (0x2D :: numeral 10 value.toInt.natAbs) := by
      refine ⟨?_, ?_, ?_⟩
      · rw [List.length_cons, slice_succ, hbefore 0 (.inl Nat.one_pos), Function.update_self,
          hholds.bytes]
      · rw [List.length_cons, Nat.zero_add, Nat.add_comm]
        exact hholds.ended
      · exact List.forall_mem_cons.mpr ⟨by decide, hholds.ne_zero⟩
    have hsize : (0x2D :: numeral 10 value.toInt.natAbs).length < 36 := by
      have hdigits : (numeral 10 value.toInt.natAbs).length < 35 :=
        decimal_length_lt hlt (by decide)
      rw [List.length_cons]
      omega
    rw [if_pos hneg, if_pos hneg, hitoa, Option.bind_some, putsBytes_eq hsigned hsize]
    rfl
  · have habs : value.toInt.natAbs = value.toNat := by
      have hint := BitVec.toInt_eq_toNat_cond value
      split at hint <;> omega
    rw [if_neg hneg, if_neg hneg, habs, List.nil_append]
    exact puts_itoa value convBuf (by decide) (by decide)
      (decimal_length_lt value.isLt (by decide))

section Call

variable {call : PrintfCall} {strings : ℕ → List UInt8}

/-- A specifier does what its piece says. -/
theorem convert_eq {fuel buf esp : ℕ} {alternate : Bool} {c : UInt8} (hc : call.byte buf = c)
    (hstring : pieceOf alternate c = .string →
      HoldsString call.memory (call.args esp).toNat (strings esp) ∧ (strings esp).length < fuel) :
    convert call fuel alternate buf esp =
      some ((pieceOf alternate c).render (call.args esp) (strings esp),
        esp + (pieceOf alternate c).takes) := by
  have hvalue := (call.args esp).isLt
  unfold convert pieceOf at *
  dsimp only
  rw [hc]
  by_cases hpercent : c = 0x25
  · rw [if_pos hpercent, if_pos hpercent]
    rfl
  rw [if_neg hpercent] at hstring
  rw [if_neg hpercent, if_neg hpercent]
  by_cases hhex : c = 0x78
  · rw [if_pos hhex, if_pos hhex]
    cases alternate with
    | false =>
        have hhalf := hex_length_le hvalue
        have hsize : (numeral 16 (call.args esp).toNat).length < 64 := by omega
        rw [convertHex, if_pos rfl, puts_itoa _ _ (by decide) (by decide) hsize]
        rfl
    | true =>
        rw [convertHex_alternate]
        rfl
  rw [if_neg hhex] at hstring
  rw [if_neg hhex, if_neg hhex]
  by_cases hunsigned : c = 0x75
  · have hsize := decimal_length_lt hvalue (show 10 < 36 by decide)
    rw [if_pos hunsigned, if_pos hunsigned, convertUnsigned,
      puts_itoa _ _ (by decide) (by decide) hsize]
    rfl
  rw [if_neg hunsigned] at hstring
  rw [if_neg hunsigned, if_neg hunsigned]
  by_cases hsigned : c = 0x64
  · rw [if_pos hsigned, if_pos hsigned, convertSigned_eq]
    rfl
  rw [if_neg hsigned] at hstring
  rw [if_neg hsigned, if_neg hsigned]
  by_cases hchar : c = 0x63
  · rw [if_pos hchar, if_pos hchar]
    rfl
  rw [if_neg hchar] at hstring
  rw [if_neg hchar, if_neg hchar]
  by_cases hs : c = 0x73
  · rw [if_pos hs] at hstring
    obtain ⟨hholds, hlength⟩ := hstring rfl
    rw [if_pos hs, if_pos hs, putsBytes_eq hholds hlength]
    rfl
  · rw [if_neg hs, if_neg hs]
    rfl

/-! ## Specifiers -/

theorem exists_flags (text : List UInt8) : ∃ n rest,
    text = List.replicate n 0x23 ++ rest ∧ rest.head? ≠ some 0x23 := by
  induction text with
  | nil => exact ⟨0, [], rfl, by decide⟩
  | cons c text ih =>
      by_cases hc : c = 0x23
      · obtain ⟨n, rest, rfl, hrest⟩ := ih
        exact ⟨n + 1, rest, by rw [hc]; rfl, hrest⟩
      · exact ⟨0, c :: text, rfl, by simpa using hc⟩

/-- The jumps pass over the flags and stop behind them. -/
theorem formatCharSwitch_eq {fuel buf n : ℕ} {alternate : Bool} {rest : List UInt8}
    (hholds : HoldsString call.memory (call.format + buf) (List.replicate n 0x23 ++ rest))
    (hrest : rest.head? ≠ some 0x23) :
    formatCharSwitch call fuel buf alternate =
      if n < fuel then
        some ⟨buf + n, alternate || decide (0 < n), (List.range (n + 1)).map (buf + ·)⟩
      else none := by
  induction n generalizing fuel buf alternate with
  | zero =>
      cases fuel with
      | zero => rfl
      | succ fuel =>
          have hbyte : call.byte buf ≠ 0x23 := by
            cases rest with
            | nil =>
                have hended : call.byte buf = 0 := hholds.ended
                rw [hended]
                decide
            | cons c rest =>
                have hc : call.byte buf = c := hholds.tail.1
                rw [hc]
                simpa using hrest
          rw [formatCharSwitch, if_neg hbyte, if_pos (Nat.succ_pos _)]
          simp
  | succ n ih =>
      cases fuel with
      | zero => rfl
      | succ fuel =>
          rw [List.replicate_succ, List.cons_append] at hholds
          obtain ⟨hfirst, -, hnext⟩ := hholds.tail
          have hbyte : call.byte buf = 0x23 := hfirst
          rw [formatCharSwitch, if_pos hbyte, ih hnext]
          by_cases hfuel : n < fuel
          · rw [if_pos hfuel, if_pos (Nat.succ_lt_succ hfuel), Option.map_some,
              List.range_succ_eq_map (n := n + 1), List.map_cons, List.map_map]
            simp only [Bool.true_or, Nat.succ_pos, decide_true, Bool.or_true, Nat.add_zero,
              Option.some.injEq, Specifier.mk.injEq, true_and, List.cons.injEq]
            refine ⟨by omega, ?_⟩
            apply List.map_congr_left
            intro k _
            simp only [Function.comp, Nat.succ_eq_add_one]
            omega
          · rw [if_neg hfuel, if_neg (fun h => hfuel (Nat.lt_of_succ_lt_succ h))]
            rfl

theorem foldl_flags (alternate : Bool) (n : ℕ) (rest : List UInt8) :
    (List.replicate n 0x23 ++ rest).foldl FormatState.next (.specifier alternate) =
      rest.foldl FormatState.next (.specifier (alternate || decide (0 < n))) := by
  induction n generalizing alternate with
  | zero => simp
  | succ n ih =>
      rw [List.replicate_succ, List.cons_append, List.foldl_cons, FormatState.next, if_pos rfl, ih]
      simp

theorem pieces_flags (alternate : Bool) (n : ℕ) (rest : List UInt8) :
    pieces (.specifier alternate) (List.replicate n 0x23 ++ rest) =
      pieces (.specifier (alternate || decide (0 < n))) rest := by
  induction n generalizing alternate with
  | zero => simp
  | succ n ih =>
      rw [List.replicate_succ, List.cons_append, pieces, if_pos rfl, ih]
      simp

/-! ## The loop -/

theorem foldl_percent (rest : List UInt8) :
    (0x25 :: rest).foldl FormatState.next .text =
      rest.foldl FormatState.next (.specifier false) := rfl

theorem pieces_percent {n : ℕ} {d : UInt8} (hd : d ≠ 0x23) (rest : List UInt8) :
    pieces .text (0x25 :: (List.replicate n 0x23 ++ d :: rest)) =
      pieceOf (decide (0 < n)) d :: pieces .text rest := by
  rw [pieces, if_pos rfl, pieces_flags, pieces, if_neg hd, Bool.false_or]

theorem printfLoop_literal {c : UInt8} {buf : ℕ} (hbyte : call.byte buf = c) (hc : c ≠ 0)
    (hpercent : c ≠ 0x25) (fuel esp : ℕ) (output : List UInt8) (reads : List ℕ) :
    printfLoop call (fuel + 1) buf esp output reads =
      printfLoop call fuel (buf + 1) esp (output ++ [c]) (reads ++ [buf]) := by
  rw [printfLoop, hbyte, if_neg hc, if_neg hpercent]

theorem printfLoop_percent {buf n : ℕ} {rest : List UInt8}
    (hholds : HoldsString call.memory (call.format + buf)
      (0x25 :: (List.replicate n 0x23 ++ rest)))
    (hrest : rest.head? ≠ some 0x23) (fuel esp : ℕ) (output : List UInt8) (reads : List ℕ) :
    printfLoop call (fuel + 1) buf esp output reads =
      if n < fuel then
        (convert call fuel (decide (0 < n)) (buf + 1 + n) esp).bind fun result =>
          printfLoop call fuel (buf + 1 + n + 1) result.2 (output ++ result.1)
            (reads ++ buf :: (List.range (n + 1)).map (buf + 1 + ·))
      else none := by
  obtain ⟨hfirst, -, hnext⟩ := hholds.tail
  have hbyte : call.byte buf = 0x25 := hfirst
  rw [printfLoop, hbyte, if_neg (by decide), if_pos rfl, formatCharSwitch_eq hnext hrest]
  by_cases hfuel : n < fuel
  · rw [if_pos hfuel, if_pos hfuel, Option.bind_some, Bool.false_or]
  · rw [if_neg hfuel, if_neg hfuel]
    rfl

theorem holdsString_behind_specifier {buf n : ℕ} {d : UInt8} {more : List UInt8}
    (hholds : HoldsString call.memory (call.format + buf)
      (0x25 :: (List.replicate n 0x23 ++ d :: more))) :
    call.byte (buf + 1 + n) = d ∧
      HoldsString call.memory (call.format + (buf + 1 + n + 1)) more := by
  have hflags := hholds.tail.2.2.drop (k := n) (by simp)
  rw [List.drop_left' (List.length_replicate ..), Nat.add_assoc, Nat.add_assoc,
    ← Nat.add_assoc buf] at hflags
  obtain ⟨hbyte, -, hmore⟩ := hflags.tail
  exact ⟨hbyte, hmore⟩

theorem holdsString_behind_literal {buf : ℕ} {c : UInt8} {rest : List UInt8}
    (hholds : HoldsString call.memory (call.format + buf) (c :: rest)) :
    call.byte buf = c ∧ c ≠ 0 ∧ HoldsString call.memory (call.format + (buf + 1)) rest :=
  hholds.tail

theorem length_specifier (n : ℕ) (d : UInt8) (more : List UInt8) :
    (0x25 :: (List.replicate n 0x23 ++ d :: more)).length = 1 + n + 1 + more.length := by
  simp only [List.length_cons, List.length_append, List.length_replicate]
  omega

theorem argumentCount_cons (part : Piece) (rest : List Piece) :
    argumentCount (part :: rest) = part.takes + argumentCount rest := by
  rw [argumentCount, List.map_cons, List.sum_cons]
  rfl

/-- A round for a whole specifier prints its piece. -/
theorem printfLoop_specifier {buf n esp fuel : ℕ} {d : UInt8} {more : List UInt8}
    (hholds : HoldsString call.memory (call.format + buf)
      (0x25 :: (List.replicate n 0x23 ++ d :: more)))
    (hd : d ≠ 0x23)
    (hstring : pieceOf (decide (0 < n)) d = .string →
      HoldsString call.memory (call.args esp).toNat (strings esp))
    (hflags : n < fuel) (hlength : (strings esp).length < fuel) (output : List UInt8)
    (reads : List ℕ) :
    printfLoop call (fuel + 1) buf esp output reads =
      printfLoop call fuel (buf + 1 + n + 1) (esp + (pieceOf (decide (0 < n)) d).takes)
        (output ++ (pieceOf (decide (0 < n)) d).render (call.args esp) (strings esp))
        (reads ++ buf :: (List.range (n + 1)).map (buf + 1 + ·)) := by
  have hhead : (d :: more).head? ≠ some 0x23 := by simpa using hd
  obtain ⟨hbyte, -⟩ := holdsString_behind_specifier hholds
  rw [printfLoop_percent hholds hhead, if_pos hflags,
    convert_eq hbyte fun h => ⟨hstring h, hlength⟩, Option.bind_some]

theorem flagOffsets_le {buf n offset : ℕ}
    (hoffset : offset ∈ buf :: (List.range (n + 1)).map (buf + 1 + ·)) :
    offset ≤ buf + 1 + n := by
  rcases List.mem_cons.mp hoffset with rfl | hflag
  · omega
  · obtain ⟨k, hk, rfl⟩ := List.mem_map.mp hflag
    have hlt := List.mem_range.mp hk
    omega

/-- From a place outside a specifier on, a format that ends outside one is printed
piece by piece. -/
theorem printfLoop_spec {text : List UInt8} {buf esp : ℕ}
    (hholds : HoldsString call.memory (call.format + buf) text)
    (hcomplete : text.foldl FormatState.next .text = .text)
    (hstrings : StringsHeld call strings esp (pieces .text text)) :
    ∃ bound, ∀ fuel ≥ bound, ∀ output reads, ∃ log,
      printfLoop call fuel buf esp output reads =
        some ⟨buf + text.length, esp + argumentCount (pieces .text text),
          output ++ renderPieces call.args strings esp (pieces .text text), reads ++ log⟩ ∧
      ∀ offset ∈ log, offset ≤ buf + text.length := by
  induction hn : text.length using Nat.strong_induction_on generalizing text buf esp with
  | h n ih =>
      subst hn
      cases text with
      | nil =>
          refine ⟨1, fun fuel hfuel output reads => ⟨[buf], ?_, by simp⟩⟩
          obtain ⟨fuel, rfl⟩ : ∃ n, fuel = n + 1 := ⟨fuel - 1, by omega⟩
          have hended : call.byte buf = 0 := hholds.ended
          rw [printfLoop, if_pos hended]
          simp [pieces, argumentCount, renderPieces]
      | cons c rest =>
          by_cases hpercent : c = 0x25
          · subst hpercent
            obtain ⟨n, tail, rfl, htail⟩ := exists_flags rest
            rw [foldl_percent, foldl_flags] at hcomplete
            cases tail with
            | nil => cases hcomplete
            | cons d more =>
                have hd : d ≠ 0x23 := by simpa using htail
                rw [List.foldl_cons, FormatState.next, if_neg hd] at hcomplete
                rw [pieces_percent hd] at hstrings ⊢
                obtain ⟨hstring, hstrings'⟩ := hstrings
                obtain ⟨-, hmore⟩ := holdsString_behind_specifier hholds
                have hlength := length_specifier n d more
                obtain ⟨bound, hbound⟩ := ih more.length (by omega) hmore hcomplete hstrings' rfl
                refine ⟨max bound (max n (strings esp).length + 1) + 1,
                  fun fuel hfuel output reads => ?_⟩
                obtain ⟨fuel, rfl⟩ : ∃ n, fuel = n + 1 := ⟨fuel - 1, by omega⟩
                obtain ⟨log, hloop, hlog⟩ := hbound fuel (by omega)
                  (output ++ (pieceOf (decide (0 < n)) d).render (call.args esp) (strings esp))
                  (reads ++ buf :: (List.range (n + 1)).map (buf + 1 + ·))
                refine ⟨buf :: (List.range (n + 1)).map (buf + 1 + ·) ++ log, ?_, ?_⟩
                · rw [printfLoop_specifier hholds hd hstring (by omega) (by omega), hloop, hlength,
                    argumentCount_cons, renderPieces]
                  simp only [List.append_assoc, Nat.add_assoc]
                · intro offset hoffset
                  rw [hlength]
                  rcases List.mem_append.mp hoffset with hflags | hrest
                  · have hle := flagOffsets_le hflags
                    omega
                  · have hle := hlog offset hrest
                    omega
          · obtain ⟨hbyte, hc, hnext⟩ := holdsString_behind_literal hholds
            have hpieces : pieces .text (c :: rest) = .literal c :: pieces .text rest := by
              rw [pieces, if_neg hpercent]
            rw [List.foldl_cons, FormatState.next, if_neg hpercent] at hcomplete
            rw [hpieces] at hstrings ⊢
            obtain ⟨bound, hbound⟩ := ih rest.length (by simp) hnext hcomplete hstrings.2 rfl
            refine ⟨bound + 1, fun fuel hfuel output reads => ?_⟩
            obtain ⟨fuel, rfl⟩ : ∃ n, fuel = n + 1 := ⟨fuel - 1, by omega⟩
            obtain ⟨log, hloop, hlog⟩ := hbound fuel (by omega) (output ++ [c]) (reads ++ [buf])
            refine ⟨buf :: log, ?_, ?_⟩
            · rw [printfLoop_literal hbyte hc hpercent]
              refine hloop.trans ?_
              rw [List.length_cons, argumentCount_cons, renderPieces]
              simp only [Piece.takes, Piece.render, List.append_assoc, List.singleton_append,
                Nat.add_zero, Nat.zero_add, Option.some.injEq, PrintfResult.mk.injEq, and_true]
              omega
            · intro offset hoffset
              rw [List.length_cons]
              rcases List.mem_cons.mp hoffset with rfl | hrest
              · omega
              · have hle := hlog offset hrest
                omega

/-- What has been read is not forgotten, and the next byte is read. -/
theorem mem_reads_of_printfLoop {fuel buf esp : ℕ} {output : List UInt8} {reads : List ℕ}
    {result : PrintfResult} (hloop : printfLoop call fuel buf esp output reads = some result) :
    buf ∈ result.reads ∧ ∀ offset ∈ reads, offset ∈ result.reads := by
  induction fuel generalizing buf esp output reads with
  | zero => contradiction
  | succ fuel ih =>
      rw [printfLoop] at hloop
      split at hloop
      · obtain rfl := Option.some.inj hloop
        exact ⟨by simp, fun offset hoffset => by simp [hoffset]⟩
      · split at hloop
        · obtain ⟨found, -, hbind⟩ := Option.bind_eq_some_iff.mp hloop
          obtain ⟨converted, -, hrest⟩ := Option.bind_eq_some_iff.mp hbind
          obtain ⟨-, hreads⟩ := ih hrest
          exact ⟨hreads _ (by simp), fun offset hoffset => hreads _ (by simp [hoffset])⟩
        · obtain ⟨-, hreads⟩ := ih hloop
          exact ⟨hreads _ (by simp), fun offset hoffset => hreads _ (by simp [hoffset])⟩

/-- A format that ends inside a specifier is read behind its terminator. -/
theorem printfLoop_dangling {text : List UInt8} {fuel buf esp : ℕ} {output : List UInt8}
    {reads : List ℕ} {result : PrintfResult}
    (hholds : HoldsString call.memory (call.format + buf) text)
    (hdangling : text.foldl FormatState.next .text ≠ .text)
    (hloop : printfLoop call fuel buf esp output reads = some result) :
    buf + text.length + 1 ∈ result.reads := by
  induction hn : text.length using Nat.strong_induction_on
    generalizing text fuel buf esp output reads with
  | h n ih =>
      subst hn
      cases fuel with
      | zero => contradiction
      | succ fuel =>
          cases text with
          | nil => exact absurd rfl hdangling
          | cons c rest =>
              by_cases hpercent : c = 0x25
              · subst hpercent
                obtain ⟨n, tail, rfl, htail⟩ := exists_flags rest
                rw [printfLoop_percent hholds htail] at hloop
                split at hloop
                · obtain ⟨converted, -, hrest⟩ := Option.bind_eq_some_iff.mp hloop
                  cases tail with
                  | nil =>
                      -- the terminator has been taken for the specifier
                      have hlength : ((0x25 : UInt8) :: (List.replicate n 0x23 ++ [])).length =
                          1 + n := by
                        simp only [List.length_cons, List.length_append, List.length_replicate,
                          List.length_nil]
                        omega
                      rw [hlength, ← Nat.add_assoc]
                      exact (mem_reads_of_printfLoop hrest).1
                  | cons d more =>
                      have hd : d ≠ 0x23 := by simpa using htail
                      have hlength := length_specifier n d more
                      rw [foldl_percent, foldl_flags, List.foldl_cons, FormatState.next,
                        if_neg hd] at hdangling
                      obtain ⟨-, hmore⟩ := holdsString_behind_specifier hholds
                      have hmem := ih more.length (by omega) hmore hdangling hrest rfl
                      rw [hlength]
                      simp only [← Nat.add_assoc] at hmem ⊢
                      exact hmem
                · contradiction
              · obtain ⟨hbyte, hc, hnext⟩ := holdsString_behind_literal hholds
                rw [printfLoop_literal hbyte hc hpercent] at hloop
                rw [List.foldl_cons, FormatState.next, if_neg hpercent] at hdangling
                have hmem := ih rest.length (by simp) hnext hdangling hloop rfl
                rw [List.length_cons, ← Nat.add_assoc]
                rw [Nat.add_right_comm buf 1] at hmem
                exact hmem

/-- Pieces among which no string is printed need no memory. -/
theorem stringsHeld_of_no_string {parts : List Piece} {k : ℕ} (hparts : Piece.string ∉ parts) :
    StringsHeld call strings k parts := by
  induction parts generalizing k with
  | nil => exact trivial
  | cons part rest ih =>
      obtain ⟨hpart, hrest⟩ := List.ne_and_not_mem_of_not_mem_cons hparts
      exact ⟨fun heq => absurd heq.symm hpart, ih hrest⟩

/-- `printf` interprets exactly the formats that do not end inside a specifier. -/
theorem printf_interprets_iff {text : List UInt8}
    (hformat : HoldsString call.memory call.format text)
    (hstrings : StringsHeld call strings 0 (pieces .text text)) :
    InterpretsFormat call text strings ↔ ¬ Dangling text := by
  have hstart : HoldsString call.memory (call.format + 0) text := hformat
  constructor
  · rintro ⟨bound, hbound⟩ hdangling
    obtain ⟨result, hprintf, -, -, -, hreads⟩ := hbound bound (le_refl _)
    have hmem := hreads _ (printfLoop_dangling hstart hdangling hprintf)
    omega
  · intro hcomplete
    obtain ⟨bound, hbound⟩ := printfLoop_spec hstart (not_not.mp hcomplete) hstrings
    refine ⟨bound, fun fuel hfuel => ?_⟩
    obtain ⟨log, hloop, hlog⟩ := hbound fuel hfuel [] []
    refine ⟨_, hloop, rfl, Nat.zero_add _, Nat.zero_add _, fun offset hoffset => ?_⟩
    have hle := hlog offset hoffset
    omega

end Call

/-- A format at address 0 and a string at address 100. -/
def progressCall : PrintfCall where
  memory k := if k < 100 then stringBytes (ascii "%s: %d of %#x%%\n") k
    else stringBytes (ascii "copy") (k - 100)
  format := 0
  args k := [100, -5, 0xE].getD k 0
  convBuf _ _ := 0x7F

theorem printf_interprets_progressCall :
    InterpretsFormat progressCall (ascii "%s: %d of %#x%%\n") fun _ => ascii "copy" := by
  have hformat : HoldsString progressCall.memory progressCall.format
      (ascii "%s: %d of %#x%%\n") := ⟨by decide, by decide, List.forall_mem_ne'.mpr (by decide)⟩
  refine (printf_interprets_iff hformat ?_).mpr (by decide)
  have hpieces : pieces .text (ascii "%s: %d of %#x%%\n") =
      .string :: (ascii ": ").map Piece.literal ++ .signed :: (ascii " of ").map Piece.literal ++
        [.hex true, .percent, .literal 0x0A] := by decide
  have hcopy : HoldsString progressCall.memory 100 (ascii "copy") :=
    ⟨by decide, by decide, List.forall_mem_ne'.mpr (by decide)⟩
  rw [hpieces]
  refine ⟨fun _ => hcopy, ?_⟩
  apply stringsHeld_of_no_string
  decide

/-- A percent sign at the end of a format, with a letter behind the terminator. -/
def percentCall : PrintfCall where
  memory := stringBytes (ascii "50%" ++ 0 :: ascii "A")
  format := 0
  args _ := 0
  convBuf _ _ := 0

theorem printf_percentCall :
    HoldsString percentCall.memory percentCall.format (ascii "50%") ∧
      printf percentCall 10 = some ⟨5, 0, ascii "50A", [0, 1, 2, 3, 4, 5]⟩ ∧
      ¬ InterpretsFormat percentCall (ascii "50%") fun _ => [] := by
  have hformat : HoldsString percentCall.memory (percentCall.format + 0) (ascii "50%") :=
    ⟨by decide, by decide, List.forall_mem_ne'.mpr (by decide)⟩
  refine ⟨hformat, by decide, ?_⟩
  rintro ⟨bound, hbound⟩
  obtain ⟨result, hprintf, -, -, -, hreads⟩ := hbound bound (le_refl _)
  have hmem := printfLoop_dangling hformat (by decide) hprintf
  exact absurd (hreads _ hmem) (by decide)

/-! ## Constant formats -/

theorem pieces_plain {text : List UInt8} (hplain : (0x25 : UInt8) ∉ text) :
    pieces .text text = text.map Piece.literal := by
  induction text with
  | nil => rfl
  | cons c rest ih =>
      obtain ⟨hc, hrest⟩ := List.ne_and_not_mem_of_not_mem_cons hplain
      rw [pieces, if_neg hc.symm, ih hrest, List.map_cons]

theorem foldl_plain {text : List UInt8} (hplain : (0x25 : UInt8) ∉ text) :
    text.foldl FormatState.next .text = .text := by
  induction text with
  | nil => rfl
  | cons c rest ih =>
      obtain ⟨hc, hrest⟩ := List.ne_and_not_mem_of_not_mem_cons hplain
      rw [List.foldl_cons, FormatState.next, if_neg hc.symm, ih hrest]

theorem renderPieces_literals (args : ℕ → BitVec 32) (strings : ℕ → List UInt8) (k : ℕ)
    (text : List UInt8) : renderPieces args strings k (text.map Piece.literal) = text := by
  induction text generalizing k with
  | nil => rfl
  | cons c rest ih =>
      rw [List.map_cons, renderPieces, ih]
      rfl

/-- A format without specifiers is printed as it is. -/
theorem printfTo_plain (s : Kernel) {call : PrintfCall} {text : List UInt8}
    (hformat : HoldsString call.memory call.format text) (hplain : (0x25 : UInt8) ∉ text) :
    ∃ bound, ∀ fuel ≥ bound, printfTo s call fuel =
      (printLiteral s text).map fun next => (next, text.length) := by
  have hstrings : StringsHeld call (fun _ => []) 0 (pieces .text text) := by
    rw [pieces_plain hplain]
    apply stringsHeld_of_no_string
    simp
  have hstart : HoldsString call.memory (call.format + 0) text := hformat
  obtain ⟨bound, hbound⟩ := printfLoop_spec hstart (foldl_plain hplain) hstrings
  refine ⟨bound, fun fuel hfuel => ?_⟩
  obtain ⟨log, hloop, -⟩ := hbound fuel hfuel [] []
  rw [printfTo, printf, hloop, Option.bind_some, List.nil_append, pieces_plain hplain,
    renderPieces_literals, Nat.zero_add]

end VirtualOS
