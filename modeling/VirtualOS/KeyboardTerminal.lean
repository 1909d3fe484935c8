import VirtualOS.ScreenOutput
import Mathlib.Tactic

/-!
# Keyboard input and the terminal calls

Keys go to the displayed terminal: they are echoed with `putc2screen` and stored
in its keyboard buffer.  `terminalRead` hands a line of that buffer to the
running process and `terminalWrite` prints for it.  The part of the keyboard
handler which switches terminals starts processes and comes later.
-/

namespace VirtualOS

open PartialRuns

/-! ## Keyboard maps -/

/-- A keyboard map from its four rows of printable keys. -/
def keyboardMap (digits top home bottom : String) : List UInt8 :=
  [0, 27] ++ ascii digits ++ [backspace, 0x09] ++ ascii top ++ [newline, 0] ++
    ascii home ++ [0] ++ ascii bottom ++ [0] ++ ascii "*" ++ [0, space, 0] ++
    List.replicate 15 0 ++ ascii "-" ++ [0, 0, 0] ++ ascii "+"

def keyboardOriginal : List UInt8 :=
  keyboardMap "1234567890-=" "qwertyuiop[]" "asdfghjkl;'`" "\\zxcvbnm,./"

def keyboardCapslock : List UInt8 :=
  keyboardMap "1234567890-=" "QWERTYUIOP[]" "ASDFGHJKL;'`" "\\ZXCVBNM,./"

def keyboardShift : List UInt8 :=
  keyboardMap "!@#$%^&*()_+" "QWERTYUIOP\x7b\x7d" "ASDFGHJKL:\"~" "|ZXCVBNM<>?"

def keyboardCapsshift : List UInt8 :=
  keyboardMap "!@#$%^&*()_+" "qwertyuiop\x7b\x7d" "asdfghjkl:\"~" "|zxcvbnm<>?"

/-- The character of a key in a map; unlisted entries of the arrays are zero. -/
def keyOf (map : List UInt8) (scancode : ℕ) : UInt8 := map.getD scancode 0

/-! ## Keys on the displayed terminal -/

/-- `key_buf[num_buf++] = c` on the displayed terminal. -/
def pushKey (s : Kernel) (c : UInt8) : Option Kernel :=
  let shown := s.terminalT s.terminalDisplayed
  (LineBuffer.store shown.keyBuf shown.numBuf c).map fun keyBuf =>
    s.modifyTerminal s.terminalDisplayed fun term =>
      { term with keyBuf := keyBuf, numBuf := term.numBuf + 1 }

/-- The map that the modifier keys select. -/
def activeMap (s : Kernel) : List UInt8 :=
  if s.capslockPress && !s.shiftPress then keyboardCapslock
  else if !s.capslockPress && s.shiftPress then keyboardShift
  else if s.capslockPress && s.shiftPress then keyboardCapsshift
  else keyboardOriginal

/-- The branch of `keyboard_print` for Ctrl+L. -/
def clearDisplayed (s : Kernel) : Kernel :=
  let s := s.modifyTerminal s.terminalDisplayed fun term =>
    { term.home with keyBuf := fun _ => 0, numBuf := 0, bufFlag := 0 }
  let temp := s.terminalNum
  { clear { s with terminalNum := s.terminalDisplayed } with terminalNum := temp }

def keyboardPrint (s : Kernel) (scancode : ℕ) : Option Kernel :=
  if scancode ≥ 0x60 then some s
  else if s.ctrlPress ∧ keyOf keyboardOriginal scancode = 0x6C then
    some (clearDisplayed s)
  else if (s.terminalT s.terminalDisplayed).numBuf ≥ keyboardBufSize - 1 then some s
  else if keyOf (activeMap s) scancode ≠ 0 then
    (putc2screen s (keyOf (activeMap s) scancode)).bind fun s =>
      pushKey s (keyOf (activeMap s) scancode)
  else some s

/-- The case `TAB` of the handler: four blanks, each echoed and stored. -/
def keyboardTab (s : Kernel) : Option Kernel :=
  run (fun s c => (putc2screen s c).bind fun s => pushKey s c) s (List.replicate 4 space)

/-- The case `BACKSPACE` of the handler. -/
def keyboardBackspace (s : Kernel) : Option Kernel :=
  if (s.terminalT s.terminalDisplayed).numBuf > 0 then
    (putc2screen s backspace).map fun s =>
      s.modifyTerminal s.terminalDisplayed fun term =>
        { term with numBuf := term.numBuf - 1 }
  else some s

/-- The case `ENTER` of the handler. -/
def keyboardEnter (s : Kernel) : Option Kernel :=
  if (s.terminalT s.terminalDisplayed).numBuf = keyboardBufSize then some s
  else
    (pushKey s newline).bind fun s =>
      (putc2screen s newline).map fun s =>
        s.modifyTerminal s.terminalDisplayed fun term =>
          { term with bufFlag := term.bufFlag + 1 }

/-! ## Reads and writes of the running process -/

/-- The copying loop of `terminal_read` from index `i`: at most `remaining`
bytes, ending after the first newline. -/
def copyLine (keyBuf : LineBuffer) : ℕ → ℕ → Option (List UInt8)
  | 0, _ => some []
  | remaining + 1, i =>
      if h : i < 128 then
        if keyBuf ⟨i, h⟩ = newline then some [newline]
        else (copyLine keyBuf remaining (i + 1)).map (keyBuf ⟨i, h⟩ :: ·)
      else none

def LineBuffer.set (buffer : LineBuffer) (index : ℕ) (value : UInt8) : LineBuffer :=
  if h : index < 128 then Function.update buffer ⟨index, h⟩ value else buffer

def LineBuffer.get (buffer : LineBuffer) (index : ℕ) : UInt8 :=
  if h : index < 128 then buffer ⟨index, h⟩ else 0

/-- The two loops of `terminal_read` which drop the bytes read. -/
def LineBuffer.dropBytes (buffer : LineBuffer) (byteRead : ℕ) : LineBuffer :=
  let shifted := (List.range (128 - byteRead)).foldl
    (fun buffer j => LineBuffer.set buffer j (LineBuffer.get buffer (j + byteRead))) buffer
  (List.range byteRead).foldl (fun buffer j => LineBuffer.set buffer (128 - (j + 1)) 0) shifted

/-- `terminal_read`.  It waits while `buf_flag` is zero, so that such a call has
no effect of its own. -/
def terminalRead (s : Kernel) (nbytes : ℕ) : Option (Kernel × List UInt8) :=
  if s.running.bufFlag = 0 then none
  else
    (copyLine s.running.keyBuf nbytes 0).map fun bytes =>
      (s.modifyTerminal s.terminalNum fun term =>
        { term with
          keyBuf := LineBuffer.dropBytes term.keyBuf bytes.length
          numBuf := term.numBuf - bytes.length
          bufFlag := term.bufFlag - 1 }, bytes)

/-- `terminal_write`: `nbytes` bytes from the buffer of the caller. -/
def terminalWrite (s : Kernel) (buf : ℕ → UInt8) (nbytes : ℕ) : Option Kernel :=
  printLiteral s ((List.range nbytes).map buf)

end VirtualOS
