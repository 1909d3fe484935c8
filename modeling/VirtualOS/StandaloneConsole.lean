import VirtualOS.KeyboardTerminal
import Mathlib.Tactic

/-!
# A console on its own

A console is what a single terminal would be on a machine without other
terminals: one text page, one cursor, one keyboard buffer.  Bytes are put on its
page, keys are typed on it and lines are read from it.  The definitions speak
of no display, of no running process and of no second copy of the page; the
terminals of the kernel are compared with them afterwards.
-/

namespace VirtualOS

open PartialRuns

structure Console where
  screen : Screen
  screenX : ℤ
  screenY : ℤ
  startLinePtr : BitVec 32
  keyBuf : LineBuffer
  numBuf : ℤ
  bufFlag : BitVec 8

namespace Console

/-! ## The page -/

def position (console : Console) : ℤ := numCols * console.screenY + console.screenX

/-- The page moves up by one row when the cursor has left it at the bottom. -/
def scrolled (console : Console) : Console :=
  if console.screenY = numRows then
    { console with
      screen := console.screen.scroll
      screenY := console.screenY - 1
      startLinePtr := console.startLinePtr - BitVec.ofInt 32 numCols }
  else console

def newLine (console : Console) : Console :=
  { console with
    screenY := console.screenY + 1
    screenX := 0
    startLinePtr := BitVec.ofInt 32 ((console.screenY + 1) * numCols) }

def stepBack (console : Console) : Console :=
  if console.screenX = 0 then
    { console with screenX := numCols - 1, screenY := console.screenY - 1 }
  else { console with screenX := console.screenX - 1 }

def advance (console : Console) : Console :=
  if console.screenX + 1 ≥ numCols then
    { console with
      screenX := (console.screenX + 1) % numCols
      screenY := console.screenY + 1 }
  else { console with screenX := console.screenX + 1 }

def draw (console : Console) (c : UInt8) : Option Console :=
  (console.screen.store (console.position * 2) c).bind fun screen =>
    (screen.store (console.position * 2 + 1) attrib).map fun screen =>
      { console with screen := screen }

def wipeCell (console : Console) : Option Console :=
  (console.screen.store (console.position * 2) 0).map fun screen =>
    { console with screen := screen }

/-- One byte of output. -/
def put (console : Console) (c : UInt8) : Option Console :=
  if c = newline ∨ c = carriageReturn then some console.newLine.scrolled
  else if c = backspace then
    if console.position = console.startLinePtr.toInt then some console
    else console.stepBack.wipeCell.map scrolled
  else (console.draw c).map fun console => console.advance.scrolled

def home (console : Console) : Console :=
  { console with screenX := 0, screenY := 0, startLinePtr := 0 }

def clear (console : Console) : Console :=
  { console.home with screen := console.screen.blank }

/-! ## The keyboard buffer -/

def push (console : Console) (c : UInt8) : Option Console :=
  (LineBuffer.store console.keyBuf console.numBuf c).map fun keyBuf =>
    { console with keyBuf := keyBuf, numBuf := console.numBuf + 1 }

def echo (console : Console) (c : UInt8) : Option Console :=
  (console.put c).bind fun console => console.push c

/-- A character key; a buffer with one free byte takes no more characters. -/
def type (console : Console) (c : UInt8) : Option Console :=
  if console.numBuf ≥ keyboardBufSize - 1 then some console else console.echo c

def tab (console : Console) : Option Console :=
  run echo console (List.replicate 4 space)

def erase (console : Console) : Option Console :=
  if console.numBuf > 0 then
    (console.put backspace).map fun console => { console with numBuf := console.numBuf - 1 }
  else some console

def enter (console : Console) : Option Console :=
  if console.numBuf = keyboardBufSize then some console
  else
    (console.push newline).bind fun console =>
      (console.put newline).map fun console => { console with bufFlag := console.bufFlag + 1 }

def reset (console : Console) : Console :=
  { console.clear with keyBuf := fun _ => 0, numBuf := 0, bufFlag := 0 }

/-- A line, or its first `nbytes` bytes, is taken out of the buffer. -/
def read (console : Console) (nbytes : ℕ) : Option (Console × List UInt8) :=
  if console.bufFlag = 0 then none
  else
    (copyLine console.keyBuf nbytes 0).map fun bytes =>
      ({ console with
        keyBuf := LineBuffer.dropBytes console.keyBuf bytes.length
        numBuf := console.numBuf - bytes.length
        bufFlag := console.bufFlag - 1 }, bytes)

end Console

/-! ## Operations -/

inductive ConsoleOp where
  | put (c : UInt8)
  | clear
  | type (c : UInt8)
  | tab
  | erase
  | enter
  | reset
  | read (nbytes : ℕ)
  deriving DecidableEq

def consoleStep (console : Console) : ConsoleOp → Option Console
  | .put c => console.put c
  | .clear => some console.clear
  | .type c => console.type c
  | .tab => console.tab
  | .erase => console.erase
  | .enter => console.enter
  | .reset => some console.reset
  | .read nbytes => (console.read nbytes).map Prod.fst

end VirtualOS
