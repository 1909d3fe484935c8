import VirtualOS.LinkedStacks
import VirtualOS.PartialRuns
import Mathlib.Tactic

/-!
# The blinking characters of `fish`

`blink.S` keeps the blinking characters in a linked list through the array
`blink_array` of `fish.c`; a cell of the array is free when its location is
zero.  The loops over the list follow the links of the cells and are bounded by
a number of rounds: no result means that the rounds did not suffice.  A pointer
to a cell is an index or null.
-/

namespace VirtualOS

/-! ## The source -/

/-- `struct mp1_blink_struct`, apart from its link. -/
structure Blinker where
  location : BitVec 16
  onChar : UInt8
  offChar : UInt8
  onLength : BitVec 16
  offLength : BitVec 16
  countdown : BitVec 16
  status : BitVec 16
  deriving DecidableEq

abbrev BlinkIndex := Fin 2000

/-- `struct mp1_blink_struct`. -/
structure Mp1BlinkStruct extends Blinker where
  next : Option BlinkIndex

/-- `blink_array`, `mp1_list_head` and the memory from `vmem_base_addr` on. -/
structure Fish where
  blinkArray : BlinkIndex → Mp1BlinkStruct
  mp1ListHead : Option BlinkIndex
  vmem : ℕ → UInt8

namespace Fish

/-- `mp1_poke`. -/
def mp1Poke (fish : Fish) (char : UInt8) (offset : ℕ) : Fish :=
  { fish with vmem := Function.update fish.vmem offset char }

def setCell (fish : Fish) (i : BlinkIndex) (cell : Mp1BlinkStruct) : Fish :=
  { fish with blinkArray := Function.update fish.blinkArray i cell }

/-- `mp1_malloc`. -/
def mp1Malloc (fish : Fish) : Option BlinkIndex :=
  (List.finRange 2000).find? fun i => (fish.blinkArray i).location = 0

/-- `mp1_free`. -/
def mp1Free (fish : Fish) (i : BlinkIndex) : Fish :=
  fish.setCell i ⟨⟨0, 0, 0, 0, 0, 0, 0⟩, none⟩

/-- The body of `tasklet_loop` for one cell. -/
def blink (fish : Fish) (i : BlinkIndex) : Fish :=
  let cell := fish.blinkArray i
  let countdown := cell.countdown - 1
  if 0 < countdown.toInt then
    fish.setCell i { cell with countdown := countdown }
  else
    -- a cell that is on turns off and the other way round
    let (char, length) :=
      if cell.status &&& 1 = 0 then (cell.onChar, cell.onLength)
      else (cell.offChar, cell.offLength)
    (fish.mp1Poke char (cell.location.toNat * 2)).setCell i
      { cell with countdown := length, status := cell.status ^^^ 1 }

/-- `tasklet_loop`. -/
def taskletLoop : ℕ → Fish → Option BlinkIndex → Option Fish
  | 0, _, _ => none
  | _ + 1, fish, none => some fish
  | rounds + 1, fish, some i =>
      taskletLoop rounds (fish.blink i) ((fish.blink i).blinkArray i).next

/-- `mp1_rtc_tasklet`. -/
def mp1RtcTasklet (rounds : ℕ) (fish : Fish) : Option Fish :=
  taskletLoop rounds fish fish.mp1ListHead

/-- The loop of `mp1_find_helper`. -/
def findLoop (fish : Fish) (location : BitVec 16) :
    ℕ → Option BlinkIndex → Option (Option BlinkIndex)
  | 0, _ => none
  | _ + 1, none => some none
  | rounds + 1, some i =>
      if (fish.blinkArray i).location = location then some (some i)
      else findLoop fish location rounds (fish.blinkArray i).next

def mp1FindHelper (rounds : ℕ) (fish : Fish) (location : BitVec 16) :
    Option (Option BlinkIndex) :=
  findLoop fish location rounds fish.mp1ListHead

/-- `mp1_ioctl_add` on a record of the user: the value returned and the state after it. -/
def mp1IoctlAdd (fish : Fish) (user : Mp1BlinkStruct) : ℤ × Fish :=
  if 2000 ≤ user.location.toNat then (-1, fish)
  else
    match fish.mp1Malloc with
    | none => (-1, fish)
    | some i =>
        let cell :=
          { user with
            status := 1
            countdown := user.onLength
            next := fish.mp1ListHead }
        let fish := { fish.setCell i cell with mp1ListHead := some i }
        (0, fish.mp1Poke cell.onChar (cell.location.toNat * 2))

/-- What `remove_find_prev` points at: the head of the list or the link in a cell. -/
inductive LinkField where
  | listHead
  | next (i : BlinkIndex)

def readLink (fish : Fish) : LinkField → Option BlinkIndex
  | .listHead => fish.mp1ListHead
  | .next i => (fish.blinkArray i).next

def writeLink (fish : Fish) (field : LinkField) (pointer : Option BlinkIndex) : Fish :=
  match field with
  | .listHead => { fish with mp1ListHead := pointer }
  | .next i => fish.setCell i { fish.blinkArray i with next := pointer }

/-- `remove_find_prev`; a null link is followed into memory that is not there. -/
def removeFindPrev (fish : Fish) (i : BlinkIndex) : ℕ → LinkField → Option LinkField
  | 0, _ => none
  | rounds + 1, field =>
      match fish.readLink field with
      | none => none
      | some j => if j = i then some field else removeFindPrev fish i rounds (.next j)

/-- `mp1_ioctl_remove`. -/
def mp1IoctlRemove (rounds : ℕ) (fish : Fish) (arg : BitVec 32) : Option (ℤ × Fish) :=
  (fish.mp1FindHelper rounds (arg.setWidth 16)).bind fun found =>
    match found with
    | none => some (-1, fish)
    | some i =>
        (fish.removeFindPrev i rounds .listHead).map fun field =>
          (0, (fish.writeLink field (fish.blinkArray i).next).mp1Free i)

/-- `mp1_ioctl_find` for the location that the user's record holds: the record copied back
into it. -/
def mp1IoctlFind (rounds : ℕ) (fish : Fish) (location : BitVec 16) :
    Option (ℤ × Option Mp1BlinkStruct) :=
  (fish.mp1FindHelper rounds location).map fun found =>
    match found with
    | none => (-1, none)
    | some i => (0, some (fish.blinkArray i))

/-- `mp1_ioctl_sync`.  The conditional move reads the flags of a test whose result is not
negative, so the character shown is always the one for off. -/
def mp1IoctlSync (rounds : ℕ) (fish : Fish) (arg : BitVec 32) : Option (ℤ × Fish) :=
  (fish.mp1FindHelper rounds ((arg >>> 16).setWidth 16)).bind fun first =>
    match first with
    | none => some (-1, fish)
    | some i =>
        (fish.mp1FindHelper rounds ((arg &&& 0xFFFF).setWidth 16)).map fun second =>
          match second with
          | none => (-1, fish)
          | some j =>
              let source := fish.blinkArray i
              let target :=
                { fish.blinkArray j with
                  onLength := source.onLength
                  offLength := source.offLength
                  countdown := source.countdown
                  status := source.status }
              (0, (fish.setCell j target).mp1Poke target.offChar (target.location.toNat * 2))

end Fish

/-- The calls of `mp1_ioctl` by command, and the tasklet. -/
inductive BlinkCall where
  | add (user : Mp1BlinkStruct)
  | remove (arg : BitVec 32)
  | find (location : BitVec 16)
  | sync (arg : BitVec 32)
  | tasklet

/-- The value a call returns and the record it copies to the user. -/
abbrev BlinkAnswer (α : Type) := ℤ × Option α

def Fish.call (rounds : ℕ) (fish : Fish) :
    BlinkCall → Option (Fish × BlinkAnswer Mp1BlinkStruct)
  | .add user => some ((fish.mp1IoctlAdd user).2, (fish.mp1IoctlAdd user).1, none)
  | .remove arg => (fish.mp1IoctlRemove rounds arg).map fun result => (result.2, result.1, none)
  | .find location => (fish.mp1IoctlFind rounds location).map fun result => (fish, result)
  | .sync arg => (fish.mp1IoctlSync rounds arg).map fun result => (result.2, result.1, none)
  | .tasklet => (fish.mp1RtcTasklet rounds).map fun fish => (fish, 0, none)

/-- The list as `main` finds it after it cleared `blink_array`. -/
def bootFish (vmem : ℕ → UInt8) : Fish where
  blinkArray _ := ⟨⟨0, 0, 0, 0, 0, 0, 0⟩, none⟩
  mp1ListHead := none
  vmem := vmem

end VirtualOS
