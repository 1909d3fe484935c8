import VirtualOS.KeyboardTerminal
import VirtualOS.DeviceCalls
import Mathlib.Tactic

/-!
# System calls on file descriptors

`open`, `read`, `write` and `close` of `syscall.c` and the operations their
`fops` rows name.  A call answers with a return value and the bytes it stores
to the buffer of the caller, or it faults: a null `fops` pointer is read through
page zero, which is never mapped.
-/

namespace VirtualOS

/-- How a system call on descriptors ends. -/
inductive CallResult where
  | returned (value : ℤ) (bytes : List UInt8) (s : Kernel)
  | pageFault (s : Kernel)

/-- A buffer: its address, and the bytes from there on.  The calls of this file read the
bytes; where those that they hand out are stored is said in `performThrough`. -/
structure UserBuffer where
  address : BitVec 32
  memory : ℕ → UInt8

/-- A pointer argument: null, or the buffer it points to. -/
abbrev UserPointer := Option UserBuffer

def fdIndex (fd : ℤ) : Option (Fin 8) :=
  if h : 0 ≤ fd ∧ fd < 8 then some ⟨fd.toNat, by omega⟩ else none

namespace Kernel

/-- A descriptor of the calling process, found through `tss.esp0`. -/
def fileDesc (s : Kernel) (fd : Fin 8) : FileDesc := (s.pcb s.pcbPtr).fileDescArray fd

end Kernel

/-! ## Files and directories -/

def fileRead (img : Image) (s : Kernel) (fd : Fin 8) (nbytes : ℕ) : CallResult :=
  let curInode := (s.fileDesc fd).inode
  let curOffset := (s.fileDesc fd).filePos.toNat
  let data := readData img curInode curOffset nbytes
  .returned data.1 data.2 (s.modifyFd s.pcbPtr fd fun desc =>
    { desc with filePos := desc.filePos + BitVec.ofInt 32 data.1 })

/-- `strncpy(buf, name, length)`: bytes up to a NUL, then zeros. -/
def strncpyBytes (source : List UInt8) (length : ℕ) : List UInt8 :=
  let copied := (cString source).take length
  copied ++ List.replicate (length - copied.length) 0

def dirRead (img : Image) (s : Kernel) (nbytes : ℕ) : CallResult :=
  if s.dirIndex ≥ img.dirCount then .returned 0 [] s
  else
    match readDentryByIndex img s.dirIndex with
    | none => .returned (-1) [] s
    | some curDentry =>
        let curLength := min (min (strlen curDentry.bytes) filenameLen) nbytes
        .returned curLength (strncpyBytes curDentry.bytes curLength)
          { s with dirIndex := s.dirIndex + 1 }

/-- `dir_open`: the position of the one directory goes back to the start. -/
def dirOpen (s : Kernel) : Kernel := { s with dirIndex := 0 }

/-! ## The calls -/

def wordAt (buf : ℕ → UInt8) : BitVec 32 :=
  BitVec.ofNat 32 ((buf 0).toNat + 256 * (buf 1).toNat + 65536 * (buf 2).toNat +
    16777216 * (buf 3).toNat)

/-- `fops->read`.  `none` is a call that never returns. -/
def fopsRead (img : Image) (s : Kernel) (fd : Fin 8) (nbytes : ℕ) :
    Option FileType → Option CallResult
  | none => some (.pageFault s)
  | some .rtc => some (.returned 0 [] (rtcRead s))
  | some .dir => some (dirRead img s nbytes)
  | some .file => some (fileRead img s fd nbytes)
  | some .term => (terminalRead s nbytes).map fun result =>
      .returned result.2.length result.2 result.1

/-- `fops->write`: directories and files refuse. -/
def fopsWrite (s : Kernel) (buf : ℕ → UInt8) (nbytes : ℕ) :
    Option FileType → Option CallResult
  | none => some (.pageFault s)
  | some .rtc => (rtcWrite s (wordAt buf)).map fun s => .returned 0 [] s
  | some .dir => some (.returned (-1) [] s)
  | some .file => some (.returned (-1) [] s)
  | some .term => (terminalWrite s buf nbytes).map fun s => .returned nbytes [] s

def read (img : Image) (s : Kernel) (fd : ℤ) (buf : UserPointer) (nbytes : ℤ) :
    Option CallResult :=
  match fdIndex fd, buf with
  | some index, some _ =>
      if nbytes < 0 ∨ fd = 1 then some (.returned (-1) [] s)
      else if (s.fileDesc index).flags = 0 then some (.returned (-1) [] s)
      else fopsRead img s index nbytes.toNat (s.fileDesc index).fops
  | _, _ => some (.returned (-1) [] s)

def write (s : Kernel) (fd : ℤ) (buf : UserPointer) (nbytes : ℤ) : Option CallResult :=
  match fdIndex fd, buf with
  | some index, some buffer =>
      if nbytes < 0 ∨ fd = 0 then some (.returned (-1) [] s)
      else fopsWrite s buffer.memory nbytes.toNat (s.fileDesc index).fops
  | _, _ => some (.returned (-1) [] s)

/-- The descriptors `open` may hand out, in the order of its search. -/
def openSlots : List (Fin 8) := [2, 3, 4, 5, 6, 7]

/-- The branches of `open` for the type of the entry.  A type without a branch
leaves `fops` and `inode` as they were. -/
def openByType (s : Kernel) (fd : Fin 8) (dentry : Dentry) : Option Kernel :=
  if dentry.fileType = 0 then
    (rtcOpen s).map fun s => s.modifyFd s.pcbPtr fd fun desc =>
      { desc with fops := some .rtc, inode := 0 }
  else if dentry.fileType = 1 then
    some ((dirOpen s).modifyFd s.pcbPtr fd fun desc =>
      { desc with fops := some .dir, inode := 0 })
  else if dentry.fileType = 2 then
    some (s.modifyFd s.pcbPtr fd fun desc =>
      { desc with fops := some .file, inode := dentry.inodeNum })
  else some s

/-- `open`.  A null name and an unknown name answer `-1`. -/
def openFile (img : Image) (s : Kernel) (filename : Option (List UInt8)) : Option CallResult :=
  match filename.bind (readDentryByName img) with
  | none => some (.returned (-1) [] s)
  | some dentry =>
      match openSlots.find? fun fd => (s.fileDesc fd).flags = 0 with
      | none => some (.returned (-1) [] s)
      | some fd =>
          (openByType s fd dentry).map fun s =>
            .returned fd.val [] (s.modifyFd s.pcbPtr fd fun desc =>
              { desc with flags := 1, filePos := 0 })

/-- `close`.  The descriptor is released before its `close` row is called; all
four rows return `0` and do nothing. -/
def close (s : Kernel) (fd : ℤ) : CallResult :=
  match fdIndex fd with
  | none => .returned (-1) [] s
  | some index =>
      if fd ≤ 1 then .returned (-1) [] s
      else if (s.fileDesc index).flags = 0 then .returned (-1) [] s
      else
        let s := s.modifyFd s.pcbPtr index fun desc => { desc with flags := 0 }
        match (s.fileDesc index).fops with
        | none => .pageFault s
        | some _ => .returned 0 [] s

end VirtualOS
