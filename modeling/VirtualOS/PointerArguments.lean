import VirtualOS.AddressTranslation
import VirtualOS.ClosedDescriptors
import Mathlib.Tactic

/-!
# Pointer arguments

The system calls with their arguments as the dispatcher finds them in registers:
a pointer is an address, and the kernel goes through it with its own rights.  An
access where no page is present faults, and the handler ends the process.  Only
`vidmap` looks at its pointer beyond null; the theorem of this file says for
every call when its accesses stay in the user page or the call is refused.
-/

namespace VirtualOS

open PartialRuns

/-! ## Memory -/

/-- The bytes at virtual addresses; nothing where no page is present. -/
abbrev Memory := BitVec 32 → Option UInt8

/-- Memory as the kernel finds it through the page tables, when `ram` are the bytes
at physical addresses. -/
def Kernel.load (s : Kernel) (layout : Layout) (pageTable : ℕ → BitVec 32)
    (rest : BitVec 32 → ℕ → BitVec 32) (ram : BitVec 32 → UInt8) : Memory := fun address =>
  (s.translate layout pageTable rest address).map fun translation => ram translation.physical

def byteAddresses (start : BitVec 32) (count : ℕ) : List (BitVec 32) :=
  (List.range count).map fun i => start + BitVec.ofNat 32 i

def pointerAt (memory : Memory) (start : BitVec 32) : UserPointer :=
  if start = 0 then none
  else some ⟨start, fun i => (memory (start + BitVec.ofNat 32 i)).getD 0⟩

/-- Reading bytes from `address` on, up to the one which `next` does not accept. -/
def scan {σ : Type} (next : σ → UInt8 → Option σ) (memory : Memory) :
    ℕ → σ → BitVec 32 → Option (List UInt8)
  | 0, _, _ => none
  | fuel + 1, state, address =>
      (memory address).bind fun byte =>
        match next state byte with
        | none => some [byte]
        | some state => (scan next memory fuel state (address + 1)).map (byte :: ·)

/-- The bytes of a string with its NUL, as `strlen` reads them. -/
def scanString (memory : Memory) (start : BitVec 32) : Option (List UInt8) :=
  scan (fun (_ : Unit) byte => if byte = 0 then none else some ()) memory (2 ^ 32) () start

/-- The four loops with which `execute` goes through a command. -/
inductive CommandLoop where
  | leadingSpaces
  | name
  | spaces
  | argument

/-- The loop that is entered after a byte; the second word ends the scan. -/
def CommandLoop.next (loop : CommandLoop) (byte : UInt8) : Option CommandLoop :=
  if byte = newline ∨ byte = 0 then none
  else if byte = space then
    match loop with
    | .leadingSpaces => some .leadingSpaces
    | .name => some .spaces
    | .spaces => some .spaces
    | .argument => none
  else
    match loop with
    | .leadingSpaces => some .name
    | .name => some .name
    | .spaces => some .argument
    | .argument => some .argument

/-- The bytes of a command, as `execute` reads them. -/
def scanCommand (memory : Memory) (start : BitVec 32) : Option (List UInt8) :=
  scan CommandLoop.next memory (2 ^ 32) .leadingSpaces start

/-! ## Calls -/

/-- A system call with its registers. -/
inductive UserCall where
  | read (fd buf nbytes : BitVec 32)
  | write (fd buf nbytes : BitVec 32)
  | openFile (filename : BitVec 32)
  | execute (command : BitVec 32)
  | getargs (buf nbytes : BitVec 32)
  | vidmap (screenStart : BitVec 32)

/-- How a call ends, with the addresses written through its pointer: it completes,
with a value if it returns to the caller, or an access through the pointer
faults. -/
inductive CallEnd where
  | completed (value : Option ℤ) (written : List (BitVec 32)) (next : Kernel)
  | faulted (written : List (BitVec 32))

def CallEnd.written : CallEnd → List (BitVec 32)
  | .completed _ written _ => written
  | .faulted written => written

/-- The kernel stores `count` bytes at `start` and returns. -/
def storeBytes (memory : Memory) (start : BitVec 32) (count : ℕ) (value : ℤ)
    (next : Kernel) : CallEnd :=
  let written := (byteAddresses start count).takeWhile fun address => (memory address).isSome
  if written.length = count then .completed (some value) written next else .faulted written

/-- The number of bytes that `write` loads from its buffer. -/
def writeLoads (s : Kernel) (fd nbytes : ℤ) : ℕ :=
  match fdIndex fd with
  | none => 0
  | some index =>
      if nbytes < 0 ∨ fd = 0 then 0
      else
        match (s.fileDesc index).fops with
        | some .rtc => 4
        | some .term => nbytes.toNat
        | _ => 0

def CallResult.callEnd : CallResult → CallEnd
  | .returned value _ next => .completed (some value) [] next
  | .pageFault _ => .faulted []

def Execution.callEnd : Execution → CallEnd
  | .returned value next => .completed (some value) [] next
  | .started next _ _ => .completed none [] next

def userCall (img : Image) (link : Link) (s : Kernel) (memory : Memory) (frame : StackFrame) :
    UserCall → Option CallEnd
  | .read fd buf nbytes =>
      (read img s fd.toInt (pointerAt memory buf) nbytes.toInt).map fun
        | .returned value bytes next => storeBytes memory buf bytes.length value next
        | .pageFault _ => .faulted []
  | .write fd buf nbytes =>
      if buf ≠ 0 ∧ ¬ ∀ address ∈ byteAddresses buf (writeLoads s fd.toInt nbytes.toInt),
          (memory address).isSome then some (.faulted [])
      else (write s fd.toInt (pointerAt memory buf) nbytes.toInt).map CallResult.callEnd
  | .openFile filename =>
      if filename = 0 then (openFile img s none).map CallResult.callEnd
      else
        match scanString memory filename with
        | none => some (.faulted [])
        | some name => (openFile img s (some name)).map CallResult.callEnd
  | .execute command =>
      if command = 0 then (execute img s none frame).map Execution.callEnd
      else if freeSlot s = none then (execute img s (some []) frame).map Execution.callEnd
      else
        match scanCommand memory command with
        | none => some (.faulted [])
        | some words => (execute img s (some words) frame).map Execution.callEnd
  | .getargs buf nbytes =>
      let result := getargs s (pointerAt memory buf) nbytes.toInt
      some (storeBytes memory buf result.2.length result.1 s)
  | .vidmap screenStart =>
      let result := vidmap link s screenStart
      some (.completed (some result.1)
        (if AcceptsStart screenStart then byteAddresses screenStart 4 else []) result.2)

/-! ## Containment -/

def InUserPage (address : BitVec 32) : Prop :=
  0x8000000 ≤ address.toNat ∧ address.toNat < 0x8400000

instance (address : BitVec 32) : Decidable (InUserPage address) :=
  inferInstanceAs (Decidable (_ ∧ _))

/-- The addresses that a call is given: a buffer with its length, a string or a
command as far as it is read, or the word for `vidmap`. -/
def pointerRange (memory : Memory) : UserCall → Option (List (BitVec 32))
  | .read _ buf nbytes => some (byteAddresses buf nbytes.toInt.toNat)
  | .write _ buf nbytes => some (byteAddresses buf nbytes.toInt.toNat)
  | .openFile filename =>
      (scanString memory filename).map fun name => byteAddresses filename name.length
  | .execute command =>
      (scanCommand memory command).map fun words => byteAddresses command words.length
  | .getargs buf nbytes => some (byteAddresses buf nbytes.toInt.toNat)
  | .vidmap screenStart => some (byteAddresses screenStart 4)

def RangeInPage (memory : Memory) (call : UserCall) : Prop :=
  ∃ range, pointerRange memory call = some range ∧ ∀ address ∈ range, InUserPage address

/-- Nothing has changed but `current_process_num`, which is set before every use. -/
def Kernel.SameState (s next : Kernel) : Prop :=
  next = { s with currentProcessNum := next.currentProcessNum }

/-- Every byte is written in the user page, and a call with a pointer outside it is
refused. -/
structure CallEnd.Contained (callEnd : CallEnd) (s : Kernel) (memory : Memory)
    (call : UserCall) : Prop where
  written : ∀ address ∈ callEnd.written, InUserPage address
  refused : ¬ RangeInPage memory call →
    ∃ next, callEnd = .completed (some (-1)) [] next ∧ s.SameState next

/-- The tests of `execute` on the file that its command names. -/
def NoProgram (img : Image) (frame : StackFrame) (words : List UInt8) : Prop :=
  readDentryByName img (parseCommand words).1 = none ∨
    ∃ dentry, readDentryByName img (parseCommand words).1 = some dentry ∧
      readWord img dentry.inodeNum 0 frame.exeHeader ≠ exeMagicNumber

/-- The tests that refuse a call before its pointer matters: null, a negative
length, a descriptor that the call does not serve, a missing argument, a name that
is not found, a full table of descriptors, a file that is no program, and the range
test of `vidmap`. -/
def Refused (img : Image) (s : Kernel) (memory : Memory) (frame : StackFrame) :
    UserCall → Prop
  | .read fd buf nbytes => buf = 0 ∨ nbytes.toInt < 0 ∨ fd.toInt = 1 ∨ s.NotOpen fd.toInt
  | .write fd buf nbytes => buf = 0 ∨ nbytes.toInt < 0 ∨ fd.toInt = 0 ∨
      ∀ index, fdIndex fd.toInt = some index →
        (s.fileDesc index).fops = some .dir ∨ (s.fileDesc index).fops = some .file
  | .openFile filename => filename = 0 ∨ ∃ name, scanString memory filename = some name ∧
      (readDentryByName img name = none ∨ ∀ fd ∈ openSlots, (s.fileDesc fd).flags ≠ 0)
  | .execute command => command = 0 ∨ ∃ num words, freeSlot s = some num ∧
      scanCommand memory command = some words ∧ NoProgram img frame words
  | .getargs buf nbytes => buf = 0 ∨ nbytes.toInt < 0 ∨ (s.pcb s.pcbPtr).argument 0 = 0
  | .vidmap screenStart => ¬ AcceptsStart screenStart

/-! ## Stores -/

theorem mem_byteAddresses_of_le {start address : BitVec 32} {count bound : ℕ}
    (hle : count ≤ bound) (hmem : address ∈ byteAddresses start count) :
    address ∈ byteAddresses start bound := by
  simp only [byteAddresses, List.mem_map, List.mem_range] at hmem ⊢
  obtain ⟨i, hi, rfl⟩ := hmem
  exact ⟨i, by omega, rfl⟩

section Stores

variable {memory : Memory} {start : BitVec 32} {count : ℕ} {value : ℤ} {next : Kernel}

theorem storeBytes_written {address : BitVec 32}
    (hmem : address ∈ (storeBytes memory start count value next).written) :
    address ∈ byteAddresses start count := by
  have hstarts := List.takeWhile_prefix (fun address => (memory address).isSome)
    (l := byteAddresses start count)
  unfold storeBytes at hmem
  dsimp only at hmem
  split at hmem
  · exact hstarts.subset hmem
  · exact hstarts.subset hmem

theorem storeBytes_zero :
    storeBytes memory start 0 value next = .completed (some value) [] next := by
  simp [storeBytes, byteAddresses]

theorem storeBytes_eq_completed {answer : ℤ} {written : List (BitVec 32)} {final : Kernel}
    (heq : storeBytes memory start count value next = .completed (some answer) written final) :
    value = answer ∧ next = final := by
  unfold storeBytes at heq
  dsimp only at heq
  split at heq
  · cases heq
    exact ⟨rfl, rfl⟩
  · cases heq

end Stores

/-! ## The calls one by one -/

section Calls

variable {img : Image} {link : Link} {s : Kernel} {memory : Memory} {frame : StackFrame}
  {callEnd : CallEnd}

/-- The scheme of every call: it writes in its range, it is refused by its tests,
and nothing else refuses it. -/
theorem contained_iff_of {call : UserCall}
    (hwritten : RangeInPage memory call → ∀ address ∈ callEnd.written, InUserPage address)
    (hrefused : Refused img s memory frame call →
      ∃ next, callEnd = .completed (some (-1)) [] next ∧ s.SameState next)
    (hserved : ∀ next, callEnd = .completed (some (-1)) [] next → s.SameState next →
      Refused img s memory frame call) :
    callEnd.Contained s memory call ↔
      RangeInPage memory call ∨ Refused img s memory frame call := by
  constructor
  · intro hcontained
    by_cases hrange : RangeInPage memory call
    · exact .inl hrange
    · obtain ⟨next, hend, hsame⟩ := hcontained.refused hrange
      exact .inr (hserved next hend hsame)
  · rintro (hrange | htests)
    · exact ⟨hwritten hrange, fun hnot => absurd hrange hnot⟩
    · obtain ⟨next, rfl, hsame⟩ := hrefused htests
      exact ⟨by simp [CallEnd.written], fun _ => ⟨next, rfl, hsame⟩⟩

theorem sameState_refl (s : Kernel) : s.SameState s := rfl

theorem pointerAt_eq (memory : Memory) {start : BitVec 32} (hstart : start ≠ 0) :
    ∃ bytes, pointerAt memory start = some bytes := ⟨_, if_neg hstart⟩

/-! ### `read` -/

theorem fopsRead_not_refused {fd : Fin 8} {nbytes : ℕ} {fops : Option FileType}
    {bytes : List UInt8} {next : Kernel}
    (hread : fopsRead img s fd nbytes fops = some (.returned (-1) bytes next)) :
    ¬ s.SameState next := by
  cases fops with
  | none => cases hread
  | some row =>
      cases row with
      | rtc => cases hread
      | dir =>
          simp only [fopsRead, Option.some.injEq] at hread
          unfold dirRead at hread
          split at hread
          · cases hread
          · rename_i hmore
            have hfound : readDentryByIndex img s.dirIndex = some (img.direntry s.dirIndex) :=
              if_neg hmore
            rw [hfound] at hread
            have hvalue := (CallResult.returned.inj hread).1
            omega
      | file =>
          intro hsame
          simp only [fopsRead, Option.some.injEq, fileRead, CallResult.returned.injEq] at hread
          obtain ⟨hvalue, -, rfl⟩ := hread
          have hpos := congrArg (fun s => ((s.pcb s.pcbPtr).fileDescArray fd).filePos) hsame
          simp only [Kernel.modifyFd, Kernel.modifyPcb, Kernel.pcbPtr, Function.update_self,
            hvalue] at hpos
          have hne : ∀ pos : BitVec 32, pos + BitVec.ofInt 32 (-1) ≠ pos := by
            intro pos heq
            have hnat := congrArg BitVec.toNat heq
            have hminus : (BitVec.ofInt 32 (-1)).toNat = 2 ^ 32 - 1 := rfl
            have hlt := pos.isLt
            rw [BitVec.toNat_add, hminus] at hnat
            omega
          exact hne _ hpos
      | term =>
          obtain ⟨result, _, heq⟩ := Option.map_eq_some_iff.mp hread
          have hvalue := (CallResult.returned.inj heq).1
          omega

theorem copyLine_length_le {keyBuf : LineBuffer} {nbytes i : ℕ} {bytes : List UInt8}
    (hcopy : copyLine keyBuf nbytes i = some bytes) : bytes.length ≤ nbytes := by
  induction nbytes generalizing i bytes with
  | zero =>
      cases hcopy
      simp
  | succ nbytes ih =>
      rw [copyLine] at hcopy
      split at hcopy
      · split at hcopy
        · cases hcopy
          simp
        · obtain ⟨rest, hrest, rfl⟩ := Option.map_eq_some_iff.mp hcopy
          simpa using ih hrest
      · contradiction

theorem readData_length_le (img : Image) (inode offset length : ℕ) :
    (readData img inode offset length).2.length ≤ length := by
  unfold readData
  dsimp only
  split
  · simp
  · split
    · simp
    · simp

theorem strncpyBytes_length (source : List UInt8) (length : ℕ) :
    (strncpyBytes source length).length = length := by
  simp only [strncpyBytes, List.length_append, List.length_replicate, List.length_take]
  omega

theorem fopsRead_length_le {fd : Fin 8} {nbytes : ℕ} {fops : Option FileType} {value : ℤ}
    {bytes : List UInt8} {next : Kernel}
    (hread : fopsRead img s fd nbytes fops = some (.returned value bytes next)) :
    bytes.length ≤ nbytes := by
  cases fops with
  | none => cases hread
  | some row =>
      cases row with
      | rtc =>
          cases hread
          simp
      | dir =>
          simp only [fopsRead, Option.some.injEq] at hread
          unfold dirRead at hread
          split at hread
          · cases hread
            simp
          · split at hread
            · cases hread
              simp
            · obtain ⟨-, rfl, -⟩ := CallResult.returned.inj hread
              rw [strncpyBytes_length]
              exact min_le_right _ _
      | file =>
          cases hread
          exact readData_length_le _ _ _ _
      | term =>
          obtain ⟨⟨final, line⟩, hline, heq⟩ := Option.map_eq_some_iff.mp hread
          obtain ⟨-, rfl, -⟩ := CallResult.returned.inj heq
          unfold terminalRead at hline
          split at hline
          · contradiction
          · obtain ⟨copied, hcopy, hpair⟩ := Option.map_eq_some_iff.mp hline
            obtain ⟨-, rfl⟩ := Prod.mk.inj hpair
            exact copyLine_length_le hcopy

theorem read_of_refused {fd buf nbytes : BitVec 32}
    (hrefused : Refused img s memory frame (.read fd buf nbytes)) :
    read img s fd.toInt (pointerAt memory buf) nbytes.toInt = some (.returned (-1) [] s) := by
  rcases hrefused with hbuf | hsign | hout | hclosed
  · simp [read, pointerAt, hbuf]
  · unfold read
    split
    · exact if_pos (.inl hsign)
    · rfl
  · unfold read
    split
    · exact if_pos (.inr hout)
    · rfl
  · by_cases hbuf : buf = 0
    · simp [read, pointerAt, hbuf]
    · obtain ⟨bytes, hpointer⟩ := pointerAt_eq memory hbuf
      rw [hpointer]
      exact read_notOpen hclosed

/-- A `read` that its tests let through is served by the row of the descriptor. -/
theorem read_of_not_refused {fd buf nbytes : BitVec 32}
    (hserved : ¬ Refused img s memory frame (.read fd buf nbytes)) :
    ∃ index, read img s fd.toInt (pointerAt memory buf) nbytes.toInt =
      fopsRead img s index nbytes.toInt.toNat (s.fileDesc index).fops := by
  simp only [Refused, not_or, Kernel.NotOpen, not_forall] at hserved
  obtain ⟨hbuf, hsign, hout, index, hindex, hflags⟩ := hserved
  obtain ⟨bytes, hpointer⟩ := pointerAt_eq memory hbuf
  refine ⟨index, ?_⟩
  unfold read
  rw [hpointer, hindex]
  dsimp only
  rw [if_neg (not_or.mpr ⟨hsign, hout⟩), if_neg hflags]

theorem read_contained_iff {fd buf nbytes : BitVec 32}
    (hcall : userCall img link s memory frame (.read fd buf nbytes) = some callEnd) :
    callEnd.Contained s memory (.read fd buf nbytes) ↔
      RangeInPage memory (.read fd buf nbytes) ∨
        Refused img s memory frame (.read fd buf nbytes) := by
  obtain ⟨result, hread, hend⟩ := Option.map_eq_some_iff.mp hcall
  refine contained_iff_of ?_ ?_ ?_
  · rintro ⟨range, hrange, hpage⟩ address haddress
    obtain rfl := Option.some.inj hrange
    cases result with
    | pageFault faulted =>
        rw [← hend] at haddress
        simp [CallEnd.written] at haddress
    | returned value bytes next =>
        rw [← hend] at haddress
        refine hpage address (mem_byteAddresses_of_le ?_ (storeBytes_written haddress))
        by_cases hrefused : Refused img s memory frame (.read fd buf nbytes)
        · rw [read_of_refused hrefused] at hread
          cases hread
          simp
        · obtain ⟨index, hserved⟩ := read_of_not_refused hrefused
          exact fopsRead_length_le (hserved.symm.trans hread)
  · intro hrefused
    rw [read_of_refused hrefused] at hread
    cases hread
    exact ⟨s, hend.symm.trans storeBytes_zero, sameState_refl s⟩
  · intro next hcompleted hsame
    by_contra hrefused
    obtain ⟨index, hserved⟩ := read_of_not_refused hrefused
    rw [hserved] at hread
    rw [← hend] at hcompleted
    cases result with
    | pageFault faulted => cases hcompleted
    | returned value bytes final =>
        obtain ⟨rfl, rfl⟩ := storeBytes_eq_completed hcompleted
        exact fopsRead_not_refused hread hsame

/-! ### `write` -/

theorem write_of_refused {fd buf nbytes : BitVec 32}
    (hrefused : Refused img s memory frame (.write fd buf nbytes)) :
    write s fd.toInt (pointerAt memory buf) nbytes.toInt = some (.returned (-1) [] s) := by
  unfold write
  rcases hrefused with hbuf | hsign | hin | hrow
  · simp [pointerAt, hbuf]
  · split
    · exact if_pos (.inl hsign)
    · rfl
  · split
    · exact if_pos (.inr hin)
    · rfl
  · split
    · rename_i index bytes hindex _
      split
      · rfl
      · exact fopsWrite_refuses.mpr (hrow index hindex)
    · rfl

/-- A refused `write` does not get as far as its buffer. -/
theorem writeLoads_of_refused {fd buf nbytes : BitVec 32} (hbuf : buf ≠ 0)
    (hrefused : Refused img s memory frame (.write fd buf nbytes)) :
    writeLoads s fd.toInt nbytes.toInt = 0 := by
  unfold writeLoads
  rcases hrefused with hnull | hsign | hin | hrow
  · exact absurd hnull hbuf
  · split
    · rfl
    · rw [if_pos (.inl hsign)]
  · split
    · rfl
    · rw [if_pos (.inr hin)]
  · split
    · rfl
    · rename_i index hindex
      rcases hrow index hindex with hdir | hfile
      · simp [hdir]
      · simp [hfile]

theorem fopsWrite_value {bytes : ℕ → UInt8} {nbytes : ℕ} {fops : Option FileType}
    {written : List UInt8} {next : Kernel}
    (hwrite : fopsWrite s bytes nbytes fops = some (.returned (-1) written next)) :
    fops = some .dir ∨ fops = some .file := by
  cases fops with
  | none => cases hwrite
  | some row =>
      cases row with
      | rtc =>
          obtain ⟨_, _, heq⟩ := Option.map_eq_some_iff.mp hwrite
          cases heq
      | dir => exact .inl rfl
      | file => exact .inr rfl
      | term =>
          obtain ⟨_, _, heq⟩ := Option.map_eq_some_iff.mp hwrite
          have hvalue := (CallResult.returned.inj heq).1
          omega

theorem CallResult.callEnd_written (result : CallResult) : result.callEnd.written = [] := by
  cases result <;> rfl

theorem Execution.callEnd_written (execution : Execution) : execution.callEnd.written = [] := by
  cases execution <;> rfl

theorem write_contained_iff {fd buf nbytes : BitVec 32}
    (hcall : userCall img link s memory frame (.write fd buf nbytes) = some callEnd) :
    callEnd.Contained s memory (.write fd buf nbytes) ↔
      RangeInPage memory (.write fd buf nbytes) ∨
        Refused img s memory frame (.write fd buf nbytes) := by
  simp only [userCall] at hcall
  split at hcall
  · rename_i hfault
    obtain rfl := Option.some.inj hcall
    refine contained_iff_of (by simp [CallEnd.written]) (fun hrefused => ?_) (by simp)
    refine absurd ?_ hfault.2
    simp [writeLoads_of_refused hfault.1 hrefused, byteAddresses]
  · obtain ⟨result, hwrite, rfl⟩ := Option.map_eq_some_iff.mp hcall
    refine contained_iff_of (by simp [CallResult.callEnd_written]) (fun hrefused => ?_)
      fun next hend _ => ?_
    · rw [write_of_refused hrefused] at hwrite
      cases hwrite
      exact ⟨s, rfl, sameState_refl s⟩
    · by_contra hserved
      simp only [Refused, not_or, not_forall] at hserved
      obtain ⟨hbuf, hsign, hin, index, hindex, hrow⟩ := hserved
      obtain ⟨bytes, hpointer⟩ := pointerAt_eq memory hbuf
      unfold write at hwrite
      rw [hpointer, hindex] at hwrite
      dsimp only at hwrite
      rw [if_neg (not_or.mpr ⟨hsign, hin⟩)] at hwrite
      cases result with
      | pageFault faulted => cases hend
      | returned value written final =>
          cases hend
          exact absurd (fopsWrite_value hwrite) (not_or.mpr hrow)

/-! ### `open` -/

theorem openFile_none : openFile img s none = some (.returned (-1) [] s) := rfl

theorem openFile_eq_refused {name : List UInt8}
    (hrefused : readDentryByName img name = none ∨
      ∀ fd ∈ openSlots, (s.fileDesc fd).flags ≠ 0) :
    openFile img s (some name) = some (.returned (-1) [] s) := by
  unfold openFile
  rw [Option.bind_some]
  rcases hrefused with hnone | hfull
  · rw [hnone]
  · have hfind : openSlots.find? (fun fd => (s.fileDesc fd).flags = 0) = none := by
      rw [List.find?_eq_none]
      intro fd hfd
      simpa using hfull fd hfd
    rw [hfind]
    split <;> rfl

theorem openFile_value {name written : List UInt8} {next : Kernel}
    (hopen : openFile img s (some name) = some (.returned (-1) written next)) :
    readDentryByName img name = none ∨ ∀ fd ∈ openSlots, (s.fileDesc fd).flags ≠ 0 := by
  unfold openFile at hopen
  rw [Option.bind_some] at hopen
  split at hopen
  · rename_i hnone
    exact .inl hnone
  · split at hopen
    · rename_i hfind
      rw [List.find?_eq_none] at hfind
      exact .inr fun fd hfd => by simpa using hfind fd hfd
    · obtain ⟨opened, _, heq⟩ := Option.map_eq_some_iff.mp hopen
      have hvalue := (CallResult.returned.inj heq).1
      omega

theorem openFile_contained_iff {filename : BitVec 32}
    (hcall : userCall img link s memory frame (.openFile filename) = some callEnd) :
    callEnd.Contained s memory (.openFile filename) ↔
      RangeInPage memory (.openFile filename) ∨
        Refused img s memory frame (.openFile filename) := by
  simp only [userCall] at hcall
  split at hcall
  · rename_i hnull
    rw [openFile_none] at hcall
    obtain rfl := Option.some.inj hcall
    exact contained_iff_of (by simp [CallResult.callEnd_written])
      (fun _ => ⟨s, rfl, sameState_refl s⟩) fun _ _ _ => .inl hnull
  · rename_i hnull
    split at hcall
    · rename_i hscan
      obtain rfl := Option.some.inj hcall
      refine contained_iff_of (by simp [CallEnd.written]) (fun hrefused => ?_) (by simp)
      rcases hrefused with hzero | ⟨name, hname, -⟩
      · exact absurd hzero hnull
      · rw [hscan] at hname
        contradiction
    · rename_i name hscan
      obtain ⟨result, hopen, rfl⟩ := Option.map_eq_some_iff.mp hcall
      refine contained_iff_of (by simp [CallResult.callEnd_written]) (fun hrefused => ?_)
        fun next hend _ => .inr ⟨name, hscan, ?_⟩
      · rcases hrefused with hzero | ⟨name', hname, htests⟩
        · exact absurd hzero hnull
        · obtain rfl := Option.some.inj (hscan.symm.trans hname)
          rw [openFile_eq_refused htests] at hopen
          cases hopen
          exact ⟨s, rfl, sameState_refl s⟩
      · cases result with
        | pageFault faulted => cases hend
        | returned value written final =>
            cases hend
            exact openFile_value hopen

/-! ### `execute` -/

theorem execute_some {words : List UInt8} {num : ℕ} (hfound : freeSlot s = some num) :
    execute img s (some words) frame =
      executeCommit img (loadCurrentProcess s) words num frame := by
  have hfree : freeSlot (loadCurrentProcess s) = some num := hfound
  simp only [execute, hfree]

theorem noProgram_iff {words : List UInt8} :
    NoProgram img frame words ↔ acceptedFile img words frame = none := by
  unfold NoProgram acceptedFile
  rw [Option.filter_eq_none_iff]
  simp only [decide_eq_true_eq]
  cases readDentryByName img (parseCommand words).1 with
  | none => simp
  | some dentry => simp

theorem executeCommit_noProgram {words : List UInt8} {num : ℕ} {execution : Execution}
    (hnone : NoProgram img frame words)
    (hcommit : executeCommit img s words num frame = some execution) :
    execution = .returned (-1) s := by
  obtain ⟨-, ⟨_, hreturned⟩ | ⟨dentry, haccepted, _, _⟩⟩ := executeCommit_eq_some hcommit
  · exact hreturned
  · rw [noProgram_iff.mp hnone] at haccepted
    contradiction

theorem noProgram_of_returned {words : List UInt8} {num : ℕ} {value : ℤ} {next : Kernel}
    (hcommit : executeCommit img s words num frame = some (.returned value next)) :
    NoProgram img frame words := by
  obtain ⟨-, ⟨hrejected, _⟩ | ⟨_, _, _, hstarted⟩⟩ := executeCommit_eq_some hcommit
  · exact noProgram_iff.mpr hrejected
  · contradiction

theorem execute_full {words : List UInt8} {execution : Execution} (hfull : freeSlot s = none)
    (hexecute : execute img s (some words) frame = some execution) :
    ∃ next, execution = .returned 0 next := by
  have hfree : freeSlot (loadCurrentProcess s) = none := hfull
  simp only [execute, hfree] at hexecute
  obtain ⟨printed, _, rfl⟩ := Option.map_eq_some_iff.mp hexecute
  exact ⟨printed, rfl⟩

theorem execute_contained_iff {command : BitVec 32}
    (hcall : userCall img link s memory frame (.execute command) = some callEnd) :
    callEnd.Contained s memory (.execute command) ↔
      RangeInPage memory (.execute command) ∨
        Refused img s memory frame (.execute command) := by
  have hload : s.SameState (loadCurrentProcess s) := rfl
  simp only [userCall] at hcall
  split at hcall
  · rename_i hnull
    obtain rfl := Option.some.inj hcall
    exact contained_iff_of (by simp [Execution.callEnd_written])
      (fun _ => ⟨_, rfl, hload⟩) fun _ _ _ => .inl hnull
  · rename_i hnull
    split at hcall
    · rename_i hfull
      obtain ⟨execution, hexecute, rfl⟩ := Option.map_eq_some_iff.mp hcall
      obtain ⟨next, rfl⟩ := execute_full hfull hexecute
      refine contained_iff_of (by simp [Execution.callEnd_written]) (fun hrefused => ?_)
        (by simp [Execution.callEnd])
      rcases hrefused with hzero | ⟨num, words, hfound, -⟩
      · exact absurd hzero hnull
      · rw [hfull] at hfound
        contradiction
    · rename_i hfree
      obtain ⟨num, hfound⟩ := Option.ne_none_iff_exists'.mp hfree
      split at hcall
      · rename_i hscan
        obtain rfl := Option.some.inj hcall
        refine contained_iff_of (by simp [CallEnd.written]) (fun hrefused => ?_) (by simp)
        rcases hrefused with hzero | ⟨_, words, _, hwords, -⟩
        · exact absurd hzero hnull
        · rw [hscan] at hwords
          contradiction
      · rename_i words hscan
        obtain ⟨execution, hexecute, rfl⟩ := Option.map_eq_some_iff.mp hcall
        rw [execute_some hfound] at hexecute
        refine contained_iff_of (by simp [Execution.callEnd_written]) (fun hrefused => ?_)
          fun next hend _ => .inr ⟨num, words, hfound, hscan, ?_⟩
        · rcases hrefused with hzero | ⟨_, words', _, hwords, hnone⟩
          · exact absurd hzero hnull
          · obtain rfl := Option.some.inj (hscan.symm.trans hwords)
            obtain rfl := executeCommit_noProgram hnone hexecute
            exact ⟨_, rfl, hload⟩
        · cases execution with
          | started started entry image => cases hend
          | returned value final => exact noProgram_of_returned hexecute

/-! ### `getargs` and `vidmap` -/

theorem getargs_of_refused {buf nbytes : BitVec 32}
    (hrefused : Refused img s memory frame (.getargs buf nbytes)) :
    getargs s (pointerAt memory buf) nbytes.toInt = (-1, []) := by
  unfold getargs
  dsimp only
  rcases hrefused with hbuf | hsign | hempty
  · rw [if_pos (.inl (if_pos hbuf))]
  · rw [if_pos (.inr hsign)]
  · rw [if_pos hempty]
    exact ite_self _

theorem getargs_of_not_refused {buf nbytes : BitVec 32}
    (hserved : ¬ Refused img s memory frame (.getargs buf nbytes)) :
    (getargs s (pointerAt memory buf) nbytes.toInt).1 = 0 ∧
      (getargs s (pointerAt memory buf) nbytes.toInt).2.length = nbytes.toInt.toNat := by
  simp only [Refused, not_or] at hserved
  obtain ⟨hbuf, hsign, hargument⟩ := hserved
  obtain ⟨bytes, hpointer⟩ := pointerAt_eq memory hbuf
  unfold getargs
  dsimp only
  rw [hpointer, if_neg (by simp [hsign]), if_neg hargument]
  exact ⟨rfl, strncpyBytes_length _ _⟩

theorem getargs_contained_iff {buf nbytes : BitVec 32}
    (hcall : userCall img link s memory frame (.getargs buf nbytes) = some callEnd) :
    callEnd.Contained s memory (.getargs buf nbytes) ↔
      RangeInPage memory (.getargs buf nbytes) ∨
        Refused img s memory frame (.getargs buf nbytes) := by
  obtain rfl := Option.some.inj hcall
  refine contained_iff_of ?_ (fun hrefused => ?_) fun next hend _ => ?_
  · rintro ⟨range, hrange, hpage⟩ address haddress
    obtain rfl := Option.some.inj hrange
    refine hpage address (mem_byteAddresses_of_le ?_ (storeBytes_written haddress))
    by_cases hrefused : Refused img s memory frame (.getargs buf nbytes)
    · rw [getargs_of_refused hrefused]
      simp
    · exact (getargs_of_not_refused hrefused).2.le
  · rw [getargs_of_refused hrefused]
    exact ⟨s, storeBytes_zero, sameState_refl s⟩
  · by_contra hserved
    have hvalue := (storeBytes_eq_completed hend).1
    rw [(getargs_of_not_refused hserved).1] at hvalue
    contradiction

theorem vidmap_contained_iff {screenStart : BitVec 32}
    (hcall : userCall img link s memory frame (.vidmap screenStart) = some callEnd) :
    callEnd.Contained s memory (.vidmap screenStart) ↔
      RangeInPage memory (.vidmap screenStart) ∨
        Refused img s memory frame (.vidmap screenStart) := by
  obtain rfl := Option.some.inj hcall
  by_cases hstart : AcceptsStart screenStart
  · refine contained_iff_of ?_ (fun hrefused => absurd hstart hrefused) fun next hend _ => ?_
    · rintro ⟨range, hrange, hpage⟩ address haddress
      obtain rfl := Option.some.inj hrange
      rw [if_pos hstart] at haddress
      exact hpage address haddress
    · rw [if_pos hstart] at hend
      have hwritten := congrArg CallEnd.written hend
      simp [CallEnd.written, byteAddresses] at hwritten
  · rw [vidmap_of_not_accepts link s hstart, if_neg hstart]
    exact contained_iff_of (by simp [CallEnd.written])
      (fun _ => ⟨s, rfl, sameState_refl s⟩) fun _ _ _ => hstart

/-! ## The law and its limits -/

end Calls

def smallLoad (s : Kernel) : Memory :=
  s.load smallLayout (pageInit smallLayout.pageTable zeroTables).pageTable (fun _ _ => 0)
    fun _ => 0

def openingRun : List Op := [.openFile (some (ascii "frame0.txt"))]

end VirtualOS
