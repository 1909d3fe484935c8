import VirtualOS.FilePositions
import VirtualOS.PointerArguments
import VirtualOS.ProgramLoading
import Mathlib.Tactic

/-!
# Where the stores of a call go

`perform` says what the calls do to the variables of the kernel and which bytes they
hand out.  Where these bytes go is decided by the page tables: the kernel writes
with its own rights, so that a buffer of `read` or `getargs`, a program that is
longer than its page and a word that is longer than its array can all reach the
control blocks, the terminals, `dir_index` and the page tables themselves.
`performThrough` is `perform` with these stores.  Stores to other variables of the
kernel and to its stacks have no defined effect.  Operations that spare the memory of
the kernel are those of `perform`.
-/

namespace VirtualOS

open PartialRuns PageWalk

/-! ## Bytes of the variables -/

/-- A word after a store to its byte `k`. -/
def setByte (word : BitVec 32) (k : ℕ) (byte : UInt8) : BitVec 32 :=
  (word &&& ~~~((0xFF : BitVec 32) <<< (8 * k))) ||| (byte.toBitVec.setWidth 32 <<< (8 * k))

/-- A changed `fops` pointer has no meaning in the model. -/
def FileDesc.storeByte (desc : FileDesc) (offset : ℕ) (byte : UInt8) : Option FileDesc :=
  match offset / 4 with
  | 0 => none
  | 1 => some { desc with inode := (setByte (.ofNat 32 desc.inode) (offset % 4) byte).toNat }
  | 2 => some { desc with filePos := setByte desc.filePos (offset % 4) byte }
  | _ => some { desc with flags := (setByte (.ofInt 32 desc.flags) (offset % 4) byte).toInt }

/-- A store to the byte `offset` of a control block: eight descriptors of 16 bytes,
six words, the argument, and `terminal_num`, which nothing reads. -/
def Pcb.storeByte (pcb : Pcb) (offset : ℕ) (byte : UInt8) : Option Pcb :=
  if hfd : offset < 128 then
    let fd : Fin 8 := ⟨offset / 16, by omega⟩
    ((pcb.fileDescArray fd).storeByte (offset % 16) byte).map fun desc =>
      { pcb with fileDescArray := Function.update pcb.fileDescArray fd desc }
  else if harg : 152 ≤ offset ∧ offset < 280 then
    some { pcb with
      argument := Function.update pcb.argument ⟨offset - 152, by omega⟩ byte }
  else
    let set word := setByte word (offset % 4) byte
    match offset / 4 with
    | 32 => some { pcb with espPrev := set pcb.espPrev }
    | 33 => some { pcb with ebpPrev := set pcb.ebpPrev }
    | 34 => some { pcb with processNumPrev := (set (.ofNat 32 pcb.processNumPrev)).toNat }
    | 35 => some { pcb with esp := set pcb.esp }
    | 36 => some { pcb with ebp := set pcb.ebp }
    | 37 => some { pcb with processNum := (set (.ofNat 32 pcb.processNum)).toNat }
    | 70 => some pcb
    | _ => none

def terminalSize : ℕ := 4160

/-- A store to the byte `offset` of a terminal: the text page, the key buffer and
eight words, of which `buf_flag` uses one byte. -/
def Terminal.storeByte (term : Terminal) (offset : ℕ) (byte : UInt8) : Terminal :=
  if hpage : offset < 4000 then
    { term with videoMemory := Function.update term.videoMemory ⟨offset, hpage⟩ byte }
  else if hkey : offset < 4128 then
    { term with keyBuf := Function.update term.keyBuf ⟨offset - 4000, by omega⟩ byte }
  else
    let set word := setByte word (offset % 4) byte
    match offset / 4 with
    | 1032 => { term with numBuf := (set (.ofInt 32 term.numBuf)).toInt }
    | 1033 => if offset % 4 = 0 then { term with bufFlag := byte.toBitVec } else term
    | 1034 => { term with screenX := (set (.ofInt 32 term.screenX)).toInt }
    | 1035 => { term with screenY := (set (.ofInt 32 term.screenY)).toInt }
    | 1036 => { term with startLinePtr := set term.startLinePtr }
    | 1037 => { term with processNum := (set (.ofNat 32 term.processNum)).toNat }
    | 1038 => { term with flag := (set (.ofInt 32 term.flag)).toInt }
    | 1039 => { term with totalProcess := (set (.ofInt 32 term.totalProcess)).toInt }
    | _ => term

/-- A store to the byte `offset` of a table of 1024 words. -/
def storeTableByte (table : ℕ → BitVec 32) (offset : ℕ) (byte : UInt8) : ℕ → BitVec 32 :=
  Function.update table (offset / 4) (setByte (table (offset / 4)) (offset % 4) byte)

/-! ## Physical memory -/

/-- Where the linker puts the variables that stores can reach here, and what the
frames hold that are not in the state of the kernel. -/
structure MemoryMap extends Layout where
  entries : ℕ → BitVec 32
  rest : BitVec 32 → ℕ → BitVec 32
  pageDirectory : BitVec 32
  terminals : BitVec 32
  dirIndex : BitVec 32
  videoMemory_eq : ∀ t, videoMemory t = terminals + BitVec.ofNat 32 (terminalSize * t.val)

def MemoryMap.translate (map : MemoryMap) (s : Kernel) : BitVec 32 → Option Translation :=
  s.translate map.toLayout map.entries map.rest

/-- A store to a physical address.  From 8MB on lie the pages of the processes; the six
control blocks end there. -/
def Kernel.storeByte (s : Kernel) (map : MemoryMap) (address : BitVec 32) (byte : UInt8) :
    Option Kernel :=
  let terminalOffset := (address - map.terminals).toNat
  if 0x800000 ≤ address.toNat then some s
  else if hpage : 0xB8000 ≤ address.toNat ∧ address.toNat < 0xB9000 then
    if hcell : address.toNat - 0xB8000 < 4000 then
      some { s with
        videoMem := Function.update s.videoMem ⟨address.toNat - 0xB8000, hcell⟩ byte }
    else some s
  else if hterm : terminalOffset < 3 * terminalSize then
    let t : Fin 3 := ⟨terminalOffset / terminalSize, Nat.div_lt_of_lt_mul (by omega)⟩
    some (s.modifyTerminal t fun term => term.storeByte (terminalOffset % terminalSize) byte)
  else if (address - map.dirIndex).toNat < 4 then
    some { s with
      dirIndex := (setByte (.ofNat 32 s.dirIndex) (address - map.dirIndex).toNat byte).toNat }
  else if (address - map.pageDirectory).toNat < 4096 then
    some { s with
      pageDirectory := storeTableByte s.pageDirectory (address - map.pageDirectory).toNat byte }
  else if (address - map.userPageTable).toNat < 4096 then
    some { s with
      userPageTable := storeTableByte s.userPageTable (address - map.userPageTable).toNat byte }
  else if (address - map.videoPageTable).toNat < 4096 then
    some { s with
      videoPageTable :=
        storeTableByte s.videoPageTable (address - map.videoPageTable).toNat byte }
  else if 0x7F4000 ≤ address.toNat then
    let block := address &&& pcbMask
    ((s.pcb block).storeByte (address - block).toNat byte).map fun pcb =>
      s.modifyPcb block fun _ => pcb
  else none

/-- The stores of `bytes` to a buffer, up to the first page that is not present, and
whether they came to their end.  The addresses are translated by the tables as they were
before. -/
def Kernel.storeBuffer (s : Kernel) (map : MemoryMap) (address : BitVec 32)
    (bytes : List UInt8) : Option (Kernel × Bool) :=
  let stores := loadStores (map.translate s) address bytes
  (stores.foldlM (fun (s : Kernel) store => s.storeByte map store.physical store.byte) s).map
    fun stored => (stored, stores.length = bytes.length)

/-! ## Calls with their stores -/

def CallResult.answers (value : ℤ) (bytes : List UInt8) : CallResult → Bool
  | .returned value' bytes' _ => value' = value ∧ bytes' = bytes
  | .pageFault _ => false

/-- `read`: the bytes are stored before the position or the line moves on.  A read that
stores over what it reads has no defined effect. -/
def readThrough (img : Image) (map : MemoryMap) (s : Kernel) (fd : ℤ) (buf : UserPointer)
    (nbytes : ℤ) : Option CallResult :=
  (read img s fd buf nbytes).bind fun
    | .pageFault faulted => some (.pageFault faulted)
    | .returned value bytes next =>
        match buf with
        | none => some (.returned value bytes next)
        | some buffer =>
            (s.storeBuffer map buffer.address bytes).bind fun stored =>
              if stored.2 then
                (read img stored.1 fd buf nbytes).filter (·.answers value bytes)
              else some (.pageFault stored.1)

/-- `getargs`.  A store over the argument itself and a fault are left out. -/
def getargsThrough (map : MemoryMap) (s : Kernel) (buf : UserPointer) (nbytes : ℤ) :
    Option (Kernel × Answer) :=
  let result := getargs s buf nbytes
  match buf with
  | none => some (s, ⟨some result.1, result.2⟩)
  | some buffer =>
      (s.storeBuffer map buffer.address result.2).bind fun stored =>
        if stored.2 ∧ getargs stored.1 buf nbytes = result then
          some (stored.1, ⟨some result.1, result.2⟩)
        else none

/-- How `execute` ends: a store of its own can fault. -/
inductive ExecuteResult where
  | done (execution : Execution)
  | pageFault (s : Kernel)

def ExecuteResult.answer (img : Image) (frame : StackFrame) :
    ExecuteResult → Option (Kernel × Answer)
  | .done execution => some execution.answer
  | .pageFault s => (excHandler img s .pf frame).map Halting.answer

/-- `execute` of a file that passes for a program: the load goes through the tables as
they are, however long the file is. -/
def executeLoaded (img : Image) (map : MemoryMap) (s : Kernel) (line : List UInt8)
    (frame : StackFrame) (num : ℕ) (bytes : List UInt8) : Option ExecuteResult :=
  let mapped := (loadCurrentProcess s).setPageDirectory pdeIndex (userPage num)
  (acceptedFile img line frame).bind fun exeDentry =>
    (mapped.storeBuffer map programImageAddr bytes).map fun stored =>
      if stored.2 then
        .done (.started (startProcess stored.1 num (parseCommand line).2 frame)
          (readWord img exeDentry.inodeNum 24 frame.entry) bytes)
      else .pageFault stored.1

/-! ### A name that is longer than its array -/

/-- `cmd` in the frame of `execute`; 208 bytes from its start lies `start`, and behind that
`end`. -/
def StackFrame.cmd (frame : StackFrame) : BitVec 32 := frame.ebp - 0xE4

/-- A word of the frame, `offset` bytes from the start of `cmd`, when a name lies over it. -/
def overwritten (name : List UInt8) (offset : ℕ) (word : BitVec 32) : BitVec 32 :=
  (List.range 4).foldl (fun word k =>
    match name[offset + k]? with
    | some byte => setByte word k byte
    | none => word) word

/-- Where `cmd[end - start] = 0` stores for a name that does not reach `end`. -/
def nameEnd (line : List UInt8) (frame : StackFrame) : BitVec 32 :=
  let name := (parseCommand line).1
  let start := (line.takeWhile (· = space)).length
  frame.cmd + (BitVec.ofNat 32 (start + name.length) -
    overwritten name 208 (BitVec.ofNat 32 start))

/-- A name that overruns `cmd` but not `end`. -/
def LongName (line : List UInt8) : Prop :=
  keyboardBufSize ≤ (parseCommand line).1.length ∧ (parseCommand line).1.length < 212 ∧
    (parseCommand line).2.length < keyboardBufSize

instance (line : List UInt8) : Decidable (LongName line) :=
  inferInstanceAs (Decidable (_ ∧ _ ∧ _))

/-- `execute` of such a name: it is not found, and the byte behind it has been set to zero
wherever the changed `start` led the store.  From `cmd[33]` up to `end` nothing is read
any more; a name that is cut short is left out. -/
def executeLong (map : MemoryMap) (s : Kernel) (line : List UInt8)
    (frame : StackFrame) : Option ExecuteResult :=
  let s := loadCurrentProcess s
  let offset := (nameEnd line frame - frame.cmd).toNat
  if offset ≤ filenameLen then none
  else if offset < 212 then some (.done (.returned (-1) s))
  else (s.storeBuffer map (nameEnd line frame) [0]).map fun stored =>
    if stored.2 then .done (.returned (-1) stored.1) else .pageFault stored.1

def executeThrough (img : Image) (map : MemoryMap) (s : Kernel) (command : Option (List UInt8))
    (frame : StackFrame) : Option ExecuteResult :=
  match command with
  | none => (execute img s none frame).map .done
  | some line =>
      match executeLoad img s (some line) frame with
      | some (num, bytes) => executeLoaded img map s line frame num bytes
      | none =>
          if LongName line ∧ (freeSlot s).isSome then executeLong map s line frame
          else (execute img s (some line) frame).map .done

/-- `perform` with the stores through pointers. -/
def performThrough (img : Image) (map : MemoryMap) (s : Kernel) :
    Op → Option (Kernel × Answer)
  | .execute command frame =>
      (executeThrough img map s command frame).bind (·.answer img frame)
  | .read fd buf nbytes frame =>
      (readThrough img map s fd buf nbytes).bind (·.answer img frame)
  | .getargs buf nbytes => getargsThrough map s buf nbytes
  | op => perform img map.toLink s op

def stepThrough (img : Image) (map : MemoryMap) (s : Kernel) (op : Op) : Option Kernel :=
  (performThrough img map s op).map Prod.fst

/-! ## Operations that spare the kernel -/

/-- The `count` bytes from `address` on lie on pages of processes. -/
def Kernel.OnUserPages (s : Kernel) (map : MemoryMap) (address : BitVec 32) (count : ℕ) : Prop :=
  ∀ k < count, (map.translate s (address + BitVec.ofNat 32 k)).any fun translation =>
    decide (0x800000 ≤ translation.physical.toNat)

instance (s : Kernel) (map : MemoryMap) (address : BitVec 32) (count : ℕ) :
    Decidable (s.OnUserPages map address count) :=
  inferInstanceAs (Decidable (∀ k < count, _))

/-- The words of a command fit their arrays, and a file that passes for a program fits its
page. -/
structure FitsArrays (img : Image) (line : List UInt8) (frame : StackFrame) : Prop where
  name : (parseCommand line).1.length < keyboardBufSize
  argument : (parseCommand line).2.length < keyboardBufSize
  program : ∀ dentry ∈ acceptedFile img line frame,
    img.fileLength dentry.inodeNum ≤ imageRoom

instance (img : Image) (line : List UInt8) (frame : StackFrame) :
    Decidable (FitsArrays img line frame) :=
  decidable_of_iff ((parseCommand line).1.length < keyboardBufSize ∧
      (parseCommand line).2.length < keyboardBufSize ∧
      ∀ dentry ∈ acceptedFile img line frame, img.fileLength dentry.inodeNum ≤ imageRoom)
    ⟨fun ⟨hname, hargument, hprogram⟩ => ⟨hname, hargument, hprogram⟩,
      fun hfits => ⟨hfits.name, hfits.argument, hfits.program⟩⟩

/-- What an operation stores through a pointer stays on the pages of processes, and what
`execute` copies stays in the array that it is meant for. -/
def SparesKernel (img : Image) (map : MemoryMap) (s : Kernel) : Op → Prop
  | .read _ (some buffer) nbytes _ => s.OnUserPages map buffer.address nbytes.toNat
  | .getargs (some buffer) nbytes => s.OnUserPages map buffer.address nbytes.toNat
  | .execute (some line) frame => FitsArrays img line frame
  | _ => True

instance SparesKernel.decidable (img : Image) (map : MemoryMap) (s : Kernel) :
    ∀ op, Decidable (SparesKernel img map s op)
  | .read _ (some buffer) nbytes _ =>
      inferInstanceAs (Decidable (s.OnUserPages map buffer.address nbytes.toNat))
  | .getargs (some buffer) nbytes =>
      inferInstanceAs (Decidable (s.OnUserPages map buffer.address nbytes.toNat))
  | .execute (some line) frame => inferInstanceAs (Decidable (FitsArrays img line frame))
  | .read _ none _ _ | .getargs none _ | .execute none _ | .halt _ _ | .write _ _ _ _
  | .openFile _ | .close _ _ | .vidmap _ | .exception _ _ | .pit _ | .keyboard _ _ _
  | .switchTerminal _ _ _ | .rtcInterrupt => isTrue trivial

/-! ## Stores to the pages of processes -/

section Stores

variable {img : Image} {map : MemoryMap} {s next : Kernel} {address : BitVec 32}
  {bytes : List UInt8} {count : ℕ}

theorem foldlM_storeByte {stores : List LoadedByte}
    (huser : ∀ store ∈ stores, 0x800000 ≤ store.physical.toNat) :
    stores.foldlM (fun (s : Kernel) store => s.storeByte map store.physical store.byte) s =
      some s := by
  induction stores with
  | nil => rfl
  | cons store rest ih =>
      have hfirst : s.storeByte map store.physical store.byte = some s :=
        if_pos (huser store (by simp))
      rw [List.foldlM_cons, hfirst, Option.bind_eq_bind, Option.bind_some]
      exact ih fun other hother => huser other (by simp [hother])

/-- A buffer on the pages of processes takes its bytes, and the kernel stays as it is. -/
theorem storeBuffer_of_onUserPages (hpages : s.OnUserPages map address count)
    (hlength : bytes.length ≤ count) : s.storeBuffer map address bytes = some (s, true) := by
  let physical : ℕ → BitVec 32 := fun k =>
    ((map.translate s (address + BitVec.ofNat 32 k)).map Translation.physical).getD 0
  have hwalk : ∀ k < bytes.length, (map.translate s (address + BitVec.ofNat 32 k)).map
      Translation.physical = some (physical k) ∧ 0x800000 ≤ (physical k).toNat := by
    intro k hk
    obtain ⟨translation, htranslate, huser⟩ :=
      (Option.any_eq_true _ _).mp (hpages k (hk.trans_le hlength))
    have hphysical : physical k = translation.physical := by
      simp only [physical, htranslate, Option.map_some, Option.getD_some]
    rw [htranslate, hphysical]
    exact ⟨rfl, of_decide_eq_true huser⟩
  have hstores : loadStores (map.translate s) address bytes =
      bytes.mapIdx fun k byte => ⟨address + BitVec.ofNat 32 k, physical k, byte⟩ :=
    loadStores_eq_mapIdx fun k hk => (hwalk k hk).1
  unfold Kernel.storeBuffer
  dsimp only
  rw [hstores, foldlM_storeByte, List.length_mapIdx, Option.map_some, decide_eq_true rfl]
  intro store hmem
  obtain ⟨k, hk, rfl⟩ := List.mem_mapIdx.mp hmem
  exact (hwalk k hk).2

/-! ## `performThrough` and `perform` -/

theorem read_bytes_length {fd nbytes value : ℤ} {buf : UserPointer}
    (hread : read img s fd buf nbytes = some (.returned value bytes next)) :
    bytes.length ≤ nbytes.toNat := by
  unfold read at hread
  split at hread
  · split at hread
    · cases hread
      exact Nat.zero_le _
    · split at hread
      · cases hread
        exact Nat.zero_le _
      · exact fopsRead_length_le hread
  · cases hread
    exact Nat.zero_le _

theorem readThrough_eq {fd nbytes : ℤ} {buf : UserPointer}
    (hpages : ∀ buffer ∈ buf, s.OnUserPages map buffer.address nbytes.toNat) :
    readThrough img map s fd buf nbytes = read img s fd buf nbytes := by
  unfold readThrough
  cases hread : read img s fd buf nbytes with
  | none => rfl
  | some result =>
      cases result with
      | pageFault faulted => rfl
      | returned value bytes next =>
          cases buf with
          | none => rfl
          | some buffer =>
              have hstored := storeBuffer_of_onUserPages (hpages buffer rfl)
                (read_bytes_length hread)
              simp [hstored, hread, CallResult.answers]

theorem getargs_bytes_length (s : Kernel) (buf : UserPointer) (nbytes : ℤ) :
    (getargs s buf nbytes).2.length ≤ nbytes.toNat := by
  unfold getargs
  dsimp only
  split
  · exact Nat.zero_le _
  · split
    · exact Nat.zero_le _
    · exact (strncpyBytes_length _ _).le

theorem getargsThrough_eq {nbytes : ℤ} {buf : UserPointer}
    (hpages : ∀ buffer ∈ buf, s.OnUserPages map buffer.address nbytes.toNat) :
    getargsThrough map s buf nbytes =
      some (s, ⟨some (getargs s buf nbytes).1, (getargs s buf nbytes).2⟩) := by
  unfold getargsThrough
  cases buf with
  | none => rfl
  | some buffer =>
      have hstored := storeBuffer_of_onUserPages (hpages buffer rfl)
        (getargs_bytes_length s (some buffer) nbytes)
      simp [hstored]

theorem length_readData_le_fileLength (img : Image) (inode length : ℕ) :
    (readData img inode 0 length).2.length ≤ img.fileLength inode := by
  unfold Image.fileLength
  split
  · rename_i hinode
    rw [readData_snd hinode, List.drop_zero, List.length_take, Image.fileContents_length]
    exact min_le_right _ _
  · rename_i hinode
    rw [readData_of_inodeCount_le (not_lt.mp hinode)]
    exact Nat.zero_le _

/-- The 4MB at 128MB are a page of a process. -/
theorem onUserPages_of_userPage {num : ℕ} (hpage : s.pageDirectory 32 = userPage num)
    (hpos : 1 ≤ num) (hmax : num ≤ processNumMax) (hlow : 0x8000000 ≤ address.toNat)
    (hhigh : address.toNat + count ≤ 0x8400000) : s.OnUserPages map address count := by
  intro k hk
  have hbase : (userBase num).toNat = 0x800000 + (num - 1) * 0x400000 := by
    unfold processNumMax at hmax
    interval_cases num <;> rfl
  have hat : (address + BitVec.ofNat 32 k).toNat = address.toNat + k := by
    rw [BitVec.toNat_add, BitVec.toNat_ofNat]
    omega
  have hlower : 0x8000000 ≤ (address + BitVec.ofNat 32 k).toNat := by omega
  have hoffset : (address + BitVec.ofNat 32 k - 0x8000000).toNat =
      address.toNat + k - 0x8000000 := by
    rw [BitVec.toNat_sub_of_le hlower, hat]
    rfl
  rw [MemoryMap.translate, translate_userPage hpage hlower (by omega), Option.any_some,
    decide_eq_true_eq]
  dsimp only
  unfold processNumMax at hmax
  rw [BitVec.toNat_add, hbase, hoffset]
  omega

/-- The page of a program takes the whole load. -/
theorem onUserPages_program {num : ℕ} (hpage : s.pageDirectory 32 = userPage num)
    (hpos : 1 ≤ num) (hmax : num ≤ processNumMax) (hcount : count ≤ imageRoom) :
    s.OnUserPages map programImageAddr count := by
  have hstart : programImageAddr.toNat = 0x8048000 := rfl
  have hroom : imageRoom = 0x3B8000 := rfl
  exact onUserPages_of_userPage hpage hpos hmax (by omega) (by omega)

theorem executeThrough_eq {command : Option (List UInt8)} {frame : StackFrame}
    (hfits : ∀ line ∈ command, FitsArrays img line frame) :
    executeThrough img map s command frame = (execute img s command frame).map .done := by
  cases command with
  | none => rfl
  | some line =>
      obtain ⟨hname, hargument, hprogram⟩ := hfits line rfl
      unfold executeThrough
      dsimp only
      cases hload : executeLoad img s (some line) frame with
      | none =>
          have hshort : ¬ (LongName line ∧ (freeSlot s).isSome) :=
            fun hlong => absurd hlong.1.1 (by omega)
          rw [if_neg hshort]
      | some load =>
          obtain ⟨num, bytes⟩ := load
          obtain ⟨hfound, -, dentry, haccepted, rfl⟩ := executeLoad_eq_some_iff.mp hload
          have hroom := (length_readData_le_fileLength img dentry.inodeNum fourMb.toNat).trans
            (hprogram dentry haccepted)
          have hfree : s.view.Free num := freeSlot_eq_some hfound
          obtain ⟨hpos, hmax, -⟩ := hfree
          have hpage : ((loadCurrentProcess s).setPageDirectory pdeIndex
              (userPage num)).pageDirectory 32 = userPage num := by
            simp [Kernel.setPageDirectory, pdeIndex]
          have hpages := @onUserPages_program map _ _ _ hpage hpos hmax hroom
          have hstored := storeBuffer_of_onUserPages hpages le_rfl
          have hexecute := @execute_of_accepted img s _ _ _ _ hfound hname hargument haccepted hroom
          dsimp only
          rw [hexecute, executeLoaded, hstored, haccepted]
          simp [startProcess, Kernel.setPageDirectory]

/-- An operation that spares the memory of the kernel is what `perform` says. -/
theorem performThrough_eq {op : Op} (hspares : SparesKernel img map s op) :
    performThrough img map s op = perform img map.toLink s op := by
  cases op with
  | execute command frame =>
      have hexecute : executeThrough img map s command frame =
          (execute img s command frame).map .done := by
        refine executeThrough_eq fun line hline => ?_
        obtain rfl := Option.mem_def.mp hline
        exact hspares
      rw [performThrough, perform, hexecute]
      cases execute img s command frame <;> rfl
  | read fd buf nbytes frame =>
      have hread : readThrough img map s fd buf nbytes = read img s fd buf nbytes := by
        refine readThrough_eq fun buffer hbuffer => ?_
        obtain rfl := Option.mem_def.mp hbuffer
        exact hspares
      simp only [performThrough, perform, hread]
  | getargs buf nbytes =>
      refine getargsThrough_eq fun buffer hbuffer => ?_
      obtain rfl := Option.mem_def.mp hbuffer
      exact hspares
  | _ => rfl

theorem stepThrough_eq {op : Op} (hspares : SparesKernel img map s op) :
    stepThrough img map s op = step img map.toLink s op := by
  rw [stepThrough, performThrough_eq hspares, step]

/-! ## Runs that spare the kernel -/

variable {guard : Kernel → Op → Prop} {ops : List Op}

theorem run_stepThrough (himp : ∀ s op, guard s op → SparesKernel img map s op)
    (hmeets : Meets (stepThrough img map) guard s ops) :
    run (stepThrough img map) s ops = run (step img map.toLink) s ops :=
  run_eq_of_meets (fun s op hguard => stepThrough_eq (himp s op hguard)) hmeets

theorem meets_stepThrough (himp : ∀ s op, guard s op → SparesKernel img map s op)
    (hmeets : Meets (stepThrough img map) guard s ops) :
    Meets (step img map.toLink) guard s ops :=
  hmeets.of_step_eq fun s op hguard => stepThrough_eq (himp s op hguard)

/-- Under a guard that spares the kernel, other guards too may be read along the runs of
`perform`. -/
theorem meets_stepThrough_of_spares {other : Kernel → Op → Prop}
    (himp : ∀ s op, guard s op → SparesKernel img map s op)
    (hguard : Meets (stepThrough img map) guard s ops)
    (hmeets : Meets (stepThrough img map) other s ops) :
    Meets (step img map.toLink) other s ops :=
  (meets_stepThrough (fun s op hboth => himp s op hboth.1) (hguard.and hmeets)).imp
    fun _ _ => And.right

end Stores

/-- The layout of the shipped kernel, with `PageTable` as `page_init` fills it. -/
def smallMap : MemoryMap :=
  { smallLayout with
    entries := (pageInit smallLayout.pageTable zeroTables).pageTable
    rest := fun _ _ => 0
    pageDirectory := 0x410000
    terminals := 0x40B000
    dirIndex := 0x407008
    videoMemory_eq := fun _ => rfl }

/-! ## Loads that go on behind their page -/

section Overruns

variable {map : MemoryMap} {s : Kernel}

theorem loadStores_append {translate : BitVec 32 → Option Translation} {start : BitVec 32}
    {first : List UInt8} (hfirst : ∀ k < first.length,
      (translate (start + BitVec.ofNat 32 k)).isSome) (second : List UInt8) :
    loadStores translate start (first ++ second) =
      loadStores translate start first ++
        loadStores translate (start + BitVec.ofNat 32 first.length) second := by
  induction first generalizing start with
  | nil => simp [loadStores]
  | cons byte rest ih =>
      have hzero := hfirst 0 (by simp)
      rw [show start + BitVec.ofNat 32 0 = start from BitVec.add_zero start] at hzero
      obtain ⟨translation, htranslate⟩ := Option.isSome_iff_exists.mp hzero
      have hrest := @ih (start + 1) fun k hk => by
        rw [← address_add_succ]
        exact hfirst (k + 1) (by simpa using hk)
      rw [List.cons_append, loadStores, loadStores, htranslate, List.length_cons,
        address_add_succ]
      dsimp only
      rw [hrest, List.cons_append]

/-- A buffer that begins on the pages of processes takes what is behind them. -/
theorem storeBuffer_append {address : BitVec 32} {first : List UInt8}
    (hpages : s.OnUserPages map address first.length) (second : List UInt8) :
    s.storeBuffer map address (first ++ second) =
      s.storeBuffer map (address + BitVec.ofNat 32 first.length) second := by
  have hpresent : ∀ k < first.length,
      (map.translate s (address + BitVec.ofNat 32 k)).isSome := by
    intro k hk
    obtain ⟨translation, htranslate, -⟩ := (Option.any_eq_true _ _).mp (hpages k hk)
    exact Option.isSome_iff_exists.mpr ⟨translation, htranslate⟩
  have hfirst : s.storeBuffer map address first = some (s, true) :=
    storeBuffer_of_onUserPages hpages le_rfl
  obtain ⟨stored, hstored, heq⟩ := Option.map_eq_some_iff.mp hfirst
  obtain ⟨rfl, hlength⟩ := Prod.mk.inj heq
  have hall := of_decide_eq_true hlength
  unfold Kernel.storeBuffer
  dsimp only
  rw [loadStores_append hpresent, List.foldlM_append, hstored, Option.bind_eq_bind,
    Option.bind_some, List.length_append, List.length_append, hall]
  simp only [Nat.add_left_cancel_iff]

/-- A program that is longer than its page goes on at 132MB. -/
theorem performThrough_overrun {img : Image} {stored : Kernel} {line bytes : List UInt8}
    {frame : StackFrame} {num : ℕ}
    (hload : executeLoad img s (some line) frame = some (num, bytes))
    (hlong : imageRoom ≤ bytes.length)
    (hstored : ((loadCurrentProcess s).setPageDirectory pdeIndex (userPage num)).storeBuffer map
      0x8400000 (bytes.drop imageRoom) = some (stored, true)) :
    performThrough img map s (.execute (some line) frame) =
      some (startProcess stored num (parseCommand line).2 frame, ⟨none, []⟩) := by
  obtain ⟨hfound, -, dentry, haccepted, -⟩ := executeLoad_eq_some_iff.mp hload
  have hfree : s.view.Free num := freeSlot_eq_some hfound
  have hpage : ((loadCurrentProcess s).setPageDirectory pdeIndex (userPage num)).pageDirectory
      32 = userPage num := by simp [Kernel.setPageDirectory, pdeIndex]
  have hfirst : (bytes.take imageRoom).length = imageRoom :=
    List.length_take_of_le hlong
  have hpages := @onUserPages_program map _ _ _ hpage hfree.1 hfree.2.1 hfirst.le
  have hbehind : programImageAddr + BitVec.ofNat 32 (bytes.take imageRoom).length =
      0x8400000 := by
    rw [hfirst]
    rfl
  have hwhole := storeBuffer_append hpages (bytes.drop imageRoom)
  rw [List.take_append_drop, hbehind, hstored] at hwhole
  have hthrough : executeThrough img map s (some line) frame =
      executeLoaded img map s line frame num bytes := by
    simp only [executeThrough, hload]
  rw [performThrough, hthrough, executeLoaded, haccepted, Option.bind_some, hwhole]
  rfl

end Overruns

end VirtualOS
