import VirtualOS.CommandParser
import VirtualOS.ImageFetches
import VirtualOS.NameLookup
import VirtualOS.ProgramStores
import Mathlib.Tactic

/-!
# Which programs `execute` starts and where it loads them

`execute` looks a name up, reads four bytes of the inode over the stale bytes of
`exe_header`, four more over those of `entry`, and then the whole file to
`0x8048000`, without looking at what the three reads return or at the type of the
entry.  It is settled here which entries are started although they are no programs.
The load asks for 4MB from an address that is 0x48000 bytes into the page of the
process; written out as stores through the page tables, it stays in this page as
long as the file has at most 0x3B8000 bytes.
-/

namespace VirtualOS

open PartialRuns PageWalk

/-! ## What the reads of `execute` find -/

section Reads

variable {img : Image} {inode : ℕ}

/-- The four bytes of `exe_header` when the start of a file lies over them. -/
def Image.headerOver (img : Image) (inode : ℕ) (stale : Fin 4 → UInt8) (i : Fin 4) : UInt8 :=
  if inode < img.inodeCount ∧ i.val < img.inodeLength inode then
    (img.fileContents inode).getD i.val 0
  else stale i

theorem readData_snd (hinode : inode < img.inodeCount) (offset length : ℕ) :
    (readData img inode offset length).2 = ((img.fileContents inode).drop offset).take length := by
  by_cases hoffset : offset < img.inodeLength inode
  · rw [readData_of_lt_inodeLength hinode hoffset]
  · have hshort : (img.fileContents inode).length ≤ offset := by
      rw [Image.fileContents_length]
      exact not_lt.mp hoffset
    rw [readData_of_inodeLength_le hinode (not_lt.mp hoffset), List.drop_of_length_le hshort,
      List.take_nil]

theorem readWord_header (img : Image) (inode : ℕ) (stale : Fin 4 → UInt8) :
    readWord img inode 0 stale = List.ofFn (img.headerOver inode stale) := by
  unfold readWord
  congr 1
  funext i
  unfold Image.headerOver
  by_cases hinode : inode < img.inodeCount
  · have hfill := congrFun (fillBuffer_take_drop (fun _ => stale i) (img.fileContents inode) 0 4)
      i.val
    rw [readData_snd hinode]
    refine hfill.trans ?_
    rw [Image.fileContents_length, Nat.zero_add]
    congr 1
    rw [eq_iff_iff]
    omega
  · rw [readData_of_inodeCount_le (not_lt.mp hinode), if_neg (by omega)]
    rfl

theorem readWord_of_le (hinode : inode < img.inodeCount) {offset : ℕ}
    (hend : offset + 4 ≤ img.inodeLength inode) (stale : Fin 4 → UInt8) :
    readWord img inode offset stale = ((img.fileContents inode).drop offset).take 4 := by
  have hlength : (((img.fileContents inode).drop offset).take 4).length = 4 := by
    rw [List.length_take, List.length_drop, Image.fileContents_length]
    omega
  unfold readWord
  rw [readData_snd hinode]
  apply List.ext_getElem
  · rw [List.length_ofFn, hlength]
  · intro i hi hi'
    rw [List.getElem_ofFn, List.getD_eq_getElem _ _ hi']

theorem readData_program (hinode : inode < img.inodeCount)
    (hlength : img.inodeLength inode ≤ fourMb.toNat) :
    (readData img inode 0 fourMb.toNat).2 = img.fileContents inode := by
  rw [readData_snd hinode, List.drop_zero, List.take_of_length_le]
  rwa [Image.fileContents_length]

theorem length_readData_program (hinode : inode < img.inodeCount) :
    (readData img inode 0 fourMb.toNat).2.length =
      min fourMb.toNat (img.inodeLength inode) := by
  rw [readData_snd hinode, List.drop_zero, List.length_take, Image.fileContents_length]

end Reads

/-! ## Which commands start a program -/

/-- The word names a program: the first entry with this name is that of a regular file
with the magic number and room for an entry address. -/
structure Image.NamesProgram (img : Image) (word : List UInt8) (dentry : Dentry) : Prop where
  word_ne : word ≠ []
  firstNamed : img.FirstNamed word dentry
  fileType_eq : dentry.fileType = 2
  inodeNum_lt : dentry.inodeNum < img.inodeCount
  le_length : 28 ≤ (img.fileContents dentry.inodeNum).length
  magic : (img.fileContents dentry.inodeNum).take 4 = exeMagicNumber

/-- The user code of process `num` finds `bytes` at `0x8048000` and behind, on its own page,
when the stores have been made. -/
def FindsProgram (translate : BitVec 32 → Option Translation) (stores : List LoadedByte)
    (num : ℕ) (bytes : List UInt8) : Prop :=
  ∀ memory, ∀ i < bytes.length, ∃ physical,
    translate (programImageAddr + BitVec.ofNat 32 i) = some ⟨physical, true⟩ ∧
      physical = userBase num + (0x48000 + BitVec.ofNat 32 i) ∧
      memoryAfter memory stores physical = bytes.getD i 0

/-- `execute` starts exactly the programs, at the entry address of the file and with the
bytes of the file on the page of the new process, from `0x8048000` on. -/
structure Execution.LoadsFaithfully (img : Image) (s : Kernel) (line : List UInt8)
    (frame : StackFrame) (execution : Execution) : Prop where
  starts_iff : (∃ next entry image, execution = .started next entry image) ↔
    ∃ dentry, img.NamesProgram (parseCommand line).1 dentry
  entry_eq : ∀ next entry image dentry, execution = .started next entry image →
    img.FirstNamed (parseCommand line).1 dentry →
      entry = ((img.fileContents dentry.inodeNum).drop 24).take 4
  loaded : ∀ next entry image dentry, execution = .started next entry image →
    img.FirstNamed (parseCommand line).1 dentry → ∀ layout pageTable rest,
      executeLoading img layout pageTable rest s (some line) frame = some next ∧
        s.view.Free next.running.processNum ∧
        FindsProgram (next.translate layout pageTable rest)
          (executeStores img layout pageTable rest s (some line) frame)
          next.running.processNum (img.fileContents dentry.inodeNum)

/-- An entry which passes for a program on this stack is one, and fits its page. -/
structure Image.HonestEntry (img : Image) (dentry : Dentry) : Prop where
  fileType_eq : dentry.fileType = 2
  inodeNum_lt : dentry.inodeNum < img.inodeCount
  le_length : 28 ≤ img.inodeLength dentry.inodeNum
  length_le : img.inodeLength dentry.inodeNum ≤ 0x3B8000

section Starts

variable {img : Image} {s : Kernel} {line : List UInt8} {frame : StackFrame} {dentry : Dentry}

theorem length_name_le (dentry : Dentry) : dentry.name.length ≤ filenameLen := by
  rw [dentry.name_eq_take, List.length_take]
  exact min_le_left _ _

theorem acceptedFile_eq_some_iff :
    acceptedFile img line frame = some dentry ↔
      (parseCommand line).1 ≠ [] ∧ img.FirstNamed (parseCommand line).1 dentry ∧
        List.ofFn (img.headerOver dentry.inodeNum frame.exeHeader) = exeMagicNumber := by
  have hword : ∀ byte ∈ (parseCommand line).1, byte ≠ 0 :=
    fun byte hmem => ne_zero_of_mem_nextWord hmem
  rw [acceptedFile, Option.filter_eq_some_iff, readDentryByName_iff_firstNamed hword,
    decide_eq_true_eq, readWord_header, ← List.length_pos_iff]
  constructor
  · rintro ⟨⟨hlength, hfirst⟩, hmagic⟩
    exact ⟨hlength.1, hfirst, hmagic⟩
  · rintro ⟨hpos, hfirst, hmagic⟩
    obtain ⟨index, -, -, hname, -⟩ := id hfirst
    have hle := length_name_le (img.direntry index)
    rw [hname] at hle
    exact ⟨⟨⟨hpos, hle⟩, hfirst⟩, hmagic⟩

/-- A program has its magic number on the stack, whatever lay there. -/
theorem Image.NamesProgram.acceptedFile
    (hprogram : img.NamesProgram (parseCommand line).1 dentry) :
    VirtualOS.acceptedFile img line frame = some dentry := by
  have hlength := hprogram.le_length
  rw [Image.fileContents_length] at hlength
  refine acceptedFile_eq_some_iff.mpr ⟨hprogram.word_ne, hprogram.firstNamed, ?_⟩
  rw [← readWord_header, readWord_of_le hprogram.inodeNum_lt (by omega), List.drop_zero,
    hprogram.magic]

theorem Image.HonestEntry.namesProgram (honest : img.HonestEntry dentry)
    (haccepted : acceptedFile img line frame = some dentry) :
    img.NamesProgram (parseCommand line).1 dentry := by
  have hlength := honest.le_length
  obtain ⟨hword, hfirst, hmagic⟩ := acceptedFile_eq_some_iff.mp haccepted
  refine ⟨hword, hfirst, honest.fileType_eq, honest.inodeNum_lt, by simpa using hlength, ?_⟩
  rw [← readWord_header, readWord_of_le honest.inodeNum_lt (by omega)] at hmagic
  exact hmagic

theorem Image.HonestEntry.readData (honest : img.HonestEntry dentry) :
    (VirtualOS.readData img dentry.inodeNum 0 fourMb.toNat).2 =
      img.fileContents dentry.inodeNum :=
  readData_program honest.inodeNum_lt (honest.length_le.trans (by decide))

theorem length_le_of_room (hinode : dentry.inodeNum < img.inodeCount)
    (hroom : (readData img dentry.inodeNum 0 fourMb.toNat).2.length ≤ imageRoom) :
    img.inodeLength dentry.inodeNum ≤ 0x3B8000 := by
  have hcap : fourMb.toNat = 0x400000 := rfl
  have himage : imageRoom = 0x3B8000 := rfl
  rw [length_readData_program hinode] at hroom
  omega

theorem execute_of_rejected {num : ℕ} (hfound : freeSlot (loadCurrentProcess s) = some num)
    (hname : (parseCommand line).1.length < keyboardBufSize)
    (hargument : (parseCommand line).2.length < keyboardBufSize)
    (hrejected : acceptedFile img line frame = none) :
    execute img s (some line) frame = some (.returned (-1) (loadCurrentProcess s)) := by
  have hshort : ¬ ((parseCommand line).1.length ≥ keyboardBufSize ∨
      (parseCommand line).2.length ≥ keyboardBufSize) := by omega
  simp only [execute, hfound, executeCommit, if_neg hshort]
  cases hentry : readDentryByName img (parseCommand line).1 with
  | none => rfl
  | some dentry =>
      have hmagic : readWord img dentry.inodeNum 0 frame.exeHeader ≠ exeMagicNumber := by
        simpa [acceptedFile, hentry, Option.filter] using hrejected
      exact if_pos hmagic

/-- An entry that has been started as a program, and loaded as one, is one. -/
theorem Execution.LoadsFaithfully.honest {execution : Execution} {found : ℕ}
    (hfaithful : execution.LoadsFaithfully img s line frame)
    (hexecute : execute img s (some line) frame = some execution)
    (hfound : freeSlot (loadCurrentProcess s) = some found) :
    (parseCommand line).2.length < keyboardBufSize ∧
      ∀ dentry, acceptedFile img line frame = some dentry → img.HonestEntry dentry := by
  obtain ⟨hnull, -⟩ | ⟨_, hline, ⟨hnone, -⟩ | ⟨slot, -, hcommit⟩⟩ := execute_eq_some hexecute
  · contradiction
  · rw [hfound] at hnone
    contradiction
  obtain rfl := Option.some.inj hline
  obtain ⟨⟨-, hargument⟩, hcases⟩ := executeCommit_eq_some hcommit
  refine ⟨hargument, fun dentry haccepted => ?_⟩
  obtain ⟨hrejected, -⟩ | ⟨_, haccepted', hroom, hstarted⟩ := hcases
  · rw [haccepted] at hrejected
    contradiction
  obtain rfl := Option.some.inj (haccepted.symm.trans haccepted')
  obtain ⟨other, hprogram⟩ := hfaithful.starts_iff.mp ⟨_, _, _, hstarted⟩
  obtain ⟨-, hfirst, -⟩ := acceptedFile_eq_some_iff.mp haccepted
  obtain rfl := hfirst.unique hprogram.firstNamed
  exact ⟨hprogram.fileType_eq, hprogram.inodeNum_lt, by simpa using hprogram.le_length,
    length_le_of_room hprogram.inodeNum_lt hroom⟩

/-- Where no file is accepted none is started, and none should be. -/
theorem loadsFaithfully_of_rejected {status : ℤ} {next : Kernel}
    (hrejected : acceptedFile img line frame = none) :
    (Execution.returned status next).LoadsFaithfully img s line frame := by
  refine ⟨⟨?_, ?_⟩, ?_, ?_⟩
  · rintro ⟨next, entry, image, hstarted⟩
    contradiction
  · rintro ⟨dentry, hprogram⟩
    rw [hprogram.acceptedFile] at hrejected
    contradiction
  · intro next entry image dentry hstarted
    contradiction
  · intro next entry image dentry hstarted
    contradiction

/-- A program that is started is loaded as it is. -/
theorem Image.HonestEntry.loadsFaithfully (honest : img.HonestEntry dentry) {found : ℕ}
    (haccepted : VirtualOS.acceptedFile img line frame = some dentry)
    (hexecute : execute img s (some line) frame =
      some (.started (startProcess (loadCurrentProcess s) found (parseCommand line).2 frame)
        (readWord img dentry.inodeNum 24 frame.entry)
        (VirtualOS.readData img dentry.inodeNum 0 fourMb.toNat).2)) :
    (Execution.started (startProcess (loadCurrentProcess s) found (parseCommand line).2 frame)
        (readWord img dentry.inodeNum 24 frame.entry)
        (VirtualOS.readData img dentry.inodeNum 0 fourMb.toNat).2).LoadsFaithfully img s line
      frame := by
  obtain ⟨-, hfirst, -⟩ := acceptedFile_eq_some_iff.mp haccepted
  have hlength := honest.le_length
  refine ⟨?_, ?_, ?_⟩
  · exact iff_of_true ⟨_, _, _, rfl⟩ ⟨dentry, honest.namesProgram haccepted⟩
  · rintro next entry image other hstarted hother
    obtain rfl := hfirst.unique hother
    obtain ⟨-, rfl, -⟩ := Execution.started.inj hstarted
    exact readWord_of_le honest.inodeNum_lt (by omega) _
  · rintro next entry image other hstarted hother layout pageTable rest
    obtain rfl := hfirst.unique hother
    rw [hstarted] at hexecute
    obtain ⟨hnext, -, rfl⟩ := Execution.started.inj hstarted
    rw [honest.readData] at hexecute
    obtain ⟨hload, hslot, hfits, hstores⟩ :=
      executeLoading_of_started layout pageTable rest hexecute
    refine ⟨hload, hslot, fun memory i hi => ?_⟩
    rw [hstores]
    refine ⟨_, translate_programByte ?_ (hi.trans_le hfits), rfl, ?_⟩
    · rw [← hnext, startProcess_processNum]
      exact startProcess_page _ _
    · rw [memoryAfter_pageStores memory _ hfits hi, List.getD_eq_getElem _ _ hi]

end Starts

theorem shellDentry_firstNamed : smallImage.FirstNamed shellName (smallImage.direntry 1) := by
  have hlookup : readDentryByName smallImage shellName = some (smallImage.direntry 1) := by
    decide +kernel
  exact firstNamed_of_readDentryByName hlookup

section Stores

variable {img : Image} {layout : Layout} {pageTable : ℕ → BitVec 32}
  {rest : BitVec 32 → ℕ → BitVec 32} {s next : Kernel} {line : List UInt8} {frame : StackFrame}

/-- In a well-formed image, the load of a started program stays below 132MB if and only if
the file has at most 0x3B8000 bytes. -/
theorem load_below_iff (hformed : img.WellFormed) {dentry : Dentry}
    (hfile : readDentryByName img (parseCommand line).1 = some dentry)
    (hstart : executeLoading img layout pageTable rest s (some line) frame = some next) :
    (∀ store ∈ executeStores img layout pageTable rest s (some line) frame,
        store.address.toNat < 0x8400000) ↔
      img.inodeLength dentry.inodeNum ≤ 0x3B8000 := by
  obtain ⟨num, bytes, hload, hcomplete, -⟩ := executeLoading_eq_some_iff.mp hstart
  obtain ⟨-, -, other, haccepted, rfl⟩ := executeLoad_eq_some_iff.mp hload
  obtain rfl : other = dentry := by
    have hother := (Option.filter_eq_some_iff.mp haccepted).1
    exact Option.some.inj (hother.symm.trans hfile)
  obtain ⟨index, hindex, hentry, -, -⟩ := readDentryByName_eq_some hfile
  have hinode : other.inodeNum < img.inodeCount := hentry ▸ hformed.inodeNum_lt index hindex
  have hmax := hformed.inodeLength_le other.inodeNum hinode
  have hcap : fourMb.toNat = 0x400000 := rfl
  have himage : imageRoom = 0x3B8000 := rfl
  have hlength : (readData img other.inodeNum 0 fourMb.toNat).2.length =
      min fourMb.toNat (img.inodeLength other.inodeNum) := length_readData_program hinode
  rw [executeStores_of_load hload] at hcomplete ⊢
  rw [stores_below_iff hcomplete (by omega), hlength]
  omega

end Stores

theorem load_below_shell : ∃ next,
    executeLoading smallImage smallLayout (fun _ => 0) (fun _ _ => 0) pagedShell
        (some shellName) zeroFrame = some next ∧
      ((∀ store ∈ executeStores smallImage smallLayout (fun _ => 0) (fun _ _ => 0) pagedShell
          (some shellName) zeroFrame, store.address.toNat < 0x8400000) ↔
        smallImage.inodeLength (smallImage.direntry 1).inodeNum ≤ 0x3B8000) := by
  have hparse : (parseCommand shellName).1 = shellName := by decide
  have hfound : freeSlot (loadCurrentProcess pagedShell) = some 2 := by decide +kernel
  obtain ⟨entry, image, hstart⟩ := execute_shell_eq (s := pagedShell) zeroFrame
    smallImage_loadable hfound
  have hload := (executeLoading_of_started smallLayout (fun _ => 0) (fun _ _ => 0) hstart).1
  refine ⟨_, hload, load_below_iff smallImage_wellFormed ?_ hload⟩
  rw [hparse]
  decide +kernel

/-! ## A file that is too long for its page -/

/-- An image with two programs whose blocks are all the one data block: a shell of 28
bytes, and a file with one byte more than its page has room for. -/
def bigImage : Image where
  filesystemStart := 0
  memory address :=
    if address < 4096 then
      ([2, 0, 0, 0, 2, 0, 0, 0, 1, 0, 0, 0] ++ List.replicate 52 0 ++
        dentryBytes (ascii "shell") 2 0 ++ dentryBytes (ascii "big") 2 1).getD address 0
    else if address < 8192 then [28].getD (address - 4096) 0
    else if address < 12288 then [0x01, 0x80, 0x3B].getD (address - 8192) 0
    else exeMagicNumber.getD (address - 12288) 0

theorem bigImage_dataBlockNum {inode index : ℕ} (hinode : inode < 2) (hindex : index < 1023) :
    bigImage.dataBlockNum inode index = 0 := by
  have hzero : ∀ k < 4,
      bigImage.byte (4096 + inode * 4096 + 4 + 4 * index + k) = 0 := by
    intro k hk
    have haddress : u32 (4096 + inode * 4096 + 4 + 4 * index + k) =
        4096 + inode * 4096 + 4 + 4 * index + k := u32_of_lt (by omega)
    unfold Image.byte bigImage
    dsimp only
    rw [haddress, if_neg (by omega)]
    interval_cases inode
    · rw [if_pos (by omega)]
      exact List.getD_eq_default _ _ (by simp only [List.length_singleton]; omega)
    · rw [if_neg (by omega), if_pos (by omega)]
      exact List.getD_eq_default _ _ (by simp only [List.length_cons, List.length_nil]; omega)
  have hstart : bigImage.filesystemStart = 0 := rfl
  unfold Image.dataBlockNum Image.load32 blockSizeInBytes
  rw [hstart, Nat.zero_add]
  have h0 := hzero 0 (by omega)
  rw [Nat.add_zero] at h0
  rw [h0, hzero 1 (by omega), hzero 2 (by omega), hzero 3 (by omega)]
  rfl

theorem bigImage_wellFormed : bigImage.WellFormed where
  dirCount_le := by decide +kernel
  fileType_le := by
    have hcount : bigImage.dirCount = 2 := by decide +kernel
    rw [hcount]
    decide +kernel
  inodeNum_lt := by
    have hcount : bigImage.dirCount = 2 := by decide +kernel
    rw [hcount]
    decide +kernel
  inodeLength_le := by
    have hcount : bigImage.inodeCount = 2 := by decide +kernel
    rw [hcount]
    decide +kernel
  dataBlockNum_lt inode hinode index hindex := by
    have hcount : bigImage.inodeCount = 2 := by decide +kernel
    have hdata : bigImage.dataCount = 1 := by decide +kernel
    have hlengths : ∀ inode < 2, bigImage.inodeLength inode ≤ 0x3B8001 := by decide +kernel
    rw [hcount] at hinode
    have hlength := hlengths inode hinode
    rw [bigImage_dataBlockNum hinode (by omega), hdata]
    exact Nat.one_pos
  fits := by decide +kernel

def mappedShell : Kernel := (vidmap smallLayout.toLink pagedShell 0x8000100).2

/-- With the page at 132MB present, the load of the large file comes to its end. -/
theorem length_loadStores_mappedShell (pageTable : ℕ → BitVec 32)
    (rest : BitVec 32 → ℕ → BitVec 32) {bytes : List UInt8} (hlength : bytes.length ≤ 0x3B8001) :
    (loadStores ((mappedShell.setPageDirectory pdeIndex (userPage 2)).translate smallLayout
      pageTable rest) programImageAddr bytes).length = bytes.length := by
  have hpage : (mappedShell.setPageDirectory pdeIndex (userPage 2)).pageDirectory 32 =
      userPage 2 := rfl
  have htable : (mappedShell.setPageDirectory pdeIndex (userPage 2)).pageDirectory vidmapIndex =
      userEntry smallLayout.userPageTable := rfl
  refine length_loadStores fun k hk => ?_
  have haddress := toNat_programImageAddr_add (k := k) (by omega)
  by_cases hroom : k < 0x3B8000
  · rw [translate_userPage hpage (by omega) (by omega)]
    rfl
  · obtain rfl : k = 0x3B8000 := by omega
    have hstart : programImageAddr + BitVec.ofNat 32 0x3B8000 = 0x8400000 := by decide
    rw [hstart, translate_vidmap videoAddress smallLayout.userPageTable_aligned htable]
    · rfl
    · rw [Kernel.frames, if_neg smallLayout.user_ne_page, if_pos rfl]
      rfl

/-- The shell calls `vidmap` and executes the large file: its last byte is stored at
132MB, in the text page of the display. -/
theorem bigFile_overruns : bigImage.WellFormed ∧ ∃ entry image next,
    execute bigImage pagedKernel (some shellName) zeroFrame =
        some (.started pagedShell entry image) ∧
      run (step bigImage smallLayout.toLink) pagedShell [.vidmap 0x8000100] = some mappedShell ∧
      executeLoading bigImage smallLayout (fun _ => 0) (fun _ _ => 0) mappedShell
        (some (ascii "big")) zeroFrame = some next ∧
      ¬ ∀ store ∈ executeStores bigImage smallLayout (fun _ => 0) (fun _ _ => 0) mappedShell
        (some (ascii "big")) zeroFrame, store.address.toNat < 0x8400000 := by
  have hparse : parseCommand (ascii "big") = (ascii "big", []) := by decide
  have hshell : acceptedFile bigImage shellName zeroFrame = some (bigImage.direntry 0) := by
    decide +kernel
  have hfirst : freeSlot (loadCurrentProcess pagedKernel) = some 1 := by decide
  have hstart := execute_of_accepted hfirst (by decide) (by decide) hshell (by decide +kernel)
  have haccepted : acceptedFile bigImage (ascii "big") zeroFrame =
      some (bigImage.direntry 1) := by decide +kernel
  have hfound : freeSlot mappedShell = some 2 := by decide +kernel
  have hlength : (readData bigImage (bigImage.direntry 1).inodeNum 0 fourMb.toNat).2.length =
      0x3B8001 := by
    rw [length_readData_program (by decide +kernel)]
    decide +kernel
  have hload : executeLoad bigImage mappedShell (some (ascii "big")) zeroFrame =
      some (2, (readData bigImage (bigImage.direntry 1).inodeNum 0 fourMb.toNat).2) := by
    refine executeLoad_eq_some_iff.mpr ⟨hfound, ?_, _, haccepted, rfl⟩
    rw [hparse]
    decide
  have hcomplete := length_loadStores_mappedShell (fun _ => 0) (fun _ _ => 0) hlength.le
  refine ⟨bigImage_wellFormed, _, _, _, hstart, rfl, executeLoading_eq_some_iff.mpr
    ⟨2, _, hload, ?_, rfl⟩, fun hbelow => ?_⟩
  · rw [executeStores_of_load hload, hcomplete]
  · rw [executeStores_of_load hload, stores_below_iff hcomplete (by omega), hlength] at hbelow
    exact absurd hbelow (by decide)

end VirtualOS
