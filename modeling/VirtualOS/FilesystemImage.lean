import Mathlib.Data.List.TakeWhile
import Mathlib.Tactic

/-!
# The file-system image and its readers

The image is a module the boot loader leaves in memory: a boot block with at
most 63 directory entries, `inode_count` inode blocks and `data_count` data
blocks, all of 4096 bytes.  It is modelled as bytes addressed from
`filesystem_start`; every address is computed modulo `2 ^ 32`, as the unsigned
arithmetic of the kernel does.  `readDentryByName`, `readDentryByIndex` and
`readData` follow `filesystem.c`, together with the string routines of `lib.c`
they call.  The second half says what a read returns: a slice of the
concatenated data blocks.
-/

namespace VirtualOS

/-! ## Words and strings -/

def u32 (value : ℕ) : ℕ := value % 2 ^ 32

/-- A 32-bit word read as a signed integer. -/
def int32 (value : ℕ) : ℤ := (BitVec.ofNat 32 value).toInt

theorem u32_of_lt {value : ℕ} (hlt : value < 2 ^ 32) : u32 value = value :=
  Nat.mod_eq_of_lt hlt

@[simp] theorem u32_u32_add (left right : ℕ) : u32 (u32 left + right) = u32 (left + right) := by
  simp [u32]

@[simp] theorem u32_add_u32 (left right : ℕ) : u32 (left + u32 right) = u32 (left + right) := by
  simp [u32]

theorem int32_of_lt {value : ℕ} (hlt : value < 2 ^ 31) : int32 value = value := by
  have hmod : value % 2 ^ 32 = value := Nat.mod_eq_of_lt (by omega)
  rw [int32, BitVec.toInt_eq_toNat_of_lt] <;> rw [BitVec.toNat_ofNat, hmod]
  omega

/-- Bytes up to the terminating NUL.  The end of the list is a NUL as well. -/
def strlen : List UInt8 → ℕ
  | [] => 0
  | byte :: rest => if byte = 0 then 0 else strlen rest + 1

/-- `strncmp`: the difference of the first bytes which differ, or zero. -/
def strncmp : List UInt8 → List UInt8 → ℕ → ℤ
  | _, _, 0 => 0
  | left, right, count + 1 =>
      if left.headD 0 ≠ right.headD 0 ∨ left.headD 0 = 0 then
        (left.headD 0).toInt8.toInt - (right.headD 0).toInt8.toInt
      else strncmp left.tail right.tail count

/-! ## The image -/

/-- `filesystem_start` and the memory it points into. -/
structure Image where
  filesystemStart : ℕ
  memory : ℕ → UInt8

def blockSizeInBytes : ℕ := 4096
def filenameLen : ℕ := 32

namespace Image

def byte (img : Image) (address : ℕ) : UInt8 := img.memory (u32 address)

/-- A little-endian 32-bit word of the image. -/
def load32 (img : Image) (address : ℕ) : ℕ :=
  (img.byte address).toNat + 256 * (img.byte (address + 1)).toNat +
    65536 * (img.byte (address + 2)).toNat + 16777216 * (img.byte (address + 3)).toNat

def dirCount (img : Image) : ℕ := img.load32 img.filesystemStart
def inodeCount (img : Image) : ℕ := img.load32 (img.filesystemStart + 4)
def dataCount (img : Image) : ℕ := img.load32 (img.filesystemStart + 8)

end Image

/-- A directory entry: 32 bytes of name, type, inode number, 24 spare bytes. -/
structure Dentry where
  bytes : List UInt8
  length_eq : bytes.length = 64
  deriving DecidableEq

namespace Dentry

def word (dentry : Dentry) (offset : ℕ) : ℕ :=
  (dentry.bytes.getD offset 0).toNat + 256 * (dentry.bytes.getD (offset + 1) 0).toNat +
    65536 * (dentry.bytes.getD (offset + 2) 0).toNat +
    16777216 * (dentry.bytes.getD (offset + 3) 0).toNat

def fileType (dentry : Dentry) : ℕ := dentry.word 32
def inodeNum (dentry : Dentry) : ℕ := dentry.word 36

/-- The name an entry stores: at most 32 bytes, up to the first NUL. -/
def name (dentry : Dentry) : List UInt8 :=
  (dentry.bytes.take filenameLen).takeWhile (· ≠ 0)

end Dentry

/-- `boot_block->direntries[index]`, copied out byte by byte. -/
def Image.direntry (img : Image) (index : ℕ) : Dentry where
  bytes := (List.range 64).map fun k =>
    img.byte (img.filesystemStart + 64 + 64 * index + k)
  length_eq := by simp

/-- `read_dentry_by_index`: `none` is the return value `-1`. -/
def readDentryByIndex (img : Image) (index : ℕ) : Option Dentry :=
  if index ≥ img.dirCount then none else some (img.direntry index)

/-- The test `read_dentry_by_name` makes on one entry.  `strlen` runs past a
name of 32 bytes into the type word; it is compared only below 33. -/
def dentryMatches (fname : List UInt8) (dentry : Dentry) : Bool :=
  strncmp fname dentry.bytes (strlen fname) = 0 ∧
    (strlen fname = strlen dentry.bytes ∨ strlen fname = filenameLen)

/-- `read_dentry_by_name`: the first entry in index order which matches. -/
def readDentryByName (img : Image) (fname : List UInt8) : Option Dentry :=
  if strlen fname = 0 ∨ strlen fname > filenameLen then none
  else
    (List.range img.dirCount).findSome? fun index =>
      (readDentryByIndex img index).filter (dentryMatches fname)

/-- `read_data`: the return value and the bytes stored to `buf[0], buf[1], …`. -/
def readData (img : Image) (inode offset length : ℕ) : ℤ × List UInt8 :=
  let inodeStart := u32 (img.filesystemStart + blockSizeInBytes)
  let dataStart := u32 (img.filesystemStart + blockSizeInBytes +
    u32 (img.inodeCount * blockSizeInBytes))
  let curInode := u32 (inodeStart + u32 (inode * blockSizeInBytes))
  let curLength := img.load32 curInode
  let copyLength := min (u32 (curLength + 2 ^ 32 - offset)) length
  if inode ≥ img.inodeCount then (-1, [])
  else if offset ≥ curLength then (0, [])
  else
    (int32 copyLength, (List.range copyLength).map fun i =>
      let dataBlockIndex := u32 (offset + i) / blockSizeInBytes
      let dataBlockNum := img.load32 (curInode + 4 + 4 * dataBlockIndex)
      let dataBlockAddress := u32 (dataStart + u32 (dataBlockNum * blockSizeInBytes))
      img.byte (dataBlockAddress + u32 (offset + i) % blockSizeInBytes))

/-! ## What the image stores -/

namespace Image

def inodeLength (img : Image) (inode : ℕ) : ℕ :=
  img.load32 (img.filesystemStart + blockSizeInBytes + inode * blockSizeInBytes)

def dataBlockNum (img : Image) (inode index : ℕ) : ℕ :=
  img.load32 (img.filesystemStart + blockSizeInBytes + inode * blockSizeInBytes +
    4 + 4 * index)

def dataByte (img : Image) (block offset : ℕ) : UInt8 :=
  img.byte (img.filesystemStart + blockSizeInBytes +
    img.inodeCount * blockSizeInBytes + block * blockSizeInBytes + offset)

/-- The data blocks of an inode, concatenated and cut at its length. -/
def fileContents (img : Image) (inode : ℕ) : List UInt8 :=
  (List.range (img.inodeLength inode)).map fun k =>
    img.dataByte (img.dataBlockNum inode (k / blockSizeInBytes)) (k % blockSizeInBytes)

/-- A well-formed image: valid types, inode and block numbers, file lengths an
inode can hold, and a size that lies in the address space. -/
structure WellFormed (img : Image) : Prop where
  dirCount_le : img.dirCount ≤ 63
  fileType_le : ∀ index < img.dirCount, (img.direntry index).fileType ≤ 2
  inodeNum_lt : ∀ index < img.dirCount, (img.direntry index).inodeNum < img.inodeCount
  inodeLength_le : ∀ inode < img.inodeCount, img.inodeLength inode ≤ 1023 * 4096
  dataBlockNum_lt : ∀ inode < img.inodeCount, ∀ index,
    index * 4096 < img.inodeLength inode → img.dataBlockNum inode index < img.dataCount
  fits : img.filesystemStart + 4096 * (1 + img.inodeCount + img.dataCount) ≤ 2 ^ 32

@[simp] theorem byte_u32_add (img : Image) (address offset : ℕ) :
    img.byte (u32 address + offset) = img.byte (address + offset) := by
  simp [byte]

@[simp] theorem byte_u32 (img : Image) (address : ℕ) :
    img.byte (u32 address) = img.byte address := by
  simpa using img.byte_u32_add address 0

theorem load32_u32_add (img : Image) (address offset : ℕ) :
    img.load32 (u32 address + offset) = img.load32 (address + offset) := by
  simp [load32, Nat.add_assoc]

@[simp] theorem load32_u32 (img : Image) (address : ℕ) :
    img.load32 (u32 address) = img.load32 address := by
  simpa using img.load32_u32_add address 0

theorem byte_congr (img : Image) {left right : ℕ} (heq : u32 left = u32 right) :
    img.byte left = img.byte right := by
  rw [byte, heq, byte]

theorem load32_congr (img : Image) {left right : ℕ} (heq : u32 left = u32 right) :
    img.load32 left = img.load32 right := by
  rw [← load32_u32, heq, load32_u32]

theorem load32_lt (img : Image) (address : ℕ) : img.load32 address < 2 ^ 32 := by
  have h0 := (img.byte address).toNat_lt
  have h1 := (img.byte (address + 1)).toNat_lt
  have h2 := (img.byte (address + 2)).toNat_lt
  have h3 := (img.byte (address + 3)).toNat_lt
  unfold load32
  omega

theorem inodeLength_lt (img : Image) (inode : ℕ) : img.inodeLength inode < 2 ^ 32 :=
  img.load32_lt _

@[simp] theorem fileContents_length (img : Image) (inode : ℕ) :
    (img.fileContents inode).length = img.inodeLength inode := by
  simp [fileContents]

end Image

/-! ## Name lookup -/

/-- The string a pointer to these bytes denotes. -/
def cString (bytes : List UInt8) : List UInt8 := bytes.takeWhile (· ≠ 0)

theorem strlen_eq_cString_length (bytes : List UInt8) :
    strlen bytes = (cString bytes).length := by
  induction bytes with
  | nil => rfl
  | cons byte rest ih =>
      unfold cString at ih ⊢
      by_cases hzero : byte = 0 <;> simp [strlen, hzero, ih]

theorem take_eq_take_cString {bytes : List UInt8} {count : ℕ}
    (hcount : count ≤ strlen bytes) : bytes.take count = (cString bytes).take count := by
  induction bytes generalizing count with
  | nil => simp [cString]
  | cons byte rest ih =>
      cases count with
      | zero => simp
      | succ count =>
          by_cases hzero : byte = 0
          · simp [strlen, hzero] at hcount
          · have hless : count ≤ strlen rest := by simpa [strlen, hzero] using hcount
            have hrest := ih hless
            simpa [cString, hzero] using hrest

theorem Dentry.name_eq_take (dentry : Dentry) :
    dentry.name = (cString dentry.bytes).take filenameLen := by
  unfold Dentry.name cString
  generalize filenameLen = count
  induction dentry.bytes generalizing count with
  | nil => simp
  | cons byte rest ih =>
      cases count with
      | zero => simp
      | succ count =>
          by_cases hzero : byte = 0
          · simp [hzero]
          · simpa [hzero] using ih count

theorem strncmp_eq_zero_iff {left right : List UInt8} {count : ℕ}
    (hcount : count ≤ strlen left) :
    strncmp left right count = 0 ↔ left.take count = right.take count := by
  induction count generalizing left right with
  | zero => simp [strncmp]
  | succ count ih =>
      cases left with
      | nil => simp [strlen] at hcount
      | cons byte rest =>
          have hbyte : byte ≠ 0 := by
            intro hzero
            simp [strlen, hzero] at hcount
          have hrest : count ≤ strlen rest := by
            simpa [strlen, hbyte] using hcount
          by_cases heq : byte = right.headD 0
          · cases right with
            | nil => exact absurd heq (by simpa using hbyte)
            | cons other tail =>
                have hother : byte = other := by simpa using heq
                subst hother
                simpa [strncmp, hbyte] using ih hrest
          · have hdiff : byte.toInt8.toInt - (right.headD 0).toInt8.toInt ≠ 0 := by
              intro hzero
              have hint : byte.toInt8.toInt = (right.headD 0).toInt8.toInt := by omega
              have hint8 : byte.toInt8 = (right.headD 0).toInt8 := Int8.toInt_inj.mp hint
              exact heq (by simpa using congrArg Int8.toUInt8 hint8)
            have htake : (byte :: rest).take (count + 1) ≠ right.take (count + 1) := by
              cases right with
              | nil => simp
              | cons other tail =>
                  simp only [List.take_succ_cons, ne_eq, List.cons.injEq, not_and]
                  intro hother
                  exact absurd (by simpa using hother) heq
            simp only [strncmp, List.headD_cons, ne_eq, heq, not_false_eq_true, true_or,
              if_true, hdiff, htake]

theorem cString_append_of_forall_ne {front rest : List UInt8}
    (hfront : ∀ byte ∈ front, byte ≠ 0) :
    cString (front ++ rest) = front ++ cString rest := by
  unfold cString
  apply List.takeWhile_append_of_pos
  intro byte hbyte
  simpa using hfront byte hbyte

theorem cString_of_ne_zero {bytes : List UInt8} (hbytes : ∀ byte ∈ bytes, byte ≠ 0) :
    cString bytes = bytes := by
  have happend : cString (bytes ++ []) = bytes ++ cString [] :=
    cString_append_of_forall_ne hbytes
  simpa [cString] using happend

theorem ne_zero_of_mem_cString {bytes : List UInt8} {byte : UInt8}
    (hmem : byte ∈ cString bytes) : byte ≠ 0 := by
  have hpred := List.mem_takeWhile_imp hmem
  simpa using hpred

theorem dentryMatches_iff {fname : List UInt8} {dentry : Dentry}
    (hlen : strlen fname ≤ filenameLen) :
    dentryMatches fname dentry = true ↔ dentry.name = cString fname := by
  have hfname : fname.take (strlen fname) = cString fname := by
    rw [take_eq_take_cString le_rfl, strlen_eq_cString_length, List.take_length]
  simp only [dentryMatches, decide_eq_true_eq]
  rw [strncmp_eq_zero_iff le_rfl, hfname, dentry.name_eq_take]
  have hbytes := strlen_eq_cString_length dentry.bytes
  rw [strlen_eq_cString_length] at hlen ⊢
  rw [hbytes]
  constructor
  · rintro ⟨htake, hcases⟩
    have hsplit : cString dentry.bytes =
        cString fname ++ cString (dentry.bytes.drop (cString fname).length) := by
      conv_lhs => rw [← List.take_append_drop (cString fname).length dentry.bytes, ← htake]
      exact cString_append_of_forall_ne fun byte hbyte => ne_zero_of_mem_cString hbyte
    rcases hcases with heq | heq
    · have hnil : cString (dentry.bytes.drop (cString fname).length) = [] := by
        have hlength := congrArg List.length hsplit
        rw [List.length_append, ← heq] at hlength
        exact List.length_eq_zero_iff.mp (by omega)
      rw [hsplit, hnil, List.append_nil, List.take_of_length_le hlen]
    · rw [hsplit, ← heq, List.take_left]
  · intro hname
    have hlength : min filenameLen (cString dentry.bytes).length =
        (cString fname).length := by
      rw [← List.length_take, hname]
    refine ⟨?_, by omega⟩
    rw [take_eq_take_cString (by omega), ← hlength, ← hname, List.take_eq_take_min]

theorem readDentryByName_eq_some
    {img : Image} {fname : List UInt8} {dentry : Dentry}
    (hfound : readDentryByName img fname = some dentry) :
    ∃ index < img.dirCount, dentry = img.direntry index ∧
      dentry.name = cString fname ∧
      ∀ earlier < index, (img.direntry earlier).name ≠ cString fname := by
  unfold readDentryByName at hfound
  split at hfound
  · contradiction
  · rename_i hlen
    obtain ⟨front, index, rest, hrange, hentry, hnone⟩ :=
      List.findSome?_eq_some_iff.mp hfound
    have hindex : index < img.dirCount := by
      have hmem : index ∈ List.range img.dirCount := by simp [hrange]
      simpa using hmem
    have hname : strlen fname ≤ filenameLen := by omega
    simp only [readDentryByIndex, ge_iff_le, not_le.mpr hindex, if_false,
      Option.filter_eq_some_iff, Option.some.injEq] at hentry
    obtain ⟨rfl, hmatch⟩ := hentry
    refine ⟨index, hindex, rfl, (dentryMatches_iff hname).mp hmatch, ?_⟩
    intro earlier hearlier heq
    have hfront : earlier ∈ front := by
      have hmem : earlier ∈ front ++ index :: rest := by
        rw [← hrange]
        simpa using hearlier.trans hindex
      have hsorted := List.pairwise_lt_range (n := img.dirCount)
      rw [hrange, List.pairwise_append, List.pairwise_cons] at hsorted
      rcases List.mem_append.mp hmem with hfront | hback
      · exact hfront
      · rcases List.mem_cons.mp hback with hsame | hrest
        · omega
        · have hafter := hsorted.2.1.1 earlier hrest
          omega
    have hreject := hnone earlier hfront
    simp only [readDentryByIndex, ge_iff_le, not_le.mpr (hearlier.trans hindex), if_false,
      Option.filter_eq_none_iff, Option.some.injEq] at hreject
    exact hreject _ rfl ((dentryMatches_iff hname).mpr heq)

theorem readDentryByName_isSome
    {img : Image} {fname : List UInt8} {index : ℕ}
    (hpos : 0 < strlen fname) (hlen : strlen fname ≤ filenameLen)
    (hindex : index < img.dirCount)
    (hname : (img.direntry index).name = cString fname) :
    ∃ dentry, readDentryByName img fname = some dentry := by
  have hsome : (readDentryByName img fname).isSome := by
    unfold readDentryByName
    rw [if_neg (by omega), List.findSome?_isSome_iff]
    refine ⟨index, by simpa using hindex, ?_⟩
    simp [readDentryByIndex, not_le.mpr hindex, (dentryMatches_iff hlen).mpr hname,
      Option.filter]
  exact Option.isSome_iff_exists.mp hsome

/-! ## Reading data -/

theorem load32_curInode (img : Image) (inode : ℕ) :
    img.load32 (u32 (u32 (img.filesystemStart + blockSizeInBytes) +
      u32 (inode * blockSizeInBytes))) = img.inodeLength inode := by
  simp [Image.inodeLength]

theorem load32_entry (img : Image) (inode index : ℕ) :
    img.load32 (u32 (u32 (img.filesystemStart + blockSizeInBytes) +
      u32 (inode * blockSizeInBytes)) + 4 + 4 * index) = img.dataBlockNum inode index := by
  apply Image.load32_congr
  simp only [u32]
  omega

/-- Inside a file, `read_data` copies the slice which starts at the offset. -/
theorem readData_of_lt_inodeLength
    {img : Image} {inode offset length : ℕ}
    (hinode : inode < img.inodeCount) (hoffset : offset < img.inodeLength inode) :
    readData img inode offset length =
      (int32 (min (img.inodeLength inode - offset) length),
        ((img.fileContents inode).drop offset).take length) := by
  have hlength := img.inodeLength_lt inode
  have hcopy : u32 (img.inodeLength inode + 2 ^ 32 - offset) =
      img.inodeLength inode - offset := by
    unfold u32
    omega
  unfold readData
  simp only [load32_curInode, hcopy, ge_iff_le, not_le.mpr hinode, not_le.mpr hoffset, if_false,
    Prod.mk.injEq, true_and]
  apply List.ext_getElem
  · simp
    omega
  · intro i hi _
    have hlt : i < min (img.inodeLength inode - offset) length := by simpa using hi
    have hsum : u32 (offset + i) = offset + i := u32_of_lt (by omega)
    simp only [List.getElem_map, List.getElem_range, List.getElem_take, List.getElem_drop,
      Image.fileContents, hsum, load32_entry, Image.dataByte]
    apply Image.byte_congr
    simp only [u32]
    omega

theorem readData_of_inodeLength_le
    {img : Image} {inode offset length : ℕ}
    (hinode : inode < img.inodeCount) (hoffset : img.inodeLength inode ≤ offset) :
    readData img inode offset length = (0, []) := by
  unfold readData
  simp only [load32_curInode, ge_iff_le, not_le.mpr hinode, hoffset, if_false, if_true]

theorem readData_of_inodeCount_le
    {img : Image} {inode offset length : ℕ} (hinode : img.inodeCount ≤ inode) :
    readData img inode offset length = (-1, []) := by
  simp [readData, hinode]

end VirtualOS
