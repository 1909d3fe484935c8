import VirtualOS.AccessLogs
import VirtualOS.FilesystemImage
import Mathlib.Data.List.GetD
import Mathlib.Tactic

/-!
# The bytes that `read_data` fetches

`read_data` reads the image in three places: the length of the inode, an entry
of its block array for every byte it copies, and that byte.  The function is
written out with a log of these fetches.  A file is the concatenation of its
data blocks, cut at its length, and inside a well-formed image a read is a
slice of it.  In any image the fetches stay inside as long as the inode and the
blocks of the copied bytes do; `read_data` tests the inode only after its
length has been fetched, and the length and the block numbers not at all.
-/

namespace VirtualOS

open AccessLogs AccessLogs.Logged

/-! ## Fetches -/

/-- What `read_data` loads from the image, with the address. -/
inductive Fetch where
  | length (address : ℕ)
  | entry (index address : ℕ)
  | data (address : ℕ)

/-- A round of the copying loop: the byte at a position of the file. -/
def readByteLogged (img : Image) (dataStart curInode position : ℕ) : Logged Fetch UInt8 := do
  let dataBlockIndex := position / blockSizeInBytes
  let entry := curInode + 4 + 4 * dataBlockIndex
  let dataBlockNum ← access (.entry dataBlockIndex entry) (img.load32 entry)
  let dataBlockAddress := u32 (dataStart + u32 (dataBlockNum * blockSizeInBytes))
  let address := dataBlockAddress + position % blockSizeInBytes
  access (.data address) (img.byte address)

/-- `read_data` with the fetches in the order in which it makes them. -/
def readDataLogged (img : Image) (inode offset length : ℕ) : Logged Fetch (ℤ × List UInt8) := do
  let inodeStart := u32 (img.filesystemStart + blockSizeInBytes)
  let dataStart := u32 (img.filesystemStart + blockSizeInBytes +
    u32 (img.inodeCount * blockSizeInBytes))
  let curInode := u32 (inodeStart + u32 (inode * blockSizeInBytes))
  let curLength ← access (.length curInode) (img.load32 curInode)
  let copyLength := min (u32 (curLength + 2 ^ 32 - offset)) length
  if inode ≥ img.inodeCount then pure (-1, [])
  else if offset ≥ curLength then pure (0, [])
  else
    let copied ← forEach (List.range copyLength) fun i =>
      readByteLogged img dataStart curInode (u32 (offset + i))
    pure (int32 copyLength, copied)

theorem value_readDataLogged (img : Image) (inode offset length : ℕ) :
    (readDataLogged img inode offset length).value = readData img inode offset length := by
  unfold readDataLogged readByteLogged readData
  dsimp only [value_bind, value_access]
  simp only [value_ite, value_pure, value_bind, value_forEach]

namespace Image

def size (img : Image) : ℕ := blockSizeInBytes * (1 + img.inodeCount + img.dataCount)

def Holds (img : Image) (address : ℕ) : Prop :=
  img.filesystemStart ≤ u32 address ∧ u32 address < img.filesystemStart + img.size

end Image

/-- All bytes of a fetch lie in the image, and a block number is one of the 1023 of the
inode. -/
def Fetch.InBounds (img : Image) : Fetch → Prop
  | .length address => ∀ k < 4, img.Holds (address + k)
  | .entry index address => index < 1023 ∧ ∀ k < 4, img.Holds (address + k)
  | .data address => img.Holds address

section Bounds

variable {img : Image} {inode offset length : ℕ}

/-- Block `m`, counted from the boot block and modulo the address space, is in the image. -/
def Image.HoldsBlock (img : Image) (m : ℕ) : Prop :=
  m % 2 ^ 20 < 1 + img.inodeCount + img.dataCount

theorem holds_iff_block (hfits : img.filesystemStart + img.size ≤ 2 ^ 32) {address m k : ℕ}
    (hk : k < 4096) (haddress : u32 address = u32 (img.filesystemStart + 4096 * m + k)) :
    img.Holds address ↔ img.HoldsBlock m := by
  unfold Image.Holds Image.HoldsBlock
  rw [haddress]
  unfold Image.size blockSizeInBytes u32 at *
  omega

theorem u32_curInode (k : ℕ) :
    u32 (u32 (u32 (img.filesystemStart + blockSizeInBytes) + u32 (inode * blockSizeInBytes)) + k) =
      u32 (img.filesystemStart + 4096 * (1 + inode) + k) := by
  unfold u32 blockSizeInBytes
  omega

theorem u32_dataBlock (num k : ℕ) :
    u32 (u32 (u32 (img.filesystemStart + blockSizeInBytes +
        u32 (img.inodeCount * blockSizeInBytes)) + u32 (num * blockSizeInBytes)) + k) =
      u32 (img.filesystemStart + 4096 * (1 + img.inodeCount + num) + k) := by
  unfold u32 blockSizeInBytes
  omega

section Fetches

variable (hfits : img.filesystemStart + img.size ≤ 2 ^ 32)

include hfits

theorem length_inBounds_iff :
    (Fetch.length (u32 (u32 (img.filesystemStart + blockSizeInBytes) +
      u32 (inode * blockSizeInBytes)))).InBounds img ↔ img.HoldsBlock (1 + inode) := by
  constructor
  · intro hbounds
    exact (holds_iff_block hfits (by norm_num) (u32_curInode 0)).mp (hbounds 0 (by norm_num))
  · intro hblock k hk
    exact (holds_iff_block hfits (by omega) (u32_curInode k)).mpr hblock

theorem entry_inBounds_iff (hblock : img.HoldsBlock (1 + inode)) (index : ℕ) :
    (Fetch.entry index (u32 (u32 (img.filesystemStart + blockSizeInBytes) +
      u32 (inode * blockSizeInBytes)) + 4 + 4 * index)).InBounds img ↔ index < 1023 := by
  refine ⟨And.left, fun hindex => ⟨hindex, fun k hk => ?_⟩⟩
  refine (holds_iff_block hfits (k := 4 + 4 * index + k) (by omega) ?_).mpr hblock
  rw [← u32_curInode, Nat.add_assoc, Nat.add_assoc, Nat.add_assoc]

theorem data_inBounds_iff (num : ℕ) {k : ℕ} (hk : k < 4096) :
    (Fetch.data (u32 (u32 (img.filesystemStart + blockSizeInBytes +
        u32 (img.inodeCount * blockSizeInBytes)) + u32 (num * blockSizeInBytes)) + k)).InBounds img ↔
      img.HoldsBlock (1 + img.inodeCount + num) :=
  holds_iff_block hfits hk (u32_dataBlock num k)

theorem round_inBounds_iff (hinode : img.HoldsBlock (1 + inode)) (position : ℕ) :
    (∀ fetch ∈ (readByteLogged img
        (u32 (img.filesystemStart + blockSizeInBytes + u32 (img.inodeCount * blockSizeInBytes)))
        (u32 (u32 (img.filesystemStart + blockSizeInBytes) + u32 (inode * blockSizeInBytes)))
        position).accesses, fetch.InBounds img) ↔
      position / 4096 < 1023 ∧
        img.HoldsBlock (1 + img.inodeCount + img.dataBlockNum inode (position / 4096)) := by
  have hrest : position % blockSizeInBytes < 4096 := Nat.mod_lt _ (by decide)
  unfold readByteLogged
  simp only [accesses_bind, List.singleton_append, List.forall_mem_cons, List.not_mem_nil,
    false_implies, implies_true, and_true, load32_entry]
  rw [entry_inBounds_iff hfits hinode, data_inBounds_iff hfits _ hrest]
  rfl

end Fetches

/-- The inode and the data blocks of all bytes a read copies are blocks of the image. -/
structure Image.ReadsInside (img : Image) (inode offset length : ℕ) : Prop where
  inode_mem : img.HoldsBlock (1 + inode)
  copied_mem : inode < img.inodeCount → ∀ k, offset ≤ k → k < offset + length →
    k < img.inodeLength inode → k / 4096 < 1023 ∧
      img.HoldsBlock (1 + img.inodeCount + img.dataBlockNum inode (k / 4096))

/-- All fetches of a read are in bounds, and it answers `-1` if they cannot be. -/
structure Image.ReadContained (img : Image) (inode offset length : ℕ) : Prop where
  inBounds : ∀ fetch ∈ (readDataLogged img inode offset length).accesses, fetch.InBounds img
  refused : ¬ img.ReadsInside inode offset length →
    (readDataLogged img inode offset length).value.1 = -1

/-- The fetches are in bounds exactly if the blocks that a read refers to are. -/
theorem fetches_inBounds_iff (hfits : img.filesystemStart + img.size ≤ 2 ^ 32) :
    (∀ fetch ∈ (readDataLogged img inode offset length).accesses, fetch.InBounds img) ↔
      img.ReadsInside inode offset length := by
  have hlength := img.inodeLength_lt inode
  unfold readDataLogged
  simp only [accesses_bind, List.singleton_append, List.forall_mem_cons,
    length_inBounds_iff hfits, accesses_ite, accesses_pure, accesses_forEach, List.append_nil,
    load32_curInode, ge_iff_le]
  constructor
  · rintro ⟨hinode, hrest⟩
    refine ⟨hinode, fun hlt k hoffset hk hend => ?_⟩
    rw [if_neg (by omega), if_neg (by omega), List.forall_mem_flatMap] at hrest
    have hround := hrest (k - offset) (by simp only [List.mem_range, u32]; omega)
    rw [round_inBounds_iff hfits hinode, Nat.add_sub_cancel' hoffset,
      u32_of_lt (by omega)] at hround
    exact hround
  · rintro ⟨hinode, hcopied⟩
    refine ⟨hinode, ?_⟩
    split
    · simp
    · split
      · simp
      · rw [List.forall_mem_flatMap]
        intro i hi
        simp only [List.mem_range, u32] at hi
        rw [round_inBounds_iff hfits hinode, u32_of_lt (by omega)]
        exact hcopied (by omega) (offset + i) (by omega) (by omega) (by omega)

/-- `read_data` stays in an image and refuses what it would have to leave it for
exactly if the blocks that the read refers to are in the image. -/
theorem readContained_iff (hfits : img.filesystemStart + img.size ≤ 2 ^ 32) :
    img.ReadContained inode offset length ↔ img.ReadsInside inode offset length := by
  rw [← fetches_inBounds_iff hfits]
  constructor
  · exact Image.ReadContained.inBounds
  · intro hbounds
    refine ⟨hbounds, fun hleaves => ?_⟩
    exact absurd ((fetches_inBounds_iff hfits).mp hbounds) hleaves

end Bounds

/-- An image with one inode and one data block: a file of one byte, stored in the
block that `num` names. -/
def oneByteImage (num : UInt8) : Image where
  filesystemStart := 0x500000
  memory address :=
    if address = 0x500004 ∨ address = 0x500008 ∨ address = 0x501000 then 1
    else if address = 0x501004 then num
    else if address = 0x502000 then 0x41
    else 0

theorem oneByteImage_contains :
    (oneByteImage 0).ReadContained 0 0 5 := by
  refine (readContained_iff (by decide +kernel)).mpr
    ⟨by unfold Image.HoldsBlock; decide +kernel, ?_⟩
  have hlength : (oneByteImage 0).inodeLength 0 = 1 := by decide +kernel
  have hblock : (oneByteImage 0).dataBlockNum 0 0 = 0 := by decide +kernel
  intro _ k _ _ hk
  obtain rfl : k = 0 := by omega
  rw [Nat.zero_div, hblock]
  exact ⟨by decide, by unfold Image.HoldsBlock; decide +kernel⟩

/-- Block number 7 lies behind the image of 3 blocks, and its byte is read and copied. -/
theorem oneByteImage_strays :
    (oneByteImage 7).dirCount ≤ 63 ∧
      (oneByteImage 7).filesystemStart + (oneByteImage 7).size ≤ 2 ^ 32 ∧
      readData (oneByteImage 7) 0 0 1 = (1, [0]) ∧
      ¬ (oneByteImage 7).ReadContained 0 0 1 := by
  have hfits : (oneByteImage 7).filesystemStart + (oneByteImage 7).size ≤ 2 ^ 32 := by
    decide +kernel
  refine ⟨by decide +kernel, hfits, by decide +kernel, fun hcontained => ?_⟩
  have hinside := (fetches_inBounds_iff hfits).mp hcontained.inBounds
  have hblock := (hinside.copied_mem (by decide +kernel) 0 le_rfl (by decide)
    (by decide +kernel)).2
  unfold Image.HoldsBlock at hblock
  exact absurd hblock (by decide +kernel)

/-! ## Slices of a file -/

theorem flatMap_range_eq_map {α : Type*} (f : ℕ → ℕ → α) {width : ℕ} (hwidth : 0 < width)
    (count : ℕ) :
    ((List.range count).flatMap fun i => (List.range width).map (f i)) =
      (List.range (count * width)).map fun k => f (k / width) (k % width) := by
  induction count with
  | zero => simp
  | succ count ih =>
      have hlast : (List.range width).map (f count) =
          (List.range width).map fun j =>
            f ((count * width + j) / width) ((count * width + j) % width) := by
        apply List.map_congr_left
        intro j hj
        have hdiv : (count * width + j) / width = count := by
          rw [Nat.mul_comm, Nat.mul_add_div hwidth, Nat.div_eq_of_lt (List.mem_range.mp hj),
            Nat.add_zero]
        have hmod : (count * width + j) % width = j := by
          rw [Nat.mul_comm, Nat.mul_add_mod, Nat.mod_eq_of_lt (List.mem_range.mp hj)]
        rw [hdiv, hmod]
      rw [List.range_succ, List.flatMap_append, ih, Nat.succ_mul, List.range_add, List.map_append,
        List.map_map, List.flatMap_singleton, hlast]
      rfl

namespace Image

def dataBlock (img : Image) (block : ℕ) : List UInt8 :=
  (List.range blockSizeInBytes).map (img.dataByte block)

/-- The data blocks of an inode one after another, cut at its length. -/
def file (img : Image) (inode : ℕ) : List UInt8 :=
  ((List.range 1023).flatMap fun index => img.dataBlock (img.dataBlockNum inode index)).take
    (img.inodeLength inode)

/-- What the format says about files. -/
structure WellFormedFiles (img : Image) : Prop where
  inodeLength_le : ∀ inode < img.inodeCount, img.inodeLength inode ≤ 1023 * 4096
  dataBlockNum_lt : ∀ inode < img.inodeCount, ∀ index,
    index * 4096 < img.inodeLength inode → img.dataBlockNum inode index < img.dataCount
  fits : img.filesystemStart + img.size ≤ 2 ^ 32

theorem file_eq_fileContents {img : Image} {inode : ℕ}
    (hlength : img.inodeLength inode ≤ 1023 * 4096) : img.file inode = img.fileContents inode := by
  have hle : img.inodeLength inode ≤ 1023 * blockSizeInBytes := hlength
  unfold file dataBlock fileContents
  rw [flatMap_range_eq_map (fun index => img.dataByte (img.dataBlockNum inode index))
    (by decide) 1023, ← List.map_take, List.take_range, min_eq_left hle]

end Image

/-- A buffer after bytes have been stored at its start. -/
def fillBuffer (buf : ℕ → UInt8) (bytes : List UInt8) : ℕ → UInt8 :=
  fun i => bytes.getD i (buf i)

/-- A read copies the requested slice of the file, as far as the file goes, and none of
its computations wraps or leaves the inode. -/
structure Image.ReadsSlice (img : Image) (inode offset length : ℕ) : Prop where
  refused : img.inodeCount ≤ inode → (readData img inode offset length).1 = -1
  ended : inode < img.inodeCount → (img.file inode).length ≤ offset →
    readData img inode offset length = (0, [])
  copied : inode < img.inodeCount → offset < (img.file inode).length →
    (readData img inode offset length).1 = (min length ((img.file inode).length - offset) : ℕ) ∧
      ∀ buf, fillBuffer buf (readData img inode offset length).2 = fun i =>
        if i < min length ((img.file inode).length - offset) then
          (img.file inode).getD (offset + i) 0
        else buf i
  remaining : inode < img.inodeCount → offset < (img.file inode).length →
    u32 (img.inodeLength inode + 2 ^ 32 - offset) = (img.file inode).length - offset
  position : inode < img.inodeCount → ∀ i < min length ((img.file inode).length - offset),
    u32 (offset + i) = offset + i ∧ u32 (offset + i) / blockSizeInBytes < 1023
  inBounds : inode < img.inodeCount →
    ∀ fetch ∈ (readDataLogged img inode offset length).accesses, fetch.InBounds img

theorem fillBuffer_take_drop (buf : ℕ → UInt8) (bytes : List UInt8) (offset count : ℕ) :
    fillBuffer buf ((bytes.drop offset).take count) = fun i =>
      if i < min count (bytes.length - offset) then bytes.getD (offset + i) 0 else buf i := by
  funext i
  unfold fillBuffer
  by_cases hi : i < min count (bytes.length - offset)
  · have hlt : offset + i < bytes.length := by omega
    rw [if_pos hi, List.getD_eq_getElem _ _ (by simpa using hi), List.getD_eq_getElem _ _ hlt]
    simp
  · have hlength : ((bytes.drop offset).take count).length ≤ i := by
      rw [List.length_take, List.length_drop]
      omega
    rw [if_neg hi, List.getD_eq_default _ _ hlength]

end VirtualOS
