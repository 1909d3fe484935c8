import VirtualOS.DescriptorFrames
import VirtualOS.FileReads
import Mathlib.Tactic

/-!
# The positions of open files

`file_read` adds what `read_data` returned to the position of the descriptor,
whether that was a number of bytes or the `-1` of an inode that does not exist;
`open` lets such an inode pass.  The position is a signed word, so that a read
may also carry it past the largest number.  As long as no read meets one of the
two, every position stays inside its file.
-/

namespace VirtualOS

open PartialRuns

/-- The length of the file of an inode; a number that is no inode has no bytes. -/
def Image.fileLength (img : Image) (inode : ℕ) : ℕ :=
  if inode < img.inodeCount then img.inodeLength inode else 0

/-- The position of an open regular file is between its start and its end. -/
def InFile (img : Image) (_ : BitVec 32) (_ : Fin 8) (desc : FileDesc) : Prop :=
  desc.flags ≠ 0 → desc.fops = some .file →
    0 ≤ desc.filePos.toInt ∧ desc.filePos.toInt ≤ img.fileLength desc.inode

/-- A failed read of a file leaves its position, and afterwards every position is
inside its file. -/
structure KeepsPositions (img : Image) (call : Kernel → Op → Option (Kernel × Answer))
    (s : Kernel) (op : Op) : Prop where
  failed : ∀ index count next answer, s.fileRequest op = some (index, count) →
    call s op = some (next, answer) → answer.value = some (-1) →
    ((next.pcb s.pcbPtr).fileDescArray index).filePos = (s.fileDesc index).filePos
  within : ∀ next answer, call s op = some (next, answer) → next.Everywhere (InFile img)

/-- A read of a file is for an inode of the image and ends below `2 ^ 31`. -/
def ReadsInFile (img : Image) (s : Kernel) (op : Op) : Prop :=
  ∀ request ∈ s.fileRequest op, (s.fileDesc request.1).inode < img.inodeCount ∧
    min (img.inodeLength (s.fileDesc request.1).inode)
      ((s.fileDesc request.1).filePos.toNat + request.2) < 2 ^ 31

instance ReadsInFile.decidable (img : Image) (s : Kernel) (op : Op) :
    Decidable (ReadsInFile img s op) := by
  unfold ReadsInFile
  infer_instance

theorem inFile_law (img : Image) : DescriptorLaw (InFile img) where
  released _ _ _ _ hflags := absurd rfl hflags
  standard _ _ _ _ _ _ hfops := absurd hfops (by simp)

/-! ## One read -/

section Read

variable {img : Image} {link : Link} {s next : Kernel} {op : Op} {index : Fin 8} {count : ℕ}

theorem fileRequest_eq_some (img : Image)
    (hrequest : s.fileRequest op = some (index, count)) :
    (s.fileDesc index).flags ≠ 0 ∧ (s.fileDesc index).fops = some .file ∧
      ∀ link, perform img link s op = some ((fileRead img s index count).kernel,
        ⟨some (readData img (s.fileDesc index).inode (s.fileDesc index).filePos.toNat count).1,
          (readData img (s.fileDesc index).inode (s.fileDesc index).filePos.toNat count).2⟩) := by
  unfold Kernel.fileRequest at hrequest
  split at hrequest
  · rename_i fd buf nbytes frame
    obtain ⟨other, hindex, hguard⟩ := Option.bind_eq_some_iff.mp hrequest
    split at hguard
    · rename_i hfacts
      obtain ⟨rfl, rfl⟩ := Prod.mk.inj (Option.some.inj hguard)
      obtain ⟨hnbytes, hfd, hflags, hfops⟩ := hfacts
      refine ⟨hflags, hfops, fun link => ?_⟩
      have hproper : ¬ (nbytes < 0 ∨ fd = 1) := by omega
      simp only [perform, read, hindex, if_neg hproper, if_neg hflags, hfops, fopsRead,
        Option.bind_some]
      rfl
    · contradiction
  · contradiction

theorem toInt_nonneg_iff (pos : BitVec 32) : 0 ≤ pos.toInt ↔ pos.toNat < 2 ^ 31 := by
  rw [BitVec.toInt_eq_toNat_cond]
  have hlt := pos.isLt
  split <;> omega

theorem toInt_of_toNat_lt {pos : BitVec 32} (hpos : pos.toNat < 2 ^ 31) :
    pos.toInt = pos.toNat :=
  BitVec.toInt_eq_toNat_of_lt (by omega)

theorem toNat_movedPosition {inode : ℕ} {pos : BitVec 32} (hinode : inode < img.inodeCount)
    (hpos : pos.toNat ≤ img.inodeLength inode) (count : ℕ) :
    (pos + BitVec.ofInt 32 (readData img inode pos.toNat count).1).toNat =
      min (img.inodeLength inode) (pos.toNat + count) := by
  have hlength := img.inodeLength_lt inode
  rcases hpos.lt_or_eq with hlt | heq
  · rw [readData_of_lt_inodeLength hinode hlt, int32, BitVec.ofInt_toInt, BitVec.toNat_add,
      BitVec.toNat_ofNat]
    omega
  · rw [readData_of_inodeLength_le hinode heq.ge]
    simp
    omega

theorem fileLength_eq {inode : ℕ} (hinode : inode < img.inodeCount) :
    img.fileLength inode = img.inodeLength inode := if_pos hinode

theorem InFile.toNat_le (hevery : s.Everywhere (InFile img))
    (hflags : (s.fileDesc index).flags ≠ 0) (hfops : (s.fileDesc index).fops = some .file)
    (hinode : (s.fileDesc index).inode < img.inodeCount) :
    (s.fileDesc index).filePos.toNat ≤ img.inodeLength (s.fileDesc index).inode := by
  have hin : InFile img s.pcbPtr index (s.fileDesc index) := hevery s.pcbPtr index
  obtain ⟨hlow, hhigh⟩ := hin hflags hfops
  have hpos := toInt_of_toNat_lt ((toInt_nonneg_iff _).mp hlow)
  rw [fileLength_eq hinode] at hhigh
  omega

theorem inFile_fileRead (hevery : s.Everywhere (InFile img))
    (hrequest : s.fileRequest op = some (index, count)) (hguard : ReadsInFile img s op) :
    (fileRead img s index count).kernel.Everywhere (InFile img) := by
  obtain ⟨hflags, hfops, -⟩ := fileRequest_eq_some img hrequest
  obtain ⟨hinode, hend⟩ := hguard (index, count) hrequest
  apply everywhere_fileRead hevery
  intro _ _
  have hmoved := toNat_movedPosition hinode
    (InFile.toNat_le hevery hflags hfops hinode) count
  dsimp only at hend ⊢
  rw [← hmoved] at hend
  rw [toInt_of_toNat_lt hend, hmoved, fileLength_eq hinode]
  omega

theorem inFile_step (hevery : s.Everywhere (InFile img)) (hguard : ReadsInFile img s op)
    (hstep : step img link s op = some next) : next.Everywhere (InFile img) := by
  by_cases hopen : ∃ filename, op = .openFile filename
  · obtain ⟨filename, rfl⟩ := hopen
    obtain ⟨final, hperform, rfl⟩ := Option.map_eq_some_iff.mp hstep
    obtain ⟨result, hcall, hanswer⟩ := Option.bind_eq_some_iff.mp hperform
    obtain rfl | ⟨dentry, fd, opened, fops, inode, -, -, rfl, hpcb, -⟩ := openFile_cases hcall
    · obtain rfl := Option.some.inj hanswer
      exact hevery
    · obtain rfl := Option.some.inj hanswer
      have hfilled : (s.modifyFd s.pcbPtr fd fun _ => ⟨fops, inode, 0, 1⟩).Everywhere
          (InFile img) := by
        refine hevery.modifyFd fun _ _ => ?_
        simp
      exact hfilled.of_pcb hpcb
  · apply step_everywhere (inFile_law img) hevery (fun filename heq => hopen ⟨filename, heq⟩) _
      hstep
    intro index count hrequest
    exact inFile_fileRead hevery hrequest hguard

theorem filePos_fileRead (img : Image) (s : Kernel) (index : Fin 8) (count : ℕ) :
    (((fileRead img s index count).kernel.pcb s.pcbPtr).fileDescArray index) =
      { s.fileDesc index with
        filePos := (s.fileDesc index).filePos + BitVec.ofInt 32
          (readData img (s.fileDesc index).inode (s.fileDesc index).filePos.toNat count).1 } := by
  simp [fileRead, CallResult.kernel, Kernel.modifyFd, Kernel.modifyPcb, Kernel.fileDesc]

theorem keepsPositions_iff (hevery : s.Everywhere (InFile img)) :
    KeepsPositions img (perform img link) s op ↔ ReadsInFile img s op := by
  constructor
  · rintro ⟨hfailed, hwithin⟩ ⟨index, count⟩ hrequest
    obtain ⟨hflags, hfops, hperform⟩ := fileRequest_eq_some img hrequest
    have hinode : (s.fileDesc index).inode < img.inodeCount := by
      by_contra hmissing
      have hdata : readData img (s.fileDesc index).inode (s.fileDesc index).filePos.toNat count =
          (-1, []) := readData_of_inodeCount_le (not_lt.mp hmissing)
      have hsame := hfailed index count _ _ hrequest (hperform link) (by rw [hdata])
      rw [filePos_fileRead, hdata] at hsame
      simp at hsame
    refine ⟨hinode, ?_⟩
    have hnext := hwithin _ _ (hperform link)
    have hin := hnext s.pcbPtr index
    rw [filePos_fileRead] at hin
    have hlow := (toInt_nonneg_iff _).mp (hin hflags hfops).1
    rwa [toNat_movedPosition hinode (InFile.toNat_le hevery hflags hfops hinode)] at hlow
  · intro hguard
    refine ⟨?_, fun next answer hperform => ?_⟩
    swap
    · exact inFile_step hevery hguard (Option.map_eq_some_iff.mpr ⟨_, hperform, rfl⟩)
    intro index count next answer hrequest hperform hvalue
    obtain ⟨hflags, hfops, hread⟩ := fileRequest_eq_some img hrequest
    obtain ⟨hinode, hend⟩ := hguard (index, count) hrequest
    have hpos := InFile.toNat_le hevery hflags hfops hinode
    -- An existing file never answers `-1`.
    rw [hread link, Option.some.injEq] at hperform
    obtain ⟨rfl, rfl⟩ := Prod.mk.inj hperform
    have hvalue' := Option.some.inj hvalue
    dsimp only at hend hvalue'
    rcases hpos.lt_or_eq with hlt | heq
    · rw [readData_of_lt_inodeLength hinode hlt] at hvalue'
      dsimp only at hvalue'
      rw [int32_of_lt (by omega)] at hvalue'
      omega
    · rw [readData_of_inodeLength_le hinode heq.ge] at hvalue'
      contradiction

end Read

/-! ## Runs -/

theorem Booted.everywhere_inFile {boot first : Kernel} {img : Image} {frame : StackFrame}
    {entry image : List UInt8} (hboot : Booted boot)
    (hfirst : execute img boot (some shellName) frame = some (.started first entry image)) :
    first.Everywhere (InFile img) := by
  have hstart : boot.Everywhere (InFile img) := by
    intro address fd hflags
    exact absurd (hboot.flags address fd) hflags
  exact everywhere_execute (inFile_law img) hstart hfirst

/-- From the first shell on, failed reads leave the positions and all positions
stay inside their files in exactly those runs in which every read of a file is
for an existing inode and ends below `2 ^ 31`. -/
theorem keepsPositions_run_iff {img : Image} {link : Link} {boot first : Kernel}
    {frame : StackFrame} {entry image : List UInt8} {ops : List Op} (hboot : Booted boot)
    (hfirst : execute img boot (some shellName) frame = some (.started first entry image)) :
    first.Everywhere (InFile img) ∧
      (Meets (step img link) (KeepsPositions img (perform img link)) first ops ↔
        Meets (step img link) (ReadsInFile img) first ops) := by
  have hstart := hboot.everywhere_inFile hfirst
  refine ⟨hstart, ?_⟩
  apply meets_iff_of_invariant (fun s => s.Everywhere (InFile img)) _ _ hstart
  · intro s op next hinv hguard hstep
    exact inFile_step hinv hguard hstep
  · intro s op hinv
    exact keepsPositions_iff hinv

def readFrame : Op := .read 2 (some zeroBuffer) 32 zeroFrame

def missingInodeImage : Image where
  filesystemStart := 0
  memory address := if address = 64 + 3 * 64 + 36 then 9 else smallImage.memory address

theorem missingInodeImage_loadable : missingInodeImage.Loadable shellName := by
  refine ⟨missingInodeImage.direntry 1, by decide +kernel, fun stale => ?_, by decide +kernel⟩
  have hdata : (readData missingInodeImage (missingInodeImage.direntry 1).inodeNum 0 4).2 =
      exeMagicNumber := by decide +kernel
  rw [readWord, hdata]
  rfl

/-- The first read of the entry fails and moves the position to `-1`. -/
theorem failedRead_moves : ∃ entry image opened after,
    execute missingInodeImage bootKernel (some shellName) zeroFrame =
        some (.started shellKernel entry image) ∧
      step missingInodeImage zeroLink shellKernel (.openFile (some (ascii "frame0.txt"))) =
        some opened ∧
      perform missingInodeImage zeroLink opened readFrame = some (after, ⟨some (-1), []⟩) ∧
      (opened.fileDesc 2).filePos = 0 ∧ (after.fileDesc 2).filePos = 0xFFFFFFFF ∧
      ¬ Meets (step missingInodeImage zeroLink)
        (KeepsPositions missingInodeImage (perform missingInodeImage zeroLink)) shellKernel
        [.openFile (some (ascii "frame0.txt")), readFrame] := by
  have hslot : freeSlot (loadCurrentProcess bootKernel) = some 1 := by decide +kernel
  obtain ⟨entry, image, hfirst⟩ := execute_shell_eq zeroFrame missingInodeImage_loadable hslot
  have hopen : (step missingInodeImage zeroLink shellKernel
      (.openFile (some (ascii "frame0.txt")))).any (fun opened =>
        (perform missingInodeImage zeroLink opened readFrame).any fun final =>
          decide ((opened.fileDesc 2).filePos = 0) &&
          decide (opened.fileRequest readFrame = some (2, 32)) &&
          decide (final.2.value = some (-1)) && decide (final.2.bytes = [])) = true := by
    decide +kernel
  obtain ⟨opened, hopened, hread⟩ := (Option.any_eq_true _ _).mp hopen
  obtain ⟨⟨after, ⟨value, bytes⟩⟩, hperform, hfacts⟩ := (Option.any_eq_true _ _).mp hread
  simp only [Bool.and_eq_true, decide_eq_true_eq] at hfacts
  obtain ⟨⟨⟨hstart, hrequest⟩, rfl⟩, rfl⟩ := hfacts
  have hdata := (fileRequest_eq_some missingInodeImage hrequest).2.2 zeroLink
  rw [hperform, Option.some.injEq, Prod.mk.injEq, Answer.mk.injEq, Option.some.injEq] at hdata
  obtain ⟨rfl, hvalue, -⟩ := hdata
  have hmoved : ((fileRead missingInodeImage opened 2 32).kernel.fileDesc 2).filePos =
      0xFFFFFFFF := by
    have hdesc := filePos_fileRead missingInodeImage opened 2 32
    rw [← hvalue, hstart] at hdesc
    exact congrArg FileDesc.filePos hdesc
  refine ⟨entry, image, opened, _, hfirst, hopened, hperform, hstart, hmoved,
    fun hmeets => ?_⟩
  have hkept : ((fileRead missingInodeImage opened 2 32).kernel.fileDesc 2).filePos =
      (opened.fileDesc 2).filePos :=
    (hmeets.2 opened hopened).1.failed 2 32 _ _ hrequest hperform rfl
  rw [hmoved, hstart] at hkept
  exact absurd hkept (by decide)

end VirtualOS
