import VirtualOS.ProcessInvariants
import Mathlib.Tactic

/-!
# Descriptors as an abstract table

A descriptor of a living process is an entry of its own in the table: no
operation of another process and no call on another descriptor touches it.  For
a regular file this makes the reads on one descriptor consecutive slices of the
file, whatever happens in between.
-/

namespace VirtualOS

open PartialRuns LinkedStacks

/-! ## The reads on one descriptor -/

/-- The byte count of a proper read on descriptor `fd`. -/
def Op.readCount (fd : Fin 8) : Op → Option ℕ
  | .read index (some _) nbytes _ =>
      if fdIndex index = some fd ∧ 0 ≤ nbytes then some nbytes.toNat else none
  | _ => none

/-- The reads of process `num` on descriptor `fd` along a run of `call`: the byte counts
and what they answered. -/
def readsOn (call : Kernel → Op → Option (Kernel × Answer)) (num : ℕ) (fd : Fin 8) :
    Kernel → List Op → List (ℕ × Answer)
  | _, [] => []
  | s, op :: rest =>
      match call s op with
      | none => []
      | some (next, answer) =>
          match op.readCount fd with
          | some count =>
              if s.running.processNum = num then
                (count, answer) :: readsOn call num fd next rest
              else readsOn call num fd next rest
          | none => readsOn call num fd next rest

/-- A living process `num` has descriptor `fd` with the contents `desc`. -/
structure Holds (s : Kernel) (num : ℕ) (fd : Fin 8) (desc : FileDesc) : Prop where
  live : ∃ family t, Scheduled s.view family ∧ num ∈ family t
  desc_eq : (s.pcb (pcbAddress num)).fileDescArray fd = desc

/-- The operation neither ends process `num` nor closes its descriptor `fd`; if it
ends another process, a shell can be loaded again. -/
structure Keeps (img : Image) (num : ℕ) (fd : Fin 8) (s : Kernel) (op : Op) : Prop where
  shell : endsProcess img s op = true → img.Loadable shellName
  spares : Spares img num s op
  stays : s.running.processNum = num → fdEffect img s op ≠ some (.closes fd)

section Holding

variable {img : Image} {link : Link} {s next : Kernel} {num : ℕ} {fd : Fin 8}
  {desc : FileDesc} {op : Op} {answer : Answer}

theorem PcbStep.fileDesc_eq {pcb after : Pcb} {effect : Option FdEffect}
    (hstep : PcbStep pcb effect after) (hflags : (pcb.fileDescArray fd).flags ≠ 0)
    (hcloses : effect ≠ some (.closes fd)) (hadvances : effect ≠ some (.advances fd)) :
    after.fileDescArray fd = pcb.fileDescArray fd := by
  cases hstep with
  | opened other row inode _ hfree =>
      have hne : fd ≠ other := by
        rintro rfl
        exact hflags hfree
      simp [Pcb.setFd, hne]
  | closed other _ =>
      have hne : fd ≠ other := by
        rintro rfl
        exact hcloses rfl
      simp [Pcb.setFd, hne]
  | advanced other filePos =>
      have hne : fd ≠ other := by
        rintro rfl
        exact hadvances rfl
      simp [Pcb.setFd, hne]
  | saved cpu => rfl

theorem Holds.step_other (hholds : Holds s num fd desc) (hflags : desc.flags ≠ 0)
    (htyped : NoUntypedOpen img s op) (hkeeps : Keeps img num fd s op)
    (hquiet : s.running.processNum = num → fdEffect img s op ≠ some (.advances fd))
    (hstep : step img link s op = some next) : Holds next num fd desc := by
  obtain ⟨⟨family, t, hsched, hmem⟩, rfl⟩ := hholds
  rcases step_cases hkeeps.shell hsched.sound htyped hstep with
    ⟨_, hmove⟩ | ⟨hends, hend⟩
  · obtain ⟨family', hnext, hmem'⟩ := hmove.mem hsched hmem
    refine ⟨⟨family', t, hnext, hmem'⟩, ?_⟩
    rcases hmove.pcb_cases hsched hmem with hsame | ⟨hruns, hpcb⟩
    · exact congrArg (fun pcb : Pcb => pcb.fileDescArray fd) hsame
    · exact hpcb.fileDesc_eq hflags (hkeeps.stays hruns) (hquiet hruns)
  · have hne : num ≠ s.view.current := by
      rintro rfl
      rw [hkeeps.spares rfl] at hends
      contradiction
    obtain ⟨family', hnext, hmem'⟩ := hend.mem hsched hmem hne
    exact ⟨⟨family', t, hnext, hmem'⟩,
      congrArg (fun pcb : Pcb => pcb.fileDescArray fd) (hend.pcb_eq hsched hmem hne)⟩

theorem Holds.pcbPtr_eq (hholds : Holds s num fd desc)
    (hruns : s.running.processNum = num) : s.pcbPtr = pcbAddress num := by
  obtain ⟨_, _, hsched, _⟩ := hholds.live
  rw [← hruns]
  exact hsched.pcbPtr_eq

theorem Holds.fileDesc_eq (hholds : Holds s num fd desc)
    (hruns : s.running.processNum = num) : s.fileDesc fd = desc := by
  rw [Kernel.fileDesc, hholds.pcbPtr_eq hruns, hholds.desc_eq]

theorem Op.readCount_eq_some {count : ℕ} (hcount : op.readCount fd = some count) :
    ∃ index buf nbytes frame, op = .read index (some buf) nbytes frame ∧
      fdIndex index = some fd ∧ 0 ≤ nbytes ∧ nbytes.toNat = count := by
  unfold Op.readCount at hcount
  split at hcount
  · rename_i index buf nbytes frame
    split at hcount
    · rename_i hproper
      exact ⟨index, buf, nbytes, frame, rfl, hproper.1, hproper.2, Option.some.inj hcount⟩
    · contradiction
  · contradiction

theorem fdIndex_eq_some {index : ℤ} (hindex : fdIndex index = some fd) : index = fd.val := by
  unfold fdIndex at hindex
  split at hindex
  · obtain rfl := Option.some.inj hindex
    simp only
    omega
  · contradiction

theorem read_eq_fopsRead {index : ℤ} {buf : UserBuffer} {nbytes : ℤ}
    (hindex : fdIndex index = some fd) (hfd : 1 < fd.val) (hnbytes : 0 ≤ nbytes)
    (hflags : (s.fileDesc fd).flags ≠ 0) :
    read img s index (some buf) nbytes =
      fopsRead img s fd nbytes.toNat (s.fileDesc fd).fops := by
  have hone : ¬ (nbytes < 0 ∨ index = 1) := by
    have heq := fdIndex_eq_some hindex
    omega
  simp only [read, hindex, hone, if_false, hflags]

theorem Holds.step_refused (hholds : Holds s num fd desc) (hflags : desc.flags ≠ 0)
    (htyped : NoUntypedOpen img s op) (hkeeps : Keeps img num fd s op)
    (hcount : op.readCount fd = none)
    (hstep : step img link s op = some next) : Holds next num fd desc := by
  by_cases hadvances : s.running.processNum = num ∧ fdEffect img s op = some (.advances fd)
  · obtain ⟨hruns, heffect⟩ := hadvances
    cases op with
    | read index buf nbytes frame =>
        have hindex : fdIndex index = some fd := by
          obtain ⟨other, hother, heq⟩ := Option.map_eq_some_iff.mp heffect
          rw [hother, FdEffect.advances.inj heq]
        have hread : read img s index buf nbytes = some (.returned (-1) [] s) := by
          cases buf with
          | none => simp [read, hindex]
          | some memory =>
              have hneg : nbytes < 0 := by
                by_contra hnbytes
                simp [Op.readCount, hindex, not_lt.mp hnbytes] at hcount
              simp [read, hindex, hneg]
        simp only [step, perform, hread, Option.bind_some, CallResult.answer,
          Option.map_some, Option.some.injEq] at hstep
        exact hstep ▸ hholds
    | openFile filename =>
        obtain ⟨other, _, heq⟩ := Option.map_eq_some_iff.mp heffect
        contradiction
    | close index frame =>
        obtain ⟨other, _, heq⟩ := Option.map_eq_some_iff.mp heffect
        contradiction
    | _ => simp [fdEffect] at heffect
  · exact hholds.step_other hflags htyped hkeeps (fun hruns heffect => hadvances ⟨hruns, heffect⟩)
      hstep

theorem Holds.live_of_read (hholds : Holds s num fd desc) {index : ℤ} {buf : UserBuffer}
    {nbytes value : ℤ} {bytes : List UInt8}
    (hread : read img s index (some buf) nbytes = some (.returned value bytes next)) :
    ∃ family t, Scheduled next.view family ∧ num ∈ family t := by
  obtain ⟨family, t, hsched, hmem⟩ := hholds.live
  have hmove : Move s.view _ next.view := read_moves hread
  obtain ⟨family', hnext, hmem'⟩ := hmove.mem hsched hmem
  exact ⟨family', t, hnext, hmem'⟩

end Holding

/-! ## Regular files -/

/-- At most `count` bytes of a file from a position on. -/
def Image.slice (img : Image) (inode pos count : ℕ) : List UInt8 :=
  ((img.fileContents inode).drop pos).take count

/-- The byte strings of consecutive reads from a position on. -/
def Image.slices (img : Image) (inode : ℕ) : ℕ → List ℕ → List (List UInt8)
  | _, [] => []
  | pos, count :: counts =>
      img.slice inode pos count ::
        img.slices inode (pos + (img.slice inode pos count).length) counts

def Answer.ofBytes (bytes : List UInt8) : Answer := ⟨some bytes.length, bytes⟩

section Files

variable {img : Image} {link : Link} {s next : Kernel} {num inode pos count : ℕ} {fd : Fin 8}
  {op : Op} {answer : Answer}

theorem readData_eq_slice (hinode : inode < img.inodeCount)
    (hlength : img.inodeLength inode ≤ 1023 * 4096) :
    readData img inode pos count =
      (((img.slice inode pos count).length : ℤ), img.slice inode pos count) := by
  unfold Image.slice
  rcases Nat.lt_or_ge pos (img.inodeLength inode) with hlt | hge
  · rw [readData_of_lt_inodeLength hinode hlt, int32_of_lt (by omega)]
    simp [Nat.min_comm]
  · have hend : (img.fileContents inode).drop pos = [] := by
      apply List.drop_eq_nil_of_le
      simpa using hge
    rw [readData_of_inodeLength_le hinode hge, hend]
    simp

theorem slice_length_le (hpos : pos ≤ img.inodeLength inode) :
    pos + (img.slice inode pos count).length ≤ img.inodeLength inode := by
  simp only [Image.slice, List.length_take, List.length_drop, Image.fileContents_length]
  omega

theorem Holds.step_fileRead
    (hholds : Holds s num fd ⟨some .file, inode, BitVec.ofNat 32 pos, 1⟩)
    (hinode : inode < img.inodeCount) (hlength : img.inodeLength inode ≤ 1023 * 4096)
    (hpos : pos ≤ img.inodeLength inode) (hfd : 1 < fd.val)
    (hruns : s.running.processNum = num) (hcount : op.readCount fd = some count)
    (hperform : perform img link s op = some (next, answer)) :
    answer = .ofBytes (img.slice inode pos count) ∧
      Holds next num fd ⟨some .file, inode,
        BitVec.ofNat 32 (pos + (img.slice inode pos count).length), 1⟩ := by
  obtain ⟨index, buf, nbytes, frame, rfl, hindex, hnbytes, rfl⟩ := Op.readCount_eq_some hcount
  have hdesc := hholds.fileDesc_eq hruns
  have hptr := hholds.pcbPtr_eq hruns
  have hsmall : (BitVec.ofNat 32 pos).toNat = pos := by
    rw [BitVec.toNat_ofNat]
    omega
  have hread : read img s index (some buf) nbytes = some (fileRead img s fd nbytes.toNat) := by
    rw [read_eq_fopsRead hindex hfd hnbytes (by simp [hdesc]), hdesc]
    rfl
  have hdata : readData img inode pos nbytes.toNat =
      (((img.slice inode pos nbytes.toNat).length : ℤ), img.slice inode pos nbytes.toNat) :=
    readData_eq_slice hinode hlength
  simp only [fileRead, hdesc, hsmall, hdata] at hread
  simp only [perform, hread, Option.bind_some, CallResult.answer, Option.some.injEq,
    Prod.mk.injEq] at hperform
  obtain ⟨rfl, rfl⟩ := hperform
  refine ⟨rfl, hholds.live_of_read hread, ?_⟩
  have hkept := hholds.desc_eq
  simp only [Kernel.modifyFd, Kernel.modifyPcb, hptr, Function.update_self, hkept,
    BitVec.ofInt_natCast, BitVec.ofNat_add]

/-- The reads on an open file are consecutive slices of its contents. -/
theorem readsOn_file {ops : List Op} {final : Kernel}
    (htyped : ∀ s op, NoUntypedOpen img s op) (hinode : inode < img.inodeCount)
    (hlength : img.inodeLength inode ≤ 1023 * 4096) (hpos : pos ≤ img.inodeLength inode)
    (hfd : 1 < fd.val)
    (hholds : Holds s num fd ⟨some .file, inode, BitVec.ofNat 32 pos, 1⟩)
    (hkeeps : Meets (step img link) (Keeps img num fd) s ops)
    (hrun : run (step img link) s ops = some final) :
    (readsOn (perform img link) num fd s ops).map Prod.snd =
      (img.slices inode pos ((readsOn (perform img link) num fd s ops).map Prod.fst)).map
        Answer.ofBytes := by
  induction ops generalizing s pos with
  | nil => rfl
  | cons op rest ih =>
      obtain ⟨next, hstep, hrest⟩ := run_cons_eq_some.mp hrun
      obtain ⟨⟨after, answer⟩, hperform, rfl⟩ := Option.map_eq_some_iff.mp hstep
      have hlater := hkeeps.2 _ hstep
      unfold readsOn
      simp only [hperform]
      cases hcount : op.readCount fd with
      | none =>
          exact ih hpos (hholds.step_refused (by simp) (htyped s op) hkeeps.1 hcount hstep)
            hlater hrest
      | some count =>
          by_cases hruns : s.running.processNum = num
          · obtain ⟨hanswer, hnext⟩ :=
              hholds.step_fileRead hinode hlength hpos hfd hruns hcount hperform
            simp only [if_pos hruns, List.map_cons, Image.slices, hanswer]
            rw [ih (slice_length_le hpos) hnext hlater hrest]
          · simp only [if_neg hruns]
            exact ih hpos (hholds.step_other (by simp) (htyped s op) hkeeps.1
              (fun heq => absurd heq hruns) hstep) hlater hrest

end Files

/-! ## `open` -/

/-- The least descriptor from 2 on that is not in use. -/
structure Kernel.LeastFree (s : Kernel) (fd : Fin 8) : Prop where
  above : 1 < fd.val
  free : (s.fileDesc fd).flags = 0
  least : ∀ other : Fin 8, 1 < other.val → other < fd → (s.fileDesc other).flags ≠ 0

section Open

variable {img : Image} {s : Kernel} {fd : Fin 8}

theorem mem_openSlots : fd ∈ openSlots ↔ 1 < fd.val := by
  revert fd
  decide

theorem find?_openSlots_eq_none
    (hnone : openSlots.find? (fun fd => (s.fileDesc fd).flags = 0) = none) (hfd : 1 < fd.val) :
    (s.fileDesc fd).flags ≠ 0 := by
  have hreject := List.find?_eq_none.mp hnone fd (mem_openSlots.mpr hfd)
  simpa using hreject

theorem find?_openSlots_leastFree
    (hfind : openSlots.find? (fun fd => (s.fileDesc fd).flags = 0) = some fd) :
    s.LeastFree fd := by
  obtain ⟨hfree, front, back, hslots, hnone⟩ := List.find?_eq_some_iff_append.mp hfind
  refine ⟨mem_openSlots.mp (by simp [hslots]), by simpa using hfree, ?_⟩
  intro other hother hless
  have hmem : other ∈ front ++ fd :: back := hslots ▸ mem_openSlots.mpr hother
  have hsorted : openSlots.Pairwise (· < ·) := by decide
  rw [hslots, List.pairwise_append, List.pairwise_cons] at hsorted
  rcases List.mem_append.mp hmem with hfront | hback
  · simpa using hnone other hfront
  · rcases List.mem_cons.mp hback with rfl | hlater
    · exact absurd hless (lt_irrefl _)
    · exact absurd (hsorted.2.1.1 other hlater) (not_lt.mpr hless.le)

theorem openFile_eq_some {filename : Option (List UInt8)} {dentry : Dentry}
    (htype : dentry.fileType ≤ 2)
    (hfound : filename.bind (readDentryByName img) = some dentry)
    (hfind : openSlots.find? (fun fd => (s.fileDesc fd).flags = 0) = some fd) :
    ∃ opened row inode,
      openFile img s filename = some (.returned fd.val [] opened) ∧
      opened.view =
        (s.view.touch (s.view.currentPcb.setFd fd ⟨some row, inode, 0, 1⟩)).setDirIndex
          (if dentry.fileType = 1 then 0 else s.dirIndex) ∧
      (dentry.fileType = 1 → row = .dir) ∧
      (dentry.fileType = 2 → row = .file ∧ inode = dentry.inodeNum) := by
  obtain ⟨next, row, inode, hnext, hview, hdir, hfile⟩ := openByType_spec s fd htype
  refine ⟨_, row, inode, ?_, hview, hdir, hfile⟩
  simp only [openFile, hfound, hfind, hnext, Option.map_some]

theorem openFile_holds {family : Fin 3 → List ℕ} {filename : Option (List UInt8)}
    {dentry : Dentry} (hsched : Scheduled s.view family) (htype : dentry.fileType ≤ 2)
    (hfound : filename.bind (readDentryByName img) = some dentry)
    (hfind : openSlots.find? (fun fd => (s.fileDesc fd).flags = 0) = some fd) :
    ∃ opened row inode,
      openFile img s filename = some (.returned fd.val [] opened) ∧
      opened.fileDesc fd = ⟨some row, inode, 0, 1⟩ ∧
      Holds opened s.running.processNum fd ⟨some row, inode, 0, 1⟩ ∧
      opened.dirIndex = (if dentry.fileType = 1 then 0 else s.dirIndex) ∧
      (dentry.fileType = 1 → row = .dir) ∧
      (dentry.fileType = 2 → row = .file ∧ inode = dentry.inodeNum) := by
  obtain ⟨opened, row, inode, hopen, hview, hdir, hfile⟩ :=
    openFile_eq_some htype hfound hfind
  have hdesc : opened.fileDesc fd = ⟨some row, inode, 0, 1⟩ := by
    have hpcb : opened.view.currentPcb =
        s.view.currentPcb.setFd fd ⟨some row, inode, 0, 1⟩ := by
      rw [hview, ProcessView.currentPcb]
      exact Function.update_self ..
    have hset := congrArg (fun pcb : Pcb => pcb.fileDescArray fd) hpcb
    exact hset.trans (Function.update_self ..)
  have htyped : NoUntypedOpen img s (.openFile filename) := by
    intro found hmem hodd
    obtain rfl := Option.some.inj (hfound.symm.trans hmem)
    exact absurd hodd (typeRow_ne_none htype)
  obtain ⟨family', hnext, hmem⟩ :=
    (openFile_move htyped hopen).mem hsched hsched.current_mem
  have hptr : opened.pcbPtr = pcbAddress s.running.processNum := by
    have hesp0 := congrArg ProcessView.esp0 hview
    rw [Kernel.pcbPtr, show opened.esp0 = s.esp0 from hesp0]
    exact hsched.pcbPtr_eq
  refine ⟨opened, row, inode, hopen, hdesc, ⟨⟨family', s.terminalNum, hnext, hmem⟩, ?_⟩,
    congrArg ProcessView.dirIndex hview, hdir, hfile⟩
  rw [← hptr]
  exact hdesc

theorem openFile_failed {filename : Option (List UInt8)} {next : Kernel} {bytes : List UInt8}
    (hopen : openFile img s filename = some (.returned (-1) bytes next)) : next = s := by
  unfold openFile at hopen
  split at hopen
  · exact (CallResult.returned.inj (Option.some.inj hopen)).2.2.symm
  · split at hopen
    · exact (CallResult.returned.inj (Option.some.inj hopen)).2.2.symm
    · obtain ⟨opened, _, heq⟩ := Option.map_eq_some_iff.mp hopen
      have hvalue := (CallResult.returned.inj heq).1
      omega

end Open

/-! ## The law -/

theorem Image.WellFormed.opensTyped {img : Image} (hformed : img.WellFormed) (s : Kernel)
    (op : Op) : NoUntypedOpen img s op := by
  cases op with
  | openFile filename =>
      intro dentry hfound hodd
      obtain ⟨name, _, hname⟩ := Option.bind_eq_some_iff.mp hfound
      obtain ⟨index, hindex, rfl, _⟩ := readDentryByName_eq_some hname
      exact absurd hodd (typeRow_ne_none (hformed.fileType_le index hindex))
  | _ => exact .of_opened_none rfl

section Law

variable {img : Image} {link : Link} {boot first s : Kernel} {frame : StackFrame}
  {entry image : List UInt8} {before : List Op}

/-- In every reachable state, `open` takes the least free descriptor at position
0 or changes nothing, and the reads on the descriptor of a file are consecutive
slices of the file until the descriptor is closed. -/
theorem descriptors_refine_table
    (hformed : img.WellFormed) (hboot : Booted boot)
    (hfirst : execute img boot (some shellName) frame = some (.started first entry image))
    (hshell : Meets (step img link) (fun state op =>
      endsProcess img state op = true → img.Loadable shellName) first before)
    (hreach : run (step img link) first before = some s)
    (filename : List UInt8) (dentry : Dentry)
    (hfound : readDentryByName img filename = some dentry) :
    (∀ bytes next, openFile img s (some filename) = some (.returned (-1) bytes next) →
      next = s) ∧
    (((∀ fd : Fin 8, 1 < fd.val → (s.fileDesc fd).flags ≠ 0) ∧
        openFile img s (some filename) = some (.returned (-1) [] s)) ∨
      ∃ fd opened, s.LeastFree fd ∧
        openFile img s (some filename) = some (.returned fd.val [] opened) ∧
        (opened.fileDesc fd).flags = 1 ∧ (opened.fileDesc fd).filePos = 0 ∧
        (dentry.fileType = 2 → ∀ ops final,
          Meets (step img link) (Keeps img s.running.processNum fd) opened ops →
          run (step img link) opened ops = some final →
          (readsOn (perform img link) s.running.processNum fd opened ops).map Prod.snd =
            (img.slices dentry.inodeNum 0
              ((readsOn (perform img link) s.running.processNum fd opened ops).map Prod.fst)).map
              Answer.ofBytes)) := by
  refine ⟨fun bytes next => openFile_failed, ?_⟩
  have hname : (some filename).bind (readDentryByName img) = some dentry := hfound
  obtain ⟨index, hindex, hdentry, _⟩ := readDentryByName_eq_some hfound
  have htype : dentry.fileType ≤ 2 := hdentry ▸ hformed.fileType_le index hindex
  have hinode : dentry.inodeNum < img.inodeCount := hdentry ▸ hformed.inodeNum_lt index hindex
  cases hfind : openSlots.find? fun fd => (s.fileDesc fd).flags = 0 with
  | none =>
      refine .inl ⟨fun fd => find?_openSlots_eq_none hfind, ?_⟩
      simp only [openFile, hname, hfind]
  | some fd =>
      have hleast := find?_openSlots_leastFree hfind
      obtain ⟨_, hstart⟩ := hboot.scheduled hfirst
      obtain ⟨family, hsched⟩ := run_scheduled_of_proper hstart
        (hshell.imp fun state op hends => ⟨hformed.opensTyped state op, hends⟩) hreach
      obtain ⟨opened, row, inode, hopen, hdesc, hholds, _, _, hfile⟩ :=
        openFile_holds hsched htype hname hfind
      refine .inr ⟨fd, opened, hleast, hopen, by rw [hdesc], by rw [hdesc], ?_⟩
      intro hregular ops final hkeeps hrun
      obtain ⟨rfl, rfl⟩ := hfile hregular
      exact readsOn_file hformed.opensTyped hinode
        (hformed.inodeLength_le dentry.inodeNum hinode) (Nat.zero_le _) hleast.above hholds
        hkeeps hrun

end Law

theorem smallImage_wellFormed : smallImage.WellFormed where
  dirCount_le := by decide +kernel
  fileType_le := by
    have hcount : smallImage.dirCount = 4 := by decide +kernel
    rw [hcount]
    decide +kernel
  inodeNum_lt := by
    have hcount : smallImage.dirCount = 4 := by decide +kernel
    rw [hcount]
    decide +kernel
  inodeLength_le := by
    have hcount : smallImage.inodeCount = 2 := by decide +kernel
    rw [hcount]
    decide +kernel
  dataBlockNum_lt inode hinode index hindex := by
    have hcount : smallImage.inodeCount = 2 := by decide +kernel
    have hshort : ∀ inode < 2, smallImage.inodeLength inode ≤ 4096 := by decide +kernel
    have hblocks : ∀ inode < 2, smallImage.dataBlockNum inode 0 < smallImage.dataCount := by
      decide +kernel
    rw [hcount] at hinode
    have hfirst : index = 0 := by
      have hle := hshort inode hinode
      omega
    subst hfirst
    exact hblocks inode hinode
  fits := by decide +kernel

def CallResult.toReturn : CallResult → Option (ℤ × List UInt8 × Kernel)
  | .returned value bytes s => some (value, bytes, s)
  | .pageFault _ => none

theorem exists_returned_of_eval {β : Type*} {call : Option CallResult} {check : Kernel → β}
    {value : ℤ} {bytes : List UInt8} {answer : β}
    (heval : (call.bind CallResult.toReturn).map
      (fun result => (result.1, result.2.1, check result.2.2)) = some (value, bytes, answer)) :
    ∃ s, call = some (.returned value bytes s) ∧ check s = answer := by
  obtain ⟨result, hresult, hanswer⟩ := Option.map_eq_some_iff.mp heval
  obtain ⟨ending, rfl, hending⟩ := Option.bind_eq_some_iff.mp hresult
  cases ending with
  | pageFault s => contradiction
  | returned value' bytes' s =>
      obtain rfl := Option.some.inj hending
      simp only [Prod.mk.injEq] at hanswer
      obtain ⟨rfl, rfl, hcheck⟩ := hanswer
      exact ⟨s, rfl, hcheck⟩

end VirtualOS
