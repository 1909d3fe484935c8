import VirtualOS.PageMoves
import VirtualOS.PageWalk
import Mathlib.Order.CompletePartialOrder
import Mathlib.Tactic

/-!
# Address translation

`page_init` and the walk of its tables.  After the first process, whatever
sequence of `execute`, `halt`, `vidmap`, ticks and switches follows, an address
outside the page at 132MB translates in one of four ways: the text page and the
kernel to themselves and not for user code, 128MB to the page of the process on
the running terminal, and everything else not at all.
-/

namespace VirtualOS

open PartialRuns PageWalk

/-! ## `page_init` -/

/-- The two tables that `page_init` fills. -/
structure PageTables where
  pageDirectory : ℕ → BitVec 32
  pageTable : ℕ → BitVec 32

/-- One round of the loop of `page_init`. -/
def pageInitEntry (tables : PageTables) (i : ℕ) : PageTables where
  pageDirectory := Function.update tables.pageDirectory i 0x02
  pageTable := Function.update tables.pageTable i ((BitVec.ofNat 32 i <<< 12) ||| 0x02)

/-- `page_init`, when `PageTable` is linked at `address`. -/
def pageInit (address : BitVec 32) (tables : PageTables) : PageTables :=
  let tables := (List.range 1024).foldl pageInitEntry tables
  let videoIndex := 0xB8000 >>> 12
  { pageDirectory := Function.update
      (Function.update tables.pageDirectory 0 (address ||| (0x02 ||| 0x01)))
      1 (0x400000 ||| 0x80 ||| (0x02 ||| 0x01))
    pageTable := Function.update tables.pageTable videoIndex
      (tables.pageTable videoIndex ||| (0x02 ||| 0x01)) }

theorem foldl_pageInitEntry (tables : PageTables) (n i : ℕ) :
    ((List.range n).foldl pageInitEntry tables).pageDirectory i =
        (if i < n then 0x02 else tables.pageDirectory i) ∧
      ((List.range n).foldl pageInitEntry tables).pageTable i =
        (if i < n then (BitVec.ofNat 32 i <<< 12) ||| 0x02 else tables.pageTable i) := by
  induction n with
  | zero => simp
  | succ n ih =>
      obtain ⟨hdirectory, htable⟩ := ih
      simp only [List.range_succ, List.foldl_append, List.foldl_cons, List.foldl_nil,
        pageInitEntry]
      by_cases hi : i = n
      · subst hi
        simp
      · have hlt : i < n + 1 ↔ i < n := by omega
        simp [hi, hdirectory, htable, hlt]

theorem pageInit_directory_zero (address : BitVec 32) (tables : PageTables) :
    (pageInit address tables).pageDirectory 0 = address ||| (0x02 ||| 0x01) := by
  simp [pageInit]

theorem pageInit_directory_one (address : BitVec 32) (tables : PageTables) :
    (pageInit address tables).pageDirectory 1 = 0x400083 := by
  simp [pageInit]

theorem pageInit_directory_of_ne {address : BitVec 32} {tables : PageTables} {i : ℕ}
    (hi : i < 1024) (hzero : i ≠ 0) (hone : i ≠ 1) :
    (pageInit address tables).pageDirectory i = 0x02 := by
  simp [pageInit, hzero, hone, (foldl_pageInitEntry tables 1024 i).1, hi]

theorem pageInit_table_video (address : BitVec 32) (tables : PageTables) :
    (pageInit address tables).pageTable 0xB8 = 0xB8003 := by
  simp [pageInit, (foldl_pageInitEntry tables 1024 184).2]

theorem pageInit_table_of_ne {address : BitVec 32} {tables : PageTables} {i : ℕ}
    (hi : i < 1024) (hvideo : i ≠ 0xB8) :
    (pageInit address tables).pageTable i = (BitVec.ofNat 32 i <<< 12) ||| 0x02 := by
  simp [pageInit, hvideo, (foldl_pageInitEntry tables 1024 i).2, hi]

/-! ## The walk -/

/-- Where the linker puts the page tables and the terminals: the tables on frames
of their own, the terminals in the 4MB of the kernel. -/
structure Layout extends Link where
  pageTable : BitVec 32
  pageTable_aligned : frameOf pageTable = pageTable
  userPageTable_aligned : frameOf userPageTable = userPageTable
  videoPageTable_aligned : frameOf videoPageTable = videoPageTable
  user_ne_page : userPageTable ≠ pageTable
  video_ne_page : videoPageTable ≠ pageTable
  video_ne_user : videoPageTable ≠ userPageTable
  videoMemory_kernel : ∀ t, 0x400000 ≤ (videoMemory t).toNat ∧ (videoMemory t).toNat < 0x800000

/-- Physical memory as the walk reads it: the three tables, and other words. -/
def Kernel.frames (s : Kernel) (layout : Layout) (pageTable : ℕ → BitVec 32)
    (rest : BitVec 32 → ℕ → BitVec 32) (address : BitVec 32) : ℕ → BitVec 32 :=
  if address = layout.pageTable then pageTable
  else if address = layout.userPageTable then s.userPageTable
  else if address = layout.videoPageTable then s.videoPageTable
  else rest address

def Kernel.translate (s : Kernel) (layout : Layout) (pageTable : ℕ → BitVec 32)
    (rest : BitVec 32 → ℕ → BitVec 32) (address : BitVec 32) : Option Translation :=
  walk s.pageDirectory (s.frames layout pageTable rest) address

/-- The address space of process `num`, outside the 4MB at 132MB. -/
structure AddressSpace (translate : BitVec 32 → Option Translation) (num : ℕ) : Prop where
  video : ∀ v, 0xB8000 ≤ v.toNat → v.toNat < 0xB9000 → translate v = some ⟨v, false⟩
  kernel : ∀ v, 0x400000 ≤ v.toNat → v.toNat < 0x800000 → translate v = some ⟨v, false⟩
  user : ∀ v, 0x8000000 ≤ v.toNat → v.toNat < 0x8400000 →
    translate v =
      some ⟨0x800000 + (BitVec.ofNat 32 num - 1) * 0x400000 + (v - 0x8000000), true⟩
  absent : ∀ v, ¬ (0xB8000 ≤ v.toNat ∧ v.toNat < 0xB9000) →
    ¬ (0x400000 ≤ v.toNat ∧ v.toNat < 0x800000) →
    ¬ (0x8000000 ≤ v.toNat ∧ v.toNat < 0x8800000) → translate v = none

/-! ## The entries -/

/-- The physical address of the user page of process `num`. -/
def userBase (num : ℕ) : BitVec 32 := 0x800000 + (BitVec.ofNat 32 num - 1) * 0x400000

theorem userPage_eq_or (num : ℕ) : userPage num = userBase num ||| 0x87 := by
  cases num with
  | zero => decide
  | succ num =>
      have hpred : BitVec.ofNat 32 (num + 1) - 1#32 = BitVec.ofNat 32 num := by
        rw [BitVec.ofNat_add]
        exact BitVec.add_sub_cancel _ _
      simp [userPage, userBase, hpred, eightMb, fourMb, BitVec.or_assoc]

theorem userBase_and (num : ℕ) : userBase num &&& 0xFFC00000 = userBase num := by
  -- a multiple of 4MB is a shift by 22, and so is the mask
  have hshift : userBase num = (2 + (BitVec.ofNat 32 num - 1)) <<< (22 : ℕ) := by
    rw [BitVec.shiftLeft_eq_mul_twoPow, BitVec.add_mul]
    rfl
  have hmask : (0xFFC00000 : BitVec 32) = BitVec.allOnes 32 <<< (22 : ℕ) := by decide
  rw [hshift, hmask, ← BitVec.shiftLeft_and_distrib, BitVec.and_allOnes]

theorem userPage_spec (num : ℕ) :
    Present (userPage num) ∧ Large (userPage num) ∧
      userPage num &&& 0xFFC00000 = userBase num ∧ (userPage num).getLsbD 2 = true := by
  rw [userPage_eq_or]
  refine ⟨?_, ?_, ?_, ?_⟩
  · rw [Present, BitVec.getLsbD_or]
    simp
  · rw [Large, BitVec.getLsbD_or]
    simp
  · rw [BitVec.and_or_distrib_right, userBase_and]
    simp
  · rw [BitVec.getLsbD_or]
    simp

theorem not_present_table {i : ℕ} : ¬ Present ((BitVec.ofNat 32 i <<< 12) ||| 0x02) := by
  rw [Present, BitVec.getLsbD_or, BitVec.getLsbD_shiftLeft]
  simp

/-! ## The address space -/

section Walks

variable {s : Kernel} {layout : Layout} {tables : PageTables}
  {rest : BitVec 32 → ℕ → BitVec 32}

/-- The directory is that of `page_init`, except for the two entries which the
operations move, and the first of these is that of the running process. -/
structure Kernel.Paged (s : Kernel) (layout : Layout) (tables : PageTables) : Prop where
  page : s.pageDirectory 32 = userPage s.running.processNum
  rest : ∀ i, i ≠ 32 → i ≠ 33 →
    s.pageDirectory i = (pageInit layout.pageTable tables).pageDirectory i

theorem translate_low (hpaged : s.Paged layout tables) {v : BitVec 32}
    (hlow : v.toNat < 0x400000) :
    s.translate layout (pageInit layout.pageTable tables).pageTable rest v =
      if v.toNat / 2 ^ 12 = 0xB8 then some ⟨v, false⟩ else none := by
  have hindex : v.toNat / 2 ^ 22 = 0 := by omega
  have hpde : s.pageDirectory (v.toNat / 2 ^ 22) = layout.pageTable ||| 0x03 := by
    rw [hindex, hpaged.rest 0 (by omega) (by omega), pageInit_directory_zero]
    rfl
  obtain ⟨hpresent, hsmall, hframe, huser⟩ :=
    tableEntry_spec 0x03 layout.pageTable_aligned rfl rfl rfl
  have hword : v.toNat / 2 ^ 12 % 2 ^ 10 = v.toNat / 2 ^ 12 := Nat.mod_eq_of_lt (by omega)
  have hpte : s.frames layout (pageInit layout.pageTable tables).pageTable rest
      (frameOf (layout.pageTable ||| 0x03)) (v.toNat / 2 ^ 12 % 2 ^ 10) =
        (pageInit layout.pageTable tables).pageTable (v.toNat / 2 ^ 12) := by
    rw [hframe, hword, Kernel.frames, if_pos rfl]
  rw [Kernel.translate, walk_of_table hpde hpresent hsmall hpte, huser]
  by_cases hvideo : v.toNat / 2 ^ 12 = 0xB8
  · have hbase : frameOf 0xB8003 + (v &&& 0xFFF) = v :=
      base_add_offset (k := 12) rfl (by rw [hvideo]; rfl)
    rw [if_pos hvideo, hvideo, pageInit_table_video, hbase, if_neg (by decide)]
    rfl
  · rw [if_neg hvideo, pageInit_table_of_ne (by omega) hvideo, if_pos not_present_table]

theorem translate_kernel (hpaged : s.Paged layout tables) {pageTable : ℕ → BitVec 32}
    {v : BitVec 32} (hlow : 0x400000 ≤ v.toNat) (hhigh : v.toNat < 0x800000) :
    s.translate layout pageTable rest v = some ⟨v, false⟩ := by
  have hindex : v.toNat / 2 ^ 22 = 1 := by omega
  have hpde : s.pageDirectory (v.toNat / 2 ^ 22) = 0x400083 := by
    rw [hindex, hpaged.rest 1 (by omega) (by omega), pageInit_directory_one]
  have hbase : (0x400083 &&& 0xFFC00000 : BitVec 32) + (v &&& 0x3FFFFF) = v :=
    base_add_offset (k := 22) rfl (by rw [hindex]; rfl)
  rw [Kernel.translate, walk_of_large hpde (by decide) (by decide), hbase]
  rfl

theorem translate_userPage {num : ℕ} (hpage : s.pageDirectory 32 = userPage num)
    {pageTable : ℕ → BitVec 32} {v : BitVec 32} (hlow : 0x8000000 ≤ v.toNat)
    (hhigh : v.toNat < 0x8400000) :
    s.translate layout pageTable rest v = some ⟨userBase num + (v - 0x8000000), true⟩ := by
  have hindex : v.toNat / 2 ^ 22 = 32 := by omega
  have hpde : s.pageDirectory (v.toNat / 2 ^ 22) = userPage num := by
    rw [hindex, hpage]
  obtain ⟨hpresent, hlarge, hbase, huser⟩ := userPage_spec num
  have hoffset : v &&& 0x3FFFFF = v - 0x8000000 := by
    apply BitVec.eq_of_toNat_eq
    rw [and_mask_toNat (k := 22) _ rfl, BitVec.toNat_sub_of_le hlow]
    have hstart : (0x8000000 : BitVec 32).toNat = 0x8000000 := rfl
    omega
  rw [Kernel.translate, walk_of_large hpde hpresent hlarge, hbase, huser, hoffset]

theorem translate_absent (hpaged : s.Paged layout tables) {pageTable : ℕ → BitVec 32}
    {v : BitVec 32} (hlow : 0x800000 ≤ v.toNat)
    (hwindow : ¬ (0x8000000 ≤ v.toNat ∧ v.toNat < 0x8800000)) :
    s.translate layout pageTable rest v = none := by
  have hlt := v.isLt
  have hpde : s.pageDirectory (v.toNat / 2 ^ 22) = 0x02 := by
    rw [hpaged.rest _ (by omega) (by omega),
      pageInit_directory_of_ne (by omega) (by omega) (by omega)]
  refine walk_of_not_present ?_
  rw [hpde]
  decide

theorem Kernel.Paged.addressSpace (hpaged : s.Paged layout tables) :
    AddressSpace (s.translate layout (pageInit layout.pageTable tables).pageTable rest)
      s.running.processNum where
  video v hlow hhigh := by
    rw [translate_low hpaged (by omega), if_pos (by omega)]
  kernel v hlow hhigh := translate_kernel hpaged hlow hhigh
  user v hlow hhigh := translate_userPage hpaged.page hlow hhigh
  absent v hvideo hkernel hwindow := by
    by_cases hlow : v.toNat < 0x400000
    · rw [translate_low hpaged hlow, if_neg (by omega)]
    · exact translate_absent hpaged (by omega) hwindow

end Walks

/-! ## Runs -/

def Op.Maps : Op → Prop
  | .execute _ _ => True
  | .halt _ _ => True
  | .vidmap _ => True
  | .pit _ => True
  | .switchTerminal _ _ _ => True
  | _ => False

/-- The process of the running terminal is on its page, and no process has a
descriptor besides its two of the terminal. -/
structure ProcessView.OnOwnPage (v : ProcessView) : Prop where
  page : v.page = userPage v.current
  noneOpen : ∀ address (fd : Fin 8), 1 < fd.val →
    ((v.pcb address).fileDescArray fd).flags = 0

namespace ProcessView.OnOwnPage

variable {v next : ProcessView}

theorem callable (hown : v.OnOwnPage) : v.currentPcb.Callable := by
  intro fd hfd hflags
  exact absurd (hown.noneOpen v.pcbPtr fd hfd) hflags

theorem update_noneOpen
    (hnone : ∀ address (fd : Fin 8), 1 < fd.val →
      ((v.pcb address).fileDescArray fd).flags = 0)
    (changed : BitVec 32) {pcb : Pcb}
    (hpcb : ∀ fd : Fin 8, 1 < fd.val → (pcb.fileDescArray fd).flags = 0)
    (address : BitVec 32) (fd : Fin 8) (hfd : 1 < fd.val) :
    ((Function.update v.pcb changed pcb address).fileDescArray fd).flags = 0 := by
  by_cases haddress : address = changed
  · subst haddress
    simpa using hpcb fd hfd
  · simpa [haddress] using hnone address fd hfd

theorem newPcb_flags (num prev : ℕ) (argument : List UInt8) (frame : StackFrame) {pcb : Pcb}
    {fd : Fin 8} (hfd : 1 < fd.val) :
    ((newPcb prev num argument frame pcb).fileDescArray fd).flags =
      (pcb.fileDescArray fd).flags := by
  have hbig : ¬ fd.val ≤ 1 := by omega
  simp [newPcb, hbig]

theorem start
    (hnone : ∀ address (fd : Fin 8), 1 < fd.val →
      ((v.pcb address).fileDescArray fd).flags = 0)
    (num : ℕ) (argument : List UInt8) (frame : StackFrame) :
    (v.start num argument frame).OnOwnPage where
  page := by simp [ProcessView.start, ProcessView.current]
  noneOpen := by
    refine update_noneOpen hnone _ fun fd hfd => ?_
    rw [newPcb_flags _ _ _ _ hfd]
    exact hnone _ fd hfd

theorem save (hown : v.OnOwnPage) (cpu : Cpu) : (v.save cpu).OnOwnPage where
  page := hown.page
  noneOpen := update_noneOpen hown.noneOpen _ fun fd hfd => hown.noneOpen _ fd hfd

theorem resume (hown : v.OnOwnPage) : v.resume.OnOwnPage where
  page := by simp [ProcessView.resume, ProcessView.current]
  noneOpen := by
    refine update_noneOpen hown.noneOpen _ fun fd hfd => ?_
    have hclosed : (v.currentPcb.fileDescArray fd).flags = 0 := hown.noneOpen _ fd hfd
    simp [cleanPcb, hclosed]

theorem move (hown : v.OnOwnPage) (hmove : Move v none next) : next.OnOwnPage := by
  cases hmove with
  | stay => exact hown
  | touch _ pcb hpcb =>
      cases hpcb with
      | saved cpu => exact hown.save cpu
  | start num argument frame hfree => exact .start hown.noneOpen num argument frame
  | dispatch t cpu hflag => exact ⟨rfl, (hown.save cpu).noneOpen⟩
  | «begin» t cpu num argument frame hflag hfree =>
      exact .start (v := { v.save cpu with terminalNum := t }) (hown.save cpu).noneOpen
        num argument frame

end ProcessView.OnOwnPage

section Runs

variable {img : Image} {link : Link} {s next : Kernel}

theorem step_onOwnPage {op : Op} (hop : op.Maps) (hown : s.view.OnOwnPage)
    (hstep : step img link s op = some next) : next.view.OnOwnPage := by
  obtain ⟨⟨final, answer⟩, hperform, rfl⟩ := Option.map_eq_some_iff.mp hstep
  cases op with
  | execute command frame =>
      obtain ⟨execution, hexecute, heq⟩ := Option.map_eq_some_iff.mp hperform
      have hmoves := execute_moves hexecute
      cases execution with
      | returned value s' =>
          obtain ⟨rfl, _⟩ := Prod.mk.inj heq
          exact (show s'.view = s.view from hmoves) ▸ hown
      | started s' entry image =>
          obtain ⟨rfl, _⟩ := Prod.mk.inj heq
          obtain ⟨num, argument, hfree, hview⟩ := hmoves
          exact hview ▸ .start hown.noneOpen num argument frame
  | halt status frame =>
      obtain ⟨halting, hhalt, heq⟩ := Option.map_eq_some_iff.mp hperform
      have hmoves := halt_moves hown.callable hhalt
      cases halting with
      | resumed value s' =>
          obtain ⟨rfl, _⟩ := Prod.mk.inj heq
          exact hmoves.2 ▸ hown.resume
      | restarted s' entry image =>
          obtain ⟨rfl, _⟩ := Prod.mk.inj heq
          obtain ⟨num, argument, -, -, hview⟩ := hmoves
          exact hview ▸ .start (v := s.view.vacate) hown.noneOpen num argument frame
  | vidmap screenStart =>
      obtain ⟨rfl, _⟩ := Prod.mk.inj (Option.some.inj hperform)
      exact (view_vidmap link s screenStart).symm ▸ hown
  | pit cpu =>
      obtain ⟨rfl, _⟩ := Prod.mk.inj (Option.some.inj hperform)
      exact hown.move (pitHandler_move link s cpu)
  | switchTerminal newTerminal cpu frame =>
      obtain ⟨s', hswitch, heq⟩ := Option.map_eq_some_iff.mp hperform
      obtain ⟨rfl, _⟩ := Prod.mk.inj heq
      exact hown.move (switchTerminal_move hswitch)
  | _ => exact hop.elim

theorem Kernel.Remaps.directory_eq (hremaps : s.Remaps next) {i : ℕ} (hi : i ≠ 32) :
    next.pageDirectory i = s.pageDirectory i := by
  obtain ⟨-, entry, hmapping⟩ := hremaps
  have hdirectory := congrFun (congrArg Mapping.directory hmapping) i
  exact hdirectory.trans (Function.update_of_ne hi _ _)

theorem step_directory_eq {op : Op} (hop : op.Maps) (hown : s.view.OnOwnPage)
    (hstep : step img link s op = some next) {i : ℕ} (hpage : i ≠ 32) (hvidmap : i ≠ 33) :
    next.pageDirectory i = s.pageDirectory i := by
  obtain ⟨⟨final, answer⟩, hperform, rfl⟩ := Option.map_eq_some_iff.mp hstep
  cases op with
  | execute command frame =>
      obtain ⟨execution, hexecute, heq⟩ := Option.map_eq_some_iff.mp hperform
      have hkernel : final = execution.kernel := by
        cases execution <;> exact (Prod.mk.inj heq).1.symm
      exact hkernel ▸ (execute_remaps hexecute).directory_eq hpage
  | halt status frame =>
      obtain ⟨halting, hhalt, heq⟩ := Option.map_eq_some_iff.mp hperform
      have hremaps := halt_remaps hown.callable hhalt
      rw [heq] at hremaps
      exact hremaps.directory_eq hpage
  | vidmap screenStart =>
      obtain ⟨rfl, _⟩ := Prod.mk.inj (Option.some.inj hperform)
      by_cases hstart : AcceptsStart screenStart
      · have hmapping := (vidmap_of_accepts link s hstart).1
        exact (congrFun (congrArg Mapping.directory hmapping) i).trans
          (Function.update_of_ne hvidmap _ _)
      · rw [vidmap_of_not_accepts link s hstart]
  | pit cpu =>
      obtain ⟨rfl, _⟩ := Prod.mk.inj (Option.some.inj hperform)
      by_cases hidle : (s.terminalT 1).flag = 0 ∧ (s.terminalT 2).flag = 0
      · rw [pitHandler, if_pos hidle]
      · obtain ⟨-, entry, hmapping⟩ := pitHandler_mapping link hidle cpu
        refine (congrFun (congrArg Mapping.directory hmapping) i).trans ?_
        split <;>
        exact (Function.update_of_ne hvidmap _ _).trans (Function.update_of_ne hpage _ _)
  | switchTerminal newTerminal cpu frame =>
      obtain ⟨s', hswitch, heq⟩ := Option.map_eq_some_iff.mp hperform
      obtain ⟨rfl, _⟩ := Prod.mk.inj heq
      obtain ⟨-, entry, hmapping⟩ := switchTerminal_mapping hswitch
      exact (congrFun (congrArg Mapping.directory hmapping) i).trans
        (Function.update_of_ne hpage _ _)
  | _ => exact hop.elim

theorem step_paged {layout : Layout} {tables : PageTables} {op : Op} (hop : op.Maps)
    (hown : s.view.OnOwnPage) (hpaged : s.Paged layout tables)
    (hstep : step img link s op = some next) : next.Paged layout tables where
  page := (step_onOwnPage hop hown hstep).page
  rest i hpage hvidmap :=
    (step_directory_eq hop hown hstep hpage hvidmap).trans (hpaged.rest i hpage hvidmap)

theorem run_paged {layout : Layout} {tables : PageTables} {ops : List Op} {final : Kernel}
    (hops : ∀ op ∈ ops, op.Maps) (hown : s.view.OnOwnPage) (hpaged : s.Paged layout tables)
    (hrun : run (step img link) s ops = some final) : final.Paged layout tables := by
  have hinv := run_invariant_of_meets
    (fun state : Kernel => state.view.OnOwnPage ∧ state.Paged layout tables)
    (fun state op next hstate hop hstep =>
      ⟨step_onOwnPage hop hstate.1 hstep, step_paged hop hstate.1 hstate.2 hstep⟩)
    ⟨hown, hpaged⟩ (meets_of_forall_mem hops s) hrun
  exact hinv.2

theorem Booted.onOwnPage {boot first : Kernel} {command : Option (List UInt8)}
    {frame : StackFrame} {entry image : List UInt8} (hboot : Booted boot)
    (hfirst : execute img boot command frame = some (.started first entry image)) :
    first.view.OnOwnPage := by
  obtain ⟨num, argument, -, hview⟩ := execute_moves hfirst
  exact hview ▸ .start (fun address fd _ => hboot.flags address fd) num argument frame

theorem Booted.paged {layout : Layout} {tables : PageTables} {boot first : Kernel}
    {command : Option (List UInt8)} {frame : StackFrame} {entry image : List UInt8}
    (hboot : Booted boot)
    (hpages : boot.pageDirectory = (pageInit layout.pageTable tables).pageDirectory)
    (hfirst : execute img boot command frame = some (.started first entry image)) :
    first.view.OnOwnPage ∧ first.Paged layout tables := by
  have hown := hboot.onOwnPage hfirst
  refine ⟨hown, hown.page, fun i hpage _ => ?_⟩
  exact ((execute_remaps hfirst).directory_eq hpage).trans (congrFun hpages i)

end Runs

/-! ## Pages of different processes -/

def Kernel.Live (s : Kernel) (num : ℕ) : Prop :=
  1 ≤ num ∧ num ≤ 6 ∧ s.process num = 1

def userAddresses (num : ℕ) : Set (BitVec 32) :=
  { address | ∃ v : BitVec 32, 0x8000000 ≤ v.toNat ∧ v.toNat < 0x8400000 ∧
    address = userBase num + (v - 0x8000000) }

def kernelAddresses : Set (BitVec 32) :=
  { address | 0x400000 ≤ address.toNat ∧ address.toNat < 0x800000 }

def videoAddresses : Set (BitVec 32) :=
  { address | 0xB8000 ≤ address.toNat ∧ address.toNat < 0xB9000 }

theorem userAddresses_bounds {num : ℕ} (hpos : 1 ≤ num) (hmax : num ≤ 6)
    {address : BitVec 32} (haddress : address ∈ userAddresses num) :
    (num + 1) * 0x400000 ≤ address.toNat ∧ address.toNat < (num + 2) * 0x400000 := by
  obtain ⟨v, hlow, hhigh, rfl⟩ := haddress
  have hbase : (userBase num).toNat = (num + 1) * 0x400000 := by
    interval_cases num <;> rfl
  have hoffset : (v - 0x8000000).toNat = v.toNat - 0x8000000 := BitVec.toNat_sub_of_le hlow
  rw [BitVec.toNat_add, hbase, hoffset]
  omega

/-- User pages of live processes meet neither each other nor what only the kernel
may use. -/
structure Kernel.SeparatePages (s : Kernel) : Prop where
  processes : ∀ num other, s.Live num → s.Live other → num ≠ other →
    Disjoint (userAddresses num) (userAddresses other)
  kernel : ∀ num, s.Live num → Disjoint (userAddresses num) kernelAddresses
  video : ∀ num, s.Live num → Disjoint (userAddresses num) videoAddresses

theorem Kernel.separatePages (s : Kernel) : s.SeparatePages where
  processes num other hnum hother hne := by
    rw [Set.disjoint_left]
    intro address haddress haddress'
    have hbounds := userAddresses_bounds hnum.1 hnum.2.1 haddress
    have hbounds' := userAddresses_bounds hother.1 hother.2.1 haddress'
    omega
  kernel num hnum := by
    rw [Set.disjoint_left]
    rintro address haddress ⟨_, hhigh⟩
    have hbounds := userAddresses_bounds hnum.1 hnum.2.1 haddress
    have hpos := hnum.1
    omega
  video num hnum := by
    rw [Set.disjoint_left]
    rintro address haddress ⟨_, hhigh⟩
    have hbounds := userAddresses_bounds hnum.1 hnum.2.1 haddress
    have hpos := hnum.1
    omega

/-! ## The law -/

/-- Tables and terminals where the shipped kernel has them. -/
def smallLayout : Layout where
  userPageTable := 0x409000
  videoPageTable := 0x40A000
  videoMemory t := 0x40B000 + BitVec.ofNat 32 (4160 * t.val)
  pageTable := 0x40F000
  pageTable_aligned := by decide
  userPageTable_aligned := by decide
  videoPageTable_aligned := by decide
  user_ne_page := by decide
  video_ne_page := by decide
  video_ne_user := by decide
  videoMemory_kernel := by decide

def zeroTables : PageTables := ⟨fun _ => 0, fun _ => 0⟩

def pagedKernel : Kernel :=
  { bootKernel with
    pageDirectory := (pageInit smallLayout.pageTable zeroTables).pageDirectory }

theorem pagedKernel_booted : Booted pagedKernel := { bootKernel_booted with }

def pagedShell : Kernel := startProcess (loadCurrentProcess pagedKernel) 1 [] zeroFrame

theorem execute_pagedKernel : ∃ entry image,
    execute smallImage pagedKernel (some shellName) zeroFrame =
      some (.started pagedShell entry image) := by
  have hfound : freeSlot (loadCurrentProcess pagedKernel) = some 1 := by decide
  exact execute_shell_eq zeroFrame smallImage_loadable hfound

/-- After `page_init` and the first process, every run of the operations that
change a page table keeps the address space of the running process. -/
theorem addressSpace_of_run {img : Image} {layout : Layout} {tables : PageTables}
    {rest : BitVec 32 → ℕ → BitVec 32} {boot first final : Kernel}
    {command : Option (List UInt8)} {frame : StackFrame} {entry image : List UInt8}
    {ops : List Op} (hboot : Booted boot)
    (hpages : boot.pageDirectory = (pageInit layout.pageTable tables).pageDirectory)
    (hfirst : execute img boot command frame = some (.started first entry image))
    (hops : ∀ op ∈ ops, op.Maps)
    (hrun : run (step img layout.toLink) first ops = some final) :
    AddressSpace (final.translate layout (pageInit layout.pageTable tables).pageTable rest)
        final.running.processNum ∧ final.SeparatePages := by
  obtain ⟨hown, hpaged⟩ := hboot.paged hpages hfirst
  exact ⟨(run_paged hops hown hpaged hrun).addressSpace, final.separatePages⟩

end VirtualOS
