import VirtualOS.FileReads
import VirtualOS.VidmapDisplay
import Mathlib.Tactic

/-!
# The stores of a load

`execute` reads a program to `0x8048000`, through the page tables that it has just
changed: each byte goes where the walk of its address leads, and a page that is not
present ends the load.  Wherever a process is started, the stores are those of its
program on its own page.
-/

namespace VirtualOS

open PageWalk

/-! ## The stores of the load -/

def programImageAddr : BitVec 32 := 0x8048000

/-- A byte that the load has stored, and where the page tables have led it. -/
structure LoadedByte where
  address : BitVec 32
  physical : BitVec 32
  byte : UInt8

/-- The stores of `read_data` into a buffer at `address`.  A page that is not present ends
them with a fault. -/
def loadStores (translate : BitVec 32 → Option Translation) :
    BitVec 32 → List UInt8 → List LoadedByte
  | _, [] => []
  | address, byte :: rest =>
      match translate address with
      | none => []
      | some translation =>
          ⟨address, translation.physical, byte⟩ :: loadStores translate (address + 1) rest

/-- The bytes of a program, each at its place on the page of process `num`. -/
def pageStores (num : ℕ) (bytes : List UInt8) : List LoadedByte :=
  bytes.mapIdx fun k byte =>
    ⟨programImageAddr + BitVec.ofNat 32 k, userBase num + (0x48000 + BitVec.ofNat 32 k), byte⟩

/-- Physical memory after a list of stores. -/
def memoryAfter (memory : BitVec 32 → UInt8) (stores : List LoadedByte) : BitVec 32 → UInt8 :=
  stores.foldl (fun memory store => Function.update memory store.physical store.byte) memory

/-- The slot for which `execute` has mapped a page when it comes to its load, and the bytes
that it loads. -/
def executeLoad (img : Image) (s : Kernel) (command : Option (List UInt8))
    (frame : StackFrame) : Option (ℕ × List UInt8) :=
  command.bind fun line =>
    (freeSlot s).bind fun num =>
      let words := parseCommand line
      if words.1.length ≥ keyboardBufSize ∨ words.2.length ≥ keyboardBufSize then none
      else
        (acceptedFile img line frame).map fun exeDentry =>
          (num, (readData img exeDentry.inodeNum 0 fourMb.toNat).2)

section Through

variable (img : Image) (layout : Layout) (pageTable : ℕ → BitVec 32)
  (rest : BitVec 32 → ℕ → BitVec 32) (s : Kernel) (command : Option (List UInt8))
  (frame : StackFrame)

/-- What `execute` stores on user pages: the load, through the page tables as they are
when it begins. -/
def executeStores : List LoadedByte :=
  match executeLoad img s command frame with
  | none => []
  | some load =>
      let mapped := s.setPageDirectory pdeIndex (userPage load.1)
      loadStores (mapped.translate layout pageTable rest) programImageAddr load.2

/-- `execute` with this load: the kernel in which the process starts.  It is `none` where
nothing is started, because `execute` returns or because the load faults. -/
def executeLoading : Option Kernel :=
  command.bind fun line =>
    (executeLoad img s command frame).bind fun load =>
      if (executeStores img layout pageTable rest s command frame).length = load.2.length then
        some (startProcess (loadCurrentProcess s) load.1 (parseCommand line).2 frame)
      else none

end Through

theorem address_add_succ (start : BitVec 32) (k : ℕ) :
    start + BitVec.ofNat 32 (k + 1) = start + 1 + BitVec.ofNat 32 k := by
  rw [BitVec.ofNat_add, BitVec.add_comm (BitVec.ofNat 32 k), ← BitVec.add_assoc]
  rfl

section Stores

variable {translate : BitVec 32 → Option Translation} {start : BitVec 32} {bytes : List UInt8}

theorem loadStores_addresses (translate : BitVec 32 → Option Translation) (start : BitVec 32)
    (bytes : List UInt8) :
    (loadStores translate start bytes).map LoadedByte.address =
      (List.range (loadStores translate start bytes).length).map
        fun k => start + BitVec.ofNat 32 k := by
  induction bytes generalizing start with
  | nil => rfl
  | cons byte rest ih =>
      unfold loadStores
      cases translate start with
      | none => rfl
      | some translation =>
          simp only [List.map_cons, List.length_cons, List.range_succ_eq_map, List.map_map, ih,
            Function.comp_def, Nat.succ_eq_add_one, address_add_succ]
          simp

theorem length_loadStores
    (hpresent : ∀ k < bytes.length, (translate (start + BitVec.ofNat 32 k)).isSome) :
    (loadStores translate start bytes).length = bytes.length := by
  induction bytes generalizing start with
  | nil => rfl
  | cons byte rest ih =>
      have hfirst : (translate start).isSome := by simpa using hpresent 0 (by simp)
      obtain ⟨translation, htranslate⟩ := Option.isSome_iff_exists.mp hfirst
      have hrest : ∀ k < rest.length, (translate (start + 1 + BitVec.ofNat 32 k)).isSome := by
        intro k hk
        have hnext := hpresent (k + 1) (by simpa using hk)
        rwa [address_add_succ] at hnext
      simp only [loadStores, htranslate, List.length_cons, ih hrest]

/-- A load that no page stops. -/
theorem loadStores_eq_mapIdx {physical : ℕ → BitVec 32}
    (htranslate : ∀ k < bytes.length,
      (translate (start + BitVec.ofNat 32 k)).map Translation.physical = some (physical k)) :
    loadStores translate start bytes =
      bytes.mapIdx fun k byte => ⟨start + BitVec.ofNat 32 k, physical k, byte⟩ := by
  induction bytes generalizing start physical with
  | nil => rfl
  | cons byte rest ih =>
      have hfirst := htranslate 0 (by simp)
      rw [BitVec.add_zero] at hfirst
      obtain ⟨translation, hstart, hphysical⟩ := Option.map_eq_some_iff.mp hfirst
      have hrest := @ih (start + 1) (fun k => physical (k + 1)) fun k hk => by
        rw [← address_add_succ]
        exact htranslate (k + 1) (by simpa using hk)
      have hzero : start + BitVec.ofNat 32 0 = start := BitVec.add_zero start
      rw [List.mapIdx_cons, loadStores, hstart, hzero, ← hphysical]
      simp only [hrest, address_add_succ]

theorem toNat_programImageAddr_add {k : ℕ} (hk : k < 0x400000) :
    (programImageAddr + BitVec.ofNat 32 k).toNat = 0x8048000 + k := by
  have hstart : programImageAddr.toNat = 0x8048000 := rfl
  rw [BitVec.toNat_add, BitVec.toNat_ofNat, hstart]
  omega

theorem programImageAddr_add_sub (k : ℕ) :
    programImageAddr + BitVec.ofNat 32 k - 0x8000000 = 0x48000 + BitVec.ofNat 32 k := by
  have hstart : programImageAddr = 0x48000 + 0x8000000 := rfl
  rw [hstart, BitVec.add_assoc, BitVec.add_comm 0x8000000, ← BitVec.add_assoc]
  exact BitVec.add_sub_cancel _ _

/-- The byte `k` of a program is on the page of its process. -/
theorem translate_programByte {s : Kernel} {layout : Layout} {pageTable : ℕ → BitVec 32}
    {rest : BitVec 32 → ℕ → BitVec 32} {num k : ℕ} (hpage : s.pageDirectory 32 = userPage num)
    (hk : k < imageRoom) :
    s.translate layout pageTable rest (programImageAddr + BitVec.ofNat 32 k) =
      some ⟨userBase num + (0x48000 + BitVec.ofNat 32 k), true⟩ := by
  have himage : imageRoom = 0x3B8000 := rfl
  have haddress : (programImageAddr + BitVec.ofNat 32 k).toNat = 0x8048000 + k :=
    toNat_programImageAddr_add (by omega)
  rw [translate_userPage hpage (by omega) (by omega), programImageAddr_add_sub]

/-- What holds of the addresses of a load holds of its consecutive positions. -/
theorem forall_mem_loadStores {p : BitVec 32 → Prop} :
    (∀ store ∈ loadStores translate start bytes, p store.address) ↔
      ∀ k < (loadStores translate start bytes).length, p (start + BitVec.ofNat 32 k) := by
  rw [← @List.forall_mem_map _ _ LoadedByte.address (loadStores translate start bytes) p,
    loadStores_addresses, List.forall_mem_map]
  simp only [List.mem_range]

/-- No store of a complete load of less than 4MB leaves the page exactly if there is room
behind `0x8048000`. -/
theorem stores_below_iff
    (hcomplete : (loadStores translate programImageAddr bytes).length = bytes.length)
    (hlength : bytes.length ≤ 0x400000) :
    (∀ store ∈ loadStores translate programImageAddr bytes,
        store.address.toNat < 0x8400000) ↔ bytes.length ≤ imageRoom := by
  have himage : imageRoom = 0x3B8000 := rfl
  rw [@forall_mem_loadStores _ _ _ fun address => address.toNat < 0x8400000, hcomplete]
  constructor
  · intro hbelow
    by_contra hlong
    have hlast := hbelow 0x3B8000 (by omega)
    rw [toNat_programImageAddr_add (by omega)] at hlast
    omega
  · intro hroom k hk
    rw [toNat_programImageAddr_add (by omega)]
    omega

/-! ## Memory after a load -/

theorem memoryAfter_of_notMem {memory : BitVec 32 → UInt8} {stores : List LoadedByte}
    {address : BitVec 32} (hother : address ∉ stores.map LoadedByte.physical) :
    memoryAfter memory stores address = memory address := by
  induction stores generalizing memory with
  | nil => rfl
  | cons store rest ih =>
      rw [List.map_cons, List.mem_cons, not_or] at hother
      exact (ih hother.2).trans (Function.update_of_ne hother.1 _ _)

theorem memoryAfter_of_mem {memory : BitVec 32 → UInt8} {stores : List LoadedByte}
    {store : LoadedByte} (hnodup : (stores.map LoadedByte.physical).Nodup)
    (hmem : store ∈ stores) : memoryAfter memory stores store.physical = store.byte := by
  induction stores generalizing memory with
  | nil => contradiction
  | cons first rest ih =>
      rw [List.map_cons, List.nodup_cons] at hnodup
      rcases List.mem_cons.mp hmem with rfl | hmem
      · exact (memoryAfter_of_notMem hnodup.1).trans (Function.update_self ..)
      · exact ih hnodup.2 hmem

theorem pageStores_nodup (num : ℕ) {bytes : List UInt8} (hlength : bytes.length ≤ imageRoom) :
    ((pageStores num bytes).map LoadedByte.physical).Nodup := by
  have himage : imageRoom = 0x3B8000 := rfl
  rw [List.nodup_iff_injective_getElem]
  rintro ⟨i, hi⟩ ⟨j, hj⟩ heq
  simp only [pageStores, List.length_map, List.length_mapIdx, List.getElem_map,
    List.getElem_mapIdx, BitVec.add_right_inj] at hi hj heq
  have hoffset := congrArg BitVec.toNat heq
  simp only [BitVec.toNat_ofNat] at hoffset
  apply Fin.ext
  dsimp only
  omega

/-- The bytes of a program are found where they were stored. -/
theorem memoryAfter_pageStores (memory : BitVec 32 → UInt8) (num : ℕ) {bytes : List UInt8}
    (hlength : bytes.length ≤ imageRoom) {k : ℕ} (hk : k < bytes.length) :
    memoryAfter memory (pageStores num bytes) (userBase num + (0x48000 + BitVec.ofNat 32 k)) =
      bytes[k] := by
  have hmem : (⟨programImageAddr + BitVec.ofNat 32 k,
      userBase num + (0x48000 + BitVec.ofNat 32 k), bytes[k]⟩ : LoadedByte) ∈
        pageStores num bytes :=
    List.mem_mapIdx.mpr ⟨k, hk, rfl⟩
  exact memoryAfter_of_mem (pageStores_nodup num hlength) hmem

/-! ## The load of a program -/

variable {img : Image} {layout : Layout} {pageTable : ℕ → BitVec 32}
  {rest : BitVec 32 → ℕ → BitVec 32} {s next : Kernel} {line : List UInt8} {frame : StackFrame}
  {num : ℕ}

theorem startProcess_processNum (s : Kernel) (argument : List UInt8) :
    (startProcess s num argument frame).running.processNum = num := by
  simp [startProcess, Kernel.running, Kernel.modifyTerminal, Kernel.modifyPcb,
    Kernel.setPageDirectory]

theorem startProcess_page (s : Kernel) (argument : List UInt8) :
    (startProcess s num argument frame).pageDirectory 32 = userPage num := by
  simp [startProcess, Kernel.modifyTerminal, Kernel.modifyPcb, Kernel.setPageDirectory, pdeIndex]

theorem executeLoad_eq_some_iff :
    executeLoad img s (some line) frame = some (num, bytes) ↔
      freeSlot s = some num ∧
        ((parseCommand line).1.length < keyboardBufSize ∧
          (parseCommand line).2.length < keyboardBufSize) ∧
        ∃ dentry, acceptedFile img line frame = some dentry ∧
          (readData img dentry.inodeNum 0 fourMb.toNat).2 = bytes := by
  unfold executeLoad
  rw [Option.bind_some, Option.bind_eq_some_iff]
  constructor
  · rintro ⟨found, hfound, hload⟩
    dsimp only at hload
    split at hload
    · contradiction
    · rename_i hshort
      obtain ⟨dentry, haccepted, heq⟩ := Option.map_eq_some_iff.mp hload
      obtain ⟨rfl, rfl⟩ := Prod.mk.inj heq
      exact ⟨hfound, by omega, dentry, haccepted, rfl⟩
  · rintro ⟨hfound, hshort, dentry, haccepted, rfl⟩
    refine ⟨num, hfound, ?_⟩
    dsimp only
    rw [if_neg (by omega), haccepted]
    rfl

theorem executeLoading_eq_some_iff :
    executeLoading img layout pageTable rest s (some line) frame = some next ↔
      ∃ num bytes, executeLoad img s (some line) frame = some (num, bytes) ∧
        (executeStores img layout pageTable rest s (some line) frame).length = bytes.length ∧
        next = startProcess (loadCurrentProcess s) num (parseCommand line).2 frame := by
  unfold executeLoading
  rw [Option.bind_some, Option.bind_eq_some_iff]
  constructor
  · rintro ⟨⟨num, bytes⟩, hload, hnext⟩
    split at hnext
    · rename_i hcomplete
      exact ⟨num, bytes, hload, hcomplete, (Option.some.inj hnext).symm⟩
    · contradiction
  · rintro ⟨num, bytes, hload, hcomplete, rfl⟩
    exact ⟨(num, bytes), hload, if_pos hcomplete⟩

theorem executeStores_of_load (hload : executeLoad img s (some line) frame = some (num, bytes)) :
    executeStores img layout pageTable rest s (some line) frame =
      loadStores ((s.setPageDirectory pdeIndex (userPage num)).translate layout pageTable rest)
        programImageAddr bytes := by
  simp only [executeStores, hload]

/-- Where `execute` starts a program, its load comes to its end and puts the image on the
page of the new process. -/
theorem executeLoading_of_started (layout : Layout) (pageTable : ℕ → BitVec 32)
    (rest : BitVec 32 → ℕ → BitVec 32) {entry image : List UInt8}
    (hstart : execute img s (some line) frame = some (.started next entry image)) :
    executeLoading img layout pageTable rest s (some line) frame = some next ∧
      s.view.Free next.running.processNum ∧ image.length ≤ imageRoom ∧
      executeStores img layout pageTable rest s (some line) frame =
        pageStores next.running.processNum image := by
  obtain ⟨_, num, dentry, hline, hfound, hname, hargument, haccepted, hroom, rfl, -, rfl⟩ :=
    execute_eq_started hstart
  obtain rfl := Option.some.inj hline
  have himage : imageRoom = 0x3B8000 := rfl
  have hload : executeLoad img s (some line) frame =
      some (num, (readData img dentry.inodeNum 0 fourMb.toNat).2) :=
    executeLoad_eq_some_iff.mpr ⟨hfound, ⟨hname, hargument⟩, dentry, haccepted, rfl⟩
  have hstores : executeStores img layout pageTable rest s (some line) frame =
      pageStores num (readData img dentry.inodeNum 0 fourMb.toNat).2 := by
    rw [executeStores_of_load hload]
    refine loadStores_eq_mapIdx fun k hk => ?_
    have hpage : (s.setPageDirectory pdeIndex (userPage num)).pageDirectory 32 =
        userPage num := by simp [Kernel.setPageDirectory, pdeIndex]
    rw [translate_programByte hpage (hk.trans_le hroom)]
    rfl
  rw [startProcess_processNum]
  refine ⟨executeLoading_eq_some_iff.mpr ⟨num, _, hload, ?_, rfl⟩, freeSlot_eq_some hfound, hroom,
    hstores⟩
  rw [hstores]
  exact List.length_mapIdx

end Stores

end VirtualOS
