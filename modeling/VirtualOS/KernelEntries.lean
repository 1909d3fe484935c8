import VirtualOS.StackFrames

/-!
# The entries of the kernel

The stubs through which the processor enters the kernel, the interrupt table that
leads to them, and the stubs of the system-call library.  Where the linker puts
them is open.  The table is decoded the way the processor reads it.
-/

namespace KernelEntries

open StackAssembly

/-! ## Segments -/

def kernelCs : BitVec 16 := 0x0010
def kernelDs : BitVec 16 := 0x0018
def userCs : BitVec 16 := 0x0023
def userDs : BitVec 16 := 0x002B

/-- The segment descriptors; the entries behind them describe the task state and the local
table. -/
def gdt (index : BitVec 13) : Descriptor :=
  match index.toNat with
  | 2 => 0x00CF9A000000FFFF
  | 3 => 0x00CF92000000FFFF
  | 4 => 0x00CFFA000000FFFF
  | 5 => 0x00CFF2000000FFFF
  | _ => 0

/-! ## Stubs -/

/-- The handlers of exceptions. -/
inductive Fault where
  | de | db | nmi | bp | of | br | ud | nm | df | cso | ts | np | ss | gp | pf | res1 | mf | ac
  | mc | xf | res2
  deriving DecidableEq

/-- The addresses of the stubs, of the handlers behind them and of the jump tables. -/
structure EntryLink where
  itrSys : Word
  itrSysFail : Word
  /-- `ITR_IRQ0` to `ITR_IRQF` -/
  itrIrqs : BitVec 4 → Word
  itrIrq : Word
  itr : Fault → Word
  exc : Fault → Word
  excFinished : Word
  irqHandlerJumptable : Word
  syscallJumptable : Word
  halt : Word
  execute : Word
  read : Word
  write : Word
  openFile : Word
  close : Word
  getargs : Word
  vidmap : Word

def itrSysCheck (l : EntryLink) : List Instr :=
  [.cmplImm 1 .eax, .jl l.itrSysFail, .cmplImm 8 .eax, .jg l.itrSysFail]

def itrSysSave : List Instr :=
  [.pushl .ebx, .pushl .ecx, .pushl .edx, .pushl .esp, .pushl .ebp, .pushl .esi, .pushl .edi,
    .pushl .edx, .pushl .ecx, .pushl .ebx]

def itrSysRestore : List Instr :=
  [.addlImm 12 .esp, .popl .edi, .popl .esi, .popl .ebp, .popl .esp, .popl .edx, .popl .ecx,
    .popl .ebx]

def itrSys (l : EntryLink) : List Instr :=
  itrSysCheck l ++
    (itrSysSave ++ .callTable l.syscallJumptable .eax :: (itrSysRestore ++ [.iret]))

def itrSysFail : List Instr := [.movlImm (-1) .eax, .iret]

def itrIrqs (l : EntryLink) (line : BitVec 4) : List Instr :=
  [.pusha, .movlImm (line.setWidth 32) .eax, .jmp l.itrIrq]

def itrIrq (l : EntryLink) : List Instr :=
  [.callTable l.irqHandlerJumptable .eax, .popa, .iret]

def excFinished (l : EntryLink) : List Instr := [.cli, .hlt, .jmp l.excFinished]

/-- `ITR_DE` alone does not clear the direction flag. -/
def itrSaved (fault : Fault) : List Instr := if fault = .de then [.pusha] else [.pusha, .cld]

def itr (l : EntryLink) (fault : Fault) : List Instr :=
  itrSaved fault ++ [.call (l.exc fault), .popa, .jmp l.excFinished]

def doCallRequest (number : Word) : List Instr :=
  [.pushl .ebx, .movlImm number .eax, .movlStack 8 .ebx, .movlStack 12 .ecx,
    .movlStack 16 .edx]

/-- `DO_CALL` of the library. -/
def doCall (number : Word) : List Instr :=
  doCallRequest number ++ [.int 0x80, .popl .ebx, .ret]

def syscallTable (l : EntryLink) : List Word :=
  [0, l.halt, l.execute, l.read, l.write, l.openFile, l.close, l.getargs, l.vidmap]

/-- The jump table after `init_syscall`. -/
def initSyscall (l : EntryLink) (ram : StringAssembly.Ram) : StringAssembly.Ram :=
  storeWords ram l.syscallJumptable (syscallTable l)

theorem holds_initSyscall (l : EntryLink) (ram : StringAssembly.Ram) :
    Holds (initSyscall l ram) l.syscallJumptable (syscallTable l) :=
  holds_storeWords _ _ _ (by simp [syscallTable])

/-- The handler of a number in the table. -/
def syscallHandler (l : EntryLink) (number : Word) : Word :=
  ((syscallTable l)[number.toNat]?).getD 0

/-- The numbers that `ITR_SYS` accepts. -/
def ValidNumber (number : Word) : Prop := 1 ≤ number.toInt ∧ number.toInt ≤ 8

theorem ValidNumber.lt {number : Word} (hvalid : ValidNumber number) : number.toNat < 9 := by
  obtain ⟨hlow, hhigh⟩ := hvalid
  rw [BitVec.toInt_eq_toNat_cond] at hlow hhigh
  have hlt := number.isLt
  split at hlow <;> omega

theorem ofNat_four_mul (number : Word) : BitVec.ofNat 32 (4 * number.toNat) = 4 * number := by
  rw [BitVec.ofNat_mul, BitVec.ofNat_toNat, BitVec.setWidth_eq]
  rfl

theorem wordAt_syscallTable {l : EntryLink} {ram : StringAssembly.Ram} {number : Word}
    (htable : Holds ram l.syscallJumptable (syscallTable l)) (hvalid : ValidNumber number) :
    wordAt ram (l.syscallJumptable + 4 * number) = syscallHandler l number := by
  have hlt : number.toNat < (syscallTable l).length := hvalid.lt
  have hget : (syscallTable l)[number.toNat]? = some (syscallHandler l number) := by
    rw [syscallHandler, List.getElem?_eq_getElem hlt, Option.getD_some]
  rw [← ofNat_four_mul]
  exact htable.wordAt_get hget

/-! ## The interrupt table -/

structure IdtDesc where
  offset1500 : BitVec 16
  segSelector : BitVec 16
  reserved4 : BitVec 8
  reserved3 : BitVec 1
  reserved2 : BitVec 1
  reserved1 : BitVec 1
  size : BitVec 1
  reserved0 : BitVec 1
  dpl : BitVec 2
  present : BitVec 1
  offset3116 : BitVec 16

/-- The fields in memory, the first one lowest. -/
def IdtDesc.val (d : IdtDesc) : Descriptor :=
  d.offset3116 ++ (d.present ++ d.dpl ++ d.reserved0 ++ d.size ++ d.reserved1 ++ d.reserved2 ++
    d.reserved3) ++ d.reserved4 ++ d.segSelector ++ d.offset1500

/-- `SET_IDT_ENTRY` -/
def IdtDesc.setEntry (d : IdtDesc) (handler : Word) : IdtDesc :=
  { d with
    offset3116 := ((handler &&& 0xFFFF0000) >>> 16).setWidth 16
    offset1500 := (handler &&& 0xFFFF).setWidth 16 }

/-- The first loop of `idt_init`, on a table of zeros. -/
def generalDesc (i : ℕ) : IdtDesc where
  offset1500 := 0
  segSelector := kernelCs
  reserved4 := 0
  reserved3 := if i = 0x80 then 1 else if 32 ≤ i then 0 else 1
  reserved2 := 1
  reserved1 := 1
  size := 1
  reserved0 := 0
  dpl := if i = 0x80 then 3 else 0
  present := 1
  offset3116 := 0

/-- The entries that `idt_init` sets, in its order. -/
def idtEntries (l : EntryLink) : List (ℕ × Word) :=
  [(0, l.itr .de), (1, l.itr .db), (2, l.itr .nmi), (3, l.itr .bp), (4, l.itr .of),
    (5, l.itr .br), (6, l.itr .ud), (7, l.itr .nm), (8, l.itr .df), (9, l.itr .cso),
    (10, l.itr .ts), (11, l.itr .np), (12, l.itr .ss), (13, l.itr .gp), (14, l.itr .pf),
    (15, l.itr .res1), (16, l.itr .mf), (17, l.itr .ac), (18, l.itr .mc), (19, l.itr .xf)] ++
  (List.range' 20 12).map (fun i => (i, l.exc .res2)) ++
  (List.range 16).map (fun i => (0x20 + i, l.itrIrqs (BitVec.ofNat 4 i))) ++
  [(0x80, l.itrSys)]

def idtInit (l : EntryLink) : ℕ → IdtDesc :=
  (idtEntries l).foldl
    (fun idt entry => Function.update idt entry.1 ((idt entry.1).setEntry entry.2)) generalDesc

/-- The handler that the table ends up with. -/
def idtHandler (l : EntryLink) (i : ℕ) : Word := ((idtEntries l).lookup i).getD 0

section Table

variable {d : IdtDesc} {l : EntryLink} {handler : Word} {i : ℕ}

theorem present_val (d : IdtDesc) : d.val.present = d.present.getLsbD 0 := by
  simp only [Descriptor.present, IdtDesc.val, BitVec.getLsbD_append]
  simp

theorem dpl_val (d : IdtDesc) : d.val.dpl = d.dpl := by
  apply BitVec.eq_of_getLsbD_eq
  intro j hj
  simp only [Descriptor.dpl, IdtDesc.val, BitVec.getLsbD_extractLsb', BitVec.getLsbD_append]
  interval_cases j <;> simp

theorem selector_val (d : IdtDesc) : d.val.selector = d.segSelector := by
  apply BitVec.eq_of_getLsbD_eq
  intro j hj
  simp only [Descriptor.selector, IdtDesc.val, BitVec.getLsbD_extractLsb', BitVec.getLsbD_append]
  grind

theorem gateType_val (d : IdtDesc) :
    d.val.gateType = d.reserved0 ++ d.size ++ d.reserved1 ++ d.reserved2 ++ d.reserved3 := by
  apply BitVec.eq_of_getLsbD_eq
  intro j hj
  simp only [Descriptor.gateType, IdtDesc.val, BitVec.getLsbD_extractLsb', BitVec.getLsbD_append]
  interval_cases j <;> simp

theorem offset_val (d : IdtDesc) : d.val.offset = d.offset3116 ++ d.offset1500 := by
  apply BitVec.eq_of_getLsbD_eq
  intro j hj
  simp only [Descriptor.offset, IdtDesc.val, BitVec.getLsbD_extractLsb', BitVec.getLsbD_append]
  grind

theorem offset_setEntry (d : IdtDesc) (handler : Word) :
    (d.setEntry handler).val.offset = handler := by
  rw [offset_val]
  apply BitVec.eq_of_getLsbD_eq
  intro j hj
  simp only [IdtDesc.setEntry, BitVec.getLsbD_append, BitVec.getLsbD_setWidth,
    BitVec.getLsbD_and, BitVec.getLsbD_ushiftRight]
  interval_cases j <;> simp

/-- The handlers of a list of entries go into the table, each to its place. -/
theorem foldl_setEntry {entries : List (ℕ × Word)} {idt : ℕ → IdtDesc}
    (hnodup : (entries.map Prod.fst).Nodup) (i : ℕ) :
    entries.foldl
      (fun idt entry => Function.update idt entry.1 ((idt entry.1).setEntry entry.2)) idt i =
      ((entries.lookup i).map (idt i).setEntry).getD (idt i) := by
  induction entries generalizing idt with
  | nil => rfl
  | cons entry rest ih =>
      obtain ⟨vector, handler⟩ := entry
      obtain ⟨hfresh, hnodup⟩ := List.nodup_cons.mp hnodup
      rw [List.foldl_cons, ih hnodup, List.lookup_cons]
      by_cases hi : i = vector
      · subst hi
        have hnone : rest.lookup i = none :=
          List.lookup_eq_none_iff.mpr fun entry hentry => bne_iff_ne.mpr fun heq =>
            hfresh (List.mem_map.mpr ⟨entry, hentry, heq.symm⟩)
        simp [hnone]
      · rw [beq_eq_false_iff_ne.mpr hi, Function.update_of_ne hi]

theorem idtInit_eq (l : EntryLink) (i : ℕ) : idtInit l i =
    (((idtEntries l).lookup i).map (generalDesc i).setEntry).getD (generalDesc i) := by
  have hkeys : (idtEntries l).map Prod.fst = List.range 48 ++ [0x80] := rfl
  exact foldl_setEntry (by rw [hkeys]; decide) i

theorem idtInit_cases (l : EntryLink) (i : ℕ) :
    idtInit l i = generalDesc i ∧ idtHandler l i = 0 ∨
      idtInit l i = (generalDesc i).setEntry (idtHandler l i) := by
  rw [idtInit_eq, idtHandler]
  cases (idtEntries l).lookup i with
  | none => exact .inl ⟨rfl, rfl⟩
  | some handler => exact .inr rfl

/-- What the processor reads from the table. -/
theorem gate_idtInit (l : EntryLink) (i : ℕ) :
    (idtInit l i).val.present = true ∧ (idtInit l i).val.selector = kernelCs ∧
      (idtInit l i).val.offset = idtHandler l i ∧
      (idtInit l i).val.dpl = (if i = 0x80 then 3 else 0) ∧
      (idtInit l i).val.gateType =
        if i = 0x80 ∨ i < 32 then trapGate else interruptGate := by
  have htype : (generalDesc i).val.gateType =
      if i = 0x80 ∨ i < 32 then trapGate else interruptGate := by
    rw [gateType_val, generalDesc]
    by_cases hsys : i = 0x80
    · simp only [hsys, if_true, true_or]
      rfl
    · by_cases hlow : i < 32
      · simp only [hsys, if_false, Nat.not_le.mpr hlow, hlow, or_true, if_true]
        rfl
      · simp only [hsys, if_false, Nat.not_lt.mp hlow, hlow, or_false, if_true]
        rfl
  obtain ⟨hentry, hzero⟩ | hentry := idtInit_cases l i <;> rw [hentry]
  · refine ⟨?_, selector_val _, ?_, dpl_val _, htype⟩
    · simp [present_val, generalDesc]
    · simp [offset_val, hzero, generalDesc]
  · refine ⟨?_, selector_val _, offset_setEntry _ _, dpl_val _, ?_⟩
    · simp [present_val, generalDesc, IdtDesc.setEntry]
    · rw [gateType_val] at htype ⊢
      exact htype

theorem idtHandler_irq (l : EntryLink) (line : BitVec 4) :
    idtHandler l (0x20 + line.toNat) = l.itrIrqs line := by
  have hcases : ∀ n < 16, idtHandler l (0x20 + n) = l.itrIrqs (BitVec.ofNat 4 n) := by
    intro n hn
    interval_cases n <;> rfl
  rw [hcases _ line.isLt, BitVec.ofNat_toNat, BitVec.setWidth_eq]

end Table

/-! ## The machine of the kernel -/

/-- The processor runs with the tables of the kernel, and the stubs lie where the linker put
them. -/
structure Hosts (p : Platform) (l : EntryLink) : Prop where
  gdt : p.gdt = gdt
  idt : ∀ vector, p.idt vector = (idtInit l vector.toNat).val
  itrSys : p.Placed l.itrSys (itrSys l)
  itrSysFail : p.Placed l.itrSysFail itrSysFail
  itrIrqs : ∀ line, p.Placed (l.itrIrqs line) (itrIrqs l line)
  itrIrq : p.Placed l.itrIrq (itrIrq l)
  itr : ∀ fault, p.Placed (l.itr fault) (itr l fault)
  excFinished : p.Placed l.excFinished (excFinished l)

section Gates

variable {p : Platform} {l : EntryLink} {m : Machine} {r : Region}

theorem level_kernelCs : level kernelCs = 0 := by decide

theorem level_userCs : level userCs = 3 := by decide

theorem nestedTask_gateFlags (gate : Descriptor) (eflags : Word) :
    (Platform.gateFlags gate eflags).getLsbD nestedTask = false := by
  unfold Platform.gateFlags
  split <;> simp (disch := decide) only [getLsbD_setFlag] <;> rfl

theorem Hosts.segmentLevel_kernelCs (hosts : Hosts p l) : p.segmentLevel kernelCs = 0 := by
  rw [Platform.segmentLevel, hosts.gdt]
  decide

theorem Hosts.segmentLevel_userDs (hosts : Hosts p l) : p.segmentLevel userDs = 3 := by
  rw [Platform.segmentLevel, hosts.gdt]
  decide

theorem Hosts.outerSegment_userDs (hosts : Hosts p l) {privilege : BitVec 2}
    (hle : privilege ≤ 3) : p.outerSegment privilege userDs = userDs := by
  rw [Platform.outerSegment, hosts.segmentLevel_userDs]
  exact if_neg (BitVec.not_lt.mpr hle)

theorem Hosts.selector (hosts : Hosts p l) (vector : BitVec 8) :
    (p.idt vector).selector = kernelCs := by
  rw [hosts.idt]
  exact (gate_idtInit l vector.toNat).2.1

theorem Hosts.offset (hosts : Hosts p l) (vector : BitVec 8) :
    (p.idt vector).offset = idtHandler l vector.toNat := by
  rw [hosts.idt]
  exact (gate_idtInit l vector.toNat).2.2.1

theorem Hosts.dpl (hosts : Hosts p l) (vector : BitVec 8) :
    (p.idt vector).dpl = if vector.toNat = 0x80 then 3 else 0 := by
  rw [hosts.idt]
  exact (gate_idtInit l vector.toNat).2.2.2.1

theorem Hosts.passable (hosts : Hosts p l) (vector : BitVec 8) : (p.idt vector).present ∧
    ((p.idt vector).gateType = trapGate ∨ (p.idt vector).gateType = interruptGate) := by
  rw [hosts.idt]
  obtain ⟨hpresent, _, _, _, htype⟩ := gate_idtInit l vector.toNat
  refine ⟨hpresent, ?_⟩
  rw [htype]
  split <;> simp

theorem Hosts.atLevel (hosts : Hosts p l) (vector : BitVec 8) :
    atLevel (p.idt vector).selector (p.segmentLevel (p.idt vector).selector) = kernelCs := by
  rw [hosts.selector, hosts.segmentLevel_kernelCs]
  decide

/-- Any vector taken in a program leads to its handler, on the stack of the kernel. -/
theorem Hosts.deliver_outer (hosts : Hosts p l) (vector : BitVec 8) (error : Option Word)
    (hcode : m.cs = userCs)
    (hkernel : r.code = kernelCs) (htop : wordAt m.ram (p.tss + 4) = r.top)
    (hsegment : (wordAt m.ram (p.tss + 8)).setWidth 16 = r.stackSegment)
    (hroom : 4 * (error.toList.length + 5) ≤ r.size)
    (hkept : ∀ address ∈ r.kept, m.ram address = r.known address) :
    ∃ after eflags, p.deliver vector error m = some after ∧
      eflags.getLsbD nestedTask = false ∧ after.Fits r
        (({ regs := m.regs, eip := idtHandler l vector.toNat, eflags := eflags, ds := m.ds,
            stack := [] } : Frame).restack r (error.toList ++
          [m.eip, m.cs.setWidth 32, m.eflags, m.regs.esp, m.ss.setWidth 32])) := by
  have houter : p.segmentLevel (p.idt vector).selector < m.cpl := by
    rw [hosts.selector, hosts.segmentLevel_kernelCs, Machine.cpl, hcode, level_userCs]
    decide
  obtain ⟨after, hafter, hfits⟩ := Machine.fits_deliver_outer (hosts.passable vector).1
    (hosts.passable vector).2 houter htop hsegment ((hosts.atLevel vector).trans hkernel.symm)
    hroom hkept
  rw [hosts.offset] at hfits
  exact ⟨after, _, hafter, nestedTask_gateFlags _ _, hfits⟩

/-- Any vector taken inside the kernel leads to its handler, on the same stack. -/
theorem Hosts.deliver_inner (hosts : Hosts p l) (vector : BitVec 8) (error : Option Word)
    (hcode : m.cs = kernelCs)
    (hkernel : r.code = kernelCs) (htop : m.regs.esp = r.top) (hsegment : m.ss = r.stackSegment)
    (hroom : 4 * (error.toList.length + 3) ≤ r.size)
    (hkept : ∀ address ∈ r.kept, m.ram address = r.known address) :
    ∃ after eflags, p.deliver vector error m = some after ∧
      eflags.getLsbD nestedTask = false ∧ after.Fits r
        (({ regs := m.regs, eip := idtHandler l vector.toNat, eflags := eflags, ds := m.ds,
            stack := [] } : Frame).restack r (error.toList ++
          [m.eip, m.cs.setWidth 32, m.eflags])) := by
  have hinner : p.segmentLevel (p.idt vector).selector = m.cpl := by
    rw [hosts.selector, hosts.segmentLevel_kernelCs, Machine.cpl, hcode, level_kernelCs]
  obtain ⟨after, hafter, hfits⟩ := Machine.fits_deliver_inner (hosts.passable vector).1
    (hosts.passable vector).2 hinner htop hsegment ((hosts.atLevel vector).trans hkernel.symm)
    hroom hkept
  rw [hosts.offset] at hfits
  exact ⟨after, _, hafter, nestedTask_gateFlags _ _, hfits⟩

end Gates

/-! ## A kernel at fixed addresses -/

def Fault.all : List Fault :=
  [.de, .db, .nmi, .bp, .of, .br, .ud, .nm, .df, .cso, .ts, .np, .ss, .gp, .pf, .res1, .mf, .ac,
    .mc, .xf, .res2]

/-- Every stub in a page of 256 addresses of its own. -/
def smallLink : EntryLink where
  itrSys := 0x410000
  itrSysFail := 0x410100
  itrIrqs line := 0x411000 + line.setWidth 32 * 256
  itrIrq := 0x410200
  itr fault := 0x412000 + BitVec.ofNat 32 (Fault.all.idxOf fault) * 256
  exc fault := 0x414000 + BitVec.ofNat 32 (Fault.all.idxOf fault) * 256
  excFinished := 0x410300
  irqHandlerJumptable := 0x400100
  syscallJumptable := 0x400200
  halt := 0x416000
  execute := 0x416100
  read := 0x416200
  write := 0x416300
  openFile := 0x416400
  close := 0x416500
  getargs := 0x416600
  vidmap := 0x416700

/-- The stubs by the number of their page; the rest of the code is left open. -/
def smallBlocks (others : ℕ → List Instr) (page : ℕ) : List Instr :=
  if page = 0x4100 then itrSys smallLink
  else if page = 0x4101 then itrSysFail
  else if page = 0x4102 then itrIrq smallLink
  else if page = 0x4103 then excFinished smallLink
  else if 0x4110 ≤ page ∧ page < 0x4120 then itrIrqs smallLink (BitVec.ofNat 4 (page - 0x4110))
  else if 0x4120 ≤ page ∧ page < 0x4135 then
    ((Fault.all[page - 0x4120]?).map (itr smallLink)).getD []
  else others page

/-- Code in pages, an instruction at each address. -/
def pagedText (blocks : ℕ → List Instr) (address : Word) : Option (Instr × Word) :=
  ((blocks (address.toNat / 256))[address.toNat % 256]?).map fun instr => (instr, address + 1)

def smallPlatform (others : ℕ → List Instr) : Platform where
  text := pagedText (smallBlocks others)
  idt vector := (idtInit smallLink vector.toNat).val
  gdt := gdt
  tss := 0x400000

theorem placed_pagedText {p : Platform} {blocks : ℕ → List Instr} (page : ℕ)
    (hpage : page < 2 ^ 24) (htext : p.text = pagedText blocks)
    (hlength : (blocks page).length < 256) :
    p.Placed (BitVec.ofNat 32 (256 * page)) (blocks page) := by
  have hdrop : ∀ instrs k, (blocks page).drop k = instrs → k + instrs.length < 256 →
      p.Placed (BitVec.ofNat 32 (256 * page + k)) instrs := by
    intro instrs
    induction instrs with
    | nil => exact fun _ _ _ => trivial
    | cons instr rest ih =>
        intro k hdrop hk
        rw [List.length_cons] at hk
        have hget : (blocks page)[k]? = some instr := by
          rw [← Nat.add_zero k, ← List.getElem?_drop, hdrop]
          rfl
        have hrest : (blocks page).drop (k + 1) = rest := by
          rw [← List.drop_drop, hdrop]
          rfl
        have haddress : (BitVec.ofNat 32 (256 * page + k)).toNat = 256 * page + k := by
          rw [BitVec.toNat_ofNat, Nat.mod_eq_of_lt (by omega)]
        refine ⟨BitVec.ofNat 32 (256 * page + (k + 1)), ?_, ih (k + 1) hrest (by omega)⟩
        have hdiv : (256 * page + k) / 256 = page := by omega
        have hmod : (256 * page + k) % 256 = k := by omega
        have hnext : BitVec.ofNat 32 (256 * page + k) + 1 =
            BitVec.ofNat 32 (256 * page + (k + 1)) := (BitVec.ofNat_add _ 1).symm
        rw [htext, pagedText, haddress, hdiv, hmod, hget, Option.map_some, hnext]
  exact hdrop (blocks page) 0 rfl (by omega)

theorem placed_smallBlocks (others : ℕ → List Instr) {page : ℕ} {address : Word}
    {instrs : List Instr} (hpage : page < 2 ^ 24) (hblock : smallBlocks others page = instrs)
    (haddress : address = BitVec.ofNat 32 (256 * page)) (hlength : instrs.length < 256) :
    (smallPlatform others).Placed address instrs := by
  subst hblock haddress
  exact placed_pagedText page hpage rfl hlength

theorem hosts_smallPlatform (others : ℕ → List Instr) :
    Hosts (smallPlatform others) smallLink where
  gdt := rfl
  idt _ := rfl
  itrSys := placed_smallBlocks others (by decide : 0x4100 < 2 ^ 24) rfl rfl (by decide)
  itrSysFail := placed_smallBlocks others (by decide : 0x4101 < 2 ^ 24) rfl rfl (by decide)
  itrIrqs line := by
    have hlt := line.isLt
    have hpage : smallBlocks others (0x4110 + line.toNat) = itrIrqs smallLink line := by
      have hcases : ∀ n < 16, smallBlocks others (0x4110 + n) =
          itrIrqs smallLink (BitVec.ofNat 4 n) := by
        intro n hn
        interval_cases n <;> rfl
      rw [hcases _ hlt, BitVec.ofNat_toNat, BitVec.setWidth_eq]
    refine placed_smallBlocks others (by omega) hpage ?_ (by simp [itrIrqs])
    simp only [smallLink]
    bv_omega
  itrIrq := placed_smallBlocks others (by decide : 0x4102 < 2 ^ 24) rfl rfl (by decide)
  itr fault := by
    have hpage : smallBlocks others (0x4120 + Fault.all.idxOf fault) = itr smallLink fault := by
      cases fault <;> rfl
    have haddress : smallLink.itr fault =
        BitVec.ofNat 32 (256 * (0x4120 + Fault.all.idxOf fault)) := by
      cases fault <;> rfl
    refine placed_smallBlocks others ?_ hpage haddress ?_
    · cases fault <;> decide
    · cases fault <;> decide
  excFinished := placed_smallBlocks others (by decide : 0x4103 < 2 ^ 24) rfl rfl (by decide)

end KernelEntries
