import VirtualOS.InterruptPath

/-!
# Switching between a program and its parent

`execute` does not return by itself: its frame stays on the stack of the parent
while a program runs, and the `halt` of that program leaves into the frame and
returns from there.  To the parent the two functions together are one call, whose
answer is the status of the program.
-/

namespace KernelEntries

open StackAssembly StringAssembly

/-- How a function in C sets up its frame. -/
def framePrologue : List Instr := [.pushl .ebp, .movl .esp .ebp]

/-- The last instructions of `halt`, on the registers that the compiler picks. -/
def haltSwitch (status espPrev ebpPrev : Register) : List Instr :=
  [.movl status .eax, .movl espPrev .esp, .movl ebpPrev .ebp, .leave, .ret]

/-- The instructions of `execute` that enter the program, with the entry point in `ebx`. -/
def executeSwitch : List Instr :=
  [.cli, .movwAx 0x2B, .movwDs, .pushlImm 0x2B, .pushlImm 0x83FFFFC, .pushfl, .popl .eax,
    .orlImm 0x4200 .eax, .pushl .eax, .pushlImm 0x23, .pushl .ebx] ++ [.iret]

/-! ## The waiting frame -/

/-- The stack of the kernel also has room for the base pointer of a handler. -/
def Boundary.Deep (b : Boundary) : Prop :=
  ∀ k, 0 < k → k ≤ 68 → b.esp0 - BitVec.ofNat 32 k ∉ b.kept ∪ callBytes b.userEsp

def Boundary.waiting (b : Boundary) (hdeep : b.Deep) (known : Ram) : Region where
  top := b.esp0
  size := 68
  code := kernelCs
  stackSegment := kernelDs
  kept := b.kept ∪ callBytes b.userEsp
  known := known
  bounded := by decide
  apart := hdeep

/-- Interrupts while the processor is on this stack of the kernel or on another one. -/
def Boundary.SwitchInterrupts (b : Boundary) (m between : Machine) : Prop :=
  (∃ extra ram, between = { m with extra := extra, ram := ram }) ∧
  (∀ address ∈ b.kept ∪ callBytes b.userEsp, between.ram address = m.ram address) ∧
  (m.cpl = 0 → ∀ k, 0 < k → k ≤ 68 → k ≤ (b.esp0 - m.regs.esp).toNat →
    between.ram (b.esp0 - BitVec.ofNat 32 k) = m.ram (b.esp0 - BitVec.ofNat 32 k))

/-- The program of a caller has halted: `halt` is at its last instructions, on a stack outside
of the frame of `execute`, whose base pointer it has read.  The frame is as `execute` set it up,
apart from the arguments, and the stack of the caller is as it was. -/
structure Boundary.Halting (b : Boundary) (p : Platform) (status espPrev ebpPrev : Register)
    (entered halted : Machine) : Prop where
  code : p.Placed halted.eip (haltSwitch status espPrev ebpPrev)
  espPrev_ne : espPrev ≠ .eax
  ebpPrev_ne : ebpPrev ≠ .eax ∧ ebpPrev ≠ .esp
  cs : halted.cs = kernelCs
  ss : halted.ss = kernelDs
  ds : halted.ds = userDs
  nested : halted.eflags.getLsbD nestedTask = false
  ebp : halted.regs.get ebpPrev = entered.regs.ebp
  away : 68 ≤ (b.esp0 - halted.regs.esp).toNat
  awayPrev : 68 ≤ (b.esp0 - halted.regs.get espPrev).toNat
  frame : ∀ k, 0 < k → k ≤ 48 ∨ 60 < k ∧ k ≤ 68 →
    halted.ram (b.esp0 - BitVec.ofNat 32 k) = entered.ram (b.esp0 - BitVec.ofNat 32 k)
  caller : ∀ address ∈ callBytes b.userEsp, halted.ram address = entered.ram address

section Switch

variable {p : Platform} {l : EntryLink} {b : Boundary} {m entered halted : Machine} {f : Frame}
  {known ram : Ram} {number next back behind x y z callerEbp : Word}
  {goal : Machine → Prop} {status espPrev ebpPrev : Register} {words : List Word}

theorem get_set_of_ne {regs : Registers} {register other : Register} {word : Word}
    (hne : other ≠ register) : (regs.set register word).get other = regs.get other := by
  cases register <;> cases other <;> first | rfl | exact absurd rfl hne

theorem spared_waiting (hdeep : b.Deep) (known : Ram) :
    (b.waiting hdeep known).Spared b.SwitchInterrupts := by
  intro m between hdisturb hcode
  obtain ⟨hram, hspared, hstack⟩ := hdisturb
  have hcpl : m.cpl = 0 := by
    rw [Machine.cpl, hcode]
    exact level_kernelCs
  exact ⟨hram, hspared, hstack hcpl⟩

theorem switchGuarded_kernel (hdeep : b.Deep) (known : Ram) :
    (b.kernel known).Guarded b.SwitchInterrupts := by
  intro m between hdisturb hcode
  obtain ⟨hram, hspared, hstack⟩ := (spared_waiting hdeep known).guarded m between hdisturb hcode
  exact ⟨hram, hspared, fun hsize => hstack (hsize.trans (show 64 ≤ 68 by decide))⟩

theorem switchGuarded_user (known : Ram) : (b.user known).Guarded b.SwitchInterrupts := by
  intro m between hdisturb _
  obtain ⟨hram, hspared, _⟩ := hdisturb
  refine ⟨hram, fun address hkept => hspared address (.inl hkept), fun hsize k hk => ?_⟩
  exact hspared _ (.inr (b.mem_callBytes hsize hk))

theorem guarded_waiting (hdeep : b.Deep) (known : Ram) :
    (b.waiting hdeep known).Guarded b.Interrupts :=
  (interrupted_spared rfl fun _ hmem => hmem).guarded

/-- The frame with whatever the handler has left in its arguments. -/
theorem Boundary.Halting.parked (hdeep : b.Deep)
    (hhalting : b.Halting p status espPrev ebpPrev entered halted)
    (hlength : words.length = 12)
    (hholds : Holds entered.ram ((b.waiting hdeep known).espAt 17)
      (callerEbp :: behind :: x :: y :: z :: words)) :
    ∃ x' y' z', Holds halted.ram ((b.waiting hdeep known).espAt 17)
      (callerEbp :: behind :: x' :: y' :: z' :: words) := by
  let r := b.waiting hdeep known
  obtain ⟨hebp, hbehind, _, _, _, hwords⟩ := hholds
  have hslot (n i : ℕ) (hi : i < 4 * n) (hn : 4 * n ≤ 48 ∨ 60 < 4 * n - i ∧ n ≤ 17) :
      halted.ram (r.espAt n + BitVec.ofNat 32 i) =
        entered.ram (r.espAt n + BitVec.ofNat 32 i) := by
    rw [r.slot_eq hi.le]
    exact hhalting.frame _ (by omega) (by omega)
  have hdown (n : ℕ) : r.espAt (n + 1) + 4 = r.espAt n := r.espAt_succ_add n
  have hat12 : r.espAt 17 + 4 + 4 + 4 + 4 + 4 = r.espAt 12 := by
    rw [hdown, hdown, hdown, hdown, hdown]
  refine ⟨_, _, _, ?_, ?_, rfl, rfl, rfl, ?_⟩
  · rw [wordAt_congr fun i hi => hslot 17 i (by omega) (by omega)]
    exact hebp
  · have hat16 : r.espAt 17 + 4 = r.espAt 16 := hdown 16
    rw [hat16] at hbehind ⊢
    rw [wordAt_congr fun i hi => hslot 16 i (by omega) (by omega)]
    exact hbehind
  · rw [hat12] at hwords ⊢
    exact hwords.congr fun k hk => hslot 12 k (by omega) (by omega)

/-- From the last instructions of `halt` back into the program of the parent. -/
theorem Boundary.Halting.resumes (hosts : Hosts p l) (hdeep : b.Deep)
    (hhalting : b.Halting p status espPrev ebpPrev entered halted)
    (hebp : entered.regs.ebp = (b.waiting hdeep known).espAt 17)
    (hholds : Holds entered.ram entered.regs.ebp
      (callerEbp :: behind :: x :: y :: z :: savedWords b f next))
    (hrestore : p.Placed behind (itrSysRestore ++ [.iret])) (huser : f.ds = userDs)
    (hesp : f.regs.esp = (b.user halted.ram).espAt f.stack.length)
    (hroom : 4 * f.stack.length ≤ 20) (hstack : Holds halted.ram f.regs.esp f.stack)
    (hrest : ∀ m : Machine, m.Fits (b.user halted.ram)
      { f with regs := { f.regs with eax := halted.regs.get status }, eip := next } →
      Eventually p b.SwitchInterrupts goal m) : Eventually p b.SwitchInterrupts goal halted := by
  let r := b.waiting hdeep halted.ram
  have hspared : r.Spared b.SwitchInterrupts := spared_waiting hdeep halted.ram
  rw [hebp] at hholds
  obtain ⟨x', y', z', hframe⟩ := hhalting.parked hdeep rfl hholds
  have hparks : r.Parks (callerEbp :: behind :: x' :: y' :: z' :: savedWords b f next)
      halted.ram := ⟨Nat.le_refl 68, hframe, fun _ _ => rfl⟩
  obtain ⟨next₁, hstatus, next₂, hesp', next₃, hebp', next₄, hleave, next₅, hret, _⟩ :=
    hhalting.code
  refine hparks.movl hspared hhalting.cs hhalting.away hstatus fun _ _ hparks => ?_
  have hprev : (halted.regs.set .eax (halted.regs.get status)).get espPrev =
      halted.regs.get espPrev := get_set_of_ne hhalting.espPrev_ne
  refine hparks.movl hspared hhalting.cs hhalting.away hesp' fun _ _ hparks => ?_
  have hebpPrev : ((halted.regs.set .eax (halted.regs.get status)).set .esp
      (halted.regs.get espPrev)).get ebpPrev = r.espAt 17 := by
    rw [get_set_of_ne hhalting.ebpPrev_ne.2, get_set_of_ne hhalting.ebpPrev_ne.1, hhalting.ebp,
      hebp]
    rfl
  rw [hprev]
  refine hparks.movl hspared hhalting.cs hhalting.awayPrev hebp' fun _ _ hparks => ?_
  rw [hebpPrev]
  refine hparks.leave hspared hhalting.cs hhalting.ss hhalting.awayPrev rfl hleave
    fun left hfits => ?_
  refine hfits.ret hspared.guarded hret rfl fun m hfits => ?_
  have hsmall : m.Fits (b.kernel halted.ram) _ :=
    hfits.resize rfl rfl rfl rfl rfl (show 4 * 15 ≤ 64 by decide)
  exact b.resume hosts (switchGuarded_kernel hdeep halted.ram) hrestore hsmall rfl rfl
    hhalting.nested (hhalting.ds.trans huser.symm) huser hesp hroom hstack hrest

/-- The frame of a function in C behind its prologue. -/
def calledFrame (r : Region) (f : Frame) : Frame :=
  let pushed := f.restack r (f.regs.ebp :: f.stack)
  { pushed with regs := { pushed.regs with ebp := pushed.regs.esp } }

theorem framePrologue_run {r : Region} (hroom : 4 * (f.stack.length + 1) ≤ r.size) :
    f.run r framePrologue = some (calledFrame r f) := by
  have hpush : f.data r (.pushl .ebp) = some (f.restack r (f.regs.ebp :: f.stack)) :=
    if_pos hroom
  rw [Frame.run, framePrologue, List.foldlM_cons, hpush]
  rfl

theorem fits_calledFrame {r : Region} {address : Word}
    (hfits : m.Fits r ((calledFrame r f).jump address)) :
    m.regs.ebp = r.espAt (f.stack.length + 1) ∧
      Holds m.ram m.regs.ebp (f.regs.ebp :: f.stack) := by
  have hebp : m.regs.ebp = (calledFrame r f).regs.esp := by
    rw [hfits.regs]
    rfl
  refine ⟨hebp, ?_⟩
  rw [hebp]
  exact hfits.stack

/-- A caller of `execute` enters the function, and when `halt` of its program leaves into the
frame, on whatever stack that was, the call of the caller returns with the status. -/
theorem execute_returns_at_halt (hosts : Hosts p l) (hdeep : b.Deep) {stub : Word}
    {body : List Instr} (hplaced : p.Placed stub (doCall 2)) (heip : m.eip = stub)
    (hcalls : b.Calls m back x y z) (hreads : b.Reads p l m.ram)
    (hexecute : p.Placed l.execute (framePrologue ++ body)) :
    Eventually p b.Interrupts
      (fun entered => p.Placed entered.eip body ∧ entered.cs = kernelCs ∧
        wordAt entered.ram (entered.regs.ebp + 8) = x ∧
        ∀ status espPrev ebpPrev halted,
          b.Halting p status espPrev ebpPrev entered halted →
          Eventually p b.SwitchInterrupts
            (fun final => ReturnedTo m back x y z final ∧
              final.regs.eax = halted.regs.get status ∧
              ∀ address ∈ b.kept, final.ram address = halted.ram address) halted) m := by
  have hvalid : ValidNumber 2 := ⟨by decide, by decide⟩
  refine b.request hosts hplaced heip hcalls hreads
    fun entered ram next eflags hfinish hkept hholds hnested hentered => ?_
  refine b.check hosts hnested hentered ?_ fun hinvalid => absurd hvalid hinvalid
  intro _ served address eflags hplaced' hnested hfits
  let f := requestFrame b m 2 back x y z
  refine b.dispatch (hreads.congr hkept) hvalid hplaced' hnested hfits
    fun m' behind called hrestore hcalled heip hstack hnested hds => ?_
  have hlength : called.stack.length = 16 := by
    rw [hstack]
    rfl
  let r := b.waiting hdeep ram
  have hwide : m'.Fits r called :=
    hcalled.resize rfl rfl rfl rfl rfl (hlength ▸ (by decide : 4 * 16 ≤ 68))
  have heip' : called.eip = l.execute := heip
  have hat : m'.Fits r (called.jump l.execute) := heip' ▸ hwide
  have hroom : 4 * (called.stack.length + 1) ≤ r.size := hlength ▸ (by decide : 4 * 17 ≤ 68)
  refine hat.run (guarded_waiting hdeep ram) hexecute (framePrologue_run hroom)
    fun address entered hbody hfits => .now ?_
  obtain ⟨hebp, hframe⟩ := fits_calledFrame hfits
  rw [hlength] at hebp
  rw [hstack] at hframe
  refine ⟨hfits.eip ▸ hbody, hfits.code, ?_, fun status espPrev ebpPrev halted hhalting => ?_⟩
  · exact hframe.wordAt_get (k := 2) rfl
  · have hcaller : Holds halted.ram f.regs.esp f.stack := by
      have hdepth : (b.userEsp + 16 - f.regs.esp).toNat = 4 * 5 :=
        (b.user halted.ram).depth (by decide : 4 * 5 ≤ 20)
      refine hholds.congr fun k hk => ?_
      have hmem : f.regs.esp + BitVec.ofNat 32 k ∈ callBytes b.userEsp :=
        b.mem_callBytes hdepth.le (hdepth ▸ hk)
      exact (hhalting.caller _ hmem).trans (hfits.kept _ (.inr hmem))
    refine hhalting.resumes hosts hdeep hebp hframe hrestore hcalls.data rfl
      (by decide : 4 * 5 ≤ 20) hcaller fun m'' hfits => ?_
    exact b.finish (switchGuarded_user halted.ram) hcalls.esp hcalls.code hcalls.segment hfinish
      hfits fun final hreturned heax hkept => .now ⟨hreturned, heax, hkept⟩

end Switch

/-! ## A program that halts with 7 -/

/-- The library function of `execute`, the frame of `execute` and the end of `halt`; the code in
`0x416800` enters a program. -/
def switchOthers (page : ℕ) : List Instr :=
  if page = 0x80480 then doCall 2
  else if page = 0x4160 then haltSwitch .ebx .ecx .edx
  else if page = 0x4161 then framePrologue
  else if page = 0x4168 then executeSwitch
  else []

/-- The `halt` of a child that runs on another stack. -/
def haltedChild (entered : Machine) : Machine :=
  { entered with
    regs := { entered.regs with ebx := 7, ecx := 0x7FFF00, edx := entered.regs.ebp,
                                esp := 0x7FDF00 }
    eip := 0x416000
    eflags := 0x202
    cs := kernelCs
    ss := kernelDs
    ds := userDs }

theorem deep_smallBoundary : smallBoundary.Deep := by
  rintro k hpos hk (hkept | ⟨j, hpos', hj, heq⟩)
  · simp only [smallBoundary, Set.mem_ofPred_eq] at hkept
    bv_omega
  · simp only [smallBoundary] at heq
    bv_omega

theorem halting_haltedChild (entered : Machine) :
    smallBoundary.Halting (smallPlatform switchOthers) .ebx .ecx .edx entered
      (haltedChild entered) where
  code := placed_smallBlocks switchOthers (by decide : 0x4160 < 2 ^ 24) rfl rfl (by decide)
  espPrev_ne := by decide
  ebpPrev_ne := by decide
  cs := rfl
  ss := rfl
  ds := rfl
  nested := show (0x202 : Word).getLsbD nestedTask = false by decide
  ebp := rfl
  away := show 68 ≤ (0x7FFFFC - 0x7FDF00 : Word).toNat by decide
  awayPrev := show 68 ≤ (0x7FFFFC - 0x7FFF00 : Word).toNat by decide
  frame _ _ _ := rfl
  caller _ _ := rfl

theorem execute_returns_at_halt_witness :
    Eventually (smallPlatform switchOthers) smallBoundary.Interrupts
      (fun entered => Eventually (smallPlatform switchOthers) smallBoundary.SwitchInterrupts
        (fun final => ReturnedTo readCaller 0x8048123 1 0x83FFF20 4 final ∧
          final.regs.eax = 7) (haltedChild entered)) readCaller := by
  have hplaced : (smallPlatform switchOthers).Placed 0x8048000 (doCall 2) :=
    placed_smallBlocks switchOthers (by decide : 0x80480 < 2 ^ 24) rfl rfl (by decide)
  have hexecute : (smallPlatform switchOthers).Placed smallLink.execute (framePrologue ++ []) :=
    placed_smallBlocks switchOthers (by decide : 0x4161 < 2 ^ 24) rfl rfl (by decide)
  have hcalls : smallBoundary.Calls readCaller 0x8048123 1 0x83FFF20 4 :=
    ⟨rfl, rfl, rfl, rfl, holds_storeWords _ _ _ (by simp)⟩
  refine (execute_returns_at_halt (hosts_smallPlatform switchOthers) deep_smallBoundary hplaced
    rfl hcalls (readCaller_reads switchOthers) hexecute).trans fun entered hentered => .now ?_
  have hreturns := hentered.2.2.2 .ebx .ecx .edx _ (halting_haltedChild entered)
  exact hreturns.trans fun final hfinal => .now ⟨hfinal.1, hfinal.2.1⟩

/-! ## Entering a program -/

section Launch

variable {p : Platform} {l : EntryLink} {m : Machine}

/-- The flags that a program starts with. -/
def programFlags (eflags : Word) : Word := setFlag eflags interruptFlag false ||| 0x4200

theorem programFlags_interrupt (eflags : Word) :
    (programFlags eflags).getLsbD interruptFlag = true := by
  simp [programFlags, interruptFlag]

theorem programFlags_nestedTask (eflags : Word) :
    (programFlags eflags).getLsbD nestedTask = true := by
  simp [programFlags, nestedTask]

theorem frame_bounded : 20 < 2 ^ 32 := by decide

/-- The stack below the pointer of a machine, on which it builds a frame. -/
def launchRegion (m : Machine) (kept : Set Word)
    (hapart : ∀ k, 0 < k → k ≤ 20 → m.regs.esp - BitVec.ofNat 32 k ∉ kept) : Region where
  top := m.regs.esp
  size := 20
  code := kernelCs
  stackSegment := kernelDs
  kept := kept
  known := m.ram
  bounded := frame_bounded
  apart := hapart

theorem guarded_launch {kept : Set Word}
    (hapart : ∀ k, 0 < k → k ≤ 20 → m.regs.esp - BitVec.ofNat 32 k ∉ kept) :
    (launchRegion m kept hapart).Guarded (Interrupted kept m.regs.esp) :=
  (interrupted_spared rfl fun _ hmem => hmem).guarded

/-- The program starts at its entry point in the segments of the user, on its own stack and
with interrupts on; of ES, FS and GS none is left with a segment of the kernel.  Nothing above
the pointer of `execute` is lost. -/
theorem execute_enters_program (hosts : Hosts p l) (hplaced : p.Placed m.eip executeSwitch)
    (hcode : m.cs = kernelCs) (hsegment : m.ss = kernelDs)
    (hnested : m.eflags.getLsbD nestedTask = false) {kept : Set Word}
    (hapart : ∀ k, 0 < k → k ≤ 20 → m.regs.esp - BitVec.ofNat 32 k ∉ kept) :
    Eventually p (Interrupted kept m.regs.esp)
      (fun started => started.eip = m.regs.ebx ∧
        started.regs = { m.regs with eax := programFlags m.eflags, esp := 0x83FFFFC } ∧
        started.eflags.getLsbD interruptFlag = true ∧
        started.eflags.getLsbD nestedTask = true ∧ started.cs = userCs ∧ started.ss = userDs ∧
        started.ds = userDs ∧ p.outerSegments 3 started.extra = started.extra ∧
        ∀ address ∈ kept, started.ram address = m.ram address) m := by
  let r := launchRegion m kept hapart
  let start : Frame :=
    { regs := m.regs, eip := m.eip, eflags := m.eflags, ds := m.ds, stack := [] }
  have hfits : m.Fits r (start.jump m.eip) :=
    Machine.fits_nil hcode hsegment rfl fun _ _ => rfl
  let flags := setFlag m.eflags interruptFlag false
  let built : Frame :=
    { regs := { m.regs with eax := programFlags m.eflags, esp := r.espAt 5 }
      eip := m.eip
      eflags := orFlags flags (programFlags m.eflags)
      ds := userDs
      stack := [m.regs.ebx, 0x23, programFlags m.eflags, 0x83FFFFC, 0x2B] }
  have hrun : start.run r [.cli, .movwAx 0x2B, .movwDs, .pushlImm 0x2B, .pushlImm 0x83FFFFC,
      .pushfl, .popl .eax, .orlImm 0x4200 .eax, .pushl .eax, .pushlImm 0x23, .pushl .ebx] =
      some built := by
    simp [Frame.run, Frame.data, Frame.pushAll, Frame.restack, Registers.set, Registers.get,
      start, built, flags, r, launchRegion, level_kernelCs, programFlags, userDs]
  have hcleared : built.eflags.getLsbD nestedTask = false := by
    rw [← hnested]
    refine (nestedTask_resultFlags _ _ _ _ _).trans ?_
    simp (disch := decide) only [flags, getLsbD_setFlag]
    rfl
  refine hfits.run (guarded_launch hapart) hplaced hrun fun address m' hplaced hfits => ?_
  obtain ⟨behind, hiret, _⟩ := hplaced
  have houter : level ((0x23 : Word).setWidth 16) ≠ 0 := by decide
  refine hfits.iret_outer (guarded_launch hapart) hiret rfl level_kernelCs hcleared houter
    fun m' hfits => .now ?_
  have hdata : p.outerSegment (level ((0x23 : Word).setWidth 16)) userDs = userDs :=
    hosts.outerSegment_userDs (by decide)
  exact ⟨rfl, rfl, programFlags_interrupt _, programFlags_nestedTask _, rfl, rfl, hdata,
    p.outerSegments_idem 3 m'.extra, hfits.kept⟩

end Launch

/-- `execute` at its last instructions. -/
def launchingKernel : Machine where
  regs := ⟨1, 2, 3, 0x8048094, 0x7FDF00, 0x7FDFB8, 6, 7⟩
  eip := 0x416800
  eflags := 0x202
  cs := kernelCs
  ss := kernelDs
  ds := userDs
  extra := ⟨kernelDs, userDs, userDs⟩
  ram _ := 0

theorem execute_enters_program_witness :
    Eventually (smallPlatform switchOthers)
      (Interrupted { address | 0x7FDF00 ≤ address.toNat } 0x7FDF00)
      (fun started => started.eip = 0x8048094 ∧
        started.regs =
          { launchingKernel.regs with eax := programFlags 0x202, esp := 0x83FFFFC } ∧
        started.eflags.getLsbD interruptFlag = true ∧
        started.eflags.getLsbD nestedTask = true ∧ started.cs = userCs ∧ started.ss = userDs ∧
        started.ds = userDs ∧
        (smallPlatform switchOthers).outerSegments 3 started.extra = started.extra ∧
        ∀ address ∈ { address : Word | 0x7FDF00 ≤ address.toNat },
          started.ram address = 0) launchingKernel := by
  have hplaced : (smallPlatform switchOthers).Placed 0x416800 executeSwitch :=
    placed_smallBlocks switchOthers (by decide : 0x4168 < 2 ^ 24) rfl rfl (by decide)
  have hnested : launchingKernel.eflags.getLsbD nestedTask = false := by decide
  have hapart : ∀ k, 0 < k → k ≤ 20 →
      launchingKernel.regs.esp - BitVec.ofNat 32 k ∉
        { address : Word | 0x7FDF00 ≤ address.toNat } := by
    intro k hpos hk hmem
    simp only [launchingKernel, Set.mem_ofPred_eq] at hmem
    bv_omega
  have henters := execute_enters_program (hosts_smallPlatform switchOthers)
    (m := launchingKernel) hplaced rfl rfl hnested hapart
  exact henters

end KernelEntries
