import VirtualOS.ProcessSwitch

/-!
# Processes that the timer preempts

The handler of the timer saves the frame pointer of the process that it interrupts
and returns with the one of another process, on the stack of that process.  When
the saved pointer is loaded again, at a later tick, the interrupted process
continues as if nothing had happened, whatever ran in between.
-/

namespace KernelEntries

open StackAssembly StringAssembly

/-- Below what a stub pushes there is room for the base pointer of its handler. -/
def Interruption.Deep (i : Interruption) : Prop :=
  ∀ k, 0 < k → k ≤ 60 → i.top - BitVec.ofNat 32 k ∉ i.spared

def Interruption.handlerStack (i : Interruption) (hdeep : i.Deep) (known : Ram) : Region where
  top := i.top
  size := 60
  code := kernelCs
  stackSegment := kernelDs
  kept := i.spared
  known := known
  bounded := by decide
  apart := hdeep

/-- A handler returns with the frame pointer of a process that was preempted before.  The frame
and the memory of that process are as it left them. -/
structure Interruption.SwitchedBack (i : Interruption) (p : Platform)
    (preempted later : Machine) : Prop where
  code : p.Placed later.eip [.leave, .ret]
  cs : later.cs = kernelCs
  ss : later.ss = kernelDs
  ds : later.ds = preempted.ds
  nested : later.eflags.getLsbD nestedTask = false
  ebp : later.regs.ebp = preempted.regs.ebp
  below : (i.top - preempted.regs.ebp).toNat ≤ (i.top - later.regs.esp).toNat
  spared : ∀ address ∈ i.spared, later.ram address = preempted.ram address
  frame : ∀ k, 0 < k → k ≤ (i.top - preempted.regs.ebp).toNat →
    later.ram (i.top - BitVec.ofNat 32 k) = preempted.ram (i.top - BitVec.ofNat 32 k)

section Preemption

variable {p : Platform} {l : EntryLink} {i : Interruption} {m preempted later : Machine}
  {known : Ram} {handler : Word} {line : BitVec 4} {words : List Word}

/-- The frame is parked until the handler leaves into it. -/
theorem Interruption.SwitchedBack.parks (hdeep : i.Deep)
    (hback : i.SwitchedBack p preempted later) (hroom : 4 * words.length ≤ 60)
    (hebp : preempted.regs.ebp = (i.handlerStack hdeep known).espAt words.length)
    (hholds : Holds preempted.ram preempted.regs.ebp words)
    (hkept : ∀ address ∈ i.spared, preempted.ram address = known address) :
    (i.handlerStack hdeep known).Parks words later.ram := by
  let r := i.handlerStack hdeep known
  have hdepth : (i.top - preempted.regs.ebp).toNat = 4 * words.length := by
    rw [hebp]
    exact r.depth hroom
  refine ⟨hroom, ?_, fun address hmem => (hback.spared address hmem).trans (hkept address hmem)⟩
  rw [hebp] at hholds
  refine hholds.congr fun k hk => ?_
  have hslot : r.espAt words.length + BitVec.ofNat 32 k =
      i.top - BitVec.ofNat 32 (4 * words.length - k) := r.slot_eq hk.le
  rw [hslot]
  exact hback.frame _ (by omega) (by omega)

/-- An interrupted process comes into the frame of the handler; whenever a handler returns with
the pointer of this frame, the process goes on with all its registers. -/
theorem preempted_process_resumes (hosts : Hosts p l) (hcomes : i.Comes p m) (hdeep : i.Deep)
    {body : List Instr} (hhandler : p.Placed handler (framePrologue ++ body))
    (hkept : ∀ j < 4, l.irqHandlerJumptable + 4 * line.setWidth 32 + BitVec.ofNat 32 j ∈ i.spared)
    (hentry : wordAt m.ram (l.irqHandlerJumptable + 4 * line.setWidth 32) = handler) :
    ∃ entered, p.deliver (0x20 + line.setWidth 8) none m = some entered ∧
      Eventually p i.Nested
        (fun preempted => p.Placed preempted.eip body ∧
          (i.top - preempted.regs.ebp).toNat ≤ 60 ∧
          ∀ later, i.SwitchedBack p preempted later →
            Eventually p i.Nested (i.Resumes m) later) entered := by
  obtain ⟨entered, f, hentered, hfits, heip, hregs, hnested, hds, hlength, hreturns⟩ :=
    i.arrives hosts hcomes line
  refine ⟨entered, hentered, i.enterHandler hosts hkept hentry hnested heip hlength hfits
    fun m' back called hplaced hcalled heip hstack _ hsame => ?_⟩
  let r := i.handlerStack hdeep m.ram
  have hspared : r.Spared i.Nested := interrupted_spared rfl fun _ hmem => hmem
  have hcount : called.stack.length = f.stack.length + 9 := by
    rw [hstack]
    rfl
  have hroom : 4 * (called.stack.length + 1) ≤ 60 := by omega
  have hwide : m'.Fits r called := hcalled.resize rfl rfl rfl rfl rfl (by
    change _ ≤ 60
    omega)
  have hat : m'.Fits r (called.jump handler) := heip ▸ hwide
  refine hat.run hspared.guarded hhandler (framePrologue_run hroom)
    fun address preempted hbody hfits => .now ?_
  obtain ⟨hebp, hframe⟩ := fits_calledFrame hfits
  have hdepth : (i.top - preempted.regs.ebp).toNat = 4 * (called.stack.length + 1) := by
    rw [hebp]
    exact r.depth hroom
  refine ⟨hfits.eip ▸ hbody, hdepth.trans_le hroom, fun later hback => ?_⟩
  have hparks : r.Parks (called.regs.ebp :: called.stack) later.ram :=
    hback.parks hdeep hroom hebp hframe hfits.kept
  have haway : r.Away (called.regs.ebp :: called.stack) later.regs.esp :=
    hdepth.ge.trans hback.below
  have hdata : later.ds = m.ds := hback.ds.trans (hfits.ds.trans (hsame.trans hds))
  obtain ⟨next, hleave, _, hret, _⟩ := hback.code
  refine hparks.leave hspared hback.cs hback.ss haway (hback.ebp.trans hebp) hleave
    fun left hfits => ?_
  refine hfits.ret hspared.guarded hret hstack fun final hfits => ?_
  have hshort : 4 * (f.stack.length + 8) ≤ 56 := by omega
  obtain ⟨g, hsmall, heip, hrestored, hflags, hsame⟩ : ∃ g : Frame,
      final.Fits (i.region m.ram) g ∧ g.eip = back ∧
      g.stack = savedRegisters f.regs ++ f.stack ∧ g.eflags = later.eflags ∧
      g.ds = later.ds :=
    ⟨_, hfits.resize rfl rfl rfl rfl rfl hshort, rfl, rfl, rfl, rfl⟩
  refine i.leaveHandler hplaced heip hrestored (hflags ▸ hback.nested) hsmall
    fun final behind left hiret hregs' hnested hds' hstack hfits => ?_
  exact hreturns final behind left hiret (hregs'.trans (by rw [hregs])) hnested
    (hds'.trans (hsame.trans hdata)) hstack hfits

end Preemption

/-! ## A preempted kernel -/

/-- The frame of the handler of the timer and its end. -/
def preemptOthers (page : ℕ) : List Instr :=
  if page = 0x4168 then framePrologue else if page = 0x4169 then [.leave, .ret] else []

/-- A later tick, which interrupted another process. -/
def laterTick (preempted : Machine) : Machine :=
  { preempted with
    regs := ⟨0, 0, 0, 0, 0x7FFF00, preempted.regs.ebp, 0, 0⟩
    eip := 0x416900
    eflags := 0x202
    cs := kernelCs
    ss := kernelDs }

theorem deep_tickInterruption : tickInterruption.Deep := by
  rintro k hpos hk hmem
  simp only [tickInterruption, Set.mem_ofPred_eq] at hmem
  bv_omega

theorem preempted_process_resumes_witness :
    ∃ entered, (smallPlatform preemptOthers).deliver (0x20 + (0 : BitVec 4).setWidth 8) none
        tickedKernel = some entered ∧
      Eventually (smallPlatform preemptOthers) tickInterruption.Nested
        (fun preempted => Eventually (smallPlatform preemptOthers) tickInterruption.Nested
          (tickInterruption.Resumes tickedKernel) (laterTick preempted)) entered := by
  have hhandler : (smallPlatform preemptOthers).Placed 0x416800 (framePrologue ++ []) :=
    placed_smallBlocks preemptOthers (by decide : 0x4168 < 2 ^ 24) rfl rfl (by decide)
  have hcode : (smallPlatform preemptOthers).Placed 0x416900 [.leave, .ret] :=
    placed_smallBlocks preemptOthers (by decide : 0x4169 < 2 ^ 24) rfl rfl (by decide)
  have hkept : ∀ j < 4, smallLink.irqHandlerJumptable + 4 * (0 : BitVec 4).setWidth 32 +
      BitVec.ofNat 32 j ∈ tickInterruption.spared := by
    intro j hj
    refine .inl ?_
    simp only [smallLink]
    interval_cases j <;> rfl
  have hentry : wordAt tickedKernel.ram
      (smallLink.irqHandlerJumptable + 4 * (0 : BitVec 4).setWidth 32) = 0x416800 := by
    decide +kernel
  obtain ⟨entered, hentered, hpreempts⟩ := preempted_process_resumes
    (hosts_smallPlatform preemptOthers) (.kernel rfl rfl rfl) deep_tickInterruption hhandler
    hkept hentry
  refine ⟨entered, hentered, hpreempts.trans fun preempted hpreempted => .now ?_⟩
  have hbelow : (tickInterruption.top - preempted.regs.ebp).toNat ≤
      (tickInterruption.top - 0x7FFF00).toNat :=
    hpreempted.2.1.trans (by decide : 60 ≤ (0x7FFFBC - 0x7FFF00 : Word).toNat)
  exact hpreempted.2.2 _
    { code := hcode
      cs := rfl
      ss := rfl
      ds := rfl
      nested := show (0x202 : Word).getLsbD nestedTask = false by decide
      ebp := rfl
      below := hbelow
      spared := fun _ _ => rfl
      frame := fun _ _ _ => rfl }

end KernelEntries
