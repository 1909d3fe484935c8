import VirtualOS.SystemCallPath

/-!
# The way through an interrupt

The stubs of the sixteen lines save all registers, call the handler of the line
and restore them.  Wherever an interrupt comes, in a program or inside the kernel,
the interrupted code finds everything as it was; so an interrupt is one of the
things that a system call may meet on its way.
-/

namespace KernelEntries

open StackAssembly StringAssembly

/-- The stack on which an interrupt is handled and the memory that its handler spares. -/
structure Interruption where
  top : Word
  spared : Set Word
  apart : ∀ k, 0 < k → k ≤ 56 → top - BitVec.ofNat 32 k ∉ spared

namespace Interruption

variable (i : Interruption)

def region (known : Ram) : Region where
  top := i.top
  size := 56
  code := kernelCs
  stackSegment := kernelDs
  kept := i.spared
  known := known
  bounded := by decide
  apart := i.apart

/-- Further interrupts while the first one is handled. -/
def Nested : Machine → Machine → Prop := Interrupted i.spared i.top

theorem guarded (known : Ram) : (i.region known).Guarded i.Nested :=
  (interrupted_spared rfl fun _ hmem => hmem).guarded

/-- A handler in C that returns. -/
def Handles (p : Platform) (entry : Word) : Prop :=
  ∀ known f m back rest, f.eip = entry → f.stack = back :: rest →
    f.eflags.getLsbD nestedTask = false → m.Fits (i.region known) f →
    Eventually p i.Nested
      (fun returned => ∃ f', returned.Fits (i.region known) f' ∧ f'.eip = back ∧
        f'.stack = rest ∧ f'.eflags.getLsbD nestedTask = false ∧ f'.ds = f.ds) m

/-- An interrupt comes in a program, and its stack is the one of the task state, or inside the
kernel, and its stack is the current one. -/
inductive Comes (p : Platform) (m : Machine) : Prop
  | program (hcode : m.cs = userCs) (hdata : m.ds = userDs)
      (htop : wordAt m.ram (p.tss + 4) = i.top)
      (hsegment : (wordAt m.ram (p.tss + 8)).setWidth 16 = kernelDs)
  | kernel (hcode : m.cs = kernelCs) (hsegment : m.ss = kernelDs) (htop : m.regs.esp = i.top)

end Interruption

/-- The bytes from the pointer up to the top of the stack, inside the kernel. -/
def stackAbove (top : Word) (m : Machine) : Set Word :=
  { address | m.cpl = 0 ∧
    ∃ k < (top - m.regs.esp).toNat, address = m.regs.esp + BitVec.ofNat 32 k }

/-- The registers in the order of `pusha`, from the pointer on. -/
def savedRegisters (regs : Registers) : List Word :=
  [regs.edi, regs.esi, regs.ebp, regs.esp, regs.ebx, regs.edx, regs.ecx, regs.eax]

section Path

variable {p : Platform} {l : EntryLink} {i : Interruption} {m : Machine} {f : Frame}
  {known : Ram} {handler : Word} {goal : Machine → Prop} {line : BitVec 4} {words : List Word}

/-- The machine as it was, apart from memory that is not spared and from ES, FS and GS. -/
def Interruption.Resumes (i : Interruption) (m final : Machine) : Prop :=
  (∃ extra ram, final = { m with extra := extra, ram := ram }) ∧
    ∀ address ∈ i.spared, final.ram address = m.ram address

/-- The stub of a line, from the gate to its handler. -/
theorem Interruption.enterHandler (hosts : Hosts p l)
    (hkept : ∀ j < 4, l.irqHandlerJumptable + 4 * line.setWidth 32 + BitVec.ofNat 32 j ∈ i.spared)
    (hentry : wordAt known (l.irqHandlerJumptable + 4 * line.setWidth 32) = handler)
    (hnested : f.eflags.getLsbD nestedTask = false) (heip : f.eip = l.itrIrqs line)
    (hlength : f.stack.length ≤ 5) (hfits : m.Fits (i.region known) f)
    (hrest : ∀ (m : Machine) back (called : Frame), p.Placed back [.popa, .iret] →
      m.Fits (i.region known) called → called.eip = handler →
      called.stack = back :: (savedRegisters f.regs ++ f.stack) →
      called.eflags.getLsbD nestedTask = false → called.ds = f.ds →
      Eventually p i.Nested goal m) : Eventually p i.Nested goal m := by
  have hguarded := i.guarded known
  let saved : List Word := savedRegisters f.regs ++ f.stack
  have hlength' : saved.length = f.stack.length + 8 := rfl
  have hsave : f.run (i.region known) [.pusha, .movlImm (line.setWidth 32) .eax] =
      some { f.restack (i.region known) saved with
        regs := { (f.restack (i.region known) saved).regs with eax := line.setWidth 32 } } := by
    have hroom : 4 * saved.length ≤ (i.region known).size := by
      simp only [hlength', region]
      omega
    have hpush : f.data (i.region known) .pusha = some (f.restack (i.region known) saved) :=
      if_pos hroom
    rw [Frame.run, List.foldlM_cons, hpush]
    rfl
  have hplaced : p.Placed (l.itrIrqs line)
      ([.pusha, .movlImm (line.setWidth 32) .eax] ++ [.jmp l.itrIrq]) := hosts.itrIrqs line
  have hat : m.Fits (i.region known) (f.jump (l.itrIrqs line)) := heip ▸ hfits
  refine hat.run hguarded hplaced hsave fun address m hplaced hfits => ?_
  obtain ⟨_, hjmp, _⟩ := hplaced
  refine hfits.jmp hguarded hjmp fun m hfits => ?_
  obtain ⟨back, hcall, hplaced⟩ := hosts.itrIrq
  have hroom : 4 * (saved.length + 1) ≤ (i.region known).size := by
    simp only [hlength', region]
    omega
  exact hfits.callTable hguarded hcall hroom hkept hentry fun m hfits =>
    hrest m back _ hplaced hfits rfl rfl hnested rfl

/-- The stub of a line, from the return of its handler to its `iret`. -/
theorem Interruption.leaveHandler {back : Word} {regs : Registers} {g : Frame}
    (hplaced : p.Placed back [.popa, .iret]) (heip : g.eip = back)
    (hstack : g.stack = savedRegisters regs ++ words)
    (hnested : g.eflags.getLsbD nestedTask = false) (hfits : m.Fits (i.region known) g)
    (hrest : ∀ (m : Machine) behind (left : Frame), p.text left.eip = some (.iret, behind) →
      left.regs = { regs with esp := left.regs.esp } → left.eflags.getLsbD nestedTask = false →
      left.ds = g.ds → left.stack = words → m.Fits (i.region known) left →
      Eventually p i.Nested goal m) : Eventually p i.Nested goal m := by
  let restored : Frame :=
    { g with
      regs := { regs with esp := (i.region known).espAt words.length }
      stack := words }
  have hrestore : g.run (i.region known) [.popa] = some restored := by
    simp only [Frame.run, List.foldlM_cons, List.foldlM_nil, Frame.data, hstack, savedRegisters,
      List.cons_append, List.nil_append]
    rfl
  have hplaced : p.Placed back ([.popa] ++ [.iret]) := hplaced
  have hat : m.Fits (i.region known) (g.jump back) := heip ▸ hfits
  refine hat.run (i.guarded known) hplaced hrestore fun address m hplaced hfits => ?_
  obtain ⟨behind, hiret, _⟩ := hplaced
  exact hrest m behind (restored.jump address) hiret rfl hnested rfl rfl hfits

theorem setWidth_selector (selector : BitVec 16) :
    (selector.setWidth 32).setWidth 16 = selector := by
  apply BitVec.eq_of_toNat_eq
  have hlt := selector.isLt
  simp only [BitVec.toNat_setWidth]
  omega

/-- The return into the interrupted program. -/
theorem Interruption.resume_program (hosts : Hosts p l) {g : Frame} {final : Machine}
    {behind : Word} (hcode : m.cs = userCs) (hdata : m.ds = userDs)
    (hiret : p.text g.eip = some (.iret, behind))
    (hregs : g.regs = { m.regs with esp := g.regs.esp })
    (hnested : g.eflags.getLsbD nestedTask = false) (hds : g.ds = m.ds)
    (hstack : g.stack =
      [m.eip, m.cs.setWidth 32, m.eflags, m.regs.esp, m.ss.setWidth 32])
    (hfits : final.Fits (i.region m.ram) g) :
    Eventually p i.Nested (i.Resumes m) final := by
  have houter : level ((m.cs.setWidth 32).setWidth 16) ≠ 0 := by
    rw [setWidth_selector, hcode]
    decide
  have hsame : p.outerSegment (level ((m.cs.setWidth 32).setWidth 16)) g.ds = m.ds := by
    rw [hds, setWidth_selector, hcode, hdata]
    exact hosts.outerSegment_userDs (by decide)
  refine hfits.iret_outer (i.guarded m.ram) hiret hstack level_kernelCs hnested houter
    fun final hfits => ?_
  have hspared : ∀ address ∈ i.spared, final.ram address = m.ram address := hfits.kept
  rw [hsame, setWidth_selector, setWidth_selector, hregs]
  exact .now ⟨⟨_, final.ram, rfl⟩, hspared⟩

/-- The return inside the kernel. -/
theorem Interruption.resume_kernel {g : Frame} {final : Machine} {behind : Word}
    (hcode : m.cs = kernelCs) (hsegment : m.ss = kernelDs) (htop : m.regs.esp = i.top)
    (hiret : p.text g.eip = some (.iret, behind))
    (hregs : g.regs = { m.regs with esp := g.regs.esp })
    (hnested : g.eflags.getLsbD nestedTask = false) (hds : g.ds = m.ds)
    (hstack : g.stack = [m.eip, m.cs.setWidth 32, m.eflags])
    (hfits : final.Fits (i.region m.ram) g) :
    Eventually p i.Nested (i.Resumes m) final := by
  have hinner : level ((m.cs.setWidth 32).setWidth 16) = 0 := by
    rw [setWidth_selector, hcode]
    decide
  refine hfits.iret_inner (i.guarded m.ram) hiret hstack level_kernelCs hnested hinner
    fun final hfits => ?_
  have hspared : ∀ address ∈ i.spared, final.ram address = m.ram address := hfits.kept
  have hesp : (i.region m.ram).top = m.regs.esp := htop.symm
  have hss : (i.region m.ram).stackSegment = m.ss := hsegment.symm
  rw [setWidth_selector, hregs, hds, hesp, hss]
  exact .now ⟨⟨final.extra, final.ram, rfl⟩, hspared⟩

/-- The stub that ends with these words on its stack resumes the machine. -/
def Interruption.Returns (i : Interruption) (p : Platform) (m : Machine) (words : List Word) :
    Prop :=
  ∀ (final : Machine) behind (g : Frame), p.text g.eip = some (.iret, behind) →
    g.regs = { m.regs with esp := g.regs.esp } → g.eflags.getLsbD nestedTask = false →
    g.ds = m.ds → g.stack = words → final.Fits (i.region m.ram) g →
    Eventually p i.Nested (i.Resumes m) final

/-- An interrupt comes to the stub of its line, with all it needs for the return. -/
theorem Interruption.arrives (hosts : Hosts p l) (hcomes : i.Comes p m) (line : BitVec 4) :
    ∃ entered f, p.deliver (0x20 + line.setWidth 8) none m = some entered ∧
      entered.Fits (i.region m.ram) f ∧ f.eip = l.itrIrqs line ∧
      f.regs = { m.regs with esp := f.regs.esp } ∧ f.eflags.getLsbD nestedTask = false ∧
      f.ds = m.ds ∧ f.stack.length ≤ 5 ∧ i.Returns p m f.stack := by
  have hvector : ∀ line : BitVec 4,
      (0x20 + line.setWidth 8 : BitVec 8).toNat = 0x20 + line.toNat := by decide
  have heip : idtHandler l (0x20 + line.setWidth 8 : BitVec 8).toNat = l.itrIrqs line := by
    rw [hvector, idtHandler_irq]
  cases hcomes with
  | program hcode hdata htop hsegment =>
      obtain ⟨entered, eflags, hentered, hnested, hfits⟩ := hosts.deliver_outer
        (r := i.region m.ram) (0x20 + line.setWidth 8) none hcode rfl htop hsegment
        (by decide : 4 * 5 ≤ 56) fun _ _ => rfl
      refine ⟨entered, _, hentered, hfits, heip, rfl, hnested, rfl, Nat.le_refl 5, ?_⟩
      intro final behind g hiret hregs hnested hds hstack hfits
      exact i.resume_program hosts hcode hdata hiret hregs hnested hds hstack hfits
  | kernel hcode hsegment htop =>
      obtain ⟨entered, eflags, hentered, hnested, hfits⟩ := hosts.deliver_inner
        (r := i.region m.ram) (0x20 + line.setWidth 8) none hcode rfl htop hsegment
        (by decide : 4 * 3 ≤ 56) fun _ _ => rfl
      refine ⟨entered, _, hentered, hfits, heip, rfl, hnested, rfl, (by decide : 3 ≤ 5), ?_⟩
      intro final behind g hiret hregs hnested hds hstack hfits
      exact i.resume_kernel hcode hsegment htop hiret hregs hnested hds hstack hfits

/-- Whatever it interrupts, an interrupt leaves it as it was. -/
theorem interrupt_resumes (hosts : Hosts p l) (hcomes : i.Comes p m)
    (hhandles : i.Handles p handler)
    (hkept : ∀ j < 4, l.irqHandlerJumptable + 4 * line.setWidth 32 + BitVec.ofNat 32 j ∈ i.spared)
    (hentry : wordAt m.ram (l.irqHandlerJumptable + 4 * line.setWidth 32) = handler) :
    ∃ entered, p.deliver (0x20 + line.setWidth 8) none m = some entered ∧
      Eventually p i.Nested (i.Resumes m) entered := by
  obtain ⟨entered, f, hentered, hfits, heip, hregs, hnested, hds, hlength, hreturns⟩ :=
    i.arrives hosts hcomes line
  refine ⟨entered, hentered, i.enterHandler hosts hkept hentry hnested heip hlength hfits
    fun final back called hplaced hcalled heip hstack hnested hsame => ?_⟩
  refine (hhandles m.ram called final back _ heip hstack hnested hcalled).trans ?_
  rintro final ⟨g, hfits, heip, hstack, hnested, hds'⟩
  refine i.leaveHandler hplaced heip hstack hnested hfits
    fun final behind left hiret hregs' hnested hds'' hstack hfits => ?_
  exact hreturns final behind left hiret (hregs'.trans (by rw [hregs])) hnested
    (hds''.trans (hds'.trans (hsame.trans hds))) hstack hfits

end Path

/-! ## Faults of programs -/

section Faults

variable {p : Platform} {l : EntryLink} {b : Boundary} {m : Machine} {next : Word}

theorem idtHandler_fault (l : EntryLink) (n : Fin 20) (fault : Fault)
    (hfault : Fault.all[n.val]? = some fault) : idtHandler l n.val = l.itr fault := by
  fin_cases n <;> obtain rfl := Option.some.inj hfault <;> rfl

theorem itrSaved_run {r : Region} {f : Frame} (fault : Fault)
    (hroom : 4 * (f.stack.length + 8) ≤ r.size) :
    ∃ f' : Frame, f.run r (itrSaved fault) = some f' ∧
      f'.stack = savedRegisters f.regs ++ f.stack := by
  have hpush : f.data r .pusha = some (f.restack r (savedRegisters f.regs ++ f.stack)) :=
    if_pos hroom
  unfold itrSaved
  split
  · exact ⟨_, by rw [Frame.run, List.foldlM_cons, hpush]; rfl, rfl⟩
  · exact ⟨_, by rw [Frame.run, List.foldlM_cons, hpush]; rfl, rfl⟩

/-- A fault of a program calls its handler on the stack of the kernel, with the registers, the
error code and the place of the fault on the stack. -/
theorem fault_calls_handler (hosts : Hosts p l) (hcode : m.cs = userCs)
    (htop : wordAt m.ram (p.tss + 4) = b.esp0)
    (hsegment : (wordAt m.ram (p.tss + 8)).setWidth 16 = kernelDs)
    (vector : BitVec 8) {fault : Fault} (hvector : vector.toNat < 20)
    (hfault : Fault.all[vector.toNat]? = some fault) (error : Option Word) :
    ∃ entered, p.deliver vector error m = some entered ∧
      Eventually p b.Interrupts
        (fun final => final.eip = l.exc fault ∧ final.cs = kernelCs ∧ final.ss = kernelDs ∧
          final.regs.esp = b.esp0 - BitVec.ofNat 32 (4 * (error.toList.length + 14)) ∧
          ∃ back saved, saved = { m.regs with esp := saved.esp } ∧
            Holds final.ram final.regs.esp (back :: savedRegisters saved ++ error.toList ++
              [m.eip, userCs.setWidth 32, m.eflags, m.regs.esp, m.ss.setWidth 32]))
        entered := by
  have hlength : error.toList.length ≤ 1 := by cases error <;> simp
  have hroom : 4 * (error.toList.length + 5) ≤ 64 := by omega
  have hguarded := b.guarded_kernel m.ram
  obtain ⟨entered, eflags, hentered, _, hfits⟩ := hosts.deliver_outer (r := b.kernel m.ram)
    vector error hcode rfl htop hsegment hroom fun _ _ => rfl
  have heip : idtHandler l vector.toNat = l.itr fault :=
    idtHandler_fault l ⟨vector.toNat, hvector⟩ fault hfault
  let outer : List Word :=
    [m.eip, m.cs.setWidth 32, m.eflags, m.regs.esp, m.ss.setWidth 32]
  obtain ⟨f, hfits, heip, hregs, hstack⟩ : ∃ f : Frame,
      entered.Fits (b.kernel m.ram) f ∧ f.eip = l.itr fault ∧
      f.regs = { m.regs with esp := f.regs.esp } ∧ f.stack = error.toList ++ outer :=
    ⟨_, hfits, heip, rfl, rfl⟩
  have hat : entered.Fits (b.kernel m.ram) (f.jump (l.itr fault)) := heip ▸ hfits
  have hdepth : f.stack.length = error.toList.length + 5 := by
    rw [hstack, List.length_append]
    rfl
  obtain ⟨f', hrun, hpushed⟩ := itrSaved_run (r := b.kernel m.ram) fault
    (by rw [hdepth]; change _ ≤ 64; omega)
  refine ⟨entered, hentered, hat.run hguarded (hosts.itr fault) hrun
    fun address final hplaced hfits => ?_⟩
  obtain ⟨back, hcall, _⟩ := hplaced
  have hroom' : 4 * (f'.stack.length + 1) ≤ (b.kernel m.ram).size := by
    rw [hpushed, List.length_append, hdepth]
    change 4 * (8 + _ + 1) ≤ 64
    omega
  have hcount : (back :: f'.stack).length = error.toList.length + 14 := by
    rw [hpushed, List.length_cons, List.length_append, hdepth]
    change 8 + _ + 1 = _
    omega
  refine hfits.call hguarded hcall hroom' fun final hfits =>
    .now ⟨hfits.eip, hfits.code, hfits.segment, ?_, back, f.regs, hregs, ?_⟩
  · rw [hfits.regs, ← hcount]
    rfl
  have hholds := hfits.stack
  rw [← hfits.regs] at hholds
  have hwords : back :: f'.stack = back :: savedRegisters f.regs ++ error.toList ++
      [m.eip, userCs.setWidth 32, m.eflags, m.regs.esp, m.ss.setWidth 32] := by
    rw [hpushed, hstack, ← hcode, List.cons_append, List.cons_append, List.append_assoc]
  rw [← hwords]
  exact hholds

/-- `int` with any vector but the one of the system calls is a protection fault: the program
cannot enter the kernel by another gate. -/
theorem int_other_faults (hosts : Hosts p l) (hcode : m.cs = userCs)
    (htop : wordAt m.ram (p.tss + 4) = b.esp0)
    (hsegment : (wordAt m.ram (p.tss + 8)).setWidth 16 = kernelDs)
    {vector : BitVec 8} (hother : vector ≠ 0x80)
    (htext : p.text m.eip = some (.int vector, next)) :
    ∃ entered, p.step m = some entered ∧
      Eventually p b.Interrupts
        (fun final => final.eip = l.exc .gp ∧ final.cs = kernelCs ∧ final.ss = kernelDs ∧
          final.regs.esp = b.esp0 - 60 ∧
          ∃ back saved, saved = { m.regs with esp := saved.esp } ∧
            Holds final.ram final.regs.esp (back :: savedRegisters saved ++
              [vector.setWidth 32 * 8 + 2, m.eip, userCs.setWidth 32, m.eflags, m.regs.esp,
                m.ss.setWidth 32])) entered := by
  have hdenied : ¬m.cpl ≤ (p.idt vector).dpl := by
    have hnat : vector.toNat ≠ 0x80 := fun h => hother (BitVec.eq_of_toNat_eq h)
    rw [hosts.dpl, if_neg hnat, Machine.cpl, hcode]
    decide
  obtain ⟨entered, hentered, hcalls⟩ := fault_calls_handler hosts hcode htop hsegment
    generalProtection (by decide) rfl (some (vector.setWidth 32 * 8 + 2))
  refine ⟨entered, ?_, hcalls⟩
  rw [Platform.step, htext]
  exact (if_neg hdenied).trans hentered

end Faults

/-- A program that tries the gate of the keyboard. -/
def strayOthers (page : ℕ) : List Instr := if page = 0x80480 then [.int 0x21] else []

theorem int_other_faults_witness :
    ∃ entered, (smallPlatform strayOthers).step readCaller = some entered ∧
      Eventually (smallPlatform strayOthers) smallBoundary.Interrupts
        (fun final => final.eip = smallLink.exc .gp ∧ final.cs = kernelCs ∧
          final.ss = kernelDs ∧ final.regs.esp = smallBoundary.esp0 - 60 ∧
          ∃ back saved, saved = { readCaller.regs with esp := saved.esp } ∧
            Holds final.ram final.regs.esp (back :: savedRegisters saved ++
              [0x10A, 0x8048000, userCs.setWidth 32, 0x202, 0x83FFF00,
                readCaller.ss.setWidth 32])) entered :=
  int_other_faults (hosts_smallPlatform strayOthers) rfl (by decide +kernel) (by decide +kernel)
    (by decide : (0x21 : BitVec 8) ≠ 0x80) rfl

/-! ## A tick inside the kernel -/

/-- The timer interrupts a handler that has 64 bytes on the stack of the kernel. -/
def tickInterruption : Interruption where
  top := 0x7FFFBC
  spared := { address | address.toNat / 2 ^ 16 = 0x40 ∨
    0x7FFFBC ≤ address.toNat ∧ address.toNat < 0x7FFFFC }
  apart := by
    rintro k hpos hk hmem
    simp only [Set.mem_ofPred_eq] at hmem
    bv_omega

def tickedKernel : Machine where
  regs := ⟨1, 2, 3, 4, 0x7FFFBC, 5, 6, 7⟩
  eip := 0x416200
  eflags := 0x202
  cs := kernelCs
  ss := kernelDs
  ds := userDs
  extra := ⟨userDs, userDs, userDs⟩
  ram := storeWords (fun _ => 0) 0x400100 [0x416800]

/-- A handler of the timer that returns at once. -/
def tickOthers (page : ℕ) : List Instr := if page = 0x4168 then [.movlImm 0 .eax, .ret] else []

theorem tickOthers_handles :
    tickInterruption.Handles (smallPlatform tickOthers) 0x416800 := by
  intro known f m back rest heip hstack hnested hfits
  have hplaced : (smallPlatform tickOthers).Placed 0x416800 ([.movlImm 0 .eax] ++ [.ret]) :=
    placed_smallBlocks tickOthers (by decide : 0x4168 < 2 ^ 24) rfl rfl (by decide)
  have hat : m.Fits (tickInterruption.region known) (f.jump 0x416800) := heip ▸ hfits
  have hguarded := tickInterruption.guarded known
  refine hat.run hguarded hplaced rfl fun address m hplaced hfits => ?_
  obtain ⟨behind, hret, _⟩ := hplaced
  exact hfits.ret hguarded hret hstack fun m hfits =>
    .now ⟨_, hfits, rfl, rfl, hnested, rfl⟩

end KernelEntries
