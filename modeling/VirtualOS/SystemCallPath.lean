import VirtualOS.KernelEntries
import VirtualOS.StackSwitches

/-!
# The way through a system call

A library function pushes, loads its arguments and enters the kernel; the kernel
checks the number, calls the handler of the table and returns.  Interrupts may
come between any two instructions.  The program sees the answer in one register
and nothing else changed, whatever the handler left in the others.
-/

namespace KernelEntries

open StackAssembly StringAssembly

/-! ## The two sides -/

/-- The bytes that a library function uses on the stack of its caller: a saved register, the
return address and three arguments. -/
def callBytes (userEsp : Word) : Set Word :=
  { address | ∃ k, 0 < k ∧ k ≤ 20 ∧ address = userEsp + 16 - BitVec.ofNat 32 k }

/-- The stacks of the caller and of the kernel, and the memory that nobody else changes. -/
structure Boundary where
  userEsp : Word
  esp0 : Word
  kept : Set Word
  userApart : ∀ address ∈ callBytes userEsp, address ∉ kept
  kernelApart : ∀ k, 0 < k → k ≤ 64 →
    esp0 - BitVec.ofNat 32 k ∉ kept ∪ callBytes userEsp

/-- What an interrupt leaves alone: the registers and segments but for ES, FS and GS, the
spared memory and, inside the kernel, the stack from the pointer up to its top. -/
def Interrupted (spared : Set Word) (top : Word) (m between : Machine) : Prop :=
  (∃ extra ram, between = { m with extra := extra, ram := ram }) ∧
  (∀ address ∈ spared, between.ram address = m.ram address) ∧
  (m.cpl = 0 → ∀ k < (top - m.regs.esp).toNat,
    between.ram (m.regs.esp + BitVec.ofNat 32 k) = m.ram (m.regs.esp + BitVec.ofNat 32 k))

theorem interrupted_spared {r : Region} {spared : Set Word} (hcode : r.code = kernelCs)
    (hkept : r.kept ⊆ spared) : r.Spared (Interrupted spared r.top) := by
  intro m between hdisturb hm
  obtain ⟨hram, hspared, hstack⟩ := hdisturb
  have hcpl : m.cpl = 0 := by
    rw [Machine.cpl, hm, hcode]
    exact level_kernelCs
  refine ⟨hram, fun address hmem => hspared address (hkept hmem), fun k hpos _ hk => ?_⟩
  have htop : r.top = m.regs.esp + BitVec.ofNat 32 (r.top - m.regs.esp).toNat := by
    rw [BitVec.ofNat_toNat, BitVec.setWidth_eq]
    grind
  obtain ⟨left, hleft⟩ := Nat.exists_eq_add_of_le hk
  have hslot : r.top - BitVec.ofNat 32 k = m.regs.esp + BitVec.ofNat 32 left := by
    rw [hleft, BitVec.ofNat_add] at htop
    grind
  rw [hslot]
  exact hstack hcpl left (by omega)

namespace Boundary

variable (b : Boundary)

def user (known : Ram) : Region where
  top := b.userEsp + 16
  size := 20
  code := userCs
  stackSegment := userDs
  kept := b.kept
  known := known
  bounded := by decide
  apart := fun k hpos hk => b.userApart _ ⟨k, hpos, hk, rfl⟩

def kernel (known : Ram) : Region where
  top := b.esp0
  size := 64
  code := kernelCs
  stackSegment := kernelDs
  kept := b.kept ∪ callBytes b.userEsp
  known := known
  bounded := by decide
  apart := b.kernelApart

/-- Interrupts on the way through the call. -/
def Interrupts : Machine → Machine → Prop :=
  Interrupted (b.kept ∪ callBytes b.userEsp) b.esp0

theorem guarded_kernel (known : Ram) : (b.kernel known).Guarded b.Interrupts :=
  (interrupted_spared rfl fun _ hmem => hmem).guarded

theorem mem_callBytes {esp : Word} {k : ℕ} (hsize : (b.userEsp + 16 - esp).toNat ≤ 20)
    (hk : k < (b.userEsp + 16 - esp).toNat) :
    esp + BitVec.ofNat 32 k ∈ callBytes b.userEsp := by
  refine ⟨(b.userEsp + 16 - esp).toNat - k, by omega, by omega, ?_⟩
  have hesp : esp = b.userEsp + 16 - BitVec.ofNat 32 (b.userEsp + 16 - esp).toNat := by
    rw [BitVec.ofNat_toNat, BitVec.setWidth_eq]
    grind
  obtain ⟨left, hleft⟩ := Nat.exists_eq_add_of_le hk.le
  rw [hleft, Nat.add_sub_cancel_left]
  rw [hleft, BitVec.ofNat_add] at hesp
  grind

theorem guarded_user (known : Ram) : (b.user known).Guarded b.Interrupts := by
  intro m between hdisturb _
  obtain ⟨hram, hspared, _⟩ := hdisturb
  refine ⟨hram, fun address hkept => hspared address (.inl hkept), fun hsize k hk => ?_⟩
  exact hspared _ (.inr (b.mem_callBytes hsize hk))

end Boundary

/-! ## Handlers -/

/-- A relation between the arguments of a call, its answer and the memory before and after. -/
abbrev Service := Ram → Word → Word → Word → Word → Ram → Prop

/-- A handler in C: it returns with an answer.  It may use its arguments as variables and leave
any values in the registers. -/
def Serves (p : Platform) (b : Boundary) (entry : Word) (service : Service) : Prop :=
  ∀ known f m back x y z rest, f.eip = entry → f.stack = back :: x :: y :: z :: rest →
    f.eflags.getLsbD nestedTask = false → m.Fits (b.kernel known) f →
    Eventually p b.Interrupts
      (fun returned => ∃ known' f' x' y' z', returned.Fits (b.kernel known') f' ∧
        (∀ address ∈ callBytes b.userEsp, known' address = known address) ∧
        f'.eip = back ∧ f'.stack = x' :: y' :: z' :: rest ∧
        f'.eflags.getLsbD nestedTask = false ∧ f'.ds = f.ds ∧
        service known x y z f'.regs.eax known') m

/-- The task state and the jump table that a call relies on. -/
structure Boundary.Reads (b : Boundary) (p : Platform) (l : EntryLink) (ram : Ram) : Prop where
  esp0Kept : ∀ i < 4, p.tss + 4 + BitVec.ofNat 32 i ∈ b.kept
  ss0Kept : ∀ i < 4, p.tss + 8 + BitVec.ofNat 32 i ∈ b.kept
  tableKept : ∀ i < 36, l.syscallJumptable + BitVec.ofNat 32 i ∈ b.kept
  esp0 : wordAt ram (p.tss + 4) = b.esp0
  ss0 : (wordAt ram (p.tss + 8)).setWidth 16 = kernelDs
  table : Holds ram l.syscallJumptable (syscallTable l)

/-! ## Segments of the way -/

section Path

variable {p : Platform} {l : EntryLink} {b : Boundary} {m : Machine} {f : Frame}
  {known : Ram} {number next back x y z x' y' z' behind : Word} {goal : Machine → Prop}
  {disturb : Machine → Machine → Prop} {service : Service}

theorem Boundary.Reads.congr {ram other : Ram} (hreads : b.Reads p l ram)
    (hsame : ∀ address ∈ b.kept, other address = ram address) : b.Reads p l other :=
  { hreads with
    esp0 := (wordAt_congr fun i hi => hsame _ (hreads.esp0Kept i hi)).trans hreads.esp0
    ss0 := by
      rw [wordAt_congr fun i hi => hsame _ (hreads.ss0Kept i hi)]
      exact hreads.ss0
    table := hreads.table.congr fun i hi => hsame _ (hreads.tableKept i hi) }

theorem Boundary.Reads.entry_mem {ram : Ram} (hreads : b.Reads p l ram)
    (hvalid : ValidNumber number) {i : ℕ} (hi : i < 4) :
    l.syscallJumptable + 4 * number + BitVec.ofNat 32 i ∈ b.kept := by
  have hlt := hvalid.lt
  rw [← ofNat_four_mul, add_ofNat_add]
  exact hreads.tableKept _ (by omega)

/-- The frame behind the gate of the system call. -/
def callFrame (b : Boundary) (known : Ram) (l : EntryLink) (f : Frame) (next : Word)
    (eflags : Word) : Frame where
  regs := { f.regs with esp := (b.kernel known).espAt 5 }
  eip := l.itrSys
  eflags := eflags
  ds := f.ds
  stack := [next, userCs.setWidth 32, f.eflags, f.regs.esp, userDs.setWidth 32]

/-- `int $0x80` enters the kernel, from where its stack can be followed. -/
theorem Boundary.enter (next : Word) (hosts : Hosts p l) (hreads : b.Reads p l m.ram)
    (hfits : m.Fits (b.user known) f) :
    ∃ after eflags, p.interrupt 0x80 m next = some after ∧
      eflags.getLsbD nestedTask = false ∧
      after.Fits (b.kernel m.ram) (callFrame b m.ram l f next eflags) := by
  have hcs : m.cs = userCs := hfits.code
  have hss : m.ss = userDs := hfits.segment
  have hallowed : m.cpl ≤ (p.idt 0x80).dpl := by
    rw [hosts.dpl, Machine.cpl, hcs]
    decide
  have hroom : 4 * ((none : Option Word).toList.length + 5) ≤ 64 := by decide
  obtain ⟨after, eflags, hafter, hnested, hentered⟩ := hosts.deliver_outer (m := m.jump next)
    (r := b.kernel m.ram) 0x80 none hcs rfl hreads.esp0 hreads.ss0 hroom fun _ _ => rfl
  refine ⟨after, eflags, (if_pos hallowed).trans hafter, hnested, ?_⟩
  simp only [Machine.jump, hfits.regs, hfits.eflags, hfits.ds, hcs, hss] at hentered
  exact hentered

/-- `iret` goes back to the program, whose stack is as it was. -/
theorem Boundary.leave (hosts : Hosts p l) (hguarded : (b.kernel known).Guarded disturb)
    {g : Frame} {answer behind : Word}
    (hfits : m.Fits (b.kernel known) g) (htext : p.text g.eip = some (.iret, behind))
    (hstack : g.stack =
      [next, userCs.setWidth 32, f.eflags, f.regs.esp, userDs.setWidth 32])
    (hnested : g.eflags.getLsbD nestedTask = false) (hds : g.ds = f.ds) (huser : f.ds = userDs)
    (hregs : g.regs = { f.regs with eax := answer, esp := g.regs.esp })
    (hesp : f.regs.esp = (b.user known).espAt f.stack.length)
    (hroom : 4 * f.stack.length ≤ 20) (hholds : Holds known f.regs.esp f.stack)
    (hrest : ∀ m : Machine,
      m.Fits (b.user known) { f with regs := { f.regs with eax := answer }, eip := next } →
      Eventually p disturb goal m) : Eventually p disturb goal m := by
  have hcode : (userCs.setWidth 32).setWidth 16 = userCs := by decide
  have hsegment : (userDs.setWidth 32).setWidth 16 = userDs := by decide
  have houter : level ((userCs.setWidth 32).setWidth 16) ≠ 0 := by decide
  refine hfits.iret_outer hguarded htext hstack level_kernelCs hnested houter
    fun m hfits => hrest _ ?_
  have hsame : p.outerSegment (level ((userCs.setWidth 32).setWidth 16)) g.ds = f.ds := by
    rw [hds, huser]
    exact hosts.outerSegment_userDs (by decide)
  have hdepth : (b.userEsp + 16 - f.regs.esp).toNat = 4 * f.stack.length := by
    rw [hesp]
    exact (b.user known).depth hroom
  exact
    { regs := by rw [hregs]
      eip := rfl
      eflags := rfl
      ds := hsame
      code := hcode
      segment := hsegment
      esp := hesp
      room := hroom
      stack := hholds.congr fun k hk => hfits.kept _
        (.inr (b.mem_callBytes (hdepth.le.trans hroom) (hdepth ▸ hk)))
      kept := fun address hmem => hfits.kept address (.inl hmem) }

theorem itrSysSave_run {r : Region} (hsize : r.size = 64) {c d : Word}
    (hstack : f.stack = [x, y, z, c, d]) :
    f.run r itrSysSave = some (f.restack r [f.regs.ebx, f.regs.ecx, f.regs.edx, f.regs.edi,
      f.regs.esi, f.regs.ebp, r.espAt 8, f.regs.edx, f.regs.ecx, f.regs.ebx, x, y, z, c, d]) := by
  simp [Frame.run, itrSysSave, Frame.data, Frame.pushAll, Frame.restack, hstack, hsize,
    Registers.get]

theorem itrSysRestore_run {r : Region} {edi esi ebp edx ecx ebx : Word} {rest : List Word}
    (hlength : rest.length = 5)
    (hstack : f.stack = [x, y, z, edi, esi, ebp, r.espAt 8, edx, ecx, ebx] ++ rest) :
    ∃ eflags, f.run r itrSysRestore = some
      { f with
        regs :=
          { eax := f.regs.eax, ecx := ecx, edx := edx, ebx := ebx, esp := r.espAt 5, ebp := ebp,
            esi := esi, edi := edi }
        eflags := eflags
        stack := rest } ∧
      eflags.getLsbD nestedTask = f.eflags.getLsbD nestedTask := by
  refine ⟨addFlags f.eflags f.regs.esp 12, ?_, nestedTask_resultFlags _ _ _ _ _⟩
  simp [Frame.run, itrSysRestore, Frame.data, Frame.restack, hstack, Registers.set, hlength]

/-- The comparisons of `ITR_SYS`. -/
theorem Boundary.check (hosts : Hosts p l) {eflags : Word}
    (hnested : eflags.getLsbD nestedTask = false)
    (hfits : m.Fits (b.kernel known) (callFrame b known l f next eflags))
    (hvalid : ValidNumber f.regs.eax → ∀ (m : Machine) address eflags,
      p.Placed address
        (itrSysSave ++ .callTable l.syscallJumptable .eax :: (itrSysRestore ++ [.iret])) →
      eflags.getLsbD nestedTask = false →
      m.Fits (b.kernel known) ((callFrame b known l f next eflags).jump address) →
      Eventually p b.Interrupts goal m)
    (hinvalid : ¬ValidNumber f.regs.eax → ∀ (m : Machine) eflags,
      eflags.getLsbD nestedTask = false →
      m.Fits (b.kernel known) ((callFrame b known l f next eflags).jump l.itrSysFail) →
      Eventually p b.Interrupts goal m) : Eventually p b.Interrupts goal m := by
  let rest := itrSysSave ++ .callTable l.syscallJumptable .eax :: (itrSysRestore ++ [.iret])
  have hone : p.Placed l.itrSys ([.cmplImm 1 .eax] ++
      (.jl l.itrSysFail :: .cmplImm 8 .eax :: .jg l.itrSysFail :: rest)) := hosts.itrSys
  have hat : m.Fits _ ((callFrame b known l f next eflags).jump l.itrSys) := hfits
  refine hat.run (b.guarded_kernel known) hone rfl fun address m hplaced hfits => ?_
  obtain ⟨address, hless, hplaced⟩ := hplaced
  refine hfits.jl (b.guarded_kernel known) hless fun m hfits => ?_
  change m.Fits _ ((callFrame b known l f next (compareFlags eflags f.regs.eax 1)).jump
    (if lessFlag (compareFlags eflags f.regs.eax 1) = true then _ else _)) at hfits
  have hnested' : (compareFlags eflags f.regs.eax 1).getLsbD nestedTask = false :=
    (nestedTask_resultFlags _ _ _ _ _).trans hnested
  simp only [lessFlag_compareFlags, decide_eq_true_eq] at hfits
  by_cases hlow : f.regs.eax.toInt < (1 : Word).toInt
  · rw [if_pos hlow] at hfits
    exact hinvalid (fun h => absurd h.1 (not_le.mpr hlow)) m _ hnested' hfits
  · rw [if_neg hlow] at hfits
    have height : p.Placed address ([.cmplImm 8 .eax] ++ (.jg l.itrSysFail :: rest)) := hplaced
    refine hfits.run (b.guarded_kernel known) height rfl fun address m hplaced hfits => ?_
    obtain ⟨address, hgreater, hplaced⟩ := hplaced
    refine hfits.jg (b.guarded_kernel known) hgreater fun m hfits => ?_
    let compared := compareFlags (compareFlags eflags f.regs.eax 1) f.regs.eax 8
    change m.Fits _ ((callFrame b known l f next compared).jump
      (if greaterFlag compared = true then _ else _)) at hfits
    have hnested'' : compared.getLsbD nestedTask = false :=
      (nestedTask_resultFlags _ _ _ _ _).trans hnested'
    simp only [compared, greaterFlag_compareFlags, decide_eq_true_eq] at hfits
    by_cases hhigh : (8 : Word).toInt < f.regs.eax.toInt
    · rw [if_pos hhigh] at hfits
      exact hinvalid (fun h => absurd h.2 (not_le.mpr hhigh)) m _ hnested'' hfits
    · rw [if_neg hhigh] at hfits
      exact hvalid ⟨not_lt.mp hlow, not_lt.mp hhigh⟩ m address _ hplaced hnested'' hfits

/-- What `ITR_SYS` saves, above the arguments of the handler. -/
def savedWords (b : Boundary) (f : Frame) (next : Word) : List Word :=
  [f.regs.edi, f.regs.esi, f.regs.ebp, b.esp0 - BitVec.ofNat 32 (4 * 8), f.regs.edx, f.regs.ecx,
    f.regs.ebx, next, userCs.setWidth 32, f.eflags, f.regs.esp, userDs.setWidth 32]

/-- A valid number leads to the handler of the table. -/
theorem Boundary.dispatch (hreads : b.Reads p l known) (hvalid : ValidNumber f.regs.eax)
    {address eflags : Word}
    (hplaced : p.Placed address
      (itrSysSave ++ .callTable l.syscallJumptable .eax :: (itrSysRestore ++ [.iret])))
    (hnested : eflags.getLsbD nestedTask = false)
    (hfits : m.Fits (b.kernel known) ((callFrame b known l f next eflags).jump address))
    (hrest : ∀ (m : Machine) behind (entered : Frame),
      p.Placed behind (itrSysRestore ++ [.iret]) → m.Fits (b.kernel known) entered →
      entered.eip = syscallHandler l f.regs.eax →
      entered.stack = behind :: f.regs.ebx :: f.regs.ecx :: f.regs.edx :: savedWords b f next →
      entered.eflags.getLsbD nestedTask = false → entered.ds = f.ds →
      Eventually p b.Interrupts goal m) : Eventually p b.Interrupts goal m := by
  have hguarded := b.guarded_kernel known
  let called : Frame :=
    (callFrame b known l f next eflags).restack (b.kernel known)
      (f.regs.ebx :: f.regs.ecx :: f.regs.edx :: savedWords b f next)
  have hsave : (callFrame b known l f next eflags).run (b.kernel known) itrSysSave =
      some called := itrSysSave_run rfl rfl
  refine hfits.run hguarded hplaced hsave fun address m hplaced hfits => ?_
  obtain ⟨behind, hcall, hplaced⟩ := hplaced
  have hroom : 4 * (called.stack.length + 1) ≤ (b.kernel known).size := Nat.le_refl 64
  exact hfits.callTable hguarded hcall hroom
    (fun i hi => .inl (hreads.entry_mem hvalid hi)) (wordAt_syscallTable hreads.table hvalid)
    fun m hfits => hrest m behind _ hplaced hfits rfl rfl hnested rfl

/-- From the return of a handler to the program. -/
theorem Boundary.resume (hosts : Hosts p l) (hguarded : (b.kernel known).Guarded disturb)
    (hplaced : p.Placed behind (itrSysRestore ++ [.iret])) {g : Frame}
    (hfits : m.Fits (b.kernel known) g) (heip : g.eip = behind)
    (hstack : g.stack = x' :: y' :: z' :: savedWords b f next)
    (hnested : g.eflags.getLsbD nestedTask = false) (hds : g.ds = f.ds) (huser : f.ds = userDs)
    (hesp : f.regs.esp = (b.user known).espAt f.stack.length)
    (hroom : 4 * f.stack.length ≤ 20) (hholds : Holds known f.regs.esp f.stack)
    (hrest : ∀ m : Machine,
      m.Fits (b.user known) { f with regs := { f.regs with eax := g.regs.eax }, eip := next } →
      Eventually p disturb goal m) : Eventually p disturb goal m := by
  obtain ⟨eflags, hrestore, hsame⟩ := itrSysRestore_run (r := b.kernel known) rfl hstack
  have hat : m.Fits (b.kernel known) (g.jump behind) := heip ▸ hfits
  refine hat.run hguarded hplaced hrestore fun address m hplaced hfits => ?_
  obtain ⟨_, hiret, _⟩ := hplaced
  exact b.leave hosts hguarded hfits hiret rfl (hsame.trans hnested) hds huser rfl hesp hroom
    hholds hrest

/-- A valid number: the handler of the table answers. -/
theorem Boundary.serve (hosts : Hosts p l)
    (hreads : b.Reads p l known) (hvalid : ValidNumber f.regs.eax)
    (hserves : Serves p b (syscallHandler l f.regs.eax) service) {address eflags : Word}
    (hplaced : p.Placed address
      (itrSysSave ++ .callTable l.syscallJumptable .eax :: (itrSysRestore ++ [.iret])))
    (hnested : eflags.getLsbD nestedTask = false)
    (hfits : m.Fits (b.kernel known) ((callFrame b known l f next eflags).jump address))
    (huser : f.ds = userDs) (hesp : f.regs.esp = (b.user known).espAt f.stack.length)
    (hroom : 4 * f.stack.length ≤ 20) (hholds : Holds known f.regs.esp f.stack)
    (hrest : ∀ (m : Machine) answer known',
      (∀ address ∈ callBytes b.userEsp, known' address = known address) →
      service known f.regs.ebx f.regs.ecx f.regs.edx answer known' →
      m.Fits (b.user known') { f with regs := { f.regs with eax := answer }, eip := next } →
      Eventually p b.Interrupts goal m) : Eventually p b.Interrupts goal m := by
  refine b.dispatch hreads hvalid hplaced hnested hfits
    fun m behind entered hplaced hentered heip hstack hnested hds => ?_
  refine (hserves known entered m behind _ _ _ _ heip hstack hnested hentered).trans ?_
  rintro m ⟨known', g, x', y', z', hfits, hcaller, heip, hstack, hnested, hsame, hservice⟩
  have hholds' : Holds known' f.regs.esp f.stack := by
    have hdepth : (b.userEsp + 16 - f.regs.esp).toNat = 4 * f.stack.length := by
      rw [hesp]
      exact (b.user known).depth hroom
    exact hholds.congr fun k hk => hcaller _
      (b.mem_callBytes (hdepth.le.trans hroom) (hdepth ▸ hk))
  exact b.resume hosts (b.guarded_kernel known') hplaced hfits heip hstack hnested
    (hsame.trans hds) huser hesp hroom hholds'
    fun m hfits => hrest m _ known' hcaller hservice hfits

/-- Any other number: the call fails. -/
theorem Boundary.fail (hosts : Hosts p l) {eflags : Word}
    (hnested : eflags.getLsbD nestedTask = false)
    (hfits : m.Fits (b.kernel known) ((callFrame b known l f next eflags).jump l.itrSysFail))
    (huser : f.ds = userDs) (hesp : f.regs.esp = (b.user known).espAt f.stack.length)
    (hroom : 4 * f.stack.length ≤ 20) (hholds : Holds known f.regs.esp f.stack)
    (hrest : ∀ m : Machine,
      m.Fits (b.user known) { f with regs := { f.regs with eax := -1 }, eip := next } →
      Eventually p b.Interrupts goal m) : Eventually p b.Interrupts goal m := by
  have hplaced : p.Placed l.itrSysFail ([.movlImm (-1) .eax] ++ [.iret]) := hosts.itrSysFail
  refine hfits.run (b.guarded_kernel known) hplaced rfl fun address m hplaced hfits => ?_
  obtain ⟨behind, hiret, _⟩ := hplaced
  exact b.leave hosts (b.guarded_kernel known) hfits hiret rfl hnested rfl huser rfl hesp hroom
    hholds hrest

/-- The frame of a library function at its `int`. -/
def requestFrame (b : Boundary) (m : Machine) (number back x y z : Word) : Frame where
  regs :=
    { m.regs with
      eax := number, ebx := x, ecx := y, edx := z, esp := (b.user m.ram).espAt 5 }
  eip := m.eip
  eflags := m.eflags
  ds := m.ds
  stack := [m.regs.ebx, back, x, y, z]

/-- The frame of a library function behind its `int`. -/
def answerFrame (b : Boundary) (m : Machine) (number back x y z answer address : Word) : Frame :=
  { requestFrame b m number back x y z with
    regs := { (requestFrame b m number back x y z).regs with eax := answer }
    eip := address }

/-- What the caller of a library function sees afterwards. -/
structure ReturnedTo (m : Machine) (back x y z : Word) (final : Machine) : Prop where
  eip : final.eip = back
  regs : final.regs =
    { m.regs with eax := final.regs.eax, ecx := y, edx := z, esp := m.regs.esp + 4 }
  eflags : final.eflags = m.eflags
  segments : final.cs = m.cs ∧ final.ss = m.ss ∧ final.ds = m.ds
  arguments : Holds final.ram (m.regs.esp + 4) [x, y, z]

/-- The instructions of a library function behind its `int`. -/
theorem Boundary.finish (hguarded : (b.user known).Guarded disturb)
    (hesp : m.regs.esp = b.userEsp) (hcs : m.cs = userCs)
    (hss : m.ss = userDs) {final : Machine} {answer address : Word}
    (hplaced : p.Placed address [.popl .ebx, .ret])
    (hfits : final.Fits (b.user known) (answerFrame b m number back x y z answer address))
    (hrest : ∀ final : Machine, ReturnedTo m back x y z final → final.regs.eax = answer →
      (∀ address ∈ b.kept, final.ram address = known address) →
      Eventually p disturb goal final) : Eventually p disturb goal final := by
  let popped : Frame :=
    { eip := address
      regs :=
        { m.regs with eax := answer, ecx := y, edx := z, esp := (b.user known).espAt 4 }
      eflags := m.eflags
      ds := m.ds
      stack := [back, x, y, z] }
  have hone : p.Placed address ([.popl .ebx] ++ [.ret]) := hplaced
  have hpop : (answerFrame b m number back x y z answer address).run (b.user known)
      [.popl .ebx] = some popped := by
    simp [Frame.run, Frame.data, answerFrame, requestFrame, Frame.restack, Registers.set, popped]
  have hat : final.Fits (b.user known)
      ((answerFrame b m number back x y z answer address).jump address) := hfits
  refine hat.run hguarded hone hpop fun address final hplaced hfits => ?_
  obtain ⟨behind, hret, _⟩ := hplaced
  refine hfits.ret hguarded hret rfl fun final hfits => hrest final ?_ ?_ hfits.kept
  · have hat3 : (b.user known).espAt 3 = m.regs.esp + 4 := by
      rw [hesp]
      simp only [Region.espAt, Boundary.user]
      bv_omega
    have hregs : final.regs =
        { m.regs with eax := answer, ecx := y, edx := z, esp := m.regs.esp + 4 } := by
      rw [hfits.regs, ← hat3]
      rfl
    refine ⟨hfits.eip, ?_, hfits.eflags, ⟨hfits.code.trans hcs.symm,
      hfits.segment.trans hss.symm, hfits.ds⟩, ?_⟩
    · rw [hregs]
    · rw [← hat3]
      exact hfits.stack
  · rw [hfits.regs]
    rfl

/-- The caller of a library function, about to run its first instruction. -/
structure Boundary.Calls (b : Boundary) (m : Machine) (back x y z : Word) : Prop where
  code : m.cs = userCs
  segment : m.ss = userDs
  data : m.ds = userDs
  esp : m.regs.esp = b.userEsp
  stack : Holds m.ram m.regs.esp [back, x, y, z]

/-- The frame of a library function at its first instruction. -/
def stubFrame (m : Machine) (back x y z : Word) : Frame where
  regs := m.regs
  eip := m.eip
  eflags := m.eflags
  ds := m.ds
  stack := [back, x, y, z]

theorem Boundary.Calls.fits (hcalls : b.Calls m back x y z) :
    m.Fits (b.user m.ram) (stubFrame m back x y z) :=
  { regs := rfl
    eip := rfl
    eflags := rfl
    ds := rfl
    code := hcalls.code
    segment := hcalls.segment
    esp := by
      simp only [stubFrame, hcalls.esp, Region.espAt, Boundary.user, List.length_cons,
        List.length_nil]
      bv_omega
    room := by simp [Boundary.user, stubFrame]
    stack := hcalls.stack
    kept := fun _ _ => rfl }

theorem doCallRequest_run :
    (stubFrame m back x y z).run (b.user m.ram) (doCallRequest number) =
      some (requestFrame b m number back x y z) := by
  simp [Frame.run, Frame.data, doCallRequest, stubFrame, requestFrame, Frame.restack,
    Frame.pushAll, Registers.set, Registers.get, Boundary.user]

/-- A library function of any number enters the kernel. -/
theorem Boundary.request (hosts : Hosts p l) {stub : Word}
    (hplaced : p.Placed stub (doCall number)) (heip : m.eip = stub)
    (hcalls : b.Calls m back x y z) (hreads : b.Reads p l m.ram)
    (hrest : ∀ (entered : Machine) ram next eflags, p.Placed next [.popl .ebx, .ret] →
      (∀ address ∈ b.kept, ram address = m.ram address) →
      Holds ram (requestFrame b m number back x y z).regs.esp [m.regs.ebx, back, x, y, z] →
      eflags.getLsbD nestedTask = false → entered.Fits (b.kernel ram)
        (callFrame b ram l (requestFrame b m number back x y z) next eflags) →
      Eventually p b.Interrupts goal entered) : Eventually p b.Interrupts goal m := by
  have hat : m.Fits (b.user m.ram) ((stubFrame m back x y z).jump stub) := heip ▸ hcalls.fits
  refine hat.run (b.guarded_user m.ram) hplaced doCallRequest_run
    fun address request hplaced hfits => ?_
  obtain ⟨next, hint, hplaced⟩ := hplaced
  refine hfits.step (b.guarded_user m.ram) hint fun request hfits => ?_
  obtain ⟨entered, eflags, henter, hnested, hentered⟩ :=
    Boundary.enter next hosts (hreads.congr hfits.kept) hfits
  exact ⟨entered, henter,
    hrest entered request.ram next eflags hplaced hfits.kept hfits.stack hnested hentered⟩

/-- The answer of a call: the service of the table for a valid number, -1 for any other. -/
def Answered (b : Boundary) (service : Service) (m : Machine) (number x y z : Word)
    (final : Machine) : Prop :=
  ∃ before after, (∀ address ∈ b.kept, before address = m.ram address) ∧
    (∀ address ∈ b.kept, final.ram address = after address) ∧
    (ValidNumber number → service before x y z final.regs.eax after) ∧
    (¬ValidNumber number → final.regs.eax = -1 ∧ after = before)

/-- A library function of any number returns to its caller, under any interrupts. -/
theorem library_call_returns (hosts : Hosts p l) {stub : Word}
    (hplaced : p.Placed stub (doCall number)) (heip : m.eip = stub)
    (hcalls : b.Calls m back x y z) (hreads : b.Reads p l m.ram)
    (hserves : ValidNumber number → Serves p b (syscallHandler l number) service) :
    Eventually p b.Interrupts
      (fun final => ReturnedTo m back x y z final ∧ Answered b service m number x y z final)
      m := by
  refine b.request hosts hplaced heip hcalls hreads
    fun entered ram next eflags hplaced hkept hholds hnested hentered => ?_
  refine b.check hosts hnested hentered ?_ ?_
  · intro hvalid served address eflags hplaced' hnested hfits
    refine b.serve hosts (hreads.congr hkept) hvalid (hserves hvalid) hplaced' hnested hfits
      hcalls.data rfl (by decide : 4 * 5 ≤ 20) hholds
      fun final answer known' _ hservice hfits => ?_
    refine b.finish (b.guarded_user _) hcalls.esp hcalls.code hcalls.segment hplaced hfits
      fun final hreturned heax hkept' => .now
        ⟨hreturned, ram, known', hkept, hkept', ?_, ?_⟩
    · intro _
      rw [heax]
      exact hservice
    · exact fun hinvalid => absurd hvalid hinvalid
  · intro hinvalid failed eflags hnested hfits
    refine b.fail hosts hnested hfits hcalls.data rfl (by decide : 4 * 5 ≤ 20) hholds
      fun final hfits => ?_
    refine b.finish (b.guarded_user _) hcalls.esp hcalls.code hcalls.segment hplaced hfits
      fun final hreturned heax hkept' => .now
        ⟨hreturned, ram, ram, hkept, hkept', fun hvalid => absurd hvalid hinvalid,
          fun _ => ⟨heax, rfl⟩⟩

end Path

/-! ## A call -/

def smallBoundary : Boundary where
  userEsp := 0x83FFF00
  esp0 := 0x7FFFFC
  kept := { address | address.toNat / 2 ^ 16 = 0x40 }
  userApart := by
    rintro _ ⟨k, hpos, hk, rfl⟩
    simp only [Set.mem_ofPred_eq]
    bv_omega
  kernelApart := by
    rintro k hpos hk (hkept | ⟨j, hpos', hj, heq⟩)
    · simp only [Set.mem_ofPred_eq] at hkept
      bv_omega
    · bv_omega

/-- The library function of `read` in a program, and a handler that answers 7. -/
def smallOthers (page : ℕ) : List Instr :=
  if page = 0x80480 then doCall 3
  else if page = 0x4162 then [.movlImm 7 .eax, .ret]
  else []

/-- The caller of `read(1, buf, 4)`. -/
def readCaller : Machine where
  regs := ⟨1, 2, 3, 4, 0x83FFF00, 5, 6, 7⟩
  eip := 0x8048000
  eflags := 0x202
  cs := userCs
  ss := userDs
  ds := userDs
  extra := ⟨userDs, userDs, userDs⟩
  ram := storeWords
    (initSyscall smallLink (storeWords (fun _ => 0) 0x400004 [0x7FFFFC, 0x18]))
    0x83FFF00 [0x8048123, 1, 0x83FFF20, 4]

theorem smallHandler_serves (b : Boundary) :
    Serves (smallPlatform smallOthers) b smallLink.read
      fun before _ _ _ answer after => answer = 7 ∧ after = before := by
  intro known f m back x y z rest heip hstack hnested hfits
  have hplaced : (smallPlatform smallOthers).Placed smallLink.read
      ([.movlImm 7 .eax] ++ [.ret]) :=
    placed_smallBlocks smallOthers (by decide : 0x4162 < 2 ^ 24) rfl rfl (by decide)
  have hat : m.Fits (b.kernel known) (f.jump smallLink.read) := heip ▸ hfits
  refine hat.run (b.guarded_kernel known) hplaced rfl fun address m hplaced hfits => ?_
  obtain ⟨behind, hret, _⟩ := hplaced
  exact hfits.ret (b.guarded_kernel known) hret hstack fun m hfits => .now
    ⟨known, _, x, y, z, hfits, fun _ _ => rfl, rfl, rfl, hnested, rfl, rfl, rfl⟩

theorem readCaller_reads (others : ℕ → List Instr) :
    smallBoundary.Reads (smallPlatform others) smallLink readCaller.ram where
  esp0Kept i hi := by
    simp only [smallBoundary, smallPlatform, Set.mem_ofPred_eq]
    bv_omega
  ss0Kept i hi := by
    simp only [smallBoundary, smallPlatform, Set.mem_ofPred_eq]
    bv_omega
  tableKept i hi := by
    simp only [smallBoundary, smallLink, Set.mem_ofPred_eq]
    bv_omega
  esp0 := show wordAt readCaller.ram 0x400004 = 0x7FFFFC by decide +kernel
  ss0 := show (wordAt readCaller.ram 0x400008).setWidth 16 = kernelDs by decide +kernel
  table := by
    refine (holds_initSyscall smallLink _).congr fun i hi => storeWords_of_ne fun j hj => ?_
    simp only [smallLink, syscallTable, List.length_cons, List.length_nil] at hi hj ⊢
    bv_omega

theorem library_call_returns_witness :
    Eventually (smallPlatform smallOthers) smallBoundary.Interrupts
      (fun final => ReturnedTo readCaller 0x8048123 1 0x83FFF20 4 final ∧
        Answered smallBoundary (fun before _ _ _ answer after => answer = 7 ∧ after = before)
          readCaller 3 1 0x83FFF20 4 final) readCaller := by
  have hplaced : (smallPlatform smallOthers).Placed 0x8048000 (doCall 3) :=
    placed_smallBlocks smallOthers (by decide : 0x80480 < 2 ^ 24) rfl rfl (by decide)
  have hcalls : smallBoundary.Calls readCaller 0x8048123 1 0x83FFF20 4 :=
    ⟨rfl, rfl, rfl, rfl, holds_storeWords _ _ _ (by simp)⟩
  exact library_call_returns (hosts_smallPlatform smallOthers) hplaced rfl hcalls
    (readCaller_reads smallOthers) fun _ => smallHandler_serves smallBoundary

end KernelEntries
