import VirtualOS.StackFrames

/-!
# Parked stacks

A routine that waits is its stack: the words from its last frame up to the top,
while the processor runs on another stack.  The words stay where they are until
some routine loads the stack pointer or leaves its frame into them, and from there
on the waiting routine is followed on frames again.
-/

namespace StackAssembly

open StringAssembly

/-- Interruptions leave alone what is not below the pointer on this stack, wherever the pointer
is. -/
def Region.Spared (r : Region) (disturb : Machine → Machine → Prop) : Prop :=
  ∀ m between, disturb m between → m.cs = r.code →
    (∃ extra ram, between = { m with extra := extra, ram := ram }) ∧
    (∀ address ∈ r.kept, between.ram address = m.ram address) ∧
    ∀ k, 0 < k → k ≤ r.size → k ≤ (r.top - m.regs.esp).toNat →
      between.ram (r.top - BitVec.ofNat 32 k) = m.ram (r.top - BitVec.ofNat 32 k)

/-- The words lie on the stack up to its top. -/
structure Region.Parks (r : Region) (words : List Word) (ram : Ram) : Prop where
  room : 4 * words.length ≤ r.size
  stack : Holds ram (r.espAt words.length) words
  kept : ∀ address ∈ r.kept, ram address = r.known address

/-- The pointer is not inside the parked words. -/
def Region.Away (r : Region) (words : List Word) (esp : Word) : Prop :=
  4 * words.length ≤ (r.top - esp).toNat

section Switches

variable {p : Platform} {disturb : Machine → Machine → Prop} {goal : Machine → Prop}
  {r : Region} {m between : Machine} {word next : Word} {words : List Word} {ram : Ram}
  {source target : Register} {instr : Instr}

theorem Region.Spared.guarded (hspared : r.Spared disturb) : r.Guarded disturb := by
  intro m between hdisturb hcode
  obtain ⟨hram, hkept, hstack⟩ := hspared m between hdisturb hcode
  refine ⟨hram, hkept, fun hsize k hk => ?_⟩
  obtain ⟨left, hleft⟩ := Nat.exists_eq_add_of_lt hk
  have hslot : m.regs.esp + BitVec.ofNat 32 k = r.top - BitVec.ofNat 32 (left + 1) := by
    have hesp : m.regs.esp = r.top - BitVec.ofNat 32 (r.top - m.regs.esp).toNat := by
      rw [BitVec.ofNat_toNat, BitVec.setWidth_eq]
      grind
    rw [hesp, hleft, Nat.add_assoc, BitVec.ofNat_add]
    grind
  rw [hslot]
  exact hstack (left + 1) (by omega) (by omega) (by omega)

theorem Region.Parks.disturbed (hspared : r.Spared disturb) (hparks : r.Parks words m.ram)
    (hcode : m.cs = r.code) (haway : r.Away words m.regs.esp)
    (hbetween : between = m ∨ disturb m between) :
    ∃ extra ram, between = { m with extra := extra, ram := ram } ∧ r.Parks words ram := by
  obtain rfl | hdisturb := hbetween
  · exact ⟨between.extra, between.ram, rfl, hparks⟩
  · obtain ⟨⟨extra, ram, rfl⟩, hkept, hstack⟩ := hspared m between hdisturb hcode
    have hroom := hparks.room
    refine ⟨extra, ram, rfl, hroom, hparks.stack.congr fun k hk => ?_,
      fun address hmem => (hkept address hmem).trans (hparks.kept address hmem)⟩
    rw [r.slot_eq hk.le]
    exact hstack _ (by omega) (by omega) (le_trans (Nat.sub_le _ _) haway)

/-- One instruction on another stack. -/
theorem Region.Parks.step (hspared : r.Spared disturb) (hparks : r.Parks words m.ram)
    (hcode : m.cs = r.code) (haway : r.Away words m.regs.esp)
    (htext : p.text m.eip = some (instr, next))
    (hexec : ∀ extra ram, r.Parks words ram →
      ∃ after, p.exec { m with extra := extra, ram := ram } next instr = some after ∧
        Eventually p disturb goal after) : Eventually p disturb goal m := by
  refine .exec fun between hbetween => ?_
  obtain ⟨extra, ram, rfl, hstill⟩ := hparks.disturbed hspared hcode haway hbetween
  obtain ⟨after, hafter, hgoal⟩ := hexec extra ram hstill
  refine ⟨after, ?_, hgoal⟩
  rw [Platform.step, htext]
  exact hafter

theorem Region.Parks.movl (hspared : r.Spared disturb) (hparks : r.Parks words m.ram)
    (hcode : m.cs = r.code) (haway : r.Away words m.regs.esp)
    (htext : p.text m.eip = some (.movl source target, next))
    (hrest : ∀ extra ram, r.Parks words ram → Eventually p disturb goal
      { m with
        regs := m.regs.set target (m.regs.get source), eip := next, extra := extra,
        ram := ram }) :
    Eventually p disturb goal m :=
  hparks.step hspared hcode haway htext fun extra ram hparks =>
    ⟨_, rfl, hrest extra ram hparks⟩

/-- The pointer comes to the parked words. -/
theorem Region.Parks.fits (hparks : r.Parks words m.ram) (hcode : m.cs = r.code)
    (hsegment : m.ss = r.stackSegment) (hesp : m.regs.esp = r.espAt words.length) :
    m.Fits r { regs := m.regs, eip := m.eip, eflags := m.eflags, ds := m.ds, stack := words } :=
  { regs := rfl
    eip := rfl
    eflags := rfl
    ds := rfl
    code := hcode
    segment := hsegment
    esp := hesp
    room := hparks.room
    stack := hesp ▸ hparks.stack
    kept := hparks.kept }

/-- `leave` into a parked frame: its lowest word is the base pointer of the caller. -/
theorem Region.Parks.leave (hspared : r.Spared disturb)
    (hparks : r.Parks (word :: words) m.ram) (hcode : m.cs = r.code)
    (hsegment : m.ss = r.stackSegment) (haway : r.Away (word :: words) m.regs.esp)
    (hebp : m.regs.ebp = r.espAt (words.length + 1))
    (htext : p.text m.eip = some (.leave, next))
    (hrest : ∀ after : Machine, after.Fits r
      { regs := { m.regs with ebp := word, esp := r.espAt words.length }, eip := next,
        eflags := m.eflags, ds := m.ds, stack := words } → Eventually p disturb goal after) :
    Eventually p disturb goal m := by
  refine hparks.step hspared hcode haway htext fun extra ram hparks => ⟨_, rfl, hrest _ ?_⟩
  let framed : Machine :=
    { m with regs := { m.regs with esp := m.regs.ebp }, extra := extra, ram := ram }
  have hfits := hparks.fits (m := framed) hcode hsegment hebp
  have hother : Register.ebp ≠ .esp := by decide
  have hafter := ((hfits.pop rfl).setReg hother word).jump next
  have htop : framed.top = word := hfits.top_eq rfl
  have hword : wordAt ram m.regs.ebp = word := htop
  simp only [Machine.setReg, Registers.set, Machine.pop, Machine.top, Machine.jump,
    Frame.restack, Frame.jump, framed] at hafter ⊢
  rw [hword]
  exact hafter

/-- What fits a stack fits any other size of it below the same top that has the room. -/
theorem Machine.Fits.resize {f : Frame} {other : Region} (hfits : m.Fits r f)
    (htop : other.top = r.top) (hcode : other.code = r.code)
    (hsegment : other.stackSegment = r.stackSegment) (hkept : other.kept = r.kept)
    (hknown : other.known = r.known) (hroom : 4 * f.stack.length ≤ other.size) :
    m.Fits other f :=
  { hfits with
    code := hfits.code.trans hcode.symm
    segment := hfits.segment.trans hsegment.symm
    esp := by rw [hfits.esp, Region.espAt, Region.espAt, htop]
    room := hroom
    kept := by
      rw [hkept, hknown]
      exact hfits.kept }

end Switches

end StackAssembly
