import VirtualOS.StackAssembly

/-!
# Frames

A routine is followed on frames, whose stack is a list of words.  A frame is
related to the bytes of a machine once and for all: what an instruction does to
the frame it does to every machine that shows it.  Between two instructions
something else may run; it spares the stack of the routine and the memory whose
contents are known.
-/

namespace StackAssembly

open StringAssembly

/-! ## Runs with interruptions -/

/-- The goal is reached, whatever `disturb` allows to happen between two instructions. -/
inductive Eventually (p : Platform) (disturb : Machine → Machine → Prop)
    (goal : Machine → Prop) : Machine → Prop
  | now {m : Machine} (hgoal : goal m) : Eventually p disturb goal m
  | next {m : Machine}
      (hsome : ∀ between, between = m ∨ disturb m between → (p.step between).isSome)
      (hrest : ∀ between after, between = m ∨ disturb m between →
        p.step between = some after → Eventually p disturb goal after) :
      Eventually p disturb goal m

theorem Eventually.trans {p : Platform} {disturb : Machine → Machine → Prop}
    {middle goal : Machine → Prop} {m : Machine} (hmiddle : Eventually p disturb middle m)
    (hgoal : ∀ reached, middle reached → Eventually p disturb goal reached) :
    Eventually p disturb goal m := by
  induction hmiddle with
  | now hreached => exact hgoal _ hreached
  | next hsome _ ih => exact .next hsome ih

/-- What one step does whatever comes before it. -/
theorem Eventually.exec {p : Platform} {disturb : Machine → Machine → Prop}
    {goal : Machine → Prop} {m : Machine}
    (hstep : ∀ between, between = m ∨ disturb m between →
      ∃ after, p.step between = some after ∧ Eventually p disturb goal after) :
    Eventually p disturb goal m := by
  refine .next (fun between hbetween => ?_) fun between after hbetween hafter => ?_
  · obtain ⟨after, hafter, _⟩ := hstep between hbetween
    rw [hafter, Option.isSome_some]
  · obtain ⟨reached, hreached, hgoal⟩ := hstep between hbetween
    obtain rfl := Option.some.inj (hreached.symm.trans hafter)
    exact hgoal

/-! ## Frames -/

/-- Where a routine runs: its stack below `top`, at most `size` bytes of it, its segments, and
the memory outside of the stack whose contents are known. -/
structure Region where
  top : Word
  size : ℕ
  code : BitVec 16
  stackSegment : BitVec 16
  kept : Set Word
  known : Ram
  bounded : size < 2 ^ 32
  apart : ∀ k, 0 < k → k ≤ size → top - BitVec.ofNat 32 k ∉ kept

namespace Region

variable (r : Region)

/-- The stack pointer above `count` words. -/
def espAt (count : ℕ) : Word := r.top - BitVec.ofNat 32 (4 * count)

/-- Interruptions spare the stack of the routine, from its pointer on, and the known memory. -/
def Guarded (disturb : Machine → Machine → Prop) : Prop :=
  ∀ m between, disturb m between → m.cs = r.code →
    (∃ extra ram, between = { m with extra := extra, ram := ram }) ∧
    (∀ address ∈ r.kept, between.ram address = m.ram address) ∧
    ((r.top - m.regs.esp).toNat ≤ r.size → ∀ k < (r.top - m.regs.esp).toNat,
      between.ram (m.regs.esp + BitVec.ofNat 32 k) = m.ram (m.regs.esp + BitVec.ofNat 32 k))

end Region

/-- A machine with its stack as a list of words. -/
structure Frame where
  regs : Registers
  eip : Word
  eflags : Word
  ds : BitVec 16
  stack : List Word

namespace Frame

def jump (f : Frame) (target : Word) : Frame := { f with eip := target }

/-- The frame with another stack. -/
def restack (r : Region) (f : Frame) (stack : List Word) : Frame :=
  { f with regs := { f.regs with esp := r.espAt stack.length }, stack := stack }

def pushAll (r : Region) (f : Frame) (words : List Word) : Option Frame :=
  if 4 * (words ++ f.stack).length ≤ r.size then some (f.restack r (words ++ f.stack)) else none

/-- The effect of an instruction that only moves data. -/
def data (r : Region) (f : Frame) : Instr → Option Frame
  | .pushl source => f.pushAll r [f.regs.get source]
  | .pushlImm word => f.pushAll r [word]
  | .pushfl => f.pushAll r [f.eflags]
  | .pusha =>
      f.pushAll r [f.regs.edi, f.regs.esi, f.regs.ebp, f.regs.esp, f.regs.ebx, f.regs.edx,
        f.regs.ecx, f.regs.eax]
  | .popl target =>
      match f.stack with
      | [] => none
      | word :: rest =>
          let popped := f.restack r rest
          if target = .esp ∧ word ≠ r.espAt rest.length then none
          else some { popped with regs := popped.regs.set target word }
  | .popa =>
      match f.stack with
      | edi :: esi :: ebp :: _ :: ebx :: edx :: ecx :: eax :: rest =>
          some
            { f with
              regs :=
                { edi := edi, esi := esi, ebp := ebp, esp := r.espAt rest.length, ebx := ebx,
                  edx := edx, ecx := ecx, eax := eax }
              stack := rest }
      | _ => none
  | .movl source target =>
      if target = .esp then none
      else some { f with regs := f.regs.set target (f.regs.get source) }
  | .movlImm word target =>
      if target = .esp then none else some { f with regs := f.regs.set target word }
  | .movlStack displacement target =>
      if target = .esp ∨ displacement % 4 ≠ 0 then none
      else (f.stack[displacement / 4]?).map fun word =>
        { f with regs := f.regs.set target word }
  | .movwAx word =>
      some
        { f with
          regs := f.regs.set .eax ((f.regs.eax &&& 0xFFFF0000) ||| word.setWidth 32) }
  | .movwDs => some { f with ds := f.regs.eax.setWidth 16 }
  | .orlImm word target =>
      let result := f.regs.get target ||| word
      if target = .esp then none
      else some { f with regs := f.regs.set target result, eflags := orFlags f.eflags result }
  | .addlImm word .esp =>
      if 4 * (word.toNat / 4) = word.toNat ∧ word.toNat / 4 ≤ f.stack.length then
        some
          { f.restack r (f.stack.drop (word.toNat / 4)) with
            eflags := addFlags f.eflags f.regs.esp word }
      else none
  | .cmplImm word source =>
      some { f with eflags := compareFlags f.eflags (f.regs.get source) word }
  | .cli =>
      if level r.code = 0 then some { f with eflags := setFlag f.eflags interruptFlag false }
      else none
  | .cld => some { f with eflags := setFlag f.eflags directionFlag false }
  | _ => none

/-- Several instructions that only move data. -/
def run (r : Region) (f : Frame) (instrs : List Instr) : Option Frame :=
  instrs.foldlM (fun frame instr => frame.data r instr) f

end Frame

/-- The machine shows the frame. -/
structure Machine.Fits (m : Machine) (r : Region) (f : Frame) : Prop where
  regs : m.regs = f.regs
  eip : m.eip = f.eip
  eflags : m.eflags = f.eflags
  ds : m.ds = f.ds
  code : m.cs = r.code
  segment : m.ss = r.stackSegment
  esp : f.regs.esp = r.espAt f.stack.length
  room : 4 * f.stack.length ≤ r.size
  stack : Holds m.ram f.regs.esp f.stack
  kept : ∀ address ∈ r.kept, m.ram address = r.known address

section Fits

variable {p : Platform} {disturb : Machine → Machine → Prop} {goal : Machine → Prop}
  {r : Region} {m between : Machine} {f f' : Frame} {word next target : Word}
  {words rest : List Word} {instr : Instr} {instrs following : List Instr} {n k i : ℕ}

theorem Region.espAt_succ (r : Region) (n : ℕ) : r.espAt (n + 1) = r.espAt n - 4 := by
  unfold Region.espAt
  rw [Nat.mul_succ, BitVec.ofNat_add]
  grind

theorem Region.espAt_add (r : Region) (hk : k ≤ n) :
    r.espAt n + BitVec.ofNat 32 (4 * k) = r.espAt (n - k) := by
  obtain ⟨left, rfl⟩ := Nat.exists_eq_add_of_le hk
  unfold Region.espAt
  rw [Nat.add_sub_cancel_left, Nat.mul_add, BitVec.ofNat_add]
  grind

theorem Region.espAt_succ_add (r : Region) (n : ℕ) : r.espAt (n + 1) + 4 = r.espAt n := by
  rw [r.espAt_succ, BitVec.sub_add_cancel]

theorem Region.slot_eq (r : Region) (hi : i ≤ 4 * n) :
    r.espAt n + BitVec.ofNat 32 i = r.top - BitVec.ofNat 32 (4 * n - i) := by
  obtain ⟨left, hleft⟩ := Nat.exists_eq_add_of_le hi
  unfold Region.espAt
  rw [hleft, Nat.add_sub_cancel_left, BitVec.ofNat_add]
  grind

theorem Region.slot_notMem (r : Region) (hi : i < 4 * n) (hroom : 4 * n ≤ r.size) :
    r.espAt n + BitVec.ofNat 32 i ∉ r.kept := by
  rw [r.slot_eq hi.le]
  exact r.apart _ (by omega) (by omega)

theorem Region.depth (r : Region) (hroom : 4 * n ≤ r.size) :
    (r.top - r.espAt n).toNat = 4 * n := by
  have hbounded := r.bounded
  have hsub : r.top - r.espAt n = BitVec.ofNat 32 (4 * n) := by
    unfold Region.espAt
    grind
  rw [hsub, BitVec.toNat_ofNat, Nat.mod_eq_of_lt (by omega)]

theorem Machine.Fits.jump (hfits : m.Fits r f) (target : Word) :
    (m.jump target).Fits r (f.jump target) :=
  { hfits with eip := rfl }

theorem Machine.Fits.withFlags (hfits : m.Fits r f) (eflags : Word) :
    (m.withFlags eflags).Fits r { f with eflags := eflags } :=
  { hfits with eflags := rfl }

theorem Machine.Fits.get (hfits : m.Fits r f) (register : Register) :
    m.regs.get register = f.regs.get register :=
  congrArg (Registers.get · register) hfits.regs

theorem Registers.set_esp (regs : Registers) {register : Register} (hother : register ≠ .esp)
    (word : Word) : (regs.set register word).esp = regs.esp := by
  cases register <;> first | rfl | exact absurd rfl hother

theorem Machine.Fits.setReg (hfits : m.Fits r f) {register : Register}
    (hother : register ≠ .esp) (word : Word) :
    (m.setReg register word).Fits r { f with regs := f.regs.set register word } :=
  { hfits with
    regs := congrArg (Registers.set · register word) hfits.regs
    esp := (f.regs.set_esp hother word).trans hfits.esp
    stack := by
      rw [f.regs.set_esp hother word]
      exact hfits.stack }

theorem Machine.Fits.push (hfits : m.Fits r f) (word : Word)
    (hroom : 4 * (f.stack.length + 1) ≤ r.size) :
    (m.push word).Fits r (f.restack r (word :: f.stack)) := by
  have hesp : m.regs.esp - 4 = r.espAt (f.stack.length + 1) := by
    rw [hfits.regs, hfits.esp, r.espAt_succ]
  have hbounded := r.bounded
  refine
    { hfits with
      regs := ?_
      esp := rfl
      room := hroom
      stack := ?_
      kept := fun address hkept => ?_ }
  · simp only [Machine.push, Frame.restack, List.length_cons, ← hesp, hfits.regs]
  · have hholds : Holds (setWord m.ram (f.regs.esp - 4) word) (f.regs.esp - 4)
        (word :: f.stack) := hfits.stack.push (by omega)
    rw [← hfits.regs, hesp] at hholds
    simp only [Machine.push, Frame.restack, hesp, List.length_cons]
    exact hholds
  · have hother : ∀ i < 4, address ≠ m.regs.esp - 4 + BitVec.ofNat 32 i := by
      intro i hi heq
      rw [hesp] at heq
      exact r.slot_notMem (by omega) hroom (heq ▸ hkept)
    exact (setWord_of_ne hother).trans (hfits.kept address hkept)

theorem Machine.Fits.popTo (hfits : m.Fits r f) (hstack : f.stack = words ++ rest) {esp : Word}
    (hesp : esp = m.regs.esp + BitVec.ofNat 32 (4 * words.length)) :
    ({ m with regs := { m.regs with esp := esp } } : Machine).Fits r (f.restack r rest) := by
  have hlength : f.stack.length = words.length + rest.length := by
    rw [hstack, List.length_append]
  have hat : esp = r.espAt rest.length := by
    rw [hesp, hfits.regs, hfits.esp, r.espAt_add (by omega), hlength, Nat.add_sub_cancel_left]
  have hroom := hfits.room
  refine
    { hfits with
      regs := ?_
      esp := rfl
      room := ?_
      stack := ?_ }
  · simp only [Frame.restack, hat, hfits.regs]
  · simp only [Frame.restack]
    omega
  · have hdrop := hfits.stack.drop (k := words.length) (by omega)
    rw [hstack, List.drop_left, ← hfits.regs, ← hesp, hat] at hdrop
    exact hdrop

theorem Machine.Fits.wordAt_get (hfits : m.Fits r f) (hget : f.stack[k]? = some word) :
    wordAt m.ram (m.regs.esp + BitVec.ofNat 32 (4 * k)) = word := by
  rw [hfits.regs]
  exact hfits.stack.wordAt_get hget

theorem Machine.Fits.top_eq (hfits : m.Fits r f) (hstack : f.stack = word :: rest) :
    m.top = word := by
  have hget : wordAt m.ram (m.regs.esp + BitVec.ofNat 32 (4 * 0)) = word :=
    hfits.wordAt_get (by rw [hstack]; rfl)
  rwa [Nat.mul_zero, BitVec.add_zero] at hget

theorem Machine.Fits.pop (hfits : m.Fits r f) (hstack : f.stack = word :: rest) :
    m.pop.Fits r (f.restack r rest) := by
  have happend : f.stack = [word] ++ rest := hstack
  exact hfits.popTo happend rfl

theorem Frame.pushAll_eq_some (hpush : f.pushAll r words = some f') :
    4 * (words ++ f.stack).length ≤ r.size ∧ f.restack r (words ++ f.stack) = f' := by
  unfold Frame.pushAll at hpush
  split at hpush
  · rename_i hroom
    exact ⟨hroom, Option.some.inj hpush⟩
  · exact absurd hpush (by simp)

theorem Machine.Fits.restack_self (hfits : m.Fits r f) : f.restack r f.stack = f := by
  simp only [Frame.restack, ← hfits.esp]

theorem Machine.Fits.pushAll (hfits : m.Fits r f) (words : List Word)
    (hroom : 4 * (words ++ f.stack).length ≤ r.size) :
    (m.pushAll words).Fits r (f.restack r (words ++ f.stack)) := by
  induction words with
  | nil =>
      rw [List.nil_append, hfits.restack_self]
      exact hfits
  | cons word rest ih =>
      have hlength : (word :: rest ++ f.stack).length = (rest ++ f.stack).length + 1 := rfl
      exact (ih (by omega)).push word (by simp only [Frame.restack]; omega)

theorem Machine.Fits.pushed (hfits : m.Fits r f) (hpush : f.pushAll r words = some f') :
    (m.pushAll words).Fits r f' := by
  obtain ⟨hroom, rfl⟩ := Frame.pushAll_eq_some hpush
  exact hfits.pushAll words hroom

theorem Machine.Fits.popa (hfits : m.Fits r f)
    (hpop : f.data r .popa = some f') (next : Word) :
    ∃ after, p.exec m next .popa = some after ∧ after.Fits r (f'.jump next) := by
  obtain ⟨edi, esi, ebp, skipped, ebx, edx, ecx, eax, rest, hstack⟩ :
      ∃ edi esi ebp skipped ebx edx ecx eax rest, f.stack =
        [edi, esi, ebp, skipped, ebx, edx, ecx, eax] ++ rest := by
    simp only [Frame.data] at hpop
    split at hpop
    · rename_i hstack
      exact ⟨_, _, _, _, _, _, _, _, _, hstack⟩
    · exact absurd hpop (by simp)
  have hword (i : ℕ) : ∀ word, f.stack[i]? = some word →
      wordAt m.ram (m.regs.esp + BitVec.ofNat 32 (4 * i)) = word :=
    fun word hget => hfits.wordAt_get hget
  have hpopped : ({ m with regs := { m.regs with esp := m.regs.esp + 32 } } : Machine).Fits r
      (f.restack r rest) := hfits.popTo hstack rfl
  have hf' : ({ f with
      regs :=
        { edi := edi, esi := esi, ebp := ebp, esp := r.espAt rest.length, ebx := ebx, edx := edx,
          ecx := ecx, eax := eax }
      stack := rest } : Frame) = f' := by
    simp only [Frame.data, hstack, List.cons_append, List.nil_append] at hpop
    exact Option.some.inj hpop
  subst hf'
  refine ⟨_, rfl, { hpopped with regs := ?_, eip := rfl }⟩
  simp only [Frame.jump, Registers.mk.injEq]
  have hesp : m.regs.esp + 32 = r.espAt rest.length := congrArg Registers.esp hpopped.regs
  exact ⟨hword 7 eax (by rw [hstack]; rfl), hword 6 ecx (by rw [hstack]; rfl),
    hword 5 edx (by rw [hstack]; rfl), hword 4 ebx (by rw [hstack]; rfl), hesp,
    hword 2 ebp (by rw [hstack]; rfl), hword 1 esi (by rw [hstack]; rfl),
    hword 0 edi (by rw [hstack]; rfl)⟩

theorem Machine.Fits.popl (hfits : m.Fits r f) {register : Register}
    (hpop : f.data r (.popl register) = some f') (next : Word) :
    ∃ after, p.exec m next (.popl register) = some after ∧ after.Fits r (f'.jump next) := by
  obtain ⟨word, rest, hstack⟩ : ∃ word rest, f.stack = word :: rest := by
    cases hstack : f.stack with
    | nil =>
        simp only [Frame.data, hstack] at hpop
        exact absurd hpop (by simp)
    | cons word rest => exact ⟨word, rest, rfl⟩
  have hpopped := hfits.pop hstack
  simp only [Frame.data, hstack] at hpop
  split at hpop
  · exact absurd hpop (by simp)
  · rename_i hsame
    obtain rfl := Option.some.inj hpop
    refine ⟨_, rfl, Machine.Fits.jump ?_ next⟩
    rw [hfits.top_eq hstack]
    by_cases hregister : register = .esp
    · -- the word that was saved is the pointer that the stack has again
      subst hregister
      obtain rfl : word = r.espAt rest.length := not_not.mp fun h => hsame ⟨rfl, h⟩
      refine { hpopped with regs := ?_ }
      rw [Machine.setReg, hpopped.regs]
    · exact hpopped.setReg hregister word

/-- An instruction that moves data does on the machine what it does on the frame. -/
theorem Machine.Fits.data (hfits : m.Fits r f) (hdata : f.data r instr = some f')
    (next : Word) :
    ∃ after, p.exec m next instr = some after ∧ after.Fits r (f'.jump next) := by
  cases instr with
  | pushl source =>
      rw [Frame.data, ← hfits.get] at hdata
      exact ⟨_, rfl, (hfits.pushed hdata).jump next⟩
  | pushlImm word => exact ⟨_, rfl, (hfits.pushed hdata).jump next⟩
  | pushfl =>
      rw [Frame.data, ← hfits.eflags] at hdata
      exact ⟨_, rfl, (hfits.pushed hdata).jump next⟩
  | pusha =>
      rw [Frame.data, ← hfits.regs] at hdata
      exact ⟨_, rfl, (hfits.pushed hdata).jump next⟩
  | popl target => exact hfits.popl hdata next
  | popa => exact hfits.popa hdata next
  | movl source target =>
      simp only [Frame.data] at hdata
      split at hdata
      · exact absurd hdata (by simp)
      · rename_i hother
        obtain rfl := Option.some.inj hdata
        rw [← hfits.get]
        exact ⟨_, rfl, (hfits.setReg hother _).jump next⟩
  | movlImm word target =>
      simp only [Frame.data] at hdata
      split at hdata
      · exact absurd hdata (by simp)
      · rename_i hother
        obtain rfl := Option.some.inj hdata
        exact ⟨_, rfl, (hfits.setReg hother _).jump next⟩
  | movlStack displacement target =>
      simp only [Frame.data] at hdata
      split at hdata
      · exact absurd hdata (by simp)
      · rename_i hother
        obtain ⟨hother, haligned⟩ := not_or.mp hother
        obtain ⟨word, hget, rfl⟩ := Option.map_eq_some_iff.mp hdata
        have hload := hfits.wordAt_get hget
        rw [Nat.mul_div_cancel' (Nat.dvd_of_mod_eq_zero (not_not.mp haligned))] at hload
        refine ⟨_, rfl, ?_⟩
        rw [hload]
        exact (hfits.setReg hother word).jump next
  | movwAx word =>
      obtain rfl := Option.some.inj hdata
      refine ⟨_, rfl, ?_⟩
      rw [hfits.regs]
      exact (hfits.setReg (by decide) _).jump next
  | movwDs =>
      obtain rfl := Option.some.inj hdata
      refine ⟨_, rfl, ?_⟩
      rw [hfits.regs]
      exact { hfits with regs := rfl, ds := rfl, eip := rfl }
  | orlImm word target =>
      simp only [Frame.data] at hdata
      split at hdata
      · exact absurd hdata (by simp)
      · rename_i hother
        obtain rfl := Option.some.inj hdata
        refine ⟨_, rfl, ?_⟩
        rw [hfits.get, hfits.eflags]
        exact ((hfits.setReg hother _).withFlags _).jump next
  | addlImm word target =>
      cases target with
      | esp =>
          simp only [Frame.data] at hdata
          split at hdata
          · rename_i hdrop
            obtain ⟨haligned, hlength⟩ := hdrop
            obtain rfl := Option.some.inj hdata
            have hesp : m.regs.esp + word =
                m.regs.esp + BitVec.ofNat 32 (4 * (f.stack.take (word.toNat / 4)).length) := by
              rw [List.length_take_of_le hlength, haligned, BitVec.ofNat_toNat,
                BitVec.setWidth_eq]
            have hpopped := hfits.popTo (List.take_append_drop _ _).symm hesp
            refine ⟨_, rfl, ?_⟩
            rw [hfits.eflags, show f.regs.esp = m.regs.get .esp from (hfits.get .esp).symm]
            exact (hpopped.withFlags _).jump next
          · exact absurd hdata (by simp)
      | _ => exact absurd hdata (by simp [Frame.data])
  | cmplImm word source =>
      obtain rfl := Option.some.inj hdata
      refine ⟨_, rfl, ?_⟩
      rw [hfits.get, hfits.eflags]
      exact (hfits.withFlags _).jump next
  | cli =>
      simp only [Frame.data] at hdata
      split at hdata
      · rename_i hlevel
        obtain rfl := Option.some.inj hdata
        have hcpl : m.cpl = 0 := by rw [Machine.cpl, hfits.code, hlevel]
        refine ⟨_, if_pos hcpl, ?_⟩
        rw [hfits.eflags]
        exact (hfits.withFlags _).jump next
      · exact absurd hdata (by simp)
  | cld =>
      obtain rfl := Option.some.inj hdata
      refine ⟨_, rfl, ?_⟩
      rw [hfits.eflags]
      exact (hfits.withFlags _).jump next
  | jmp _ | jl _ | jg _ | call _ | callTable _ _ | ret | leave | int _ | iret | hlt =>
      exact absurd hdata (by simp [Frame.data])

theorem Machine.Fits.disturbed (hguarded : r.Guarded disturb) (hfits : m.Fits r f)
    (hbetween : between = m ∨ disturb m between) : between.Fits r f := by
  obtain rfl | hdisturb := hbetween
  · exact hfits
  · obtain ⟨⟨extra, ram, rfl⟩, hkept, hstack⟩ := hguarded m between hdisturb hfits.code
    have hdepth : (r.top - m.regs.esp).toNat = 4 * f.stack.length := by
      rw [hfits.regs, hfits.esp, r.depth hfits.room]
    rw [hdepth, hfits.regs] at hstack
    exact
      { hfits with
        stack := hfits.stack.congr (hstack hfits.room)
        kept := fun address hmem => (hkept address hmem).trans (hfits.kept address hmem) }

/-! ## Rules -/

/-- What one instruction does whatever comes before it. -/
theorem Machine.Fits.step (hguarded : r.Guarded disturb) (hfits : m.Fits r f)
    (htext : p.text f.eip = some (instr, next))
    (hexec : ∀ m : Machine, m.Fits r f →
      ∃ after, p.exec m next instr = some after ∧ Eventually p disturb goal after) :
    Eventually p disturb goal m := by
  refine .exec fun between hbetween => ?_
  have hstill := hfits.disturbed hguarded hbetween
  obtain ⟨after, hafter, hgoal⟩ := hexec between hstill
  refine ⟨after, ?_, hgoal⟩
  rw [Platform.step, hstill.eip, htext]
  exact hafter

theorem Frame.data_jump (hdata : f.data r instr = some f') (target : Word) :
    (f.jump target).data r instr = some (f'.jump target) := by
  cases instr with
  | popl register =>
      cases hstack : f.stack with
      | nil => simp [Frame.data, hstack] at hdata
      | cons word rest =>
          simp only [Frame.data, Frame.jump, Frame.restack, hstack] at hdata ⊢
          grind
  | popa =>
      simp only [Frame.data, Frame.jump] at hdata ⊢
      split at hdata
      · rename_i hstack
        obtain rfl := Option.some.inj hdata
        simp
      · exact absurd hdata (by simp)
  | addlImm word register =>
      cases register with
      | esp =>
          simp only [Frame.data, Frame.jump, Frame.restack] at hdata ⊢
          grind
      | _ => simp [Frame.data] at hdata
  | _ =>
      simp only [Frame.data, Frame.jump, Frame.pushAll, Frame.restack] at hdata ⊢
      grind

/-- A stretch of instructions that move data. -/
theorem Machine.Fits.run (hguarded : r.Guarded disturb) {address : Word}
    (hfits : m.Fits r (f.jump address)) (hplaced : p.Placed address (instrs ++ following))
    (hrun : f.run r instrs = some f')
    (hrest : ∀ next (m : Machine), p.Placed next following → m.Fits r (f'.jump next) →
      Eventually p disturb goal m) : Eventually p disturb goal m := by
  induction instrs generalizing m f address with
  | nil =>
      obtain rfl := Option.some.inj hrun
      exact hrest address m hplaced hfits
  | cons instr instrs ih =>
      obtain ⟨middle, hdata, hrun⟩ := Option.bind_eq_some_iff.mp hrun
      obtain ⟨next, htext, hplaced⟩ := hplaced
      refine hfits.step hguarded htext fun m hfits => ?_
      obtain ⟨after, hexec, hafter⟩ := hfits.data (Frame.data_jump hdata address) next
      have hmiddle : after.Fits r (middle.jump next) := hafter
      exact ⟨after, hexec, ih hmiddle hplaced hrun⟩

theorem Machine.Fits.jmp (hguarded : r.Guarded disturb) (hfits : m.Fits r f)
    (htext : p.text f.eip = some (.jmp target, next))
    (hrest : ∀ m : Machine, m.Fits r (f.jump target) → Eventually p disturb goal m) :
    Eventually p disturb goal m :=
  hfits.step hguarded htext fun _ hfits => ⟨_, rfl, hrest _ (hfits.jump target)⟩

theorem Machine.Fits.jl (hguarded : r.Guarded disturb) (hfits : m.Fits r f)
    (htext : p.text f.eip = some (.jl target, next))
    (hrest : ∀ m : Machine, m.Fits r (f.jump (if lessFlag f.eflags then target else next)) →
      Eventually p disturb goal m) : Eventually p disturb goal m := by
  refine hfits.step hguarded htext fun m hfits => ⟨_, rfl, hrest _ ?_⟩
  rw [hfits.eflags]
  exact hfits.jump _

theorem Machine.Fits.jg (hguarded : r.Guarded disturb) (hfits : m.Fits r f)
    (htext : p.text f.eip = some (.jg target, next))
    (hrest : ∀ m : Machine, m.Fits r (f.jump (if greaterFlag f.eflags then target else next)) →
      Eventually p disturb goal m) : Eventually p disturb goal m := by
  refine hfits.step hguarded htext fun m hfits => ⟨_, rfl, hrest _ ?_⟩
  rw [hfits.eflags]
  exact hfits.jump _

theorem Machine.Fits.call (hguarded : r.Guarded disturb) (hfits : m.Fits r f)
    (htext : p.text f.eip = some (.call target, next))
    (hroom : 4 * (f.stack.length + 1) ≤ r.size)
    (hrest : ∀ m : Machine, m.Fits r ((f.restack r (next :: f.stack)).jump target) →
      Eventually p disturb goal m) : Eventually p disturb goal m :=
  hfits.step hguarded htext fun _ hfits =>
    ⟨_, rfl, hrest _ ((hfits.push next hroom).jump target)⟩

/-- A call through a table whose entry is known. -/
theorem Machine.Fits.callTable (hguarded : r.Guarded disturb) (hfits : m.Fits r f)
    {table : Word} {index : Register}
    (htext : p.text f.eip = some (.callTable table index, next))
    (hroom : 4 * (f.stack.length + 1) ≤ r.size)
    (hkept : ∀ i < 4, table + 4 * f.regs.get index + BitVec.ofNat 32 i ∈ r.kept)
    (hentry : wordAt r.known (table + 4 * f.regs.get index) = target)
    (hrest : ∀ m : Machine, m.Fits r ((f.restack r (next :: f.stack)).jump target) →
      Eventually p disturb goal m) : Eventually p disturb goal m := by
  refine hfits.step hguarded htext fun m hfits => ⟨_, rfl, hrest _ ?_⟩
  rw [hfits.get, wordAt_congr fun i hi => hfits.kept _ (hkept i hi), hentry]
  exact (hfits.push next hroom).jump target

theorem Machine.Fits.ret (hguarded : r.Guarded disturb) (hfits : m.Fits r f)
    (htext : p.text f.eip = some (.ret, next)) (hstack : f.stack = target :: rest)
    (hrest : ∀ m : Machine, m.Fits r ((f.restack r rest).jump target) →
      Eventually p disturb goal m) : Eventually p disturb goal m := by
  refine hfits.step hguarded htext fun m hfits => ⟨_, rfl, hrest _ ?_⟩
  rw [hfits.top_eq hstack]
  exact (hfits.pop hstack).jump target

theorem Machine.pushAll_segments (m : Machine) (words : List Word) (cs : BitVec 16)
    (eip eflags : Word) :
    { m.pushAll words with cs := cs, eip := eip, eflags := eflags } =
      ({ m with cs := cs, eip := eip, eflags := eflags } : Machine).pushAll words := by
  induction words with
  | nil => rfl
  | cons word rest ih =>
      simp only [Machine.pushAll, List.foldr_cons] at ih ⊢
      rw [← ih]
      rfl

theorem Machine.pushAll_append (m : Machine) (words others : List Word) :
    (m.pushAll words).pushAll others = m.pushAll (others ++ words) := by
  rw [Machine.pushAll, Machine.pushAll, Machine.pushAll, List.foldr_append]

/-- A machine at the top of its stack, with nothing on it yet. -/
theorem Machine.fits_nil (hcode : m.cs = r.code) (hsegment : m.ss = r.stackSegment)
    (htop : m.regs.esp = r.top) (hkept : ∀ address ∈ r.kept, m.ram address = r.known address) :
    m.Fits r { regs := m.regs, eip := m.eip, eflags := m.eflags, ds := m.ds, stack := [] } where
  regs := rfl
  eip := rfl
  eflags := rfl
  ds := rfl
  code := hcode
  segment := hsegment
  esp := htop.trans (BitVec.sub_zero _).symm
  room := Nat.zero_le _
  stack := trivial
  kept := hkept

/-- A gate taken from an outer level, onto the inner stack. -/
theorem Machine.fits_deliver_outer {vector : BitVec 8} {error : Option Word}
    (hpresent : (p.idt vector).present)
    (htype : (p.idt vector).gateType = trapGate ∨ (p.idt vector).gateType = interruptGate)
    (houter : p.segmentLevel (p.idt vector).selector < m.cpl)
    (htop : wordAt m.ram (p.tss + 4) = r.top)
    (hsegment : (wordAt m.ram (p.tss + 8)).setWidth 16 = r.stackSegment)
    (hcode : atLevel (p.idt vector).selector (p.segmentLevel (p.idt vector).selector) = r.code)
    (hroom : 4 * (error.toList.length + 5) ≤ r.size)
    (hkept : ∀ address ∈ r.kept, m.ram address = r.known address) :
    ∃ after, p.deliver vector error m = some after ∧ after.Fits r
      (({ regs := m.regs, eip := (p.idt vector).offset,
          eflags := Platform.gateFlags (p.idt vector) m.eflags, ds := m.ds, stack := [] } :
        Frame).restack r (error.toList ++
          [m.eip, m.cs.setWidth 32, m.eflags, m.regs.esp, m.ss.setWidth 32])) := by
  refine ⟨_, if_pos ⟨hpresent, htype, BitVec.le_of_lt houter⟩, ?_⟩
  rw [if_pos houter, Platform.enterStack, Machine.pushAll_append, Machine.pushAll_segments,
    hcode, hsegment, htop]
  have hempty : (
      { m with
        regs := { m.regs with esp := r.top }
        eip := (p.idt vector).offset
        eflags := Platform.gateFlags (p.idt vector) m.eflags
        cs := r.code
        ss := r.stackSegment } : Machine).Fits r
      { regs := { m.regs with esp := r.top }
        eip := (p.idt vector).offset
        eflags := Platform.gateFlags (p.idt vector) m.eflags
        ds := m.ds
        stack := [] } := Machine.fits_nil rfl rfl rfl hkept
  have hpushed := hempty.pushAll (error.toList ++
    [m.eip, m.cs.setWidth 32, m.eflags, m.regs.esp, m.ss.setWidth 32])
    (by simpa [Nat.add_comm] using hroom)
  rw [List.append_nil] at hpushed
  rw [List.append_assoc]
  exact hpushed

/-- A gate taken inside the kernel. -/
theorem Machine.fits_deliver_inner {vector : BitVec 8} {error : Option Word}
    (hpresent : (p.idt vector).present)
    (htype : (p.idt vector).gateType = trapGate ∨ (p.idt vector).gateType = interruptGate)
    (hinner : p.segmentLevel (p.idt vector).selector = m.cpl)
    (htop : m.regs.esp = r.top) (hsegment : m.ss = r.stackSegment)
    (hcode : atLevel (p.idt vector).selector (p.segmentLevel (p.idt vector).selector) = r.code)
    (hroom : 4 * (error.toList.length + 3) ≤ r.size)
    (hkept : ∀ address ∈ r.kept, m.ram address = r.known address) :
    ∃ after, p.deliver vector error m = some after ∧ after.Fits r
      (({ regs := m.regs, eip := (p.idt vector).offset,
          eflags := Platform.gateFlags (p.idt vector) m.eflags, ds := m.ds, stack := [] } :
        Frame).restack r (error.toList ++ [m.eip, m.cs.setWidth 32, m.eflags])) := by
  refine ⟨_, if_pos ⟨hpresent, htype, hinner ▸ BitVec.le_refl _⟩, ?_⟩
  rw [if_neg (hinner ▸ BitVec.lt_irrefl _), Machine.pushAll_segments, hcode]
  have hempty : (
      { m with
        cs := r.code
        eip := (p.idt vector).offset
        eflags := Platform.gateFlags (p.idt vector) m.eflags } : Machine).Fits r
      { regs := m.regs
        eip := (p.idt vector).offset
        eflags := Platform.gateFlags (p.idt vector) m.eflags
        ds := m.ds
        stack := [] } := Machine.fits_nil rfl hsegment htop hkept
  have hpushed := hempty.pushAll (error.toList ++ [m.eip, m.cs.setWidth 32, m.eflags])
    (by simpa [Nat.add_comm] using hroom)
  rwa [List.append_nil] at hpushed

/-- The return to an outer level. -/
theorem Machine.Fits.iret_outer (hguarded : r.Guarded disturb) (hfits : m.Fits r f)
    {eip cs eflags esp ss : Word} (htext : p.text f.eip = some (.iret, next))
    (hstack : f.stack = [eip, cs, eflags, esp, ss]) (hlevel : level r.code = 0)
    (hnested : f.eflags.getLsbD nestedTask = false) (houter : level (cs.setWidth 16) ≠ 0)
    (hrest : ∀ m : Machine, m.Fits r f → Eventually p disturb goal
      { regs := { f.regs with esp := esp }, eip := eip, eflags := eflags, cs := cs.setWidth 16,
        ss := ss.setWidth 16,
        ds := p.outerSegment (level (cs.setWidth 16)) f.ds,
        extra := p.outerSegments (level (cs.setWidth 16)) m.extra, ram := m.ram }) :
    Eventually p disturb goal m := by
  refine hfits.step hguarded htext fun m hfits => ⟨_, ?_, hrest m hfits⟩
  have hcpl : m.cpl = 0 := by rw [Machine.cpl, hfits.code, hlevel]
  have hpop1 := hfits.pop hstack
  have hpop2 := hpop1.pop rfl
  have hpop3 := hpop2.pop rfl
  have hpop4 := hpop3.pop rfl
  have hsome : ¬(m.cpl ≠ 0 ∨ m.eflags.getLsbD nestedTask = true) := by
    simp [hcpl, hfits.eflags, hnested]
  simp only [Platform.exec, Platform.interruptReturn]
  rw [if_neg hsome, hpop1.top_eq rfl, if_neg houter, hfits.top_eq hstack, hpop2.top_eq rfl,
    hpop3.top_eq rfl, hpop4.top_eq rfl, hfits.ds, hfits.regs]
  rfl

/-- The return inside the kernel. -/
theorem Machine.Fits.iret_inner (hguarded : r.Guarded disturb) (hfits : m.Fits r f)
    {eip cs eflags : Word} (htext : p.text f.eip = some (.iret, next))
    (hstack : f.stack = [eip, cs, eflags]) (hlevel : level r.code = 0)
    (hnested : f.eflags.getLsbD nestedTask = false) (hinner : level (cs.setWidth 16) = 0)
    (hrest : ∀ m : Machine, m.Fits r f → Eventually p disturb goal
      { regs := { f.regs with esp := r.top }, eip := eip, eflags := eflags,
        cs := cs.setWidth 16, ss := r.stackSegment, ds := f.ds, extra := m.extra,
        ram := m.ram }) : Eventually p disturb goal m := by
  refine hfits.step hguarded htext fun m hfits => ⟨_, ?_, hrest m hfits⟩
  have hcpl : m.cpl = 0 := by rw [Machine.cpl, hfits.code, hlevel]
  have hpop1 := hfits.pop hstack
  have hpop2 := hpop1.pop rfl
  have hpop3 := hpop2.pop rfl
  have hsome : ¬(m.cpl ≠ 0 ∨ m.eflags.getLsbD nestedTask = true) := by
    simp [hcpl, hfits.eflags, hnested]
  have hregs : m.pop.pop.pop.regs = { f.regs with esp := r.top } := by
    rw [hpop3.regs]
    simp [Frame.restack, Region.espAt]
  simp only [Platform.exec, Platform.interruptReturn]
  rw [if_neg hsome, hpop1.top_eq rfl, if_pos hinner, hfits.top_eq hstack, hpop2.top_eq rfl,
    hregs, hpop3.segment, hpop3.ds]
  rfl

end Fits

end StackAssembly
