import VirtualOS.StringAssembly

/-!
# Assembly on a stack, with interrupts

The part of the 32-bit instruction set that entry code is written in: pushes and
pops, calls, jumps on a comparison, the gates of the interrupt table and the
return from an interrupt.  The code is a map from addresses to instructions; the
stack is memory like any other.
-/

namespace StackAssembly

open StringAssembly

abbrev Word := BitVec 32

/-! ## Words in memory -/

def wordAt (ram : Ram) (address : Word) : Word :=
  wordOf fun i => ram (address + BitVec.ofNat 32 i)

def setWord (ram : Ram) (address word : Word) : Ram := writeBytes ram address (byteOf word) 4

/-- The words of a list lie one after the other. -/
def Holds (ram : Ram) (address : Word) : List Word → Prop
  | [] => True
  | word :: rest => wordAt ram address = word ∧ Holds ram (address + 4) rest

/-- Words stored one after the other. -/
def storeWords (ram : Ram) (address : Word) : List Word → Ram
  | [] => ram
  | word :: rest => storeWords (setWord ram address word) (address + 4) rest

section Words

variable {ram other : Ram} {address target word : Word} {words : List Word} {k : ℕ}

theorem wordOf_congr {bytes others : ℕ → UInt8} (heq : ∀ i < 4, others i = bytes i) :
    wordOf others = wordOf bytes := by
  unfold wordOf
  rw [heq 0 (by decide), heq 1 (by decide), heq 2 (by decide), heq 3 (by decide)]

theorem wordOf_byteOf (word : Word) : wordOf (byteOf word) = word := by
  apply BitVec.eq_of_getLsbD_eq
  intro j hj
  interval_cases j <;> simp [byteOf, wordOf]

theorem wordAt_congr (heq : ∀ i < 4, other (address + BitVec.ofNat 32 i) =
    ram (address + BitVec.ofNat 32 i)) : wordAt other address = wordAt ram address :=
  wordOf_congr heq

@[simp]
theorem wordAt_setWord (ram : Ram) (address word : Word) :
    wordAt (setWord ram address word) address = word := by
  have hbytes : ∀ i < 4, setWord ram address word (address + BitVec.ofNat 32 i) =
      byteOf word i := fun i hi => writeBytes_get hi (by decide)
  rw [wordAt, wordOf_congr hbytes, wordOf_byteOf]

theorem setWord_of_ne (hne : ∀ i < 4, target ≠ address + BitVec.ofNat 32 i) :
    setWord ram address word target = ram target :=
  writeBytes_of_ne hne

@[simp]
theorem holds_cons : Holds ram address (word :: words) ↔
    wordAt ram address = word ∧ Holds ram (address + 4) words :=
  Iff.rfl

theorem Holds.congr (hholds : Holds ram address words)
    (heq : ∀ k < 4 * words.length, other (address + BitVec.ofNat 32 k) =
      ram (address + BitVec.ofNat 32 k)) : Holds other address words := by
  induction words generalizing address with
  | nil => trivial
  | cons word rest ih =>
      have hlength : 4 * (word :: rest).length = 4 * rest.length + 4 := by simp; omega
      obtain ⟨hword, hrest⟩ := hholds
      refine ⟨?_, ih hrest fun k hk => ?_⟩
      · rw [wordAt_congr fun i hi => heq i (by omega), hword]
      · have hshift : address + 4 + BitVec.ofNat 32 k = address + BitVec.ofNat 32 (4 + k) :=
          add_ofNat_add address 4 k
        rw [hshift]
        exact heq (4 + k) (by omega)

/-- A word in front of others. -/
theorem Holds.push (hholds : Holds ram address words) (hroom : 4 * words.length + 4 ≤ 2 ^ 32) :
    Holds (setWord ram (address - 4) word) (address - 4) (word :: words) := by
  refine ⟨wordAt_setWord _ _ _, ?_⟩
  rw [BitVec.sub_add_cancel]
  refine hholds.congr fun k hk => setWord_of_ne fun i hi => ?_
  have hshift : address + BitVec.ofNat 32 k = address - 4 + BitVec.ofNat 32 (4 + k) := by
    rw [← add_ofNat_add (address - 4) 4 k]
    exact congrArg (· + BitVec.ofNat 32 k) (BitVec.sub_add_cancel address 4).symm
  rw [hshift]
  exact add_ofNat_ne (by omega) (by omega)

theorem Holds.drop (hholds : Holds ram address words) (hk : k ≤ words.length) :
    Holds ram (address + BitVec.ofNat 32 (4 * k)) (words.drop k) := by
  induction k generalizing address words with
  | zero => simpa using hholds
  | succ k ih =>
      obtain _ | ⟨word, rest⟩ := words
      · exact absurd hk (Nat.not_succ_le_zero k)
      · have hrest := ih hholds.2 (Nat.le_of_succ_le_succ hk)
        rw [Nat.mul_succ, Nat.add_comm, ← add_ofNat_add]
        exact hrest

theorem Holds.wordAt_get (hholds : Holds ram address words) (hget : words[k]? = some word) :
    wordAt ram (address + BitVec.ofNat 32 (4 * k)) = word := by
  obtain ⟨hlt, rfl⟩ := List.getElem?_eq_some_iff.mp hget
  have hdrop := hholds.drop hlt.le
  rw [List.drop_eq_getElem_cons hlt] at hdrop
  exact hdrop.1

theorem storeWords_of_ne
    (hne : ∀ k < 4 * words.length, target ≠ address + BitVec.ofNat 32 k) :
    storeWords ram address words target = ram target := by
  induction words generalizing ram address with
  | nil => rfl
  | cons word rest ih =>
      rw [List.length_cons] at hne
      rw [storeWords, ih fun k hk => ?_, setWord_of_ne fun i hi => hne i (by omega)]
      have hshift : address + 4 + BitVec.ofNat 32 k = address + BitVec.ofNat 32 (4 + k) :=
        add_ofNat_add address 4 k
      rw [hshift]
      exact hne (4 + k) (by omega)

theorem holds_storeWords (ram : Ram) (address : Word) (words : List Word)
    (hroom : 4 * words.length ≤ 2 ^ 32) :
    Holds (storeWords ram address words) address words := by
  induction words generalizing ram address with
  | nil => trivial
  | cons word rest ih =>
      rw [List.length_cons] at hroom
      refine ⟨?_, ih _ _ (by omega)⟩
      rw [storeWords, wordAt_congr fun i hi => storeWords_of_ne fun k hk => ?_, wordAt_setWord]
      have hshift : address + 4 + BitVec.ofNat 32 k = address + BitVec.ofNat 32 (4 + k) :=
        add_ofNat_add address 4 k
      rw [hshift]
      exact (add_ofNat_ne (by omega) (by omega)).symm

end Words

/-! ## Registers and instructions -/

inductive Register where
  | eax | ecx | edx | ebx | esp | ebp | esi | edi
  deriving DecidableEq

structure Registers where
  eax : Word
  ecx : Word
  edx : Word
  ebx : Word
  esp : Word
  ebp : Word
  esi : Word
  edi : Word

def Registers.get (regs : Registers) : Register → Word
  | .eax => regs.eax
  | .ecx => regs.ecx
  | .edx => regs.edx
  | .ebx => regs.ebx
  | .esp => regs.esp
  | .ebp => regs.ebp
  | .esi => regs.esi
  | .edi => regs.edi

def Registers.set (regs : Registers) (register : Register) (word : Word) : Registers :=
  match register with
  | .eax => { regs with eax := word }
  | .ecx => { regs with ecx := word }
  | .edx => { regs with edx := word }
  | .ebx => { regs with ebx := word }
  | .esp => { regs with esp := word }
  | .ebp => { regs with ebp := word }
  | .esi => { regs with esi := word }
  | .edi => { regs with edi := word }

/-- Instructions with their operands in the order of the assembler. -/
inductive Instr where
  | pushl (source : Register)
  | pushlImm (word : Word)
  | popl (target : Register)
  | pusha
  | popa
  | pushfl
  | movl (source target : Register)
  | movlImm (word : Word) (target : Register)
  /-- `movl displacement(%esp), target` -/
  | movlStack (displacement : ℕ) (target : Register)
  /-- `movw $word, %ax` -/
  | movwAx (word : BitVec 16)
  /-- `movw %ax, %ds` -/
  | movwDs
  | orlImm (word : Word) (target : Register)
  | addlImm (word : Word) (target : Register)
  | cmplImm (word : Word) (source : Register)
  | jmp (target : Word)
  | jl (target : Word)
  | jg (target : Word)
  | call (target : Word)
  /-- `call *table(, index, 4)` -/
  | callTable (table : Word) (index : Register)
  | ret
  | leave
  | int (vector : BitVec 8)
  | iret
  | cli
  | cld
  | hlt

/-! ## Flags -/

def carryFlag : ℕ := 0
def parityFlag : ℕ := 2
def adjustFlag : ℕ := 4
def zeroFlag : ℕ := 6
def signFlag : ℕ := 7
def trapFlag : ℕ := 8
def interruptFlag : ℕ := 9
def directionFlag : ℕ := 10
def overflowFlag : ℕ := 11
def nestedTask : ℕ := 14

def setFlag (eflags : Word) (flag : ℕ) (value : Bool) : Word :=
  if value then eflags ||| BitVec.twoPow 32 flag else eflags &&& ~~~BitVec.twoPow 32 flag

/-- The low byte has an even number of ones. -/
def evenParity (word : Word) : Bool :=
  ((List.range 8).filter fun i => word.getLsbD i).length % 2 == 0

def resultFlags (eflags result : Word) (carry adjust overflow : Bool) : Word :=
  setFlag (setFlag (setFlag (setFlag (setFlag (setFlag eflags carryFlag carry)
    parityFlag (evenParity result)) adjustFlag adjust) zeroFlag (result == 0))
    signFlag result.msb) overflowFlag overflow

def compareFlags (eflags a b : Word) : Word :=
  resultFlags eflags (a - b) (a.ult b) ((a.setWidth 4).ult (b.setWidth 4))
    (a.msb != b.msb && (a - b).msb != a.msb)

def addFlags (eflags a b : Word) : Word :=
  resultFlags eflags (a + b) ((a + b).ult a) (((a + b).setWidth 4).ult (a.setWidth 4))
    (a.msb == b.msb && (a + b).msb != a.msb)

def orFlags (eflags result : Word) : Word := resultFlags eflags result false false false

/-- The condition of `jl`. -/
def lessFlag (eflags : Word) : Bool := eflags.getLsbD signFlag != eflags.getLsbD overflowFlag

/-- The condition of `jg`. -/
def greaterFlag (eflags : Word) : Bool := !eflags.getLsbD zeroFlag && !lessFlag eflags

section Flags

variable {eflags a b : Word} {flag other : ℕ} {value : Bool}

theorem getLsbD_setFlag (hother : other < 32) :
    (setFlag eflags flag value).getLsbD other =
      if other = flag then value else eflags.getLsbD other := by
  unfold setFlag
  cases value with
  | true =>
      rw [if_pos rfl, BitVec.getLsbD_or, BitVec.getLsbD_twoPow]
      grind
  | false =>
      rw [if_neg Bool.false_ne_true, BitVec.getLsbD_and, BitVec.getLsbD_not,
        BitVec.getLsbD_twoPow]
      grind

theorem nestedTask_resultFlags (eflags result : Word) (carry adjust overflow : Bool) :
    (resultFlags eflags result carry adjust overflow).getLsbD nestedTask =
      eflags.getLsbD nestedTask := by
  simp (disch := decide) only [resultFlags, getLsbD_setFlag]
  rfl

theorem less_resultFlags (eflags result : Word) (carry adjust overflow : Bool) :
    lessFlag (resultFlags eflags result carry adjust overflow) = (result.msb != overflow) := by
  simp (disch := decide) only [lessFlag, resultFlags, getLsbD_setFlag]
  rfl

theorem zero_resultFlags (eflags result : Word) (carry adjust overflow : Bool) :
    (resultFlags eflags result carry adjust overflow).getLsbD zeroFlag = (result == 0) := by
  simp (disch := decide) only [resultFlags, getLsbD_setFlag]
  rfl

theorem lessFlag_compareFlags (eflags a b : Word) :
    lessFlag (compareFlags eflags a b) = decide (a.toInt < b.toInt) := by
  rw [compareFlags, less_resultFlags]
  rcases ha : a.msb <;> rcases hb : b.msb <;> rcases hc : (a - b).msb <;>
    simp only [BitVec.msb_eq_decide, decide_eq_true_eq, decide_eq_false_iff_not] at ha hb hc <;>
    simp [BitVec.toInt_eq_toNat_cond] <;> bv_omega

theorem greaterFlag_compareFlags (eflags a b : Word) :
    greaterFlag (compareFlags eflags a b) = decide (b.toInt < a.toInt) := by
  rw [greaterFlag, lessFlag_compareFlags, compareFlags, zero_resultFlags]
  by_cases heq : a = b
  · simp [heq]
  · have hsub : (a - b == 0) = false := by
      simp only [beq_eq_false_iff_ne, ne_eq]
      bv_omega
    have hint : a.toInt ≠ b.toInt := fun h => heq (BitVec.eq_of_toInt_eq h)
    rw [hsub, Bool.not_false, Bool.true_and, ← decide_not, decide_eq_decide]
    omega

end Flags

/-! ## Descriptors -/

abbrev Descriptor := BitVec 64

namespace Descriptor

def present (d : Descriptor) : Bool := d.getLsbD 47
def dpl (d : Descriptor) : BitVec 2 := d.extractLsb' 45 2

/-- The type of a gate, with the bit for system descriptors. -/
def gateType (d : Descriptor) : BitVec 5 := d.extractLsb' 40 5
def selector (d : Descriptor) : BitVec 16 := d.extractLsb' 16 16
def offset (d : Descriptor) : Word := d.extractLsb' 48 16 ++ d.extractLsb' 0 16

end Descriptor

/-- Gates that keep the interrupt flag and gates that clear it. -/
def trapGate : BitVec 5 := 0xF
def interruptGate : BitVec 5 := 0xE

def generalProtection : BitVec 8 := 13

/-- The privilege level in a selector. -/
def level (selector : BitVec 16) : BitVec 2 := selector.setWidth 2

def atLevel (selector : BitVec 16) (privilege : BitVec 2) : BitVec 16 :=
  (selector &&& ~~~3) ||| privilege.setWidth 16

/-! ## Machines -/

/-- The data segments that the entry code does not load.  Handlers and copying loops do. -/
structure ExtraSegments where
  es : BitVec 16
  fs : BitVec 16
  gs : BitVec 16

structure Machine where
  regs : Registers
  eip : Word
  eflags : Word
  cs : BitVec 16
  ss : BitVec 16
  ds : BitVec 16
  extra : ExtraSegments
  ram : Ram

/-- What stays in place while programs run.  The code at an address comes with the address
behind it. -/
structure Platform where
  text : Word → Option (Instr × Word)
  idt : BitVec 8 → Descriptor
  gdt : BitVec 13 → Descriptor
  tss : Word

namespace Machine

variable (m : Machine)

/-- The current privilege level. -/
def cpl : BitVec 2 := level m.cs

def top : Word := wordAt m.ram m.regs.esp

def push (word : Word) : Machine :=
  { m with
    regs := { m.regs with esp := m.regs.esp - 4 }
    ram := setWord m.ram (m.regs.esp - 4) word }

/-- Several pushes; the first word of the list comes last and lies on top. -/
def pushAll (words : List Word) : Machine := words.foldr (fun word m => m.push word) m

def pop : Machine := { m with regs := { m.regs with esp := m.regs.esp + 4 } }

def setReg (register : Register) (word : Word) : Machine :=
  { m with regs := m.regs.set register word }

def jump (target : Word) : Machine := { m with eip := target }

def withFlags (eflags : Word) : Machine := { m with eflags := eflags }

end Machine

namespace Platform

variable (p : Platform)

def segmentLevel (selector : BitVec 16) : BitVec 2 :=
  (p.gdt (selector.extractLsb' 3 13)).dpl

/-- The inner stack that the task state segment names, with the outer one saved on it. -/
def enterStack (m : Machine) : Machine :=
  let inner : Machine :=
    { m with
      regs := { m.regs with esp := wordAt m.ram (p.tss + 4) }
      ss := (wordAt m.ram (p.tss + 8)).setWidth 16 }
  inner.pushAll [m.regs.esp, m.ss.setWidth 32]

/-- The flags inside a gate. -/
def gateFlags (gate : Descriptor) (eflags : Word) : Word :=
  let entered := setFlag (setFlag eflags nestedTask false) trapFlag false
  if gate.gateType = interruptGate then setFlag entered interruptFlag false else entered

/-- An interrupt or an exception passes a gate. -/
def deliver (vector : BitVec 8) (error : Option Word) (m : Machine) : Option Machine :=
  let gate := p.idt vector
  let inner := p.segmentLevel gate.selector
  if gate.present ∧ (gate.gateType = trapGate ∨ gate.gateType = interruptGate) ∧
      inner ≤ m.cpl then
    let entered := if inner < m.cpl then p.enterStack m else m
    let pushed :=
      entered.pushAll (error.toList ++ [m.eip, m.cs.setWidth 32, m.eflags])
    some
      { pushed with
        cs := atLevel gate.selector inner
        eip := gate.offset
        eflags := gateFlags gate m.eflags }
  else none

/-- `int` needs the privilege that its gate asks for. -/
def interrupt (vector : BitVec 8) (m : Machine) (next : Word) : Option Machine :=
  if m.cpl ≤ (p.idt vector).dpl then p.deliver vector none (m.jump next)
  else p.deliver generalProtection (some (vector.setWidth 32 * 8 + 2)) m

/-- A data segment of the kernel does not survive the return to an outer level. -/
def outerSegment (privilege : BitVec 2) (selector : BitVec 16) : BitVec 16 :=
  if p.segmentLevel selector < privilege then 0 else selector

def outerSegments (privilege : BitVec 2) (extra : ExtraSegments) : ExtraSegments :=
  ⟨p.outerSegment privilege extra.es, p.outerSegment privilege extra.fs,
    p.outerSegment privilege extra.gs⟩

theorem outerSegments_idem (privilege : BitVec 2) (extra : ExtraSegments) :
    p.outerSegments privilege (p.outerSegments privilege extra) =
      p.outerSegments privilege extra := by
  have hidem : ∀ selector, p.outerSegment privilege (p.outerSegment privilege selector) =
      p.outerSegment privilege selector := by
    intro selector
    unfold outerSegment
    split
    · exact ite_self _
    · rfl
  simp only [outerSegments, hidem]

/-- `iret` inside the kernel. -/
def interruptReturn (m : Machine) : Option Machine :=
  let back : Machine := m.pop.pop.pop
  let code := m.pop.top.setWidth 16
  let returned : Machine := { back with eip := m.top, cs := code, eflags := m.pop.pop.top }
  if m.cpl ≠ 0 ∨ m.eflags.getLsbD nestedTask then none
  else if level code = 0 then some returned
  else
    some
      { returned with
        regs := { m.regs with esp := back.top }
        ss := back.pop.top.setWidth 16
        ds := p.outerSegment (level code) m.ds
        extra := p.outerSegments (level code) m.extra }

/-- One instruction; `next` is the address behind it. -/
def exec (m : Machine) (next : Word) : Instr → Option Machine
  | .pushl source => some ((m.push (m.regs.get source)).jump next)
  | .pushlImm word => some ((m.push word).jump next)
  | .popl target => some ((m.pop.setReg target m.top).jump next)
  | .pusha =>
      some ((m.pushAll [m.regs.edi, m.regs.esi, m.regs.ebp, m.regs.esp, m.regs.ebx, m.regs.edx,
        m.regs.ecx, m.regs.eax]).jump next)
  | .popa =>
      let word (i : ℕ) := wordAt m.ram (m.regs.esp + BitVec.ofNat 32 (4 * i))
      some
        { m with
          regs :=
            { edi := word 0, esi := word 1, ebp := word 2, esp := m.regs.esp + 32, ebx := word 4,
              edx := word 5, ecx := word 6, eax := word 7 }
          eip := next }
  | .pushfl => some ((m.push m.eflags).jump next)
  | .movl source target => some ((m.setReg target (m.regs.get source)).jump next)
  | .movlImm word target => some ((m.setReg target word).jump next)
  | .movlStack displacement target =>
      some ((m.setReg target (wordAt m.ram (m.regs.esp + BitVec.ofNat 32 displacement))).jump
        next)
  | .movwAx word =>
      some ((m.setReg .eax ((m.regs.eax &&& 0xFFFF0000) ||| word.setWidth 32)).jump next)
  | .movwDs => some { m with ds := m.regs.eax.setWidth 16, eip := next }
  | .orlImm word target =>
      let result := m.regs.get target ||| word
      some (((m.setReg target result).withFlags (orFlags m.eflags result)).jump next)
  | .addlImm word target =>
      some (((m.setReg target (m.regs.get target + word)).withFlags
        (addFlags m.eflags (m.regs.get target) word)).jump next)
  | .cmplImm word source =>
      some ((m.withFlags (compareFlags m.eflags (m.regs.get source) word)).jump next)
  | .jmp target => some (m.jump target)
  | .jl target => some (m.jump (if lessFlag m.eflags then target else next))
  | .jg target => some (m.jump (if greaterFlag m.eflags then target else next))
  | .call target => some ((m.push next).jump target)
  | .callTable table index =>
      some ((m.push next).jump (wordAt m.ram (table + 4 * m.regs.get index)))
  | .ret => some (m.pop.jump m.top)
  | .leave =>
      let framed := m.setReg .esp m.regs.ebp
      some ((framed.pop.setReg .ebp framed.top).jump next)
  | .int vector => p.interrupt vector m next
  | .iret => p.interruptReturn m
  | .cli =>
      if m.cpl = 0 then some ((m.withFlags (setFlag m.eflags interruptFlag false)).jump next)
      else none
  | .cld => some ((m.withFlags (setFlag m.eflags directionFlag false)).jump next)
  | .hlt => if m.cpl = 0 then some (m.jump next) else none

def step (m : Machine) : Option Machine :=
  (p.text m.eip).bind fun code => p.exec m code.2 code.1

/-- The instructions lie one after the other from `address` on. -/
def Placed (address : Word) : List Instr → Prop
  | [] => True
  | instr :: rest => ∃ next, p.text address = some (instr, next) ∧ Placed next rest

end Platform

end StackAssembly
