import Mathlib.Tactic

/-!
# Assembly with string instructions

The part of a 32-bit instruction set that loops over memory are written in: tests
and jumps to labels, arithmetic on registers, single bytes, and the repeated
string instructions on double words.  A program runs on the instructions that are
left; a jump continues behind its label.  The rules are those of total
correctness, so that no proof about a program speaks of fuel.
-/

namespace StringAssembly

/-! ## Memory -/

abbrev Ram := BitVec 32 → UInt8

/-- Memory with the bytes `value 0, value 1, …` stored one after the other. -/
def writeBytes (ram : Ram) (dest : BitVec 32) (value : ℕ → UInt8) : ℕ → Ram
  | 0 => ram
  | count + 1 =>
      Function.update (writeBytes ram dest value count) (dest + BitVec.ofNat 32 count)
        (value count)

/-- Byte `i` of a double word, the lowest one first. -/
def byteOf (word : BitVec 32) (i : ℕ) : UInt8 := UInt8.ofBitVec (word.extractLsb' (8 * i) 8)

def wordOf (bytes : ℕ → UInt8) : BitVec 32 :=
  (bytes 0).toBitVec.setWidth 32 ||| (bytes 1).toBitVec.setWidth 32 <<< 8 |||
    (bytes 2).toBitVec.setWidth 32 <<< 16 ||| (bytes 3).toBitVec.setWidth 32 <<< 24

/-- A double word does not reach beyond the end of the address space. -/
def load32 (ram : Ram) (address : BitVec 32) : Option (BitVec 32) :=
  if address.toNat + 4 ≤ 2 ^ 32 then
    some (wordOf fun i => ram (address + BitVec.ofNat 32 i))
  else none

def store32 (ram : Ram) (address word : BitVec 32) : Option Ram :=
  if address.toNat + 4 ≤ 2 ^ 32 then some (writeBytes ram address (byteOf word) 4) else none

section Bytes

variable {ram : Ram} {dest address word : BitVec 32} {value other : ℕ → UInt8} {count i : ℕ}

theorem add_ofNat_add (start : BitVec 32) (k j : ℕ) :
    start + BitVec.ofNat 32 k + BitVec.ofNat 32 j = start + BitVec.ofNat 32 (k + j) := by
  rw [BitVec.ofNat_add, BitVec.add_assoc]

theorem writeBytes_of_ne (hne : ∀ j < count, address ≠ dest + BitVec.ofNat 32 j) :
    writeBytes ram dest value count address = ram address := by
  induction count with
  | zero => rfl
  | succ count ih =>
      rw [writeBytes, Function.update_of_ne (hne count (Nat.lt_succ_self count))]
      exact ih fun j hj => hne j (Nat.lt_succ_of_lt hj)

theorem add_ofNat_ne {j : ℕ} (hj : j < i) (hi : i < 2 ^ 32) :
    dest + BitVec.ofNat 32 i ≠ dest + BitVec.ofNat 32 j := by
  intro heq
  have hsame := congrArg BitVec.toNat ((BitVec.add_right_inj dest).mp heq)
  rw [BitVec.toNat_ofNat, BitVec.toNat_ofNat, Nat.mod_eq_of_lt hi,
    Nat.mod_eq_of_lt (hj.trans hi)] at hsame
  omega

theorem writeBytes_get (hi : i < count) (hcount : count ≤ 2 ^ 32) :
    writeBytes ram dest value count (dest + BitVec.ofNat 32 i) = value i := by
  induction count with
  | zero => exact absurd hi (Nat.not_lt_zero i)
  | succ count ih =>
      rw [writeBytes]
      rcases Nat.lt_succ_iff_lt_or_eq.mp hi with hlt | rfl
      · rw [Function.update_of_ne (add_ofNat_ne hlt hcount).symm]
        exact ih hlt (Nat.le_of_succ_le hcount)
      · rw [Function.update_self]

theorem writeBytes_congr (heq : ∀ j < count, other j = value j) :
    writeBytes ram dest other count = writeBytes ram dest value count := by
  induction count with
  | zero => rfl
  | succ count ih =>
      rw [writeBytes, writeBytes, ih fun j hj => heq j (Nat.lt_succ_of_lt hj),
        heq count (Nat.lt_succ_self count)]

theorem writeBytes_add (ram : Ram) (dest : BitVec 32) (value : ℕ → UInt8) (m n : ℕ) :
    writeBytes (writeBytes ram dest value m) (dest + BitVec.ofNat 32 m)
      (fun j => value (m + j)) n = writeBytes ram dest value (m + n) := by
  induction n with
  | zero => rfl
  | succ n ih =>
      rw [writeBytes, ih, ← Nat.add_assoc, writeBytes, add_ofNat_add]

/-- A double word stored behind the bytes that were written. -/
theorem store32_writeBytes (ram : Ram) (value : ℕ → UInt8) {m : ℕ}
    (haddress : address = dest + BitVec.ofNat 32 m) (hroom : address.toNat + 4 ≤ 2 ^ 32)
    (hword : ∀ j < 4, byteOf word j = value (m + j)) :
    store32 (writeBytes ram dest value m) address word =
      some (writeBytes ram dest value (m + 4)) := by
  rw [store32, if_pos hroom, writeBytes_congr hword, haddress, writeBytes_add]

theorem byteOf_wordOf (bytes : ℕ → UInt8) (hi : i < 4) : byteOf (wordOf bytes) i = bytes i := by
  apply UInt8.toBitVec_inj.mp
  apply BitVec.eq_of_getLsbD_eq
  intro j hj
  interval_cases i <;> interval_cases j <;> simp [byteOf, wordOf]

/-- A byte put into the low part of a register. -/
theorem byteOf_low (word : BitVec 32) (b : UInt8) :
    byteOf ((word &&& 0xFFFFFF00) ||| b.toBitVec.setWidth 32) 0 = b := by
  apply UInt8.toBitVec_inj.mp
  apply BitVec.eq_of_getLsbD_eq
  intro j hj
  interval_cases j <;> simp [byteOf]

theorem load32_eq (ram : Ram) (hroom : address.toNat + 4 ≤ 2 ^ 32) :
    ∃ word, load32 ram address = some word ∧
      ∀ j < 4, byteOf word j = ram (address + BitVec.ofNat 32 j) :=
  ⟨_, if_pos hroom, fun _ hj => byteOf_wordOf _ hj⟩

end Bytes

/-! ## Instructions -/

inductive Reg where
  | eax
  | ecx
  | edx
  | esi
  | edi
  deriving DecidableEq

/-- The registers, the selectors of the data segments, the zero and the direction flag,
and memory. -/
structure State where
  eax : BitVec 32
  ecx : BitVec 32
  edx : BitVec 32
  esi : BitVec 32
  edi : BitVec 32
  ds : BitVec 16
  es : BitVec 16
  zf : Bool
  df : Bool
  ram : Ram

namespace State

def get (s : State) : Reg → BitVec 32
  | .eax => s.eax
  | .ecx => s.ecx
  | .edx => s.edx
  | .esi => s.esi
  | .edi => s.edi

def set (s : State) (value : BitVec 32) : Reg → State
  | .eax => { s with eax := value }
  | .ecx => { s with ecx := value }
  | .edx => { s with edx := value }
  | .esi => { s with esi := value }
  | .edi => { s with edi := value }

/-- The result of an arithmetic instruction, which sets the zero flag. -/
def result (s : State) (value : BitVec 32) (dst : Reg) : State :=
  { s.set value dst with zf := decide (value = 0) }

/-- The string instructions move an index register by the size of a double word. -/
def next (s : State) (index : BitVec 32) : BitVec 32 := if s.df then index - 4 else index + 4

end State

inductive Operand where
  | imm (value : BitVec 32)
  | reg (r : Reg)
  deriving DecidableEq

def Operand.value (s : State) : Operand → BitVec 32
  | .imm value => value
  | .reg r => s.get r

/-- The instructions that always go on to the next one; bytes go through `al`. -/
inductive PlainOp where
  | testl (src : Operand) (dst : Reg)
  | movl (src dst : Reg)
  | addl (value : BitVec 32) (dst : Reg)
  | subl (value : BitVec 32) (dst : Reg)
  | andl (value : BitVec 32) (dst : Reg)
  | shrl (count : ℕ) (dst : Reg)
  | loadByte (src : Reg)
  | storeByte (dst : Reg)
  | movwFromDs (dst : Reg)
  | movwToEs (src : Reg)
  | cld
  deriving DecidableEq

def PlainOp.exec (s : State) : PlainOp → State
  | .testl src dst => { s with zf := decide (src.value s &&& s.get dst = 0) }
  | .movl src dst => s.set (s.get src) dst
  | .addl value dst => s.result (s.get dst + value) dst
  | .subl value dst => s.result (s.get dst - value) dst
  | .andl value dst => s.result (s.get dst &&& value) dst
  | .shrl count dst => s.result (s.get dst >>> count) dst
  | .loadByte src =>
      { s with
        eax := (s.eax &&& 0xFFFFFF00) ||| (s.ram (s.get src)).toBitVec.setWidth 32 }
  | .storeByte dst => { s with ram := Function.update s.ram (s.get dst) (byteOf s.eax 0) }
  | .movwFromDs dst => s.set ((s.get dst &&& 0xFFFF0000) ||| s.ds.setWidth 32) dst
  | .movwToEs src => { s with es := (s.get src).setWidth 16 }
  | .cld => { s with df := false }

inductive StringOp where
  | stosl
  | movsl
  deriving DecidableEq

/-- One round of a string instruction; it is defined for equal segments only. -/
def StringOp.exec (s : State) : StringOp → Option State
  | .stosl =>
      if s.es = s.ds then
        (store32 s.ram s.edi s.eax).map fun ram => { s with ram := ram, edi := s.next s.edi }
      else none
  | .movsl =>
      if s.es = s.ds then
        (load32 s.ram s.esi).bind fun word =>
          (store32 s.ram s.edi word).map fun ram =>
            { s with ram := ram, esi := s.next s.esi, edi := s.next s.edi }
      else none

inductive Instr (Label : Type) where
  | label (l : Label)
  | op (o : PlainOp)
  | rep (o : StringOp)
  | jz (l : Label)
  | jmp (l : Label)
  deriving DecidableEq

variable {Label : Type} [DecidableEq Label]

/-- The instructions behind a label. -/
def codeFrom (l : Label) : List (Instr Label) → Option (List (Instr Label))
  | [] => none
  | i :: rest => if i = .label l then some rest else codeFrom l rest

/-- One step of a program whose instructions `i :: rest` are left. -/
def stepCode (program : List (Instr Label)) (s : State) (rest : List (Instr Label)) :
    Instr Label → Option (List (Instr Label) × State)
  | .label _ => some (rest, s)
  | .op o => some (rest, o.exec s)
  | .rep o =>
      if s.ecx = 0 then some (rest, s)
      else (o.exec s).map fun after => (.rep o :: rest, { after with ecx := after.ecx - 1 })
  | .jz l => if s.zf then (codeFrom l program).map fun code => (code, s) else some (rest, s)
  | .jmp l => (codeFrom l program).map fun code => (code, s)

def exec (program : List (Instr Label)) : ℕ → List (Instr Label) → State → Option State
  | 0, _, _ => none
  | _ + 1, [], s => some s
  | fuel + 1, i :: rest, s =>
      (stepCode program s rest i).bind fun after => exec program fuel after.1 after.2

/-! ## Rules -/

/-- The instructions that are left come to their end, in a state with the property. -/
def Halts (program code : List (Instr Label)) (s : State) (Q : State → Prop) : Prop :=
  ∃ bound, ∀ fuel ≥ bound, ∃ final, exec program fuel code s = some final ∧ Q final

section Rules

variable {program code rest : List (Instr Label)} {s after : State} {Q : State → Prop}
  {i : Instr Label} {l : Label}

theorem Halts.done (hQ : Q s) : Halts program [] s Q := by
  refine ⟨1, fun fuel hfuel => ⟨s, ?_, hQ⟩⟩
  obtain ⟨fuel, rfl⟩ : ∃ n, fuel = n + 1 := ⟨fuel - 1, by omega⟩
  rfl

theorem Halts.step (hstep : stepCode program s rest i = some (code, after))
    (hafter : Halts program code after Q) : Halts program (i :: rest) s Q := by
  obtain ⟨bound, hbound⟩ := hafter
  refine ⟨bound + 1, fun fuel hfuel => ?_⟩
  obtain ⟨fuel, rfl⟩ : ∃ n, fuel = n + 1 := ⟨fuel - 1, by omega⟩
  obtain ⟨final, hexec, hQ⟩ := hbound fuel (by omega)
  refine ⟨final, ?_, hQ⟩
  rw [exec, hstep]
  exact hexec

theorem Halts.label (hrest : Halts program rest s Q) : Halts program (.label l :: rest) s Q :=
  .step rfl hrest

theorem Halts.op {o : PlainOp} (hrest : Halts program rest (o.exec s) Q) :
    Halts program (.op o :: rest) s Q :=
  .step rfl hrest

theorem Halts.ops {ops : List PlainOp}
    (hrest : Halts program rest (ops.foldl PlainOp.exec s) Q) :
    Halts program (ops.map .op ++ rest) s Q := by
  induction ops generalizing s with
  | nil => exact hrest
  | cons o ops ih => exact .op (ih hrest)

theorem Halts.jmp (hcode : codeFrom l program = some code) (hjump : Halts program code s Q) :
    Halts program (.jmp l :: rest) s Q := by
  apply Halts.step _ hjump
  rw [stepCode, hcode]
  rfl

/-- A test and the jump that depends on it. -/
theorem Halts.testl_jz {src : Operand} {dst : Reg} (hcode : codeFrom l program = some code)
    (hzero : src.value s &&& s.get dst = 0 → Halts program code { s with zf := true } Q)
    (hnonzero : src.value s &&& s.get dst ≠ 0 → Halts program rest { s with zf := false } Q) :
    Halts program (.op (.testl src dst) :: .jz l :: rest) s Q := by
  apply Halts.op
  rw [PlainOp.exec]
  by_cases htest : src.value s &&& s.get dst = 0
  · rw [decide_eq_true htest]
    apply Halts.step _ (hzero htest)
    rw [stepCode, if_pos rfl, hcode]
    rfl
  · rw [decide_eq_false htest]
    apply Halts.step _ (hnonzero htest)
    rw [stepCode, if_neg Bool.false_ne_true]

theorem Halts.rep_zero {o : StringOp} (hcount : s.ecx = 0) (hrest : Halts program rest s Q) :
    Halts program (.rep o :: rest) s Q := by
  apply Halts.step _ hrest
  rw [stepCode, if_pos hcount]

theorem Halts.rep_succ {o : StringOp} (hcount : s.ecx ≠ 0) (hround : o.exec s = some after)
    (hmore : Halts program (.rep o :: rest) { after with ecx := after.ecx - 1 } Q) :
    Halts program (.rep o :: rest) s Q := by
  apply Halts.step _ hmore
  rw [stepCode, if_neg hcount, hround]
  rfl

/-- Code that comes back to its beginning with a smaller count, or goes through. -/
theorem Halts.loop (Inv : State → Prop) (count : State → ℕ)
    (hround : ∀ s, Inv s →
      (∀ after, Inv after → count after < count s → Halts program code after Q) →
        Halts program code s Q)
    (hinv : Inv s) : Halts program code s Q := by
  induction hn : count s using Nat.strong_induction_on generalizing s with
  | h n ih =>
      subst hn
      exact hround s hinv fun after hafter hless => ih (count after) hless hafter rfl

end Rules

/-! ## Labels -/

theorem codeFrom_ops (l : Label) (ops : List PlainOp) (rest : List (Instr Label)) :
    codeFrom l (ops.map .op ++ rest) = codeFrom l rest := by
  induction ops with
  | nil => rfl
  | cons o ops ih =>
      rw [List.map_cons, List.cons_append, codeFrom, if_neg (by simp), ih]

end StringAssembly
