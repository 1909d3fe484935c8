import VirtualOS.StringAssembly
import Mathlib.Tactic

/-!
# Filling and copying memory

`memset` and `memcpy` go byte by byte up to a multiple of four, then by double
words, then by the bytes that are left.  The three loops are the same in both;
what they do with a byte and with a double word is a parameter of the proof.
-/

namespace VirtualOS

open StringAssembly

/-! ## The source -/

inductive TransferLabel where
  | top
  | aligned
  | bottom
  | done
  deriving DecidableEq

/-- The loop over the bytes that are left. -/
def bottomCode (move : List PlainOp) : List (Instr TransferLabel) :=
  .op (.testl (.reg .edx) .edx) :: .jz .done ::
    (move.map .op ++ [.op (.subl 1 .edx), .jmp .bottom, .label .done])

/-- The double words. -/
def alignedCode (move : List PlainOp) (string : StringOp) : List (Instr TransferLabel) :=
  .op (.movwFromDs .edx) :: .op (.movwToEs .edx) :: .op (.movl .ecx .edx) ::
    .op (.shrl 2 .ecx) :: .op (.andl 3 .edx) :: .op .cld :: .rep string :: .label .bottom ::
      bottomCode move

/-- The loop over the bytes in front of a multiple of four. -/
def topCode (move : List PlainOp) (string : StringOp) : List (Instr TransferLabel) :=
  .op (.testl (.reg .ecx) .ecx) :: .jz .done ::
    .op (.testl (.imm 3) .edi) :: .jz .aligned ::
      (move.map .op ++
        .op (.subl 1 .ecx) :: .jmp .top :: .label .aligned :: alignedCode move string)

/-- The assembly of `memset` and `memcpy`, which differ in what they do with a byte and
with a double word. -/
def transferCode (move : List PlainOp) (string : StringOp) : List (Instr TransferLabel) :=
  .label .top :: topCode move string

def memsetMove : List PlainOp := [.storeByte .edi, .addl 1 .edi]

def memcpyMove : List PlainOp :=
  [.loadByte .esi, .storeByte .edi, .addl 1 .edi, .addl 1 .esi]

/-- `memset`, on a processor in the state `cpu`: memory and the value returned. -/
def memset (cpu : State) (s c n : BitVec 32) (fuel : ℕ) : Option (Ram × BitVec 32) :=
  let c := c &&& 0xFF
  (exec (transferCode memsetMove .stosl) fuel (transferCode memsetMove .stosl)
    { cpu with eax := c <<< 24 ||| c <<< 16 ||| c <<< 8 ||| c, edi := s, ecx := n }).map
      fun final => (final.ram, s)

/-- `memcpy`, likewise. -/
def memcpy (cpu : State) (dest src n : BitVec 32) (fuel : ℕ) : Option (Ram × BitVec 32) :=
  (exec (transferCode memcpyMove .movsl) fuel (transferCode memcpyMove .movsl)
    { cpu with esi := src, edi := dest, ecx := n }).map fun final => (final.ram, dest)

example : transferCode memcpyMove .movsl =
    [.label .top,
      .op (.testl (.reg .ecx) .ecx), .jz .done,
      .op (.testl (.imm 3) .edi), .jz .aligned,
      .op (.loadByte .esi), .op (.storeByte .edi), .op (.addl 1 .edi), .op (.addl 1 .esi),
      .op (.subl 1 .ecx), .jmp .top,
      .label .aligned,
      .op (.movwFromDs .edx), .op (.movwToEs .edx), .op (.movl .ecx .edx), .op (.shrl 2 .ecx),
      .op (.andl 3 .edx), .op .cld, .rep .movsl,
      .label .bottom,
      .op (.testl (.reg .edx) .edx), .jz .done,
      .op (.loadByte .esi), .op (.storeByte .edi), .op (.addl 1 .edi), .op (.addl 1 .esi),
      .op (.subl 1 .edx), .jmp .bottom,
      .label .done] := rfl

/-! ## The three loops -/

/-- What the loops need of a transfer of `total` bytes, where `Done k` says that `k` of
them have been transferred. -/
structure Transfers (move : List PlainOp) (string : StringOp) (total : ℕ)
    (Done : ℕ → State → Prop) : Prop where
  frame : ∀ {k s after}, Done k s → after.eax = s.eax → after.esi = s.esi →
    after.edi = s.edi → after.ram = s.ram → Done k after
  byte : ∀ {k s}, k < total → Done k s → Done (k + 1) (move.foldl PlainOp.exec s)
  counters : ∀ s, (move.foldl PlainOp.exec s).ecx = s.ecx ∧
    (move.foldl PlainOp.exec s).edx = s.edx
  word : ∀ {k s}, k + 4 ≤ total → Done k s → s.edi.toNat % 4 = 0 → s.es = s.ds →
    s.df = false → ∃ ram esi, string.exec s =
      some { s with ram := ram, esi := esi, edi := s.edi + 4 } ∧
        Done (k + 4) { s with ram := ram, esi := esi, edi := s.edi + 4 }

section Loops

variable {move : List PlainOp} {string : StringOp} {total k : ℕ} {Done : ℕ → State → Prop}
  {s : State}

theorem codeFrom_top :
    codeFrom .top (transferCode move string) = some (topCode move string) := rfl

theorem codeFrom_bottom :
    codeFrom .bottom (transferCode move string) = some (bottomCode move) := by
  simp [transferCode, topCode, alignedCode, codeFrom, codeFrom_ops]

theorem codeFrom_aligned :
    codeFrom .aligned (transferCode move string) = some (alignedCode move string) := by
  simp [transferCode, topCode, codeFrom, codeFrom_ops]

theorem codeFrom_done : codeFrom .done (transferCode move string) = some [] := by
  simp [transferCode, topCode, alignedCode, bottomCode, codeFrom, codeFrom_ops]

theorem toNat_sub_one {count : BitVec 32} (hcount : count ≠ 0) :
    (count - 1).toNat + 1 = count.toNat := by
  have hpos : count.toNat ≠ 0 := fun h => hcount (BitVec.eq_of_toNat_eq h)
  have hlt := count.isLt
  have hone : (1 : BitVec 32).toNat = 1 := rfl
  rw [BitVec.toNat_sub, hone]
  omega

theorem and_self_eq_zero {count : BitVec 32} : count &&& count = 0 ↔ count = 0 := by
  rw [BitVec.and_self]

/-- A counter that has come to zero ends the transfer. -/
theorem counted_halts {program : List (Instr TransferLabel)} {counter : Reg}
    (htransfers : Transfers move string total Done) (hdone : Done k s)
    (hcount : k + (s.get counter).toNat = total) (hzero : s.get counter &&& s.get counter = 0) :
    Halts program [] { s with zf := true } (Done total) := by
  rw [and_self_eq_zero.mp hzero] at hcount
  obtain rfl : k = total := hcount
  exact .done (htransfers.frame hdone rfl rfl rfl rfl)

/-- A byte is moved and counted, whichever register counts. -/
theorem byte_counted {counter : Reg} (htransfers : Transfers move string total Done)
    (hcounter : counter = .ecx ∨ counter = .edx) (hdone : Done k s)
    (hcount : k + (s.get counter).toNat = total) (hnonzero : s.get counter &&& s.get counter ≠ 0)
    {after : State}
    (hafter : (PlainOp.subl 1 counter).exec (move.foldl PlainOp.exec { s with zf := false }) =
      after) :
    Done (k + 1) after ∧ k + 1 + (after.get counter).toNat = total ∧
      (after.get counter).toNat < (s.get counter).toNat := by
  have hpred := toNat_sub_one fun h => hnonzero (and_self_eq_zero.mpr h)
  have hbyte : Done (k + 1) (move.foldl PlainOp.exec { s with zf := false }) :=
    htransfers.byte (by omega) (htransfers.frame hdone rfl rfl rfl rfl)
  have hkept := htransfers.counters { s with zf := false }
  have hget : after.get counter = s.get counter - 1 := by
    rw [← hafter]
    rcases hcounter with rfl | rfl
    · exact congrArg (· - 1) hkept.1
    · exact congrArg (· - 1) hkept.2
  have hmoved : Done (k + 1) after := by
    rw [← hafter]
    rcases hcounter with rfl | rfl
    · exact htransfers.frame hbyte rfl rfl rfl rfl
    · exact htransfers.frame hbyte rfl rfl rfl rfl
  rw [hget]
  exact ⟨hmoved, by omega, by omega⟩

theorem bottom_halts (htransfers : Transfers move string total Done) (hdone : Done k s)
    (hcount : k + s.edx.toNat = total) :
    Halts (transferCode move string) (bottomCode move) s (Done total) := by
  refine Halts.loop (fun s => ∃ k, Done k s ∧ k + s.edx.toNat = total) (fun s => s.edx.toNat) ?_
    ⟨k, hdone, hcount⟩
  rintro s ⟨k, hdone, hcount⟩ hmore
  apply Halts.testl_jz codeFrom_done
  · exact counted_halts htransfers hdone hcount
  · intro hnonzero
    obtain ⟨hmoved, hleft, hless⟩ :=
      byte_counted htransfers (.inr rfl) hdone hcount hnonzero rfl
    apply Halts.ops
    apply Halts.op
    apply Halts.jmp codeFrom_bottom
    exact hmore _ ⟨k + 1, hmoved, hleft⟩ hless

theorem rep_halts (htransfers : Transfers move string total Done) (hdone : Done k s)
    (haligned : s.edi.toNat % 4 = 0) (hsegments : s.es = s.ds) (hforward : s.df = false)
    (hcount : k + 4 * s.ecx.toNat + s.edx.toNat = total) :
    Halts (transferCode move string) (.rep string :: .label .bottom :: bottomCode move) s
      (Done total) := by
  refine Halts.loop (fun s => ∃ k, Done k s ∧ s.edi.toNat % 4 = 0 ∧ s.es = s.ds ∧ s.df = false ∧
    k + 4 * s.ecx.toNat + s.edx.toNat = total) (fun s => s.ecx.toNat) ?_
      ⟨k, hdone, haligned, hsegments, hforward, hcount⟩
  rintro s ⟨k, hdone, haligned, hsegments, hforward, hcount⟩ hmore
  by_cases hzero : s.ecx = 0
  · rw [hzero] at hcount
    apply Halts.rep_zero hzero
    apply Halts.label
    exact bottom_halts htransfers hdone hcount
  · have hpred := toNat_sub_one hzero
    obtain ⟨ram, esi, hround, hword⟩ :=
      htransfers.word (by omega) hdone haligned hsegments hforward
    apply Halts.rep_succ hzero hround
    apply hmore
    · refine ⟨k + 4, htransfers.frame hword rfl rfl rfl rfl, ?_, hsegments, hforward, ?_⟩
      · change (s.edi + 4).toNat % 4 = 0
        have hfour : (4 : BitVec 32).toNat = 4 := rfl
        rw [BitVec.toNat_add, hfour]
        omega
      · change k + 4 + 4 * (s.ecx - 1).toNat + s.edx.toNat = total
        omega
    · change (s.ecx - 1).toNat < s.ecx.toNat
      omega

theorem selector_kept (word : BitVec 32) (selector : BitVec 16) :
    ((word &&& 0xFFFF0000) ||| selector.setWidth 32).setWidth 16 = selector := by
  apply BitVec.eq_of_getLsbD_eq
  intro i hi
  interval_cases i <;> simp

theorem and_three (word : BitVec 32) : (word &&& 3).toNat = word.toNat % 4 := by
  rw [BitVec.toNat_and]
  exact Nat.and_two_pow_sub_one_eq_mod word.toNat 2

theorem aligned_halts (htransfers : Transfers move string total Done) (hdone : Done k s)
    (haligned : s.edi.toNat % 4 = 0) (hcount : k + s.ecx.toNat = total) :
    Halts (transferCode move string) (alignedCode move string) s (Done total) := by
  iterate 6 apply Halts.op
  apply rep_halts (k := k) htransfers
  · exact htransfers.frame hdone rfl rfl rfl rfl
  · exact haligned
  · exact selector_kept s.edx s.ds
  · rfl
  · change k + 4 * (s.ecx >>> 2).toNat + (s.ecx &&& 3).toNat = total
    rw [and_three, BitVec.toNat_ushiftRight, Nat.shiftRight_eq_div_pow]
    omega

/-- The three loops transfer all bytes. -/
theorem transfer_halts (htransfers : Transfers move string total Done) (hdone : Done 0 s)
    (hcount : s.ecx.toNat = total) :
    Halts (transferCode move string) (transferCode move string) s (Done total) := by
  apply Halts.label
  refine Halts.loop (fun s => ∃ k, Done k s ∧ k + s.ecx.toNat = total) (fun s => s.ecx.toNat) ?_
    ⟨0, hdone, by omega⟩
  rintro s ⟨k, hdone, hcount⟩ hmore
  apply Halts.testl_jz codeFrom_done
  · exact counted_halts htransfers hdone hcount
  · intro hnonzero
    apply Halts.testl_jz codeFrom_aligned
    · intro haligned
      have hedi : s.edi.toNat % 4 = 0 := by
        have hmask : s.edi &&& 3 = 0 := (BitVec.and_comm _ _).trans haligned
        rw [← and_three, hmask]
        rfl
      exact aligned_halts htransfers (htransfers.frame hdone rfl rfl rfl rfl) hedi hcount
    · intro _
      obtain ⟨hmoved, hleft, hless⟩ :=
        byte_counted htransfers (.inl rfl) hdone hcount hnonzero rfl
      apply Halts.ops
      apply Halts.op
      apply Halts.jmp codeFrom_top
      exact hmore _ ⟨k + 1, hmoved, hleft⟩ hless

end Loops

/-! ## Filling and copying -/

section Instances

variable {before : Ram} {dest src c n : BitVec 32}

theorem room_of_aligned {address : BitVec 32} (haligned : address.toNat % 4 = 0) :
    address.toNat + 4 ≤ 2 ^ 32 := by
  have hlt := address.isLt
  omega

/-- The first `k` bytes are written, and the next one is due. -/
structure Written (before : Ram) (dest : BitVec 32) (value : ℕ → UInt8) (k : ℕ) (s : State) :
    Prop where
  ram_eq : s.ram = writeBytes before dest value k
  edi_eq : s.edi = dest + BitVec.ofNat 32 k

/-- The low byte of `c` four times. -/
theorem byteOf_pattern (c : BitVec 32) {i : ℕ} (hi : i < 4) :
    byteOf ((c &&& 0xFF) <<< 24 ||| (c &&& 0xFF) <<< 16 ||| (c &&& 0xFF) <<< 8 |||
      (c &&& 0xFF)) i = byteOf c 0 := by
  apply UInt8.toBitVec_inj.mp
  apply BitVec.eq_of_getLsbD_eq
  intro j hj
  interval_cases i <;> interval_cases j <;> simp [byteOf]

theorem memset_transfers (before : Ram) (dest c : BitVec 32) (total : ℕ) :
    Transfers memsetMove .stosl total fun k s =>
      Written before dest (fun _ => byteOf c 0) k s ∧ ∀ j < 4, byteOf s.eax j = byteOf c 0 := by
  constructor
  case frame =>
    rintro k s after ⟨⟨hram, hedi⟩, heax⟩ heax' - hedi' hram'
    rw [← hram'] at hram
    rw [← hedi'] at hedi
    rw [← heax'] at heax
    exact ⟨⟨hram, hedi⟩, heax⟩
  case byte =>
    rintro k s - ⟨⟨hram, hedi⟩, heax⟩
    refine ⟨⟨?_, ?_⟩, heax⟩
    · change Function.update s.ram s.edi (byteOf s.eax 0) = _
      rw [hram, hedi, heax 0 (by decide), writeBytes]
    · change s.edi + 1 = _
      rw [hedi]
      exact add_ofNat_add dest k 1
  case counters => exact fun s => ⟨rfl, rfl⟩
  case word =>
    rintro k s - ⟨⟨hram, hedi⟩, heax⟩ haligned hsegments hforward
    have hstore := store32_writeBytes before (fun _ => byteOf c 0) hedi
      (room_of_aligned haligned) heax
    refine ⟨_, s.esi, ?_, ⟨rfl, ?_⟩, heax⟩
    · rw [StringOp.exec, if_pos hsegments, hram, hstore, Option.map_some, State.next, hforward]
      rfl
    · change s.edi + 4 = _
      rw [hedi]
      exact add_ofNat_add dest k 4

/-- The bytes of the source are not among those that have been written. -/
theorem source_kept {k i : ℕ} (value : ℕ → UInt8)
    (hdisjoint : ∀ i < n.toNat, ∀ j < n.toNat,
      src + BitVec.ofNat 32 i ≠ dest + BitVec.ofNat 32 j)
    (hk : k ≤ n.toNat) (hi : i < n.toNat) :
    writeBytes before dest value k (src + BitVec.ofNat 32 i) = before (src + BitVec.ofNat 32 i) :=
  writeBytes_of_ne fun j hj => hdisjoint i hi j (hj.trans_le hk)

theorem memcpy_transfers (before : Ram) (hsrc : src.toNat + n.toNat ≤ 2 ^ 32)
    (hdisjoint : ∀ i < n.toNat, ∀ j < n.toNat,
      src + BitVec.ofNat 32 i ≠ dest + BitVec.ofNat 32 j) :
    Transfers memcpyMove .movsl n.toNat fun k s =>
      Written before dest (fun i => before (src + BitVec.ofNat 32 i)) k s ∧
        s.esi = src + BitVec.ofNat 32 k := by
  constructor
  case frame =>
    rintro k s after ⟨⟨hram, hedi⟩, hesi⟩ - hesi' hedi' hram'
    rw [← hram'] at hram
    rw [← hedi'] at hedi
    rw [← hesi'] at hesi
    exact ⟨⟨hram, hedi⟩, hesi⟩
  case byte =>
    rintro k s hk ⟨⟨hram, hedi⟩, hesi⟩
    refine ⟨⟨?_, ?_⟩, ?_⟩
    · change Function.update s.ram s.edi
        (byteOf ((s.eax &&& 0xFFFFFF00) ||| (s.ram s.esi).toBitVec.setWidth 32) 0) = _
      rw [byteOf_low, hram, hedi, hesi, source_kept _ hdisjoint hk.le hk, writeBytes]
    · change s.edi + 1 = _
      rw [hedi]
      exact add_ofNat_add dest k 1
    · change s.esi + 1 = _
      rw [hesi]
      exact add_ofNat_add src k 1
  case counters => exact fun s => ⟨rfl, rfl⟩
  case word =>
    rintro k s hk ⟨⟨hram, hedi⟩, hesi⟩ haligned hsegments hforward
    have hroom : s.esi.toNat + 4 ≤ 2 ^ 32 := by
      rw [hesi, BitVec.toNat_add, BitVec.toNat_ofNat]
      omega
    obtain ⟨word, hload, hbytes⟩ := load32_eq s.ram hroom
    have hword : ∀ j < 4, byteOf word j = before (src + BitVec.ofNat 32 (k + j)) := by
      intro j hj
      rw [hbytes j hj, hram, hesi, add_ofNat_add, source_kept _ hdisjoint (by omega) (by omega)]
    have hstore := store32_writeBytes before (fun i => before (src + BitVec.ofNat 32 i)) hedi
      (room_of_aligned haligned) hword
    refine ⟨_, s.esi + 4, ?_, ⟨rfl, ?_⟩, ?_⟩
    · rw [StringOp.exec, if_pos hsegments, hload, Option.bind_some, hram, hstore,
        Option.map_some, State.next, State.next, hforward]
      rfl
    · change s.edi + 4 = _
      rw [hedi]
      exact add_ofNat_add dest k 4
    · change s.esi + 4 = _
      rw [hesi]
      exact add_ofNat_add src k 4

end Instances

/-! ## The bytes that are written -/

/-- `count` bytes from `dest` on have the given values, and no other byte has changed. -/
structure BytesWritten (before after : Ram) (dest : BitVec 32) (count : ℕ) (value : ℕ → UInt8) :
    Prop where
  written : ∀ i < count, after (dest + BitVec.ofNat 32 i) = value i
  outside : ∀ address, (∀ i < count, address ≠ dest + BitVec.ofNat 32 i) →
    after address = before address

theorem bytesWritten_writeBytes (before : Ram) (dest n : BitVec 32) (value : ℕ → UInt8) :
    BytesWritten before (writeBytes before dest value n.toNat) dest n.toNat value where
  written := fun _ hi => writeBytes_get hi n.isLt.le
  outside := fun _ hne => writeBytes_of_ne hne

theorem written_zero {before : Ram} {dest : BitVec 32} {value : ℕ → UInt8} {s : State}
    (hram : s.ram = before) (hedi : s.edi = dest) : Written before dest value 0 s := by
  constructor
  · exact hram
  · rw [hedi]
    exact (BitVec.add_zero dest).symm

theorem memset_halts (cpu : State) (dest c n : BitVec 32) :
    ∃ bound, ∀ fuel ≥ bound, memset cpu dest c n fuel =
      some (writeBytes cpu.ram dest (fun _ => byteOf c 0) n.toNat, dest) := by
  have hhalts : Halts (transferCode memsetMove .stosl) (transferCode memsetMove .stosl)
      { cpu with
        eax := (c &&& 0xFF) <<< 24 ||| (c &&& 0xFF) <<< 16 ||| (c &&& 0xFF) <<< 8 ||| (c &&& 0xFF)
        edi := dest
        ecx := n } _ :=
    transfer_halts (memset_transfers cpu.ram dest c n.toNat)
      ⟨written_zero rfl rfl, fun _ => byteOf_pattern c⟩ rfl
  obtain ⟨bound, hbound⟩ := hhalts
  refine ⟨bound, fun fuel hfuel => ?_⟩
  obtain ⟨final, hexec, hwritten, -⟩ := hbound fuel hfuel
  rw [memset, hexec, Option.map_some, hwritten.ram_eq]

theorem memcpy_halts (cpu : State) {dest src n : BitVec 32}
    (hsrc : src.toNat + n.toNat ≤ 2 ^ 32)
    (hdisjoint : ∀ i < n.toNat, ∀ j < n.toNat,
      src + BitVec.ofNat 32 i ≠ dest + BitVec.ofNat 32 j) :
    ∃ bound, ∀ fuel ≥ bound, memcpy cpu dest src n fuel =
      some (writeBytes cpu.ram dest (fun i => cpu.ram (src + BitVec.ofNat 32 i)) n.toNat,
        dest) := by
  have hhalts : Halts (transferCode memcpyMove .movsl) (transferCode memcpyMove .movsl)
      { cpu with esi := src, edi := dest, ecx := n } _ :=
    transfer_halts (memcpy_transfers cpu.ram hsrc hdisjoint)
      ⟨written_zero rfl rfl, (BitVec.add_zero src).symm⟩ rfl
  obtain ⟨bound, hbound⟩ := hhalts
  refine ⟨bound, fun fuel hfuel => ?_⟩
  obtain ⟨final, hexec, hwritten, -⟩ := hbound fuel hfuel
  rw [memcpy, hexec, Option.map_some, hwritten.ram_eq]

/-- `memset` and `memcpy` write what they would write byte by byte.  Only the source of
`memcpy` has to end within the address space. -/
theorem transfers_bytewise (cpu : State) (dest n : BitVec 32) :
    (∀ c, ∃ after bound,
      (∀ fuel ≥ bound, memset cpu dest c n fuel = some (after, dest)) ∧
        BytesWritten cpu.ram after dest n.toNat fun _ => byteOf c 0) ∧
    ∀ src, src.toNat + n.toNat ≤ 2 ^ 32 →
      (∀ i < n.toNat, ∀ j < n.toNat,
        src + BitVec.ofNat 32 i ≠ dest + BitVec.ofNat 32 j) →
      ∃ after bound,
        (∀ fuel ≥ bound, memcpy cpu dest src n fuel = some (after, dest)) ∧
          BytesWritten cpu.ram after dest n.toNat fun i => cpu.ram (src + BitVec.ofNat 32 i) := by
  constructor
  · intro c
    obtain ⟨bound, hmemset⟩ := memset_halts cpu dest c n
    exact ⟨_, bound, hmemset, bytesWritten_writeBytes _ _ _ _⟩
  · intro src hsrc hdisjoint
    obtain ⟨bound, hmemcpy⟩ := memcpy_halts cpu hsrc hdisjoint
    exact ⟨_, bound, hmemcpy, bytesWritten_writeBytes _ _ _ _⟩

/-- A processor whose memory holds the low byte of every address. -/
def countingCpu : State where
  eax := 0
  ecx := 0
  edx := 0
  esi := 0
  edi := 0
  ds := 0x18
  es := 0
  zf := false
  df := true
  ram := fun address => UInt8.ofBitVec (address.setWidth 8)

theorem transfers_bytewise_unaligned :
    ∃ after bound,
      (∀ fuel ≥ bound, memcpy countingCpu 0x202 0x101 7 fuel = some (after, 0x202)) ∧
        BytesWritten countingCpu.ram after 0x202 7 fun i =>
          countingCpu.ram (0x101 + BitVec.ofNat 32 i) :=
  (transfers_bytewise countingCpu 0x202 7).2 0x101 (by decide) (by decide)

end VirtualOS
