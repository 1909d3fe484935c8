import VirtualOS.KeyBuffer
import Mathlib.Tactic

/-!
# The bounds of the keyboard buffers

Keys and reads move the counter of a keyboard buffer, and each of them uses it
or the bytes of the buffer as an index.  A tab does not ask whether its four
blanks fit, and a read subtracts what it has copied without asking whether so
much was waiting.  Apart from these two cases every index stays in the buffer,
in every run over all three terminals.
-/

namespace VirtualOS

open PartialRuns

/-! ## The indices that the code uses -/

/-- The rounds of the copying loop of `terminal_read` from index `i`. -/
def copyRounds (keyBuf : LineBuffer) : ℕ → ℕ → ℕ
  | 0, _ => 0
  | remaining + 1, i =>
      if LineBuffer.get keyBuf i = newline then 1
      else copyRounds keyBuf remaining (i + 1) + 1

/-- The indices of `terminal_read`: those of its copying loop, of the loop which
moves the bytes to the front, and of the loop which clears the end. -/
def readAccesses (byteRead : ℕ) : List ℤ :=
  (List.range byteRead).map (fun i : ℕ => (i : ℤ)) ++
    ((List.range (128 - byteRead)).flatMap fun j : ℕ => [(j : ℤ), (j : ℤ) + byteRead]) ++
    (List.range byteRead).map fun j : ℕ => 128 - ((j : ℤ) + 1)

/-- The counter lies right behind the buffer: a blank at index 128 becomes its low byte. -/
def indexAfterBlank (index : ℤ) : ℤ := if index = 128 then 32 else index + 1

/-- The indices at which an operation accesses `key_buf`. -/
def ConsoleOp.keyAccesses (console : Console) : ConsoleOp → List ℤ
  | .put _ => []
  | .clear => []
  | .type _ => if console.numBuf ≥ 127 then [] else [console.numBuf]
  | .tab => List.iterate indexAfterBlank console.numBuf 4
  | .erase => []
  | .enter => if console.numBuf = 128 then [] else [console.numBuf]
  | .reset => (List.range 128).map fun i : ℕ => (i : ℤ)
  | .read nbytes => readAccesses (copyRounds console.keyBuf nbytes 0)

def ConsoleOp.InBuffer (console : Console) (op : ConsoleOp) : Prop :=
  ∀ index ∈ op.keyAccesses console, 0 ≤ index ∧ index < 128

theorem copyRounds_eq {keyBuf : LineBuffer} {nbytes i : ℕ} {bytes : List UInt8}
    (hcopy : copyLine keyBuf nbytes i = some bytes) :
    copyRounds keyBuf nbytes i = bytes.length := by
  induction nbytes generalizing i bytes with
  | zero =>
      obtain rfl := Option.some.inj hcopy
      rfl
  | succ nbytes ih =>
      rw [copyLine] at hcopy
      split at hcopy
      case isTrue hi =>
        have hget : LineBuffer.get keyBuf i = keyBuf ⟨i, hi⟩ := dif_pos hi
        rw [copyRounds, hget]
        split at hcopy
        case isTrue hend =>
          obtain rfl := Option.some.inj hcopy
          rw [if_pos hend]
          rfl
        case isFalse hend =>
          obtain ⟨rest, hrest, rfl⟩ := Option.map_eq_some_iff.mp hcopy
          rw [if_neg hend, ih hrest, List.length_cons]
      case isFalse hi => contradiction

theorem mem_readAccesses {byteRead : ℕ} (hread : byteRead ≤ 128) {index : ℤ}
    (hmem : index ∈ readAccesses byteRead) : 0 ≤ index ∧ index < 128 := by
  simp only [readAccesses, List.mem_append, List.mem_map, List.mem_flatMap, List.mem_range,
    List.mem_cons, List.not_mem_nil, or_false] at hmem
  rcases hmem with (⟨i, hi, rfl⟩ | ⟨j, hj, rfl | rfl⟩) | ⟨j, hj, rfl⟩ <;> omega

theorem ConsoleOp.Fits.inBuffer {console : Console} {op : ConsoleOp}
    (hfits : op.Fits console) (hbounded : console.Bounded) : op.InBuffer console := by
  obtain ⟨hzero, hmax⟩ := hbounded
  intro index hmem
  cases op with
  | put c => exact absurd hmem List.not_mem_nil
  | clear => exact absurd hmem List.not_mem_nil
  | erase => exact absurd hmem List.not_mem_nil
  | type c =>
      rw [ConsoleOp.keyAccesses] at hmem
      split at hmem
      · exact absurd hmem List.not_mem_nil
      · rw [List.mem_singleton.mp hmem]
        omega
  | tab =>
      have hroom : console.numBuf + 4 ≤ 128 := hfits
      have hnext : ∀ index < 128, indexAfterBlank index = index + 1 :=
        fun index hindex => if_neg hindex.ne
      simp only [ConsoleOp.keyAccesses, List.iterate, hnext console.numBuf (by omega),
        hnext (console.numBuf + 1) (by omega), hnext (console.numBuf + 1 + 1) (by omega),
        List.mem_cons, List.not_mem_nil, or_false] at hmem
      omega
  | enter =>
      rw [ConsoleOp.keyAccesses] at hmem
      split at hmem
      · exact absurd hmem List.not_mem_nil
      · rw [List.mem_singleton.mp hmem]
        omega
  | reset =>
      obtain ⟨i, hi, rfl⟩ := List.mem_map.mp hmem
      rw [List.mem_range] at hi
      omega
  | read nbytes =>
      have hcopy := Console.copyLine_pending ⟨hzero, hmax⟩ hfits
      have hlength := (takeLine_isPrefix nbytes console.pending).length_le
      rw [Console.length_pending] at hlength
      apply mem_readAccesses _ hmem
      rw [copyRounds_eq hcopy]
      omega

/-! ## Runs -/

/-- In every run in which no tab lacks room and no read takes more than what
waits, all counters stay in their range and all indices in their buffer. -/
theorem keyBuf_bounded_of_run {img : Image} {link : Link} {s : Kernel} {ops : List ScreenOp}
    (hstart : ∀ t, 0 ≤ (s.terminalT t).numBuf ∧ (s.terminalT t).numBuf ≤ 128)
    (hmeets : Meets (screenStep img link)
      (OnConsole fun console op => op.Fits console) s ops) :
    (∀ final, run (screenStep img link) s ops = some final →
      ∀ t, 0 ≤ (final.terminalT t).numBuf ∧ (final.terminalT t).numBuf ≤ 128) ∧
    Meets (screenStep img link) (OnConsole fun console op => op.InBuffer console) s ops := by
  have hkeep : ∀ (s : Kernel) (op : ScreenOp) (next : Kernel),
      (∀ t, (s.consoles t).Bounded) → OnConsole (fun console op => op.Fits console) s op →
      screenStep img link s op = some next → ∀ t, (next.consoles t).Bounded :=
    fun s op next hinv hguard hstep => screenStep_invariant Console.Bounded
      (fun console cop next hbounded hfits hcop => (consoleStep_queue hbounded hfits hcop).1)
      hinv hguard hstep
  constructor
  · intro final hrun
    exact run_invariant_of_meets (fun s => ∀ t, (s.consoles t).Bounded) hkeep hstart hmeets hrun
  · apply hmeets.imp_of_invariant (fun s => ∀ t, (s.consoles t).Bounded) hkeep _ hstart
    intro s op hinv hguard
    exact Meets.imp_of_invariant Console.Bounded
      (fun console cop next hbounded hfits hcop => (consoleStep_queue hbounded hfits hcop).1)
      (fun console cop hbounded hfits => hfits.inBuffer hbounded) (hinv _) hguard

def key (scancode : ℕ) : ScreenOp := .keyboard scancode ⟨0, 0⟩ zeroFrame

theorem keyBuf_bounded_of_lineRun : ∃ final,
    run (screenStep smallImage zeroLink) shellKernel
      [key 0x1E, key 0x0F, key 0x0E, key 0x1C, .read 128] = some final ∧
      ∀ t, 0 ≤ (final.terminalT t).numBuf ∧ (final.terminalT t).numBuf ≤ 128 := by
  have hsome : (run (screenStep smallImage zeroLink) shellKernel
      [key 0x1E, key 0x0F, key 0x0E, key 0x1C, .read 128]).isSome := by
    decide +kernel
  obtain ⟨final, hrun⟩ := Option.isSome_iff_exists.mp hsome
  exact ⟨final, hrun, (keyBuf_bounded_of_run (by decide) (by decide +kernel)).1 final hrun⟩

/-- A line, a backspace over its end and a read leave the counter below zero, and
the thirty-third tab stores behind the buffer, into the counter itself. -/
theorem keyBuf_leaves_bounds :
    (run (screenStep smallImage zeroLink) shellKernel
      [key 0x1E, key 0x1C, key 0x0E, .read 128]).map (fun s => (s.terminalT 0).numBuf) =
        some (-1) ∧
    (run (screenStep smallImage zeroLink) shellKernel (List.replicate 32 (key 0x0F))).map
      (fun s => ConsoleOp.keyAccesses (s.consoles 0) .tab) = some [128, 32, 33, 34] := by
  constructor <;> decide +kernel

end VirtualOS
