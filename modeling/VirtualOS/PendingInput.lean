import VirtualOS.LineCounter
import Mathlib.Tactic

/-!
# Splitting the pending input

A read takes a piece from the front of the pending bytes, moves the others to
the front of the buffer and clears what lies behind them.  `terminal_read` does
this whenever a line is pending and it does not wait; it waits on the line
counter, which an earlier read may have left at zero with a line in the buffer.
-/

namespace VirtualOS

open PartialRuns

theorem length_takeLine {nbytes : ℕ} {bytes : List UInt8} (hline : newline ∈ bytes) :
    (takeLine nbytes bytes).length = min nbytes (bytes.idxOf newline + 1) := by
  induction nbytes, bytes using takeLine.induct with
  | case1 bytes => simp [takeLine]
  | case2 nbytes => simp at hline
  | case3 nbytes rest => simp [takeLine]
  | case4 nbytes c rest hne ih =>
      have hrest : newline ∈ rest := (List.mem_cons.mp hline).resolve_left (Ne.symm hne)
      rw [takeLine, if_neg hne, List.length_cons, ih hrest, List.idxOf_cons_ne _ hne]
      omega

theorem takeLine_eq_take {nbytes : ℕ} {bytes : List UInt8} (hline : newline ∈ bytes) :
    takeLine nbytes bytes = bytes.take (min nbytes (bytes.idxOf newline + 1)) := by
  rw [← length_takeLine hline]
  exact List.prefix_iff_eq_take.mp (takeLine_isPrefix nbytes bytes)

namespace Kernel

def pending (s : Kernel) : List UInt8 :=
  LineBuffer.slice s.running.keyBuf 0 s.running.numBuf.toNat

/-- What a read of `nbytes` bytes should do with the pending bytes: it returns
the first of them, up to the first newline, keeps the others, and clears the end
of the buffer. -/
structure SplitsPending (s : Kernel) (nbytes : ℕ) (next : Kernel) (bytes : List UInt8) :
    Prop where
  length_eq : bytes.length = min nbytes (s.pending.idxOf newline + 1)
  taken : bytes = s.pending.take bytes.length
  numBuf_eq : next.running.numBuf = s.running.numBuf - bytes.length
  numBuf_nonneg : 0 ≤ next.running.numBuf
  kept : bytes ++ next.pending = s.pending
  cleared : ∀ i, 128 - bytes.length ≤ i → i < 128 →
    LineBuffer.get next.running.keyBuf i = 0

end Kernel

theorem running_terminalRead {s next : Kernel} {nbytes : ℕ} {bytes : List UInt8}
    (hread : terminalRead s nbytes = some (next, bytes)) :
    s.running.bufFlag ≠ 0 ∧ copyLine s.running.keyBuf nbytes 0 = some bytes ∧
      next.running = { s.running with
        keyBuf := LineBuffer.dropBytes s.running.keyBuf bytes.length
        numBuf := s.running.numBuf - bytes.length
        bufFlag := s.running.bufFlag - 1 } := by
  unfold terminalRead at hread
  split at hread
  · contradiction
  case isFalse hflag =>
    obtain ⟨copied, hcopy, heq⟩ := Option.map_eq_some_iff.mp hread
    obtain ⟨rfl, rfl⟩ := Prod.mk.inj heq
    refine ⟨hflag, hcopy, ?_⟩
    simp [Kernel.running, Kernel.modifyTerminal]

theorem splitsPending_of_terminalRead {s next : Kernel} {nbytes : ℕ} {bytes : List UInt8}
    (hzero : 0 ≤ s.running.numBuf) (hmax : s.running.numBuf ≤ 128)
    (hline : newline ∈ s.pending) (hread : terminalRead s nbytes = some (next, bytes)) :
    s.SplitsPending nbytes next bytes := by
  obtain ⟨hflag, hcopy, hnext⟩ := running_terminalRead hread
  have hconsole : (s.running.console s.running.videoMemory).read nbytes =
      some (next.running.console s.running.videoMemory, bytes) := by
    have hcopy' : copyLine (s.running.console s.running.videoMemory).keyBuf nbytes 0 =
      some bytes := hcopy
    rw [Console.read, if_neg (by exact hflag), hcopy', hnext]
    rfl
  have hpending : newline ∈ (s.running.console s.running.videoMemory).pending := hline
  obtain ⟨hbytes, hkept, hnum, -, -⟩ :=
    Console.read_pending ⟨hzero, hmax⟩ (.inr hpending) hconsole
  have htaken : bytes = takeLine nbytes s.pending := hbytes
  have hprefix : bytes.length ≤ s.pending.length := by
    rw [htaken]
    exact (takeLine_isPrefix nbytes s.pending).length_le
  have hlength : s.pending.length = s.running.numBuf.toNat := by
    rw [Kernel.pending, LineBuffer.length_slice, Nat.sub_zero]
  refine ⟨?_, ?_, hnum, ?_, hkept.symm, ?_⟩
  · rw [htaken, length_takeLine hline]
  · nth_rewrite 1 [htaken]
    rw [takeLine_eq_take hline, ← length_takeLine hline, ← htaken]
  · have hnum' : next.running.numBuf = s.running.numBuf - bytes.length := hnum
    omega
  · intro i hlow hhigh
    rw [hnext, LineBuffer.get_dropBytes _ (by omega) hhigh, if_neg (by omega)]

/-- With a line pending, a read splits the pending bytes exactly when it does not
wait on the line counter. -/
theorem terminalRead_splits_iff {s : Kernel} (nbytes : ℕ) (hzero : 0 ≤ s.running.numBuf)
    (hmax : s.running.numBuf ≤ 128) (hline : newline ∈ s.pending) :
    (∃ next bytes, terminalRead s nbytes = some (next, bytes) ∧
      s.SplitsPending nbytes next bytes) ↔ s.running.bufFlag ≠ 0 := by
  constructor
  · rintro ⟨next, bytes, hread, -⟩
    exact (running_terminalRead hread).1
  · intro hflag
    have hbounded : (s.running.console s.running.videoMemory).Bounded := ⟨hzero, hmax⟩
    have hcopy : copyLine s.running.keyBuf nbytes 0 = some (takeLine nbytes s.pending) :=
      Console.copyLine_pending hbounded (.inr hline)
    have hread : ∃ result, terminalRead s nbytes = some result := by
      rw [terminalRead, if_neg hflag, hcopy]
      exact ⟨_, rfl⟩
    obtain ⟨⟨next, bytes⟩, hread⟩ := hread
    exact ⟨next, bytes, hread, splitsPending_of_terminalRead hzero hmax hline hread⟩

/-- The small system after the keys of a line. -/
def typedLine : Option Kernel :=
  run (screenStep smallImage zeroLink) shellKernel [key 0x1E, key 0x30, key 0x1C]

theorem terminalRead_splits_typedLine : ∃ s, typedLine = some s ∧
    ∃ next bytes, terminalRead s 128 = some (next, bytes) ∧
      s.SplitsPending 128 next bytes := by
  have hstate : typedLine.any (fun s => decide (0 ≤ s.running.numBuf) &&
      decide (s.running.numBuf ≤ 128) && decide (newline ∈ s.pending) &&
      decide (s.running.bufFlag ≠ 0)) = true := by
    decide +kernel
  obtain ⟨s, hs, hfacts⟩ := (Option.any_eq_true _ _).mp hstate
  simp only [Bool.and_eq_true, decide_eq_true_eq] at hfacts
  obtain ⟨⟨⟨hzero, hmax⟩, hline⟩, hflag⟩ := hfacts
  exact ⟨s, hs, (terminalRead_splits_iff 128 hzero hmax hline).mpr hflag⟩

/-- A read of one byte of a line leaves the counter at zero with the end of the
line in the buffer, and the next read waits. -/
theorem terminalRead_waits_on_line : ∃ s,
    run (screenStep smallImage zeroLink) shellKernel
      [key 0x1E, key 0x30, key 0x1C, .read 1] = some s ∧
    0 ≤ s.running.numBuf ∧ s.running.numBuf ≤ 128 ∧ newline ∈ s.pending ∧
    ¬ ∃ next bytes, terminalRead s 128 = some (next, bytes) ∧
      s.SplitsPending 128 next bytes := by
  have hstate : (run (screenStep smallImage zeroLink) shellKernel
      [key 0x1E, key 0x30, key 0x1C, .read 1]).any (fun s =>
        decide (0 ≤ s.running.numBuf) && decide (s.running.numBuf ≤ 128) &&
        decide (newline ∈ s.pending) && decide (s.running.bufFlag = 0)) = true := by
    decide +kernel
  obtain ⟨s, hs, hfacts⟩ := (Option.any_eq_true _ _).mp hstate
  simp only [Bool.and_eq_true, decide_eq_true_eq] at hfacts
  obtain ⟨⟨⟨hzero, hmax⟩, hline⟩, hflag⟩ := hfacts
  refine ⟨s, hs, hzero, hmax, hline, ?_⟩
  rintro ⟨next, bytes, hread, -⟩
  exact (running_terminalRead hread).1 hflag

end VirtualOS
