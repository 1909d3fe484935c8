import VirtualOS.KeyBufferBounds
import Mathlib.Tactic

/-!
# The counter of complete lines

`buf_flag` counts the newlines that wait in a keyboard buffer: Enter adds one and
a read removes one.  The agreement is lost when a backspace takes a newline out
of the buffer and when a read stops before the end of its line.  In all other
runs the counter is the number of waiting newlines, and a reader waits exactly
while there is none.
-/

namespace VirtualOS

open PartialRuns

/-- The waiting bytes are in their bounds and the counter is the number of
newlines among them. -/
structure Console.Counted (console : Console) : Prop where
  bounded : console.Bounded
  flag_eq : console.bufFlag = BitVec.ofNat 8 (console.pending.count newline)

/-- A tab has room, a backspace does not take the end of a line, and a read
reaches the end of its line. -/
def ConsoleOp.KeepsLines (console : Console) : ConsoleOp → Prop
  | .tab => console.numBuf + 4 ≤ 128
  | .erase => console.pending.getLast? ≠ some newline
  | .read nbytes => newline ∈ console.pending.take nbytes
  | _ => True

instance (console : Console) : (op : ConsoleOp) → Decidable (op.KeepsLines console)
  | .tab => inferInstanceAs (Decidable (console.numBuf + 4 ≤ 128))
  | .erase => inferInstanceAs (Decidable (console.pending.getLast? ≠ some newline))
  | .read nbytes => inferInstanceAs (Decidable (newline ∈ console.pending.take nbytes))
  | .put _ => isTrue trivial
  | .clear => isTrue trivial
  | .type _ => isTrue trivial
  | .enter => isTrue trivial
  | .reset => isTrue trivial

/-- A character key is not the end of a line. -/
def ConsoleOp.Plain : ConsoleOp → Prop
  | .type c => c ≠ newline
  | _ => True

/-! ## One operation -/

theorem ConsoleOp.KeepsLines.fits {console : Console} {op : ConsoleOp}
    (hkeeps : op.KeepsLines console) : op.Fits console := by
  cases op with
  | tab => exact hkeeps
  | read nbytes => exact .inr (List.mem_of_mem_take hkeeps)
  | _ => trivial

theorem count_dropLast {bytes : List UInt8} (hlast : bytes.getLast? ≠ some newline) :
    bytes.dropLast.count newline = bytes.count newline := by
  rcases List.eq_nil_or_concat bytes with rfl | ⟨front, last, rfl⟩
  · rfl
  · have hne : last ≠ newline := by
      rintro rfl
      exact hlast (by simp)
    simp [hne]

theorem Console.Counted.step {console next : Console} {op : ConsoleOp}
    (hcounted : console.Counted) (hkeeps : op.KeepsLines console) (hplain : op.Plain)
    (hstep : consoleStep console op = some next) : next.Counted := by
  obtain ⟨hbounded, hflag⟩ := hcounted
  obtain ⟨hbounded', hqueue⟩ := consoleStep_queue hbounded hkeeps.fits hstep
  have hpending : next.pending = (queueStep console.queue op).bytes :=
    congrArg KeyQueue.bytes hqueue
  have hflag' : next.bufFlag = (queueStep console.queue op).bufFlag :=
    congrArg KeyQueue.bufFlag hqueue
  refine ⟨hbounded', ?_⟩
  rw [hpending, hflag']
  cases op with
  | put c => exact hflag
  | clear => exact hflag
  | type c =>
      rw [queueStep]
      split
      · exact hflag
      · have hne : c ≠ newline := hplain
        simpa [Console.queue, List.count_singleton, hne] using hflag
  | tab =>
      have hblank : (List.replicate 4 space).count newline = 0 := by decide
      rw [queueStep, List.count_append, hblank, Nat.add_zero]
      exact hflag
  | erase => simpa [queueStep, Console.queue, count_dropLast hkeeps] using hflag
  | enter =>
      rw [queueStep]
      split
      · exact hflag
      · simp [Console.queue, hflag, BitVec.ofNat_add]
  | reset => rfl
  | read nbytes =>
      have hstarts := takeLine_isPrefix nbytes console.pending
      have hcount : console.pending.count newline =
          1 + (console.pending.drop (takeLine nbytes console.pending).length).count newline := by
        obtain ⟨rest, hrest⟩ := hstarts
        rw [← count_takeLine hkeeps]
        nth_rewrite 1 [← hrest]
        nth_rewrite 4 [← hrest]
        rw [List.drop_left, List.count_append]
      simp only [queueStep, Console.queue]
      rw [hflag, hcount, BitVec.ofNat_add, BitVec.add_comm]
      exact BitVec.add_sub_cancel _ _

/-- A character key never stands for a newline: this one has a case of its own. -/
theorem keyOf_ne_newline {s : Kernel} {scancode : ℕ} (hbelow : scancode < 0x60)
    (henter : scancode ≠ 0x1C) : keyOf (activeMap s) scancode ≠ newline := by
  have hmaps : ∀ map ∈ [keyboardCapslock, keyboardShift, keyboardCapsshift, keyboardOriginal],
      ∀ code < 0x60, code ≠ 0x1C → keyOf map code ≠ newline := by decide +kernel
  apply hmaps _ _ scancode hbelow henter
  unfold activeMap
  split_ifs <;> simp

theorem plain_of_mem_switchOps {s : Kernel} {newTerminal : Fin 3} {cop : ConsoleOp}
    (hmem : cop ∈ switchOps s newTerminal) : cop.Plain := by
  unfold switchOps slotMessage at hmem
  split_ifs at hmem
  · rcases List.mem_cons.mp hmem with rfl | hmem
    · trivial
    · obtain ⟨c, _, rfl⟩ := List.mem_map.mp hmem
      trivial
  · rw [List.mem_singleton.mp hmem]
    trivial
  · exact absurd hmem List.not_mem_nil

theorem plain_of_mem_altOps {s : Kernel} {newTerminal : Fin 3} {cop : ConsoleOp}
    (hmem : cop ∈ (altOps s newTerminal).2) : cop.Plain := by
  unfold altOps at hmem
  dsimp only at hmem
  split_ifs at hmem
  · exact plain_of_mem_switchOps hmem
  · exact absurd hmem List.not_mem_nil

theorem plain_of_mem_keyOps {s : Kernel} {scancode : ℕ} {cop : ConsoleOp}
    (hmem : cop ∈ (keyOps s scancode).2) : cop.Plain := by
  unfold keyOps at hmem
  split at hmem
  case h_10 | h_11 | h_12 => exact plain_of_mem_altOps hmem
  case h_16 henter =>
    unfold printedKeys at hmem
    split_ifs at hmem with hbeyond
    · exact absurd hmem List.not_mem_nil
    · rw [List.mem_singleton.mp hmem]
      trivial
    · rw [List.mem_singleton.mp hmem]
      exact keyOf_ne_newline (not_le.mp hbeyond) henter
    · exact absurd hmem List.not_mem_nil
  all_goals simp_all [ConsoleOp.Plain]

theorem addressed_plain (s : Kernel) (op : ScreenOp) :
    OnConsole (fun _ cop => cop.Plain) s op := by
  apply meets_of_forall_mem
  intro cop hmem
  cases op with
  | putc c =>
      rw [List.mem_singleton.mp hmem]
      trivial
  | write buf nbytes =>
      obtain ⟨c, _, rfl⟩ := List.mem_map.mp hmem
      trivial
  | clear =>
      rw [List.mem_singleton.mp hmem]
      trivial
  | read nbytes =>
      rw [List.mem_singleton.mp hmem]
      trivial
  | keyboard scancode cpu frame => exact plain_of_mem_keyOps hmem
  | pit cpu => exact absurd hmem List.not_mem_nil
  | switchTerminal newTerminal cpu frame => exact plain_of_mem_switchOps hmem

/-! ## Runs -/

/-- There are never 256 newlines, so the counter is zero only without a line. -/
theorem Console.Counted.flag_eq_zero_iff {console : Console} (hcounted : console.Counted) :
    console.bufFlag = 0 ↔ newline ∉ console.pending := by
  have hle : console.pending.count newline ≤ 128 := by
    have hcount := console.pending.count_le_length (a := newline)
    rw [console.length_pending] at hcount
    have hmax := hcounted.bounded.2
    omega
  rw [hcounted.flag_eq, ← List.count_eq_zero, BitVec.ofNat_eq_ofNat, BitVec.toNat_eq]
  simp
  omega

/-- In every run in which no tab lacks room, no backspace takes a newline and no
read stops before the end of its line, the counter of every terminal is the
number of newlines that wait, and it is zero exactly when no line does. -/
theorem lineCount_of_run {img : Image} {link : Link} {s final : Kernel} {ops : List ScreenOp}
    (hstart : ∀ t, (s.consoles t).Counted)
    (hmeets : Meets (screenStep img link)
      (OnConsole fun console op => op.KeepsLines console) s ops)
    (hrun : run (screenStep img link) s ops = some final) (t : Fin 3) :
    (final.terminalT t).bufFlag =
        BitVec.ofNat 8 ((final.consoles t).pending.count newline) ∧
      ((final.terminalT t).bufFlag = 0 ↔ newline ∉ (final.consoles t).pending) := by
  have hfinal : ∀ t, (final.consoles t).Counted := by
    apply run_invariant_of_meets (fun s => ∀ t, (s.consoles t).Counted) _ hstart hmeets hrun
    intro s op next hinv hguard hstep
    apply screenStep_invariant Console.Counted _ hinv (hguard.and (addressed_plain s op)) hstep
    intro console cop next hcounted hcop hcstep
    exact hcounted.step hcop.1 hcop.2 hcstep
  exact ⟨(hfinal t).flag_eq, (hfinal t).flag_eq_zero_iff⟩

theorem shellKernel_counted (t : Fin 3) : (shellKernel.consoles t).Counted := by
  fin_cases t <;> exact ⟨⟨by decide, by decide⟩, by decide⟩

theorem lineCount_of_lineRun : ∃ final,
    run (screenStep smallImage zeroLink) shellKernel
      [key 0x1E, key 0x0F, key 0x0E, key 0x1C, key 0x30, .read 128] = some final ∧
      (final.terminalT 0).bufFlag =
        BitVec.ofNat 8 ((final.consoles 0).pending.count newline) := by
  have hsome : (run (screenStep smallImage zeroLink) shellKernel
      [key 0x1E, key 0x0F, key 0x0E, key 0x1C, key 0x30, .read 128]).isSome := by
    decide +kernel
  obtain ⟨final, hrun⟩ := Option.isSome_iff_exists.mp hsome
  exact ⟨final, hrun, (lineCount_of_run shellKernel_counted (by decide +kernel) hrun 0).1⟩

/-- After a backspace over the end of a line the counter is one without a line;
after a read of one byte it is zero with one. -/
theorem lineCount_drifts :
    (run (screenStep smallImage zeroLink) shellKernel [key 0x1E, key 0x1C, key 0x0E]).map
      (fun s => ((s.terminalT 0).bufFlag, (s.consoles 0).pending)) = some (1, [0x61]) ∧
    (run (screenStep smallImage zeroLink) shellKernel
      [key 0x1E, key 0x30, key 0x1C, .read 1]).map
      (fun s => ((s.terminalT 0).bufFlag, (s.consoles 0).pending)) =
        some (0, [0x62, newline]) := by
  constructor <;> decide +kernel

end VirtualOS
