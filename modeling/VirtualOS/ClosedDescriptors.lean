import VirtualOS.ProcessInvariants
import Mathlib.Tactic

/-!
# Calls on descriptors that are not open

`read` and `close` refuse a descriptor whose flags are 0.  `write` does not look
at the flags: it calls whatever row the descriptor still points to.  Directories
and files refuse every write, so that the call is refused there as well; on a
closed clock it sets the rate, and on a descriptor that was never opened it
faults.
-/

namespace VirtualOS

open PartialRuns

def Kernel.NotOpen (s : Kernel) (fd : ℤ) : Prop :=
  ∀ index, fdIndex fd = some index → (s.fileDesc index).flags = 0

theorem notOpen_of_flags {s : Kernel} {fd : ℤ} {index : Fin 8} (hindex : fdIndex fd = some index)
    (hflags : (s.fileDesc index).flags = 0) : s.NotOpen fd := by
  intro other hother
  rw [hindex, Option.some.injEq] at hother
  rw [← hother, hflags]

/-- All three calls answer `-1` and leave the kernel as it is. -/
structure Kernel.Refuses (img : Image) (s : Kernel) (fd : ℤ) (buf : UserBuffer)
    (nbytes : ℤ) : Prop where
  read : read img s fd (some buf) nbytes = some (.returned (-1) [] s)
  write : write s fd (some buf) nbytes = some (.returned (-1) [] s)
  close : close s fd = .returned (-1) [] s

section Calls

variable {img : Image} {s : Kernel} {fd nbytes : ℤ} {buf : UserBuffer}

theorem read_notOpen (hclosed : s.NotOpen fd) :
    read img s fd (some buf) nbytes = some (.returned (-1) [] s) := by
  unfold read
  cases hindex : fdIndex fd with
  | none => rfl
  | some index => simp [hclosed index hindex]

theorem close_notOpen (hclosed : s.NotOpen fd) : close s fd = .returned (-1) [] s := by
  unfold close
  cases hindex : fdIndex fd with
  | none => rfl
  | some index => simp [hclosed index hindex]

theorem fdIndex_eq_none : fdIndex fd = none ↔ fd < 0 ∨ 8 ≤ fd := by
  unfold fdIndex
  split
  · simp
    omega
  · simp
    omega

theorem fopsWrite_refuses {count : ℕ} {fops : Option FileType} :
    fopsWrite s buf.memory count fops = some (.returned (-1) [] s) ↔
      fops = some .dir ∨ fops = some .file := by
  cases fops with
  | none => simp [fopsWrite]
  | some row =>
      cases row <;> simp [fopsWrite]

/-- `write` refuses outside the table, on standard input, and where the row of a
directory or of a file is left. -/
theorem write_refuses (hnbytes : 0 ≤ nbytes) :
    write s fd (some buf) nbytes = some (.returned (-1) [] s) ↔
      fd < 0 ∨ 8 ≤ fd ∨ fd = 0 ∨ ∃ index, fdIndex fd = some index ∧
        ((s.fileDesc index).fops = some .dir ∨ (s.fileDesc index).fops = some .file) := by
  have hsign : ¬ nbytes < 0 := not_lt.mpr hnbytes
  unfold write
  cases hindex : fdIndex fd with
  | none =>
      have hrange := fdIndex_eq_none.mp hindex
      simp only [true_iff]
      exact hrange.imp id .inl
  | some index =>
      have hrange : ¬ (fd < 0 ∨ 8 ≤ fd) := by
        intro hout
        rw [fdIndex_eq_none.mpr hout] at hindex
        contradiction
      rw [not_or] at hrange
      by_cases hzero : fd = 0
      · simp [hzero]
      · simp only [hsign, hzero, or_self, if_false, fopsWrite_refuses, hrange.1, hrange.2,
          Option.some.injEq, exists_eq_left', false_or]

/-- On a descriptor that is not open, the three calls are refused exactly when
`write` is: the row that the descriptor still holds decides. -/
theorem refuses_notOpen_iff (hclosed : s.NotOpen fd) (hnbytes : 0 ≤ nbytes) :
    s.Refuses img fd buf nbytes ↔
      fd < 0 ∨ 8 ≤ fd ∨ fd = 0 ∨ ∃ index, fdIndex fd = some index ∧
        ((s.fileDesc index).fops = some .dir ∨ (s.fileDesc index).fops = some .file) := by
  rw [← write_refuses hnbytes]
  constructor
  · exact Kernel.Refuses.write
  · intro hwrite
    exact ⟨read_notOpen hclosed, hwrite, close_notOpen hclosed⟩

end Calls

/-- The descriptor 2 of the first shell after it opened and closed an entry. -/
def closedAfter (name : String) : List Op :=
  [.openFile (some (ascii name)), .close 2 zeroFrame]

theorem refuses_closedAfter_frame : ∃ s,
    run (step smallImage zeroLink) shellKernel (closedAfter "frame0.txt") = some s ∧
      s.NotOpen 2 ∧ s.Refuses smallImage 2 zeroBuffer 4 := by
  have hsome : (run (step smallImage zeroLink) shellKernel (closedAfter "frame0.txt")).map
      (fun s => ((s.fileDesc 2).flags, (s.fileDesc 2).fops)) = some (0, some .file) := by
    decide +kernel
  obtain ⟨s, hrun, heq⟩ := Option.map_eq_some_iff.mp hsome
  obtain ⟨hflags, hfops⟩ := Prod.mk.inj heq
  have hindex : fdIndex 2 = some 2 := by decide
  have hclosed : s.NotOpen 2 := notOpen_of_flags hindex hflags
  exact ⟨s, hrun, hclosed, (refuses_notOpen_iff hclosed (by decide)).mpr
    (.inr (.inr (.inr ⟨2, hindex, .inr hfops⟩)))⟩

def rate1024 : UserBuffer := ⟨0x8001000, fun k => if k = 1 then 4 else 0⟩

/-- A `write` to a closed clock answers `0` and sets the rate. -/
theorem write_closedAfter_rtc : ∃ s next,
    run (step smallImage zeroLink) shellKernel (closedAfter "rtc") = some s ∧
      s.NotOpen 2 ∧
      write s 2 (some rate1024) 4 = some (.returned 0 [] next) ∧
      next.rtcRegisterA ≠ s.rtcRegisterA ∧ ¬ s.Refuses smallImage 2 rate1024 4 := by
  have hsome : (run (step smallImage zeroLink) shellKernel (closedAfter "rtc")).map
      (fun s => ((s.fileDesc 2).flags, s.rtcRegisterA)) = some (0, 0x2F) := by
    decide +kernel
  obtain ⟨s, hrun, heq⟩ := Option.map_eq_some_iff.mp hsome
  obtain ⟨hflags, hrate⟩ := Prod.mk.inj heq
  have hindex : fdIndex 2 = some 2 := by decide
  have hclosed : s.NotOpen 2 := notOpen_of_flags hindex hflags
  have hfull : ((run (step smallImage zeroLink) shellKernel (closedAfter "rtc")).bind fun s =>
      rtcWrite s (wordAt rate1024.memory)).map (fun next => next.rtcRegisterA) = some 0x26 := by
    decide +kernel
  rw [hrun, Option.bind_some] at hfull
  obtain ⟨next, hnext, hnextRate⟩ := Option.map_eq_some_iff.mp hfull
  have hfops : (run (step smallImage zeroLink) shellKernel (closedAfter "rtc")).map
      (fun s => (s.fileDesc 2).fops) = some (some .rtc) := by decide +kernel
  rw [hrun, Option.map_some, Option.some.injEq] at hfops
  have hwrite : write s 2 (some rate1024) 4 = some (.returned 0 [] next) := by
    simp [write, hindex, hfops, fopsWrite, hnext]
  refine ⟨s, next, hrun, hclosed, hwrite, by rw [hrate, hnextRate]; decide, fun hrefuses => ?_⟩
  have hanswer := hwrite.symm.trans hrefuses.write
  simp at hanswer

end VirtualOS
