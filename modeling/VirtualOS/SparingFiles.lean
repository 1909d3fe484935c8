import VirtualOS.DirectoryReads
import VirtualOS.KernelStores
import Mathlib.Tactic

/-!
# Files in runs that spare the kernel

The laws of the open files for calls with their stores.  A `read` checks its buffer
only against null: one into a control block moves the position of another
descriptor, or makes up its entry.
-/

namespace VirtualOS

open PartialRuns LinkedStacks

section Transfer

variable {img : Image} {map : MemoryMap} {s : Kernel} {ops : List Op} {num : ℕ} {fd : Fin 8}

theorem readsOn_sparing (hspares : Meets (stepThrough img map) (SparesKernel img map) s ops) :
    readsOn (performThrough img map) num fd s ops =
      readsOn (perform img map.toLink) num fd s ops := by
  induction ops generalizing s with
  | nil => rfl
  | cons op rest ih =>
      obtain ⟨hop, hrest⟩ := hspares
      rw [readsOn, readsOn, ← performThrough_eq hop]
      cases hperform : performThrough img map s op with
      | none => rfl
      | some result =>
          have hnext : stepThrough img map s op = some result.1 := by
            rw [stepThrough, hperform, Option.map_some]
          simp only [ih (hrest result.1 hnext)]

theorem run_sparesKernel {final : Kernel}
    (hspares : Meets (stepThrough img map) (SparesKernel img map) s ops)
    (hrun : run (stepThrough img map) s ops = some final) :
    run (step img map.toLink) s ops = some final :=
  (run_stepThrough (fun _ _ => id) hspares).symm.trans hrun

theorem meets_sparesKernel {guard : Kernel → Op → Prop}
    (hspares : Meets (stepThrough img map) (SparesKernel img map) s ops) :
    Meets (stepThrough img map) guard s ops ↔ Meets (step img map.toLink) guard s ops := by
  refine ⟨meets_stepThrough_of_spares (fun _ _ => id) hspares, fun hmeets => ?_⟩
  have hboth := (meets_stepThrough (fun _ _ => id) hspares).and hmeets
  exact (hboth.of_step_eq fun _ _ hop => (stepThrough_eq hop.1).symm).imp fun _ _ => And.right

end Transfer

section Laws

variable {img : Image} {map : MemoryMap} {boot first s opened final : Kernel}
  {frame : StackFrame} {entry image : List UInt8} {before ops : List Op}

/-- In every state that a run reaches which spares the kernel, `open` takes the least free
descriptor at position 0 or changes nothing, and the reads on the descriptor of a file are
consecutive slices of the file, as long as the kernel is spared and until the descriptor is
closed. -/
theorem sparedDescriptors_refine_table
    (hformed : img.WellFormed) (hboot : Booted boot)
    (hfirst : execute img boot (some shellName) frame = some (.started first entry image))
    (hspared : Meets (stepThrough img map) (SparesKernel img map) first before)
    (hshell : Meets (stepThrough img map) (fun state op =>
      endsProcess img state op = true → img.Loadable shellName) first before)
    (hreach : run (stepThrough img map) first before = some s)
    (filename : List UInt8) (dentry : Dentry)
    (hfound : readDentryByName img filename = some dentry) :
    (∀ bytes next, openFile img s (some filename) = some (.returned (-1) bytes next) →
      next = s) ∧
    (((∀ fd : Fin 8, 1 < fd.val → (s.fileDesc fd).flags ≠ 0) ∧
        openFile img s (some filename) = some (.returned (-1) [] s)) ∨
      ∃ fd opened, s.LeastFree fd ∧
        openFile img s (some filename) = some (.returned fd.val [] opened) ∧
        (opened.fileDesc fd).flags = 1 ∧ (opened.fileDesc fd).filePos = 0 ∧
        (dentry.fileType = 2 → ∀ ops final,
          Meets (stepThrough img map) (SparesKernel img map) opened ops →
          Meets (stepThrough img map) (Keeps img s.running.processNum fd) opened ops →
          run (stepThrough img map) opened ops = some final →
          (readsOn (performThrough img map) s.running.processNum fd opened ops).map Prod.snd =
            (img.slices dentry.inodeNum 0 ((readsOn (performThrough img map)
              s.running.processNum fd opened ops).map Prod.fst)).map Answer.ofBytes)) := by
  obtain ⟨hfailed, hfull | ⟨fd, opened, hleast, hopen, hflags, hpos, hreads⟩⟩ :=
    descriptors_refine_table hformed hboot hfirst ((meets_sparesKernel hspared).mp hshell)
      (run_sparesKernel hspared hreach) filename dentry hfound
  · exact ⟨hfailed, .inl hfull⟩
  · refine ⟨hfailed, .inr ⟨fd, opened, hleast, hopen, hflags, hpos, ?_⟩⟩
    intro hregular ops final hspares hkeeps hrun
    rw [readsOn_sparing hspares]
    exact hreads hregular ops final ((meets_sparesKernel hspares).mp hkeeps)
      (run_sparesKernel hspares hrun)

/-- From the `open` of a directory on, and as long as no other directory is opened or read and
the kernel is spared, the reads on its descriptor list the entries in order and then end. -/
theorem sparedDirectoryReads_of_run {filename : List UInt8} {dentry : Dentry} {fd : Fin 8}
    (hformed : img.WellFormed) (hboot : Booted boot)
    (hfirst : execute img boot (some shellName) frame = some (.started first entry image))
    (hspared : Meets (stepThrough img map) (SparesKernel img map) first before)
    (hshell : Meets (stepThrough img map) (fun state op =>
      endsProcess img state op = true → img.Loadable shellName) first before)
    (hreach : run (stepThrough img map) first before = some s)
    (hfound : readDentryByName img filename = some dentry) (hdir : dentry.fileType = 1)
    (hopen : openFile img s (some filename) = some (.returned fd.val [] opened))
    (hspares : Meets (stepThrough img map) (SparesKernel img map) opened ops)
    (halone : Meets (stepThrough img map) (Enumerates img s.running.processNum fd) opened ops)
    (hrun : run (stepThrough img map) opened ops = some final) :
    (readsOn (performThrough img map) s.running.processNum fd opened ops).map Prod.snd =
      (List.range (readsOn (performThrough img map) s.running.processNum fd opened ops).length).map
        fun k => .ofBytes (img.entryName k) := by
  rw [readsOn_sparing hspares]
  exact directoryReads_of_run hformed hboot hfirst ((meets_sparesKernel hspared).mp hshell)
    (run_sparesKernel hspared hreach) hfound hdir hopen ((meets_sparesKernel hspares).mp halone)
    (run_sparesKernel hspares hrun)

theorem keepsPositions_spared {op : Op} (hspares : SparesKernel img map s op) :
    KeepsPositions img (performThrough img map) s op ↔
      KeepsPositions img (perform img map.toLink) s op := by
  have hsame := performThrough_eq hspares
  constructor
  · rintro ⟨hfailed, hwithin⟩
    rw [hsame] at hfailed hwithin
    exact ⟨hfailed, hwithin⟩
  · rintro ⟨hfailed, hwithin⟩
    rw [← hsame] at hfailed hwithin
    exact ⟨hfailed, hwithin⟩

/-- From the first shell on and as long as the kernel is spared, failed reads leave the
positions and all positions stay inside their files in exactly those runs in which every
read of a file is for an existing inode and ends below `2 ^ 31`. -/
theorem keepsPositions_spared_iff (hboot : Booted boot)
    (hfirst : execute img boot (some shellName) frame = some (.started first entry image))
    (hspares : Meets (stepThrough img map) (SparesKernel img map) first ops) :
    first.Everywhere (InFile img) ∧
      (Meets (stepThrough img map) (KeepsPositions img (performThrough img map)) first ops ↔
        Meets (stepThrough img map) (ReadsInFile img) first ops) := by
  obtain ⟨hstart, hiff⟩ := @keepsPositions_run_iff img map.toLink _ _ _ _ _ ops hboot hfirst
  have hreads : Meets (stepThrough img map) (ReadsInFile img) first ops ↔
      Meets (step img map.toLink) (ReadsInFile img) first ops := meets_sparesKernel hspares
  refine ⟨hstart, ?_⟩
  rw [hreads, ← hiff]
  constructor
  · intro hkeeps
    rw [← meets_sparesKernel hspares]
    exact (hspares.and hkeeps).imp fun s op hop => (keepsPositions_spared hop.1).mp hop.2
  · intro hkeeps
    rw [← meets_sparesKernel hspares] at hkeeps
    exact (hspares.and hkeeps).imp fun s op hop => (keepsPositions_spared hop.1).mpr hop.2

end Laws

/-! ## Small runs -/

/-- Two reads of descriptor 2 around an `open` of the clock. -/
def smallReads : List Op :=
  [.read 2 (some zeroBuffer) 3 zeroFrame, .openFile (some (ascii "rtc")),
    .read 2 (some zeroBuffer) 32 zeroFrame]

theorem keeps_of_quiet {s : Kernel} (num : ℕ) (fd : Fin 8) {ops : List Op}
    (hkeeps : Meets (stepThrough smallImage smallMap) (fun s op =>
      endsProcess smallImage s op = false ∧ fdEffect smallImage s op ≠ some (.closes fd)) s ops) :
    Meets (stepThrough smallImage smallMap) (Keeps smallImage num fd) s ops :=
  hkeeps.imp fun _ _ hop =>
    ⟨fun _ => smallImage_loadable, fun _ => hop.1, fun _ => hop.2⟩

theorem sparedDescriptors_refine_table_small : ∃ opened final,
    openFile smallImage pagedShell (some (ascii "frame0.txt")) = some (.returned 2 [] opened) ∧
      run (stepThrough smallImage smallMap) opened smallReads = some final ∧
      (readsOn (performThrough smallImage smallMap) 1 2 opened smallReads).map Prod.snd =
        (smallImage.slices 1 0 ((readsOn (performThrough smallImage smallMap) 1 2 opened
          smallReads).map Prod.fst)).map Answer.ofBytes := by
  obtain ⟨entry, image, hfirst⟩ := execute_pagedKernel
  have hfound : readDentryByName smallImage (ascii "frame0.txt") =
      some (smallImage.direntry 3) := by decide +kernel
  have hnone : Meets (stepThrough smallImage smallMap) (SparesKernel smallImage smallMap)
      pagedShell [] := meets_nil _ _
  obtain ⟨_, hlaw⟩ := sparedDescriptors_refine_table smallImage_wellFormed pagedKernel_booted
    hfirst hnone (meets_nil _ _) (run_nil _) (ascii "frame0.txt") (smallImage.direntry 3) hfound
  rcases hlaw with ⟨hfull, _⟩ | ⟨fd, opened, _, hopen, _, _, hreads⟩
  · exact absurd (hfull 2 (by decide)) (by decide +kernel)
  · have htype : (smallImage.direntry 3).fileType = 2 := by decide +kernel
    have hinode : (smallImage.direntry 3).inodeNum = 1 := by decide +kernel
    obtain ⟨checked, hchecked, hchecks⟩ : ∃ s,
        openFile smallImage pagedShell (some (ascii "frame0.txt")) = some (.returned 2 [] s) ∧
          ((run (stepThrough smallImage smallMap) s smallReads).isSome,
            decide (Meets (stepThrough smallImage smallMap) (SparesKernel smallImage smallMap) s
              smallReads ∧ Meets (stepThrough smallImage smallMap) (fun s op =>
                endsProcess smallImage s op = false ∧
                  fdEffect smallImage s op ≠ some (.closes 2)) s smallReads)) = (true, true) :=
      exists_returned_of_eval (by decide +kernel)
    rw [hopen, Option.some.injEq, CallResult.returned.injEq] at hchecked
    obtain ⟨hvalue, _, rfl⟩ := hchecked
    simp only [Prod.mk.injEq, decide_eq_true_eq] at hchecks
    obtain ⟨hsome, hspares, hmeets⟩ := hchecks
    have hfd : fd = 2 := by
      apply Fin.ext
      exact_mod_cast hvalue
    subst hfd
    obtain ⟨final, hrun⟩ := Option.isSome_iff_exists.mp hsome
    have hnum : pagedShell.running.processNum = 1 := by decide +kernel
    have hlaw := hreads htype smallReads final hspares (keeps_of_quiet _ _ hmeets) hrun
    rw [hinode, hnum] at hlaw
    exact ⟨opened, final, hopen, hrun, hlaw⟩

/-- Five reads of the only open directory: four names and the end. -/
def listing : List Op := List.replicate 5 (readDir 2)

theorem sparedDirectoryReads_of_listing : ∃ opened final,
    openFile smallImage pagedShell (some (ascii ".")) = some (.returned 2 [] opened) ∧
      run (stepThrough smallImage smallMap) opened listing = some final ∧
      (readsOn (performThrough smallImage smallMap) 1 2 opened listing).map Prod.snd =
        (List.range (readsOn (performThrough smallImage smallMap) 1 2 opened
          listing).length).map fun k => .ofBytes (smallImage.entryName k) := by
  obtain ⟨entry, image, hfirst⟩ := execute_pagedKernel
  have hfound : readDentryByName smallImage (ascii ".") =
      some (smallImage.direntry 0) := by decide +kernel
  have hdir : (smallImage.direntry 0).fileType = 1 := by decide +kernel
  have hnum : pagedShell.running.processNum = 1 := by decide +kernel
  obtain ⟨opened, hopen, hchecks⟩ : ∃ s,
      openFile smallImage pagedShell (some (ascii ".")) = some (.returned 2 [] s) ∧
        ((run (stepThrough smallImage smallMap) s listing).isSome,
          decide (Meets (stepThrough smallImage smallMap) (fun s op =>
            SparesKernel smallImage smallMap s op ∧ endsProcess smallImage s op = false ∧
              fdEffect smallImage s op ≠ some (.closes 2) ∧ s.running.processNum = 1 ∧
              op.readCount 2 = some 32) s listing)) = (true, true) :=
    exists_returned_of_eval (by decide +kernel)
  simp only [Prod.mk.injEq, decide_eq_true_eq] at hchecks
  obtain ⟨hsome, hmeets⟩ := hchecks
  obtain ⟨final, hrun⟩ := Option.isSome_iff_exists.mp hsome
  have hspares : Meets (stepThrough smallImage smallMap) (SparesKernel smallImage smallMap)
      opened listing := hmeets.imp fun _ _ hop => hop.1
  have halone : Meets (stepThrough smallImage smallMap)
      (Enumerates smallImage pagedShell.running.processNum 2) opened listing := by
    refine hmeets.imp fun s op hop => ⟨⟨fun _ => smallImage_loadable, fun _ => hop.2.1,
      fun _ => hop.2.2.1⟩, fun _ => ⟨hop.2.2.2.1.trans hnum.symm, by simp [hop.2.2.2.2]⟩, ?_⟩
    intro count _ hcount
    rw [hop.2.2.2.2, Option.some.injEq] at hcount
    omega
  have hlaw := sparedDirectoryReads_of_run smallImage_wellFormed pagedKernel_booted hfirst
    (meets_nil _ _) (meets_nil _ _) (run_nil _) hfound hdir hopen hspares halone hrun
  rw [hnum] at hlaw
  exact ⟨opened, final, hopen, hrun, hlaw⟩

theorem keepsPositions_spared_readFrame :
    Meets (stepThrough smallImage smallMap)
      (KeepsPositions smallImage (performThrough smallImage smallMap)) pagedShell
      [.openFile (some (ascii "frame0.txt")), readFrame, readFrame] := by
  obtain ⟨entry, image, hfirst⟩ := execute_pagedKernel
  exact (keepsPositions_spared_iff pagedKernel_booted hfirst (by decide +kernel)).2.mpr
    (by decide +kernel)

/-- The position of descriptor 2 in the control block of the first process. -/
def positionBuffer : UserBuffer := ⟨0x7FE028, fun _ => 0⟩

/-- Another descriptor on the same file, read over the position of the first one. -/
def strayReads : List Op :=
  [.openFile (some (ascii "frame0.txt")), .read 3 (some positionBuffer) 4 zeroFrame,
    .read 2 (some zeroBuffer) 32 zeroFrame]

theorem strayRead_moves_position : ∃ entry image opened final,
    execute smallImage pagedKernel (some shellName) zeroFrame =
        some (.started pagedShell entry image) ∧
      openFile smallImage pagedShell (some (ascii "frame0.txt")) = some (.returned 2 [] opened) ∧
      run (stepThrough smallImage smallMap) opened strayReads = some final ∧
      readsOn (performThrough smallImage smallMap) 1 2 opened strayReads = [(32, ⟨some 0, []⟩)] ∧
      (smallImage.slices 1 0 [32]).map Answer.ofBytes = [⟨some 5, ascii "hello"⟩] := by
  obtain ⟨entry, image, hfirst⟩ := execute_pagedKernel
  obtain ⟨opened, hopen, hchecks⟩ : ∃ s,
      openFile smallImage pagedShell (some (ascii "frame0.txt")) = some (.returned 2 [] s) ∧
        ((run (stepThrough smallImage smallMap) s strayReads).isSome,
          readsOn (performThrough smallImage smallMap) 1 2 s strayReads) =
            (true, [(32, ⟨some 0, []⟩)]) :=
    exists_returned_of_eval (by decide +kernel)
  obtain ⟨hsome, hreads⟩ := Prod.mk.inj hchecks
  obtain ⟨final, hrun⟩ := Option.isSome_iff_exists.mp hsome
  exact ⟨entry, image, opened, final, hfirst, hopen, hrun, hreads, by decide +kernel⟩

end VirtualOS
