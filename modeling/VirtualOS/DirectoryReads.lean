import VirtualOS.FileReads
import Mathlib.Tactic

/-!
# Enumerating the directory

A read on a directory descriptor returns the name of the next entry.  The next
entry is kept in `dir_index`, one variable for all descriptors: `dir_open` sets
it to 0 and every directory read advances it.  A descriptor therefore enumerates
the directory only as long as no other directory is opened or read; the file
position that `file_read` keeps in the descriptor is not used.
-/

namespace VirtualOS

open PartialRuns LinkedStacks

/-- The name that the read number `k` on a directory should return; nothing
after the last entry. -/
def Image.entryName (img : Image) (k : ℕ) : List UInt8 :=
  if k < img.dirCount then (img.direntry k).name else []

/-- The operation opens a directory, or reads one. -/
def usesDirectory (img : Image) (s : Kernel) : Op → Prop
  | .openFile filename => ∃ dentry, filename.bind (readDentryByName img) = some dentry ∧
      dentry.fileType = 1
  | .read fd (some _) nbytes _ => 0 ≤ nbytes ∧ ∃ index, fdIndex fd = some index ∧
      (s.fileDesc index).flags ≠ 0 ∧ (s.fileDesc index).fops = some .dir
  | _ => False

/-! ## The shared position -/

section Position

variable {img : Image} {link : Link} {s next : Kernel} {op : Op}

theorem fopsRead_dirIndex {fd : Fin 8} {nbytes : ℕ} {fops : Option FileType} {value : ℤ}
    {bytes : List UInt8} (hrow : fops ≠ some .dir)
    (hread : fopsRead img s fd nbytes fops = some (.returned value bytes next)) :
    next.dirIndex = s.dirIndex := by
  cases fops with
  | none => simp [fopsRead] at hread
  | some row =>
      cases row with
      | rtc =>
          obtain ⟨_, _, rfl⟩ := CallResult.returned.inj (Option.some.inj hread)
          rfl
      | dir => exact absurd rfl hrow
      | file =>
          obtain ⟨_, _, rfl⟩ := CallResult.returned.inj (Option.some.inj hread)
          rfl
      | term =>
          obtain ⟨⟨after, line⟩, hline, heq⟩ := Option.map_eq_some_iff.mp hread
          obtain ⟨_, _, rfl⟩ := CallResult.returned.inj heq
          exact congrArg ProcessView.dirIndex (view_terminalRead hline)

theorem read_dirIndex {fd nbytes value : ℤ} {buf : UserPointer} {bytes : List UInt8}
    {frame : StackFrame} (hother : ¬ usesDirectory img s (.read fd buf nbytes frame))
    (hread : read img s fd buf nbytes = some (.returned value bytes next)) :
    next.dirIndex = s.dirIndex := by
  unfold read at hread
  split at hread
  · rename_i index memory hindex
    split at hread
    · exact congrArg Kernel.dirIndex
        (CallResult.returned.inj (Option.some.inj hread)).2.2.symm
    · rename_i hproper
      split at hread
      · exact congrArg Kernel.dirIndex
          (CallResult.returned.inj (Option.some.inj hread)).2.2.symm
      · rename_i hflags
        refine fopsRead_dirIndex (fun hrow => hother ?_) hread
        exact ⟨by omega, index, hindex, hflags, hrow⟩
  · exact congrArg Kernel.dirIndex
      (CallResult.returned.inj (Option.some.inj hread)).2.2.symm

theorem openFile_dirIndex {filename : Option (List UInt8)} {value : ℤ} {bytes : List UInt8}
    (htyped : NoUntypedOpen img s (.openFile filename))
    (hother : ¬ usesDirectory img s (.openFile filename))
    (hopen : openFile img s filename = some (.returned value bytes next)) :
    next.dirIndex = s.dirIndex := by
  unfold openFile at hopen
  split at hopen
  · exact congrArg Kernel.dirIndex (CallResult.returned.inj (Option.some.inj hopen)).2.2.symm
  · rename_i dentry hdentry
    split at hopen
    · exact congrArg Kernel.dirIndex
        (CallResult.returned.inj (Option.some.inj hopen)).2.2.symm
    · rename_i fd hfind
      obtain ⟨opened, hopened, heq⟩ := Option.map_eq_some_iff.mp hopen
      obtain ⟨_, _, rfl⟩ := CallResult.returned.inj heq
      obtain ⟨set, row, inode, hset, hview, _, _⟩ :=
        openByType_spec s fd (htyped.fileType_le hdentry hfind)
      obtain rfl := Option.some.inj (hset.symm.trans hopened)
      have hkept := congrArg ProcessView.dirIndex hview
      have hnot : ¬ dentry.fileType = 1 := fun hdir => hother ⟨dentry, hdentry, hdir⟩
      rw [if_neg hnot] at hkept
      exact hkept

theorem step_dirIndex {family : Fin 3 → List ℕ} (hsched : Scheduled s.view family)
    (hop : op.Proper img s) (hother : ¬ usesDirectory img s op)
    (hstep : step img link s op = some next) : next.dirIndex = s.dirIndex := by
  have hcases : next.dirIndex = s.dirIndex ∨ endsProcess img s op = false ∧
      ∃ fd, fdEffect img s op = some (.advances fd) ∨ fdEffect img s op = some (.opens fd) := by
    rcases step_cases hop.shell hsched.sound hop.typed hstep with ⟨hgoes, hmove⟩ | ⟨_, hend⟩
    · generalize hview : next.view = after at hmove
      generalize fdEffect img s op = effect at hmove ⊢
      have hindex : next.dirIndex = after.dirIndex := congrArg ProcessView.dirIndex hview
      cases hmove with
      | enumerated fd => exact .inr ⟨hgoes, fd, .inl rfl⟩
      | openedDir fd pcb hpcb => exact .inr ⟨hgoes, fd, .inr rfl⟩
      | _ => exact .inl hindex
    · generalize hview : next.view = after at hend
      have hindex : next.dirIndex = after.dirIndex := congrArg ProcessView.dirIndex hview
      cases hend with
      | resume _ => exact .inl hindex
      | restart num argument frame _ _ => exact .inl hindex
  rcases hcases with hsame | ⟨hgoes, fd, heffect⟩
  · exact hsame
  · obtain ⟨⟨after, answer⟩, hperform, rfl⟩ := Option.map_eq_some_iff.mp hstep
    cases op with
    | read index buf nbytes frame =>
        obtain ⟨result, hread, hanswer⟩ := Option.bind_eq_some_iff.mp hperform
        cases result with
        | returned value bytes s' =>
            obtain ⟨rfl, _⟩ := Prod.mk.inj (Option.some.inj hanswer)
            exact read_dirIndex hother hread
        | pageFault s' => simp [endsProcess, hread, CallResult.faults] at hgoes
    | openFile filename =>
        obtain ⟨result, hopen, hanswer⟩ := Option.bind_eq_some_iff.mp hperform
        cases result with
        | returned value bytes s' =>
            obtain ⟨rfl, _⟩ := Prod.mk.inj (Option.some.inj hanswer)
            exact openFile_dirIndex hop.typed hother hopen
        | pageFault s' => contradiction
    | close index frame =>
        rcases heffect with heffect | heffect <;>
        · obtain ⟨_, _, heq⟩ := Option.map_eq_some_iff.mp heffect
          contradiction
    | _ => simp [fdEffect] at heffect

end Position

/-! ## Reading alone -/

/-- Process `num` keeps its directory descriptor `fd`, reads it with room for a
whole name, and no other directory is opened or read. -/
structure Enumerates (img : Image) (num : ℕ) (fd : Fin 8) (s : Kernel) (op : Op) : Prop
    extends Keeps img num fd s op where
  alone : usesDirectory img s op → s.running.processNum = num ∧ (op.readCount fd).isSome
  wide : ∀ count, s.running.processNum = num → op.readCount fd = some count → 32 ≤ count

section Enumeration

variable {img : Image} {link : Link} {s next : Kernel} {num k count : ℕ} {fd : Fin 8}
  {op : Op} {answer : Answer} {desc : FileDesc}

theorem strncpyBytes_name (dentry : Dentry) (hcount : 32 ≤ count) :
    strncpyBytes dentry.bytes (min (min (strlen dentry.bytes) filenameLen) count) =
      dentry.name := by
  have hwide : min (min (strlen dentry.bytes) filenameLen) count =
      min (strlen dentry.bytes) filenameLen := by
    unfold filenameLen
    omega
  rw [hwide, strlen_eq_cString_length, dentry.name_eq_take]
  unfold strncpyBytes
  simp only [List.length_take]
  rw [Nat.min_comm, ← List.take_eq_take_min]
  simp

theorem dirRead_eq (hindex : s.dirIndex = min k img.dirCount) (hcount : 32 ≤ count) :
    dirRead img s count = .returned (img.entryName k).length (img.entryName k)
      { s with dirIndex := min (k + 1) img.dirCount } := by
  unfold dirRead Image.entryName
  rcases Nat.lt_or_ge k img.dirCount with hlt | hge
  · have hat : s.dirIndex = k := by omega
    have hnext : min (k + 1) img.dirCount = k + 1 := by omega
    have hname := strncpyBytes_name (img.direntry k) hcount
    have hlength : min (min (strlen (img.direntry k).bytes) filenameLen) count =
        (img.direntry k).name.length := by
      rw [← hname]
      simp [strncpyBytes]
    simp only [hat, ge_iff_le, not_le.mpr hlt, if_false, readDentryByIndex, hlt, if_true,
      hlength, hnext]
    rw [← hlength, hname]
  · have hat : s.dirIndex = img.dirCount := by omega
    have hnext : min (k + 1) img.dirCount = s.dirIndex := by omega
    simp only [hat, ge_iff_le, le_refl, if_true, not_lt.mpr hge, if_false, hnext]
    simp [hat.symm]

theorem Holds.step_dirRead
    (hholds : Holds s num fd desc) (hrow : desc.fops = some .dir) (hflags : desc.flags ≠ 0)
    (hindex : s.dirIndex = min k img.dirCount) (hfd : 1 < fd.val)
    (hruns : s.running.processNum = num) (hcount : op.readCount fd = some count)
    (hwide : 32 ≤ count) (hperform : perform img link s op = some (next, answer)) :
    answer = .ofBytes (img.entryName k) ∧ next.dirIndex = min (k + 1) img.dirCount ∧
      Holds next num fd desc := by
  obtain ⟨index, buf, nbytes, frame, rfl, hnum, hnbytes, rfl⟩ := Op.readCount_eq_some hcount
  have hdesc := hholds.fileDesc_eq hruns
  have hread : read img s index (some buf) nbytes =
      some (dirRead img s nbytes.toNat) := by
    rw [read_eq_fopsRead hnum hfd hnbytes (by rw [hdesc]; exact hflags), hdesc, hrow]
    rfl
  rw [dirRead_eq hindex hwide] at hread
  simp only [perform, hread, Option.bind_some, CallResult.answer, Option.some.injEq,
    Prod.mk.injEq] at hperform
  obtain ⟨rfl, rfl⟩ := hperform
  exact ⟨rfl, rfl, hholds.live_of_read hread, hholds.desc_eq⟩

/-- The reads on a directory descriptor that is used alone return the names of the
entries one after the other. -/
theorem readsOn_dir {ops : List Op} {final : Kernel}
    (htyped : ∀ s op, NoUntypedOpen img s op) (hfd : 1 < fd.val)
    (hholds : Holds s num fd desc) (hrow : desc.fops = some .dir) (hflags : desc.flags ≠ 0)
    (hindex : s.dirIndex = min k img.dirCount)
    (hmeets : Meets (step img link) (Enumerates img num fd) s ops)
    (hrun : run (step img link) s ops = some final) :
    (readsOn (perform img link) num fd s ops).map Prod.snd =
      (List.range' k (readsOn (perform img link) num fd s ops).length).map fun j =>
        .ofBytes (img.entryName j) := by
  induction ops generalizing s k with
  | nil => rfl
  | cons op rest ih =>
      obtain ⟨next, hstep, hrest⟩ := run_cons_eq_some.mp hrun
      obtain ⟨⟨after, answer⟩, hperform, rfl⟩ := Option.map_eq_some_iff.mp hstep
      have hlater := hmeets.2 _ hstep
      have hop := hmeets.1
      obtain ⟨family, t, hsched, _⟩ := hholds.live
      have hstill : ¬ usesDirectory img s op →
          after.dirIndex = min k img.dirCount := fun hother =>
        (step_dirIndex hsched ⟨htyped s op, hop.shell⟩ hother hstep).trans hindex
      unfold readsOn
      simp only [hperform]
      cases hcount : op.readCount fd with
      | none =>
          have hother : ¬ usesDirectory img s op := by
            intro huses
            have hread := (hop.alone huses).2
            rw [hcount] at hread
            contradiction
          exact ih (hholds.step_refused hflags (htyped s op) hop.toKeeps hcount hstep)
            (hstill hother) hlater hrest
      | some count =>
          by_cases hruns : s.running.processNum = num
          · obtain ⟨hanswer, hnext, hheld⟩ := hholds.step_dirRead hrow hflags hindex hfd hruns
              hcount (hop.wide count hruns hcount) hperform
            simp only [if_pos hruns, List.map_cons, List.length_cons, List.range'_succ, hanswer]
            rw [ih hheld hnext hlater hrest]
          · simp only [if_neg hruns]
            have hother : ¬ usesDirectory img s op := fun huses =>
              hruns (hop.alone huses).1
            exact ih (hholds.step_other hflags (htyped s op) hop.toKeeps
              (fun heq => absurd heq hruns) hstep) (hstill hother) hlater hrest

end Enumeration

/-! ## The law -/

section Law

variable {img : Image} {link : Link} {boot first s opened final : Kernel}
  {frame : StackFrame} {entry image filename : List UInt8} {before ops : List Op}
  {dentry : Dentry} {fd : Fin 8}

/-- From the `open` of a directory on, and as long as no other directory is opened
or read, the reads on its descriptor list the entries in order and then end. -/
theorem directoryReads_of_run
    (hformed : img.WellFormed) (hboot : Booted boot)
    (hfirst : execute img boot (some shellName) frame = some (.started first entry image))
    (hshell : Meets (step img link) (fun state op =>
      endsProcess img state op = true → img.Loadable shellName) first before)
    (hreach : run (step img link) first before = some s)
    (hfound : readDentryByName img filename = some dentry) (hdir : dentry.fileType = 1)
    (hopen : openFile img s (some filename) = some (.returned fd.val [] opened))
    (halone : Meets (step img link) (Enumerates img s.running.processNum fd) opened ops)
    (hrun : run (step img link) opened ops = some final) :
    (readsOn (perform img link) s.running.processNum fd opened ops).map Prod.snd =
      (List.range
        (readsOn (perform img link) s.running.processNum fd opened ops).length).map fun k =>
        .ofBytes (img.entryName k) := by
  have hname : (some filename).bind (readDentryByName img) = some dentry := hfound
  have htype : dentry.fileType ≤ 2 := by omega
  obtain ⟨_, hstart⟩ := hboot.scheduled hfirst
  obtain ⟨family, hsched⟩ := run_scheduled_of_proper hstart
    (hshell.imp fun state op hends => ⟨hformed.opensTyped state op, hends⟩) hreach
  cases hfind : openSlots.find? fun fd => (s.fileDesc fd).flags = 0 with
  | none =>
      simp only [openFile, hname, hfind, Option.some.injEq, CallResult.returned.injEq] at hopen
      omega
  | some found =>
      obtain ⟨taken, row, inode, htaken, _, hholds, hindex, hrow, _⟩ :=
        openFile_holds hsched htype hname hfind
      rw [htaken, Option.some.injEq, CallResult.returned.injEq] at hopen
      obtain ⟨hvalue, _, rfl⟩ := hopen
      have hfd : found = fd := by
        apply Fin.ext
        exact_mod_cast hvalue
      subst hfd
      rw [if_pos hdir] at hindex
      rw [List.range_eq_range']
      exact readsOn_dir hformed.opensTyped (find?_openSlots_leastFree hfind).above hholds
        (congrArg some (hrow hdir)) (by simp) (by simpa using hindex) halone hrun

end Law

def openDot : Op := .openFile (some (ascii "."))
def readDir (fd : ℤ) : Op := .read fd (some zeroBuffer) 32 zeroFrame

/-- Two descriptors on the directory: the first read of the second one returns the
second entry. -/
theorem directoryReads_interfere : ∃ s opened final,
    run (step smallImage zeroLink) shellKernel [openDot] = some s ∧
      openFile smallImage s (some (ascii ".")) = some (.returned 3 [] opened) ∧
      run (step smallImage zeroLink) opened [readDir 2, readDir 3] = some final ∧
      (readsOn (perform smallImage zeroLink) 1 3 opened [readDir 2, readDir 3]).map
        (fun read => read.2.bytes) = [ascii "shell"] ∧
      smallImage.entryName 0 = ascii "." := by
  have hstate : (run (step smallImage zeroLink) shellKernel [openDot]).isSome := by
    decide +kernel
  obtain ⟨s, hs⟩ := Option.isSome_iff_exists.mp hstate
  obtain ⟨opened, hopen, hchecks⟩ : ∃ opened,
      (run (step smallImage zeroLink) shellKernel [openDot]).bind (fun s =>
          openFile smallImage s (some (ascii "."))) = some (.returned 3 [] opened) ∧
        ((run (step smallImage zeroLink) opened [readDir 2, readDir 3]).isSome,
          (readsOn (perform smallImage zeroLink) 1 3 opened [readDir 2, readDir 3]).map
            (fun read => read.2.bytes)) = (true, [ascii "shell"]) :=
    exists_returned_of_eval (by decide +kernel)
  rw [hs, Option.bind_some] at hopen
  simp only [Prod.mk.injEq] at hchecks
  obtain ⟨hsome, hreads⟩ := hchecks
  obtain ⟨final, hrun⟩ := Option.isSome_iff_exists.mp hsome
  exact ⟨s, opened, final, hs, hopen, hrun, hreads, by decide +kernel⟩

/-! ## Listed names -/

theorem Dentry.ne_zero_of_mem_name {dentry : Dentry} {byte : UInt8} (hmem : byte ∈ dentry.name) :
    byte ≠ 0 := by
  rw [dentry.name_eq_take] at hmem
  exact ne_zero_of_mem_cString (List.mem_of_mem_take hmem)

theorem Dentry.cString_name (dentry : Dentry) (rest : List UInt8) :
    cString (dentry.name ++ 0 :: rest) = dentry.name := by
  rw [cString_append_of_forall_ne fun byte hmem => Dentry.ne_zero_of_mem_name hmem]
  simp [cString]

/-- The bytes that a directory read of at least 32 bytes returns, with a NUL behind
them, open the first entry of the same name. -/
theorem listedName_opens_first {img : Image} {s : Kernel} {nbytes : ℕ}
    (hindex : s.dirIndex < img.dirCount) (hname : (img.direntry s.dirIndex).name ≠ [])
    (hnbytes : 32 ≤ nbytes) (rest : List UInt8) :
    ∃ (bytes : List UInt8) (next : Kernel) (first : ℕ),
      dirRead img s nbytes = .returned bytes.length bytes next ∧
      first < img.dirCount ∧
      readDentryByName img (bytes ++ 0 :: rest) = some (img.direntry first) ∧
      (img.direntry first).name = (img.direntry s.dirIndex).name ∧
      ∀ earlier < first, (img.direntry earlier).name ≠ (img.direntry s.dirIndex).name := by
  have hread := dirRead_eq (s := s) (show s.dirIndex = min s.dirIndex img.dirCount by omega)
    hnbytes
  rw [Image.entryName, if_pos hindex] at hread
  have hstring := (img.direntry s.dirIndex).cString_name rest
  have hlength : strlen ((img.direntry s.dirIndex).name ++ 0 :: rest) =
      (img.direntry s.dirIndex).name.length := by
    rw [strlen_eq_cString_length, hstring]
  have hshort : (img.direntry s.dirIndex).name.length ≤ filenameLen := by
    rw [Dentry.name_eq_take]
    exact List.length_take_le _ _
  obtain ⟨dentry, hfound⟩ := readDentryByName_isSome
    (by rw [hlength]; exact List.length_pos_iff.mpr hname) (by rw [hlength]; exact hshort)
    hindex hstring.symm
  obtain ⟨first, hfirst, rfl, heq, hearlier⟩ := readDentryByName_eq_some hfound
  rw [hstring] at heq hearlier
  exact ⟨_, _, first, hread, hfirst, hfound, heq, hearlier⟩

theorem listedName_opens_shell : ∃ (bytes : List UInt8) (next : Kernel) (first : ℕ),
    dirRead smallImage { shellKernel with dirIndex := 1 } 32 =
      .returned bytes.length bytes next ∧
    first < smallImage.dirCount ∧
    readDentryByName smallImage (bytes ++ [0]) = some (smallImage.direntry first) ∧
    (smallImage.direntry first).name = (smallImage.direntry 1).name ∧
    ∀ earlier < first, (smallImage.direntry earlier).name ≠ (smallImage.direntry 1).name :=
  listedName_opens_first (s := { shellKernel with dirIndex := 1 }) (by decide +kernel)
    (by decide +kernel) le_rfl []

end VirtualOS
