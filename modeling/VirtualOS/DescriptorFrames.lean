import VirtualOS.ModifierKeys
import Mathlib.Tactic

/-!
# What the operations store to descriptors

A descriptor is written in four places only: `open` fills it, `close` releases
it, `file_read` moves its position, and `execute` gives the first two of a new
process to the terminal.  A property of single descriptors that survives the
release and the start of a process therefore survives every operation but
`open` and the reads of regular files.
-/

namespace VirtualOS

open PartialRuns

/-- A property of every descriptor of every control block. -/
def Kernel.Everywhere (P : BitVec 32 → Fin 8 → FileDesc → Prop) (s : Kernel) : Prop :=
  ∀ address fd, P address fd ((s.pcb address).fileDescArray fd)

/-- The property survives the stores of `close` and of `execute`. -/
structure DescriptorLaw (P : BitVec 32 → Fin 8 → FileDesc → Prop) : Prop where
  released : ∀ address fd desc, P address fd desc → P address fd { desc with flags := 0 }
  standard : ∀ address (fd : Fin 8) desc, fd.val ≤ 1 → P address fd desc →
    P address fd { desc with fops := some .term, flags := 1 }

/-- The descriptor and the byte count of a read that reaches `file_read`. -/
def Kernel.fileRequest (s : Kernel) : Op → Option (Fin 8 × ℕ)
  | .read fd (some _) nbytes _ =>
      (fdIndex fd).bind fun index =>
        if 0 ≤ nbytes ∧ fd ≠ 1 ∧ (s.fileDesc index).flags ≠ 0 ∧
            (s.fileDesc index).fops = some .file then
          some (index, nbytes.toNat)
        else none
  | _ => none

section Frame

variable {P : BitVec 32 → Fin 8 → FileDesc → Prop} {img : Image} {link : Link}
  {s next : Kernel} {frame : StackFrame}

theorem Kernel.Everywhere.of_pcb (hevery : s.Everywhere P) (hpcb : next.pcb = s.pcb) :
    next.Everywhere P := by
  intro address fd
  rw [hpcb]
  exact hevery address fd

theorem Kernel.Everywhere.of_view (hevery : s.Everywhere P) (hview : next.view = s.view) :
    next.Everywhere P :=
  hevery.of_pcb (congrArg ProcessView.pcb hview)

theorem Kernel.Everywhere.modifyPcb (hevery : s.Everywhere P) {address : BitVec 32}
    {f : Pcb → Pcb}
    (hf : ∀ fd, P address fd ((f (s.pcb address)).fileDescArray fd)) :
    (s.modifyPcb address f).Everywhere P := by
  intro other fd
  by_cases hsame : other = address
  · subst hsame
    simpa [Kernel.modifyPcb] using hf fd
  · simpa [Kernel.modifyPcb, hsame] using hevery other fd

theorem Kernel.Everywhere.modifyFd (hevery : s.Everywhere P) {address : BitVec 32} {fd : Fin 8}
    {f : FileDesc → FileDesc}
    (hf : P address fd (f ((s.pcb address).fileDescArray fd))) :
    (s.modifyFd address fd f).Everywhere P := by
  apply hevery.modifyPcb
  intro other
  by_cases hsame : other = fd
  · subst hsame
    simpa using hf
  · simpa [hsame] using hevery address other

theorem everywhere_startProcess (hlaw : DescriptorLaw P) (hevery : s.Everywhere P) (num : ℕ)
    (argument : List UInt8) (frame : StackFrame) :
    (startProcess s num argument frame).Everywhere P := by
  have hblock : (s.modifyPcb (pcbAddress num)
      (newPcb s.currentProcessNum num argument frame)).Everywhere P := by
    apply hevery.modifyPcb
    intro fd
    have hold := hevery (pcbAddress num) fd
    by_cases hfd : fd.val ≤ 1
    · simpa [newPcb, hfd] using hlaw.standard _ _ _ hfd hold
    · simpa [newPcb, hfd] using hold
  exact hblock.of_pcb rfl

theorem everywhere_execute (hlaw : DescriptorLaw P) (hevery : s.Everywhere P)
    {command : Option (List UInt8)} {execution : Execution}
    (hexecute : execute img s command frame = some execution) :
    execution.kernel.Everywhere P := by
  have hloaded : (loadCurrentProcess s).Everywhere P := hevery.of_pcb rfl
  obtain ⟨_, rfl⟩ | ⟨line, _, ⟨_, printed, hprint, rfl⟩ | ⟨num, _, hcommit⟩⟩ :=
    execute_eq_some hexecute
  · exact hloaded
  · exact hloaded.of_view (view_printLiteral hprint)
  · obtain ⟨-, ⟨_, rfl⟩ | ⟨dentry, _, _, rfl⟩⟩ := executeCommit_eq_some hcommit
    · exact hloaded
    · exact everywhere_startProcess hlaw hloaded num _ frame

theorem everywhere_close (hlaw : DescriptorLaw P) (hevery : s.Everywhere P) (fd : ℤ) :
    (close s fd).kernel.Everywhere P := by
  unfold close
  split
  · exact hevery
  · rename_i index _
    split_ifs
    · exact hevery
    · exact hevery
    · have hreleased := hevery.modifyFd (f := fun desc => { desc with flags := 0 })
        (hlaw.released s.pcbPtr index _ (hevery s.pcbPtr index))
      dsimp only
      split <;> exact hreleased

theorem everywhere_haltCleanFds (hlaw : DescriptorLaw P) (pcbPtr : BitVec 32)
    (fds : List (Fin 8)) (hevery : s.Everywhere P) :
    (haltCleanFds pcbPtr fds s).kernel.Everywhere P := by
  induction fds generalizing s with
  | nil => exact hevery
  | cons fd rest ih =>
      have hfirst : (haltCleanFd s pcbPtr fd).kernel.Everywhere P := by
        unfold haltCleanFd
        split
        · exact everywhere_close hlaw hevery _
        · exact hevery
      unfold haltCleanFds
      cases hclean : haltCleanFd s pcbPtr fd with
      | returned value bytes s' =>
          rw [hclean] at hfirst
          exact ih hfirst
      | pageFault s' =>
          rw [hclean] at hfirst
          exact hfirst

theorem everywhere_haltRestore (hlaw : DescriptorLaw P) {again : Kernel → Option Halting}
    {status : BitVec 32} {halting : Halting}
    (hagain : ∀ faulted : Kernel, faulted.Everywhere P → again faulted = some halting →
      halting.answer.1.Everywhere P)
    (hevery : s.Everywhere P) (hrestore : haltRestore again s status = some halting) :
    halting.answer.1.Everywhere P := by
  have hrestored : (haltRestorePage (haltRestoreNum s s.pcbPtr)).Everywhere P :=
    hevery.of_pcb rfl
  have hclean := everywhere_haltCleanFds hlaw s.pcbPtr openSlots hrestored
  unfold haltRestore at hrestore
  dsimp only at hrestore
  split at hrestore
  · rename_i hend
    rw [hend] at hclean
    obtain rfl := Option.some.inj hrestore
    exact hclean.of_pcb rfl
  · rename_i faulted hend
    rw [hend] at hclean
    exact hagain faulted hclean hrestore

theorem everywhere_haltFuel (hlaw : DescriptorLaw P) {fuel : ℕ} {status : BitVec 32}
    {halting : Halting} (hevery : s.Everywhere P)
    (hhalt : haltFuel img frame fuel s status = some halting) :
    halting.answer.1.Everywhere P := by
  induction fuel generalizing s status with
  | zero => contradiction
  | succ fuel ih =>
      have hagain : ∀ faulted : Kernel, faulted.Everywhere P →
          ((printLiteral faulted pageFaultText).bind fun printed =>
            haltFuel img frame fuel printed 256) = some halting →
          halting.answer.1.Everywhere P := by
        intro faulted hfaulted hfault
        obtain ⟨printed, hprint, hrest⟩ := Option.bind_eq_some_iff.mp hfault
        exact ih (hfaulted.of_view (view_printLiteral hprint)) hrest
      unfold haltFuel at hhalt
      dsimp only at hhalt
      split at hhalt
      · obtain ⟨execution, hexecute, hlast⟩ := Option.bind_eq_some_iff.mp hhalt
        have hforgotten : (haltForgetProcess (haltRelease s)).Everywhere P := hevery.of_pcb rfl
        have hshell := everywhere_execute hlaw hforgotten hexecute
        cases execution with
        | returned value s' => exact everywhere_haltRestore hlaw hagain hshell hlast
        | started s' entry image =>
            obtain rfl := Option.some.inj hlast
            exact hshell
      · have hreleased : (haltRelease s).Everywhere P := hevery.of_pcb rfl
        exact everywhere_haltRestore hlaw hagain hreleased hhalt

theorem everywhere_excHandler (hlaw : DescriptorLaw P) {exc : Exc} {halting : Halting}
    (hevery : s.Everywhere P) (hexc : excHandler img s exc frame = some halting) :
    halting.answer.1.Everywhere P := by
  obtain ⟨printed, hprint, hhalt⟩ := Option.bind_eq_some_iff.mp hexc
  have hcleared : (if exc = .pf then s else clear s).Everywhere P := by
    split
    · exact hevery
    · exact hevery.of_view (view_clear s)
  exact everywhere_haltFuel hlaw (hcleared.of_view (view_printLiteral hprint)) hhalt

theorem everywhere_answer (hlaw : DescriptorLaw P) {result : CallResult}
    {final : Kernel × Answer} (hevery : result.kernel.Everywhere P)
    (hanswer : result.answer img frame = some final) : final.1.Everywhere P := by
  cases result with
  | returned value bytes s' =>
      obtain rfl := Option.some.inj hanswer
      exact hevery
  | pageFault s' =>
      obtain ⟨halting, hexc, rfl⟩ := Option.map_eq_some_iff.mp hanswer
      exact everywhere_excHandler hlaw hevery hexc

theorem everywhere_saveContext (hevery : s.Everywhere P) (cpu : Cpu) :
    (saveContext s cpu).Everywhere P :=
  hevery.modifyPcb fun fd => hevery s.pcbPtr fd

theorem everywhere_pitHandler (hevery : s.Everywhere P) (cpu : Cpu) :
    (pitHandler link s cpu).1.Everywhere P := by
  unfold pitHandler
  split
  · exact hevery
  · dsimp only
    refine Kernel.Everywhere.of_pcb (s := saveContext _ cpu)
      (everywhere_saveContext (Kernel.Everywhere.of_view ?_ (view_mapVidmap link _)) cpu) rfl
    exact hevery.of_pcb rfl

theorem everywhere_switchTerminal (hlaw : DescriptorLaw P) {newTerminal : Fin 3} {cpu : Cpu}
    (hevery : s.Everywhere P)
    (hswitch : switchTerminal img s newTerminal cpu frame = some next) :
    next.Everywhere P := by
  have hshown : (showTerminal s newTerminal).Everywhere P :=
    hevery.of_view (view_showTerminal s newTerminal)
  unfold switchTerminal at hswitch
  dsimp only at hswitch
  split at hswitch
  · obtain ⟨execution, hexecute, hnext⟩ := Option.map_eq_some_iff.mp hswitch
    have hrunning : Kernel.Everywhere P
        { saveContext (showTerminal s newTerminal) cpu with terminalNum := newTerminal } :=
      (everywhere_saveContext hshown cpu).of_pcb rfl
    have hcleared := hrunning.of_view (view_clear _)
    have hshell := everywhere_execute hlaw hcleared hexecute
    cases execution with
    | returned value s' => exact hnext ▸ hshell.of_pcb rfl
    | started s' entry image => exact hnext ▸ hshell
  · exact Option.some.inj hswitch ▸ hshown

theorem everywhere_altSwitch (hlaw : DescriptorLaw P) {newTerminal : Fin 3} {cpu : Cpu}
    (hevery : s.Everywhere P) (hswitch : altSwitch img s newTerminal cpu frame = some next) :
    next.Everywhere P := by
  unfold altSwitch at hswitch
  split at hswitch
  · exact everywhere_switchTerminal hlaw hevery hswitch
  · exact Option.some.inj hswitch ▸ hevery

theorem everywhere_keyboardHandler (hlaw : DescriptorLaw P) {scancode : ℕ} {cpu : Cpu}
    (hevery : s.Everywhere P)
    (hkey : keyboardHandler img s scancode cpu frame = some next) : next.Everywhere P := by
  unfold keyboardHandler at hkey
  split at hkey
  case h_10 | h_11 | h_12 => exact everywhere_altSwitch hlaw hevery hkey
  case h_13 => exact hevery.of_view (view_keyboardTab hkey)
  case h_14 => exact hevery.of_view (view_keyboardBackspace hkey)
  case h_15 => exact hevery.of_view (view_keyboardEnter hkey)
  case h_16 => exact hevery.of_view (view_keyboardPrint hkey)
  all_goals exact hevery.of_pcb (Option.some.inj hkey ▸ rfl)

theorem everywhere_write {fd nbytes : ℤ} {buf : UserPointer} {result : CallResult}
    (hevery : s.Everywhere P) (hwrite : write s fd buf nbytes = some result) :
    result.kernel.Everywhere P :=
  hevery.of_view (write_keeps hwrite).view_eq

theorem everywhere_fileRead {fd : Fin 8} {count : ℕ} (hevery : s.Everywhere P)
    (hmoved : P s.pcbPtr fd { s.fileDesc fd with
      filePos := (s.fileDesc fd).filePos + BitVec.ofInt 32
        (readData img (s.fileDesc fd).inode (s.fileDesc fd).filePos.toNat count).1 }) :
    (fileRead img s fd count).kernel.Everywhere P := by
  unfold fileRead
  exact hevery.modifyFd (f := fun desc => { desc with
    filePos := desc.filePos + BitVec.ofInt 32
      (readData img (s.fileDesc fd).inode (s.fileDesc fd).filePos.toNat count).1 }) hmoved

theorem read_cases {fd nbytes : ℤ} {buf : UserPointer} (frame : StackFrame) {result : CallResult}
    (hread : read img s fd buf nbytes = some result) :
    (∃ index count, s.fileRequest (.read fd buf nbytes frame) = some (index, count) ∧
      result = fileRead img s index count) ∨ result.kernel.pcb = s.pcb := by
  unfold read at hread
  split at hread
  · rename_i index memory hindex
    split at hread
    · exact .inr (Option.some.inj hread ▸ rfl)
    · rename_i hproper
      split at hread
      · exact .inr (Option.some.inj hread ▸ rfl)
      · rename_i hflags
        cases hfops : (s.fileDesc index).fops with
        | none =>
            rw [hfops] at hread
            exact .inr (Option.some.inj hread ▸ rfl)
        | some row =>
            rw [hfops] at hread
            cases row with
            | rtc => exact .inr (Option.some.inj hread ▸ rfl)
            | dir =>
                obtain rfl := Option.some.inj hread
                right
                unfold dirRead
                split
                · rfl
                · split <;> rfl
            | file =>
                refine .inl ⟨index, nbytes.toNat, ?_, (Option.some.inj hread).symm⟩
                have hguard : 0 ≤ nbytes ∧ fd ≠ 1 ∧ (s.fileDesc index).flags ≠ 0 ∧
                    (s.fileDesc index).fops = some .file :=
                  ⟨by omega, by omega, hflags, hfops⟩
                simp only [Kernel.fileRequest, hindex, Option.bind_some]
                rw [if_pos hguard]
            | term =>
                obtain ⟨⟨s', bytes⟩, hline, rfl⟩ := Option.map_eq_some_iff.mp hread
                exact .inr (congrArg ProcessView.pcb (view_terminalRead hline))
  · exact .inr (Option.some.inj hread ▸ rfl)

/-! ## What `open` stores -/

/-- The branches of `open` and its last stores fill the descriptor; the operations are
those of the type, if it has any. -/
theorem openByType_fills {fd : Fin 8} {dentry : Dentry}
    (hopen : openByType s fd dentry = some next) :
    ∃ fops inode, (next.modifyFd next.pcbPtr fd fun desc =>
        { desc with flags := 1, filePos := 0 }).pcb =
          (s.modifyFd s.pcbPtr fd fun _ => ⟨fops, inode, 0, 1⟩).pcb ∧
      ∀ row, typeRow dentry.fileType = some row → fops = some row := by
  unfold openByType at hopen
  split_ifs at hopen with hrtc hdir hfile
  · obtain ⟨rated, hrate, rfl⟩ := Option.map_eq_some_iff.mp hopen
    have hview : rated.view = s.view := view_rtcWrite hrate
    have hpcb : rated.pcb = s.pcb := congrArg ProcessView.pcb hview
    have hptr : rated.pcbPtr = s.pcbPtr := congrArg ProcessView.pcbPtr hview
    refine ⟨some .rtc, 0, ?_, ?_⟩
    · have hstill : (rated.modifyFd rated.pcbPtr fd fun desc =>
          { desc with fops := some .rtc, inode := 0 }).pcbPtr = s.pcbPtr := hptr
      rw [hstill, hptr]
      simp [Kernel.modifyFd, Kernel.modifyPcb, hpcb]
    · intro row hrow
      rw [hrtc] at hrow
      exact hrow
  · obtain rfl := Option.some.inj hopen
    refine ⟨some .dir, 0, ?_, ?_⟩
    · simp [Kernel.modifyFd, Kernel.modifyPcb, Kernel.pcbPtr, dirOpen]
    · intro row hrow
      rw [hdir] at hrow
      exact hrow
  · obtain rfl := Option.some.inj hopen
    refine ⟨some .file, dentry.inodeNum, ?_, ?_⟩
    · simp [Kernel.modifyFd, Kernel.modifyPcb, Kernel.pcbPtr]
    · intro row hrow
      rw [hfile] at hrow
      exact hrow
  · obtain rfl := Option.some.inj hopen
    refine ⟨(s.fileDesc fd).fops, (s.fileDesc fd).inode, ?_, ?_⟩
    · simp [Kernel.modifyFd, Kernel.modifyPcb, Kernel.fileDesc]
    · intro row hrow
      unfold typeRow at hrow
      split at hrow
      · exact absurd ‹_› hrtc
      · exact absurd ‹_› hdir
      · exact absurd ‹_› hfile
      · contradiction

theorem openFile_cases {filename : Option (List UInt8)} {result : CallResult}
    (hopen : openFile img s filename = some result) :
    result = .returned (-1) [] s ∨
      ∃ dentry fd opened fops inode, filename.bind (readDentryByName img) = some dentry ∧
        openSlots.find? (fun fd => (s.fileDesc fd).flags = 0) = some fd ∧
        result = .returned fd.val [] opened ∧
        opened.pcb = (s.modifyFd s.pcbPtr fd fun _ => ⟨fops, inode, 0, 1⟩).pcb ∧
        ∀ row, typeRow dentry.fileType = some row → fops = some row := by
  unfold openFile at hopen
  split at hopen
  · exact .inl (Option.some.inj hopen).symm
  · rename_i dentry hfound
    split at hopen
    · exact .inl (Option.some.inj hopen).symm
    · rename_i fd hfind
      obtain ⟨filled, htype, rfl⟩ := Option.map_eq_some_iff.mp hopen
      obtain ⟨fops, inode, hpcb, hrow⟩ := openByType_fills htype
      exact .inr ⟨dentry, fd, _, fops, inode, hfound, hfind, rfl, hpcb, hrow⟩

/-! ## Steps -/

/-- Every operation but `open` and a read of a regular file keeps the property. -/
theorem step_everywhere (hlaw : DescriptorLaw P) {op : Op} (hevery : s.Everywhere P)
    (hopen : ∀ filename, op ≠ .openFile filename)
    (hread : ∀ index count, s.fileRequest op = some (index, count) →
      (fileRead img s index count).kernel.Everywhere P)
    (hstep : step img link s op = some next) : next.Everywhere P := by
  obtain ⟨final, hperform, rfl⟩ := Option.map_eq_some_iff.mp hstep
  cases op with
  | execute command frame =>
      obtain ⟨execution, hexecute, rfl⟩ := Option.map_eq_some_iff.mp hperform
      have hkept := everywhere_execute hlaw hevery hexecute
      cases execution <;> exact hkept
  | halt status frame =>
      obtain ⟨halting, hhalt, rfl⟩ := Option.map_eq_some_iff.mp hperform
      exact everywhere_haltFuel hlaw hevery hhalt
  | read fd buf nbytes frame =>
      obtain ⟨result, hcall, hanswer⟩ := Option.bind_eq_some_iff.mp hperform
      apply everywhere_answer hlaw _ hanswer
      obtain ⟨index, count, hrequest, rfl⟩ | hpcb := read_cases frame hcall
      · exact hread index count hrequest
      · exact hevery.of_pcb hpcb
  | write fd buf nbytes frame =>
      obtain ⟨result, hwrite, hanswer⟩ := Option.bind_eq_some_iff.mp hperform
      exact everywhere_answer hlaw (everywhere_write hevery hwrite) hanswer
  | openFile filename => exact absurd rfl (hopen filename)
  | close fd frame => exact everywhere_answer hlaw (everywhere_close hlaw hevery fd) hperform
  | getargs buf nbytes => exact Option.some.inj hperform ▸ hevery
  | vidmap screenStart =>
      obtain rfl := Option.some.inj hperform
      exact hevery.of_view (view_vidmap link s screenStart)
  | exception exc frame =>
      obtain ⟨halting, hexc, rfl⟩ := Option.map_eq_some_iff.mp hperform
      exact everywhere_excHandler hlaw hevery hexc
  | pit cpu =>
      obtain rfl := Option.some.inj hperform
      exact everywhere_pitHandler hevery cpu
  | keyboard scancode cpu frame =>
      obtain ⟨s', hkey, rfl⟩ := Option.map_eq_some_iff.mp hperform
      exact everywhere_keyboardHandler hlaw hevery hkey
  | switchTerminal newTerminal cpu frame =>
      obtain ⟨s', hswitch, rfl⟩ := Option.map_eq_some_iff.mp hperform
      exact everywhere_switchTerminal hlaw hevery hswitch
  | rtcInterrupt => exact Option.some.inj hperform ▸ hevery.of_pcb rfl

end Frame

end VirtualOS
