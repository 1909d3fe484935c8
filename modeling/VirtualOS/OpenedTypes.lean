import VirtualOS.DescriptorFrames
import VirtualOS.FreshDescriptors
import VirtualOS.FileReads
import Mathlib.Tactic

/-!
# The operations of open descriptors

`open` chooses the operations of a descriptor by the type of the entry, which
comes from the image and is never checked.  For a type without a branch the
descriptor is handed out with the operations that its slot was left with.  The
types of the opened entries are noted beside the kernel; as long as no such
entry gets a descriptor, every open descriptor has the row of its type.
-/

namespace VirtualOS

open PartialRuns

/-! ## The entries that were opened -/

/-- The type of the entry that a descriptor of a control block was last opened from. -/
abbrev OpenHistory := BitVec 32 → Fin 8 → ℕ

/-- An `open` that hands out a descriptor notes the type of its entry. -/
def noteOpen (img : Image) (s : Kernel) (history : OpenHistory) (op : Op) : OpenHistory :=
  match op.opened img, opensFd img s op with
  | some dentry, some fd =>
      Function.update history s.pcbPtr
        (Function.update (history s.pcbPtr) fd dentry.fileType)
  | _, _ => history

def notedStep (img : Image) (link : Link) (state : Kernel × OpenHistory) (op : Op) :
    Option (Kernel × OpenHistory) :=
  (step img link state.1 op).map fun next => (next, noteOpen img state.1 state.2 op)

/-- A descriptor in use has the operations of the entry it was opened from; the
first two have those of the terminal. -/
def CarriesRow (history : OpenHistory) (address : BitVec 32) (fd : Fin 8) (desc : FileDesc) :
    Prop :=
  desc.flags = 1 → ∃ row, desc.fops = some row ∧
    if fd.val ≤ 1 then row = .term else typeRow (history address fd) = some row

/-- What the operations should do with the types of entries. -/
structure OpensByType (img : Image) (link : Link) (state : Kernel × OpenHistory) (op : Op) :
    Prop where
  carries : ∀ next, notedStep img link state op = some next →
    next.1.Everywhere (CarriesRow next.2)
  rejects : ∀ dentry ∈ op.opened img, typeRow dentry.fileType = none →
    ∃ next bytes, perform img link state.1 op = some (next, ⟨some (-1), bytes⟩) ∧
      ∀ address fd, ((next.pcb address).fileDescArray fd).flags =
        ((state.1.pcb address).fileDescArray fd).flags

theorem carriesRow_law (history : OpenHistory) : DescriptorLaw (CarriesRow history) where
  released address fd desc _ hflags := absurd hflags (by simp)
  standard address fd desc hfd _ _ := ⟨.term, rfl, by rw [if_pos hfd]⟩

section Steps

variable {img : Image} {link : Link} {s next : Kernel} {history : OpenHistory} {op : Op}

theorem carriesRow_fileRead (hevery : s.Everywhere (CarriesRow history)) (fd : Fin 8)
    (count : ℕ) : (fileRead img s fd count).kernel.Everywhere (CarriesRow history) := by
  apply everywhere_fileRead hevery
  exact hevery s.pcbPtr fd

/-- A filled descriptor keeps the law when the row of its type is noted beside it. -/
theorem carriesRow_filled {fd : Fin 8} {type : ℕ} {row : FileType} (inode : ℕ)
    (hevery : s.Everywhere (CarriesRow history)) (hfd : 1 < fd.val)
    (htype : typeRow type = some row) :
    (s.modifyFd s.pcbPtr fd fun _ => ⟨some row, inode, 0, 1⟩).Everywhere
      (CarriesRow (Function.update history s.pcbPtr
        (Function.update (history s.pcbPtr) fd type))) := by
  intro address other hflags
  by_cases haddress : address = s.pcbPtr
  · subst haddress
    by_cases hother : other = fd
    · subst hother
      refine ⟨row, by simp [Kernel.modifyFd, Kernel.modifyPcb], ?_⟩
      rw [if_neg (by omega)]
      simpa using htype
    · have hold := hevery s.pcbPtr other
      simp only [CarriesRow, Kernel.modifyFd, Kernel.modifyPcb, Function.update_self, ne_eq,
        hother, not_false_eq_true, Function.update_of_ne] at hold hflags ⊢
      exact hold hflags
  · have hold := hevery address other
    simp only [CarriesRow, Kernel.modifyFd, Kernel.modifyPcb, ne_eq, haddress,
      not_false_eq_true, Function.update_of_ne] at hold hflags ⊢
    exact hold hflags

theorem noteOpen_of_opensFd_none (hnone : opensFd img s op = none) :
    noteOpen img s history op = history := by
  unfold noteOpen
  rw [hnone]
  split
  · contradiction
  · rfl

theorem carriesRow_open {filename : Option (List UInt8)}
    (hevery : s.Everywhere (CarriesRow history))
    (hguard : NoUntypedOpen img s (.openFile filename))
    (hstep : step img link s (.openFile filename) = some next) :
    next.Everywhere (CarriesRow (noteOpen img s history (.openFile filename))) := by
  obtain ⟨final, hperform, rfl⟩ := Option.map_eq_some_iff.mp hstep
  obtain ⟨result, hopen, hanswer⟩ := Option.bind_eq_some_iff.mp hperform
  obtain rfl | ⟨dentry, fd, opened, fops, inode, hfound, hfind, rfl, hpcb, hrow⟩ :=
    openFile_cases hopen
  · obtain rfl := Option.some.inj hanswer
    have hnone : opensFd img s (.openFile filename) = none := by
      simp only [opensFd, hopen, Option.bind_some]
      rfl
    rw [noteOpen_of_opensFd_none hnone]
    exact hevery
  · obtain rfl := Option.some.inj hanswer
    have hsome : opensFd img s (.openFile filename) = some fd := by
      simp only [opensFd, hopen, Option.bind_some, fdIndex_val]
    have hnoted : noteOpen img s history (.openFile filename) =
        Function.update history s.pcbPtr
          (Function.update (history s.pcbPtr) fd dentry.fileType) := by
      simp only [noteOpen, Op.opened, hfound, hsome]
    have hfd : 1 < fd.val := one_lt_of_mem_openSlots (List.mem_of_find?_eq_some hfind)
    have hfree : (s.fileDesc fd).flags = 0 := by simpa using List.find?_some hfind
    -- An entry without a row would have met a free descriptor.
    obtain ⟨row, htype⟩ : ∃ row, typeRow dentry.fileType = some row := by
      cases htype : typeRow dentry.fileType with
      | some row => exact ⟨row, rfl⟩
      | none => exact absurd hfree (hguard dentry hfound htype fd hfd)
    have hfilled := carriesRow_filled inode hevery hfd htype
    rw [← hrow row htype] at hfilled
    rw [hnoted]
    exact hfilled.of_pcb hpcb

theorem carriesRow_step (hevery : s.Everywhere (CarriesRow history))
    (hguard : NoUntypedOpen img s op) (hstep : step img link s op = some next) :
    next.Everywhere (CarriesRow (noteOpen img s history op)) := by
  by_cases hopen : ∃ filename, op = .openFile filename
  · obtain ⟨filename, rfl⟩ := hopen
    exact carriesRow_open hevery hguard hstep
  · have hother : ∀ filename, op ≠ .openFile filename := fun filename heq => hopen ⟨filename, heq⟩
    have hsame : noteOpen img s history op = history := by
      cases op with
      | openFile filename => exact absurd rfl (hother filename)
      | _ => rfl
    rw [hsame]
    exact step_everywhere (carriesRow_law history) hevery hother
      (fun index count _ => carriesRow_fileRead hevery index count) hstep

theorem openFile_full {filename : Option (List UInt8)} {dentry : Dentry}
    (hfound : filename.bind (readDentryByName img) = some dentry)
    (hfull : ∀ fd : Fin 8, 1 < fd.val → (s.fileDesc fd).flags ≠ 0) :
    openFile img s filename = some (.returned (-1) [] s) := by
  have hnone : openSlots.find? (fun fd => (s.fileDesc fd).flags = 0) = none := by
    apply List.find?_eq_none.mpr
    intro fd hfd
    simpa using hfull fd (one_lt_of_mem_openSlots hfd)
  simp only [openFile, hfound, hnone]

theorem openFile_of_free {filename : Option (List UInt8)} {dentry : Dentry} {fd : Fin 8}
    {result : CallResult} (hfound : filename.bind (readDentryByName img) = some dentry)
    (hfd : 1 < fd.val) (hfree : (s.fileDesc fd).flags = 0)
    (hopen : openFile img s filename = some result) :
    ∃ (slot : Fin 8) (opened : Kernel), result = .returned slot [] opened := by
  have hsome : openSlots.find? (fun fd => (s.fileDesc fd).flags = 0) ≠ none := by
    intro hnone
    have hreject := List.find?_eq_none.mp hnone fd (mem_openSlots.mpr hfd)
    simp [hfree] at hreject
  obtain ⟨slot, hslot⟩ := Option.ne_none_iff_exists'.mp hsome
  simp only [openFile, hfound, hslot] at hopen
  obtain ⟨opened, _, rfl⟩ := Option.map_eq_some_iff.mp hopen
  exact ⟨slot, _, rfl⟩

/-- An entry without a row is refused exactly if the table is full. -/
theorem opensByType_iff (hevery : s.Everywhere (CarriesRow history)) :
    OpensByType img link (s, history) op ↔ NoUntypedOpen img s op := by
  constructor
  · rintro ⟨-, hrejects⟩ dentry hfound htype fd hfd hfree
    obtain ⟨next, bytes, hperform, -⟩ := hrejects dentry hfound htype
    cases op with
    | openFile filename =>
        obtain ⟨result, hopen, hanswer⟩ := Option.bind_eq_some_iff.mp hperform
        obtain ⟨slot, opened, rfl⟩ := openFile_of_free hfound hfd hfree hopen
        have hvalue := congrArg (fun final : Kernel × Answer => final.2.value)
          (Option.some.inj hanswer)
        have hnonneg : ((slot.val : ℕ) : ℤ) = -1 := Option.some.inj hvalue
        omega
    | _ => exact absurd hfound (by simp [Op.opened])
  · intro hguard
    constructor
    · intro next hnext
      obtain ⟨after, hstep, rfl⟩ := Option.map_eq_some_iff.mp hnext
      exact carriesRow_step hevery hguard hstep
    · intro dentry hfound htype
      cases op with
      | openFile filename =>
          have hopen := openFile_full hfound (hguard dentry hfound htype)
          refine ⟨s, [], ?_, fun _ _ => rfl⟩
          simp only [perform, hopen, Option.bind_some]
      | _ => exact absurd hfound (by simp [Op.opened])

end Steps

/-! ## Runs -/

theorem Booted.everywhere_carriesRow {boot first : Kernel} {img : Image} {frame : StackFrame}
    {entry image : List UInt8} (hboot : Booted boot)
    (hfirst : execute img boot (some shellName) frame = some (.started first entry image))
    (history : OpenHistory) : first.Everywhere (CarriesRow history) := by
  have hstart : boot.Everywhere (CarriesRow history) := by
    intro address fd hflags
    rw [hboot.flags address fd] at hflags
    contradiction
  exact everywhere_execute (carriesRow_law history) hstart hfirst

/-- From the first shell on, the operations treat the types of entries as they
should in exactly those runs in which no entry without a row is opened while a
descriptor is free. -/
theorem opensByType_run_iff {img : Image} {link : Link} {boot first : Kernel}
    {frame : StackFrame} {entry image : List UInt8} {ops : List Op} (hboot : Booted boot)
    (hfirst : execute img boot (some shellName) frame = some (.started first entry image))
    (history : OpenHistory) :
    first.Everywhere (CarriesRow history) ∧
      (Meets (notedStep img link) (OpensByType img link) (first, history) ops ↔
        Meets (notedStep img link) (fun state op => NoUntypedOpen img state.1 op)
          (first, history) ops) := by
  have hstart := hboot.everywhere_carriesRow hfirst history
  refine ⟨hstart, ?_⟩
  apply meets_iff_of_invariant (fun state => state.1.Everywhere (CarriesRow state.2)) _ _ hstart
  · intro state op next hinv hguard hnext
    obtain ⟨after, hstep, rfl⟩ := Option.map_eq_some_iff.mp hnext
    exact carriesRow_step hinv hguard hstep
  · intro state op hinv
    exact opensByType_iff hinv

/-- A file and the clock are opened, closed and opened again. -/
def typedOpens : List Op :=
  [.openFile (some (ascii "frame0.txt")), .openFile (some (ascii "rtc")), .close 2 zeroFrame,
    .openFile (some (ascii "."))]

theorem opensByType_typedOpens :
    Meets (notedStep smallImage zeroLink) (OpensByType smallImage zeroLink)
      (shellKernel, fun _ _ => 0) typedOpens := by
  obtain ⟨entry, image, hfirst⟩ := execute_bootKernel
  exact (opensByType_run_iff bootKernel_booted hfirst _).2.mpr (by decide +kernel)

/-- The entry of type 7 gets descriptor 2, which has no operations. -/
theorem untypedOpen_of_oddImage : ∃ entry image opened,
    execute oddImage bootKernel (some shellName) zeroFrame =
        some (.started shellKernel entry image) ∧
      perform oddImage zeroLink shellKernel openFrame = some (opened, ⟨some 2, []⟩) ∧
      (opened.fileDesc 2).flags = 1 ∧ (opened.fileDesc 2).fops = none ∧
      ¬ Meets (notedStep oddImage zeroLink) (OpensByType oddImage zeroLink)
        (shellKernel, fun _ _ => 0) [openFrame] := by
  have hslot : freeSlot (loadCurrentProcess bootKernel) = some 1 := by decide +kernel
  obtain ⟨entry, image, hfirst⟩ := execute_shell_eq zeroFrame oddImage_loadable hslot
  have hopen : (perform oddImage zeroLink shellKernel openFrame).map (fun final =>
      (final.2.value, final.2.bytes, (final.1.fileDesc 2).flags, (final.1.fileDesc 2).fops)) =
        some (some 2, [], 1, none) := by
    decide +kernel
  obtain ⟨⟨opened, ⟨value, bytes⟩⟩, hperform, hfacts⟩ := Option.map_eq_some_iff.mp hopen
  simp only [Prod.mk.injEq] at hfacts
  obtain ⟨rfl, rfl, hflags, hfops⟩ := hfacts
  refine ⟨entry, image, opened, hfirst, hperform, hflags, hfops, fun hmeets => ?_⟩
  have hstep : notedStep oddImage zeroLink (shellKernel, fun _ _ => 0) openFrame =
      some (opened, noteOpen oddImage shellKernel (fun _ _ => 0) openFrame) := by
    rw [notedStep, step, hperform]
    rfl
  obtain ⟨row, hrow, -⟩ := hmeets.1.carries _ hstep opened.pcbPtr 2 hflags
  rw [Kernel.fileDesc] at hfops
  rw [hfops] at hrow
  contradiction

end VirtualOS
