import VirtualOS.CallingPrograms
import VirtualOS.DirectoryReads
import VirtualOS.StoredArguments
import VirtualOS.FreshDescriptors
import VirtualOS.CommandParser
import VirtualOS.KernelStores
import Mathlib.Tactic

/-!
# What a process sees of the kernel

To a process that uses its argument, its descriptors and the terminal for output, the
kernel is a private service: a string, a table of open files, each the bytes that are
still to be read, and the names of the directory that are still to be listed.  The
kernel with any number of other processes, interrupts and terminal switches implements
this service, as long as nothing is stored over its memory: the others have to spare it,
and the process keeps its buffers on its own page.  Only the position in the directory is
shared, so names are promised as long as no other process opens or reads the directory.
-/

namespace VirtualOS

open PartialRuns LinkedStacks CallingPrograms

/-! ## The requests of a program -/

inductive Request where
  | getargs (buf : UserPointer) (nbytes : ℤ)
  | openFile (filename : Option (List UInt8))
  | read (fd : ℤ) (buf : UserPointer) (nbytes : ℤ)
  | write (fd : ℤ) (buf : UserPointer) (nbytes : ℤ)
  | close (fd : ℤ)
  | vidmap (screenStart : BitVec 32)

def Request.op (frame : StackFrame) : Request → Op
  | .getargs buf nbytes => .getargs buf nbytes
  | .openFile filename => .openFile filename
  | .read fd buf nbytes => .read fd buf nbytes frame
  | .write fd buf nbytes => .write fd buf nbytes frame
  | .close fd => .close fd frame
  | .vidmap screenStart => .vidmap screenStart

def Op.isInterrupt : Op → Bool
  | .pit _ => true
  | .keyboard _ _ _ => true
  | .switchTerminal _ _ _ => true
  | .rtcInterrupt => true
  | _ => false

/-- The kernel as the host of process `num`: its turn is while it runs, and interrupts
are nobody's calls. -/
def processHost (img : Image) (map : MemoryMap) (num : ℕ) :
    Host Kernel Op StackFrame Request Answer where
  perform := performThrough img map
  label request frame := request.op frame
  turn s := s.running.processNum = num
  foreign s op := s.running.processNum ≠ num ∨ op.isInterrupt

/-- The buffer lies in the 4MB at 128MB. -/
def UserBuffer.InUserPage (buffer : UserBuffer) (nbytes : ℤ) : Prop :=
  0x8000000 ≤ buffer.address.toNat ∧ buffer.address.toNat + nbytes.toNat ≤ 0x8400000

instance (buffer : UserBuffer) (nbytes : ℤ) : Decidable (buffer.InUserPage nbytes) :=
  inferInstanceAs (Decidable (_ ∧ _))

def Request.InUserPage : Request → Prop
  | .getargs buf nbytes => ∀ buffer ∈ buf, buffer.InUserPage nbytes
  | .read _ buf nbytes => ∀ buffer ∈ buf, buffer.InUserPage nbytes
  | .write _ buf nbytes => ∀ buffer ∈ buf, buffer.InUserPage nbytes
  | _ => True

instance Request.decidableInUserPage : ∀ request : Request, Decidable request.InUserPage
  | .getargs buf nbytes => inferInstanceAs (Decidable (∀ buffer ∈ buf, buffer.InUserPage nbytes))
  | .read _ buf nbytes => inferInstanceAs (Decidable (∀ buffer ∈ buf, buffer.InUserPage nbytes))
  | .write _ buf nbytes => inferInstanceAs (Decidable (∀ buffer ∈ buf, buffer.InUserPage nbytes))
  | .openFile _ | .close _ | .vidmap _ => isTrue trivial

/-! ## The service -/

/-- An open file is the bytes that are still to be read. -/
inductive Handle where
  | rtc
  | dir
  | term
  | file (rest : List UInt8)

structure Private where
  argument : List UInt8
  table : Fin 8 → Option Handle
  /-- The names still to be listed, if the directory is used by this process alone. -/
  names : Option (List (List UInt8))

def Dentry.handle (img : Image) (dentry : Dentry) : Handle :=
  if dentry.fileType = 0 then .rtc
  else if dentry.fileType = 1 then .dir
  else .file (img.fileContents dentry.inodeNum)

def Image.names (img : Image) : List (List UInt8) :=
  (List.range img.dirCount).map fun k => (img.direntry k).name

def Answer.refusal : Answer := ⟨some (-1), []⟩

/-- What the program finds in `eax`. -/
def Answer.result (answer : Answer) : ℤ := answer.value.getD 0

namespace Private

def setHandle (v : Private) (fd : Fin 8) (handle : Option Handle) : Private :=
  { v with table := Function.update v.table fd handle }

def openEntry (img : Image) (v : Private) (fd : Fin 8) (dentry : Dentry) : Private :=
  { v.setHandle fd (some (dentry.handle img)) with
    names := if dentry.fileType = 1 then v.names.map fun _ => img.names else v.names }

def serveOpen (img : Image) (v : Private) (filename : Option (List UInt8)) : Private × Answer :=
  match filename.bind (readDentryByName img) with
  | none => (v, .refusal)
  | some dentry =>
      match openSlots.find? fun fd => (v.table fd).isNone with
      | none => (v, .refusal)
      | some fd => (v.openEntry img fd dentry, ⟨some fd.val, []⟩)

/-- A read on an open descriptor.  What comes from the keyboard is not promised. -/
def serveRead (v : Private) (fd : Fin 8) (nbytes : ℕ) : Handle → Option (Private × Answer)
  | .rtc => some (v, .ofBytes [])
  | .term => none
  | .dir => v.names.map fun names =>
      ({ v with names := some names.tail }, .ofBytes ((names.headD []).take nbytes))
  | .file rest =>
      some (v.setHandle fd (some (.file (rest.drop nbytes))), .ofBytes (rest.take nbytes))

def serveWrite (v : Private) (nbytes : ℤ) : Handle → Private × Answer
  | .rtc => (v, ⟨some 0, []⟩)
  | .term => (v, ⟨some nbytes, []⟩)
  | .dir => (v, .refusal)
  | .file _ => (v, .refusal)

/-- The answers of the service.  A `write` to a descriptor that is not open is not
promised: it goes to whatever the descriptor was last opened for. -/
def respond (img : Image) (v : Private) : Request → Option (Private × Answer)
  | .getargs buf nbytes =>
      if buf = none ∨ nbytes < 0 ∨ v.argument = [] then some (v, .refusal)
      else some (v, ⟨some 0, strncpyBytes v.argument nbytes.toNat⟩)
  | .openFile filename => some (v.serveOpen img filename)
  | .read fd buf nbytes =>
      match fdIndex fd, buf with
      | some index, some _ =>
          if nbytes < 0 ∨ fd = 1 then some (v, .refusal)
          else
            match v.table index with
            | none => some (v, .refusal)
            | some handle => v.serveRead index nbytes.toNat handle
      | _, _ => some (v, .refusal)
  | .write fd buf nbytes =>
      match fdIndex fd, buf with
      | some index, some _ =>
          if nbytes < 0 ∨ fd = 0 then some (v, .refusal)
          else (v.table index).map fun handle => v.serveWrite nbytes handle
      | _, _ => some (v, .refusal)
  | .close fd =>
      match fdIndex fd with
      | none => some (v, .refusal)
      | some index =>
          if fd ≤ 1 then some (v, .refusal)
          else
            match v.table index with
            | none => some (v, .refusal)
            | some _ => some (v.setHandle index none, ⟨some 0, []⟩)
  | .vidmap screenStart =>
      if screenStart.toNat > 0x8400000 ∨ screenStart.toNat < 0x8000000 then some (v, .refusal)
      else some (v, ⟨some 0x8400000, []⟩)

/-- The private service.  With a buffer outside the page of the process nothing is
promised. -/
def serve (img : Image) (v : Private) (request : Request) : Option (Private × Answer) :=
  if request.InUserPage then v.respond img request else none

theorem serve_eq_some {img : Image} {v : Private} {request : Request}
    {result : Private × Answer} :
    v.serve img request = some result ↔
      request.InUserPage ∧ v.respond img request = some result := by
  unfold serve
  split
  · rename_i hpage
    exact ⟨fun hrespond => ⟨hpage, hrespond⟩, And.right⟩
  · rename_i hpage
    exact iff_of_false nofun fun hboth => hpage hboth.1

end Private

/-! ## What the kernel keeps for it -/

/-- What a descriptor is for the service. -/
def FileDesc.Shows (img : Image) (desc : FileDesc) : Option Handle → Prop
  | none => desc.flags = 0
  | some .rtc => desc.flags = 1 ∧ desc.fops = some .rtc
  | some .dir => desc.flags = 1 ∧ desc.fops = some .dir
  | some .term => desc.flags = 1 ∧ desc.fops = some .term
  | some (.file rest) => desc.flags = 1 ∧ desc.fops = some .file ∧
      desc.inode < img.inodeCount ∧ ∃ pos, pos ≤ img.inodeLength desc.inode ∧
        desc.filePos = BitVec.ofNat 32 pos ∧ rest = (img.fileContents desc.inode).drop pos

structure Pcb.Shows (img : Image) (pcb : Pcb) (v : Private) : Prop where
  argument : cString (List.ofFn pcb.argument) = v.argument
  table : ∀ fd, (pcb.fileDescArray fd).Shows img (v.table fd)

/-- Process `num` lives, and its control block and the directory position stand for
this private service. -/
structure Represents (img : Image) (num : ℕ) (alone : Prop) (s : Kernel) (v : Private) :
    Prop where
  live : ∃ family t, Scheduled s.view family ∧ num ∈ family t
  pcb : (s.pcb (pcbAddress num)).Shows img v
  names : ∀ names, v.names = some names → alone ∧ names = img.names.drop s.dirIndex

section Shows

variable {img : Image} {pcb after : Pcb} {v : Private} {desc : FileDesc} {handle : Handle}

theorem FileDesc.Shows.flags_iff {handle : Option Handle} (hshows : desc.Shows img handle) :
    desc.flags = 0 ↔ handle = none := by
  match handle, hshows with
  | none, hzero => exact iff_of_true hzero rfl
  | some .rtc, hopen => simp [hopen.1]
  | some .dir, hopen => simp [hopen.1]
  | some .term, hopen => simp [hopen.1]
  | some (.file rest), hopen => simp [hopen.1]

theorem FileDesc.Shows.flags_eq_one (hshows : desc.Shows img (some handle)) :
    desc.flags = 1 := by
  cases handle <;> exact hshows.1

theorem FileDesc.Shows.fops_ne_none (hshows : desc.Shows img (some handle)) :
    desc.fops ≠ none := by
  cases handle with
  | file rest => simp [hshows.2.1]
  | _ => simp [hshows.2]

theorem Pcb.Shows.setFd (hshows : pcb.Shows img v) (fd : Fin 8) {handle : Option Handle}
    (hdesc : desc.Shows img handle) : (pcb.setFd fd desc).Shows img (v.setHandle fd handle) where
  argument := hshows.argument
  table other := by
    by_cases hother : other = fd
    · subst hother
      simpa [Pcb.setFd, Private.setHandle] using hdesc
    · simpa [Pcb.setFd, Private.setHandle, hother] using hshows.table other

theorem Pcb.Shows.saved (hshows : pcb.Shows img v) (hstep : PcbStep pcb none after) :
    after.Shows img v := by
  cases hstep with
  | saved cpu => exact ⟨hshows.argument, hshows.table⟩

theorem Pcb.Shows.find?_eq (hshows : pcb.Shows img v) (fds : List (Fin 8)) :
    (fds.find? fun fd => (pcb.fileDescArray fd).flags = 0) =
      fds.find? fun fd => (v.table fd).isNone := by
  congr 1
  funext fd
  simp only [(hshows.table fd).flags_iff]
  cases v.table fd <;> rfl

end Shows

/-! ## What the others do -/

section Others

variable {img : Image} {map : MemoryMap} {num : ℕ} {alone : Prop} {s next : Kernel} {v : Private}
  {op : Op}

theorem fdEffect_of_isInterrupt (hop : op.isInterrupt = true) : fdEffect img s op = none := by
  cases op <;> first | rfl | contradiction

theorem endsProcess_of_isInterrupt (hop : op.isInterrupt = true) :
    endsProcess img s op = false := by
  cases op <;> first | rfl | contradiction

theorem not_usesDirectory_of_isInterrupt (hop : op.isInterrupt = true) :
    ¬ usesDirectory img s op := by
  cases op <;> first | exact id | contradiction

theorem sparesKernel_of_isInterrupt (hop : op.isInterrupt = true) :
    SparesKernel img map s op := by
  cases op <;> trivial

theorem Represents.step_other (hformed : img.WellFormed) (hshell : img.Loadable shellName)
    (hrepr : Represents img num alone s v)
    (hforeign : s.running.processNum ≠ num ∨ op.isInterrupt = true)
    (hguard : alone → ¬ usesDirectory img s op) (hspares : SparesKernel img map s op)
    (hstep : stepThrough img map s op = some next) : Represents img num alone next v := by
  rw [stepThrough_eq hspares] at hstep
  obtain ⟨family, t, hsched, hmem⟩ := hrepr.live
  have hproper : op.Proper img s := ⟨hformed.opensTyped s op, fun _ => hshell⟩
  have hnames : ∀ names, v.names = some names →
      alone ∧ names = img.names.drop next.dirIndex := by
    intro names heq
    obtain ⟨halone, hdrop⟩ := hrepr.names names heq
    exact ⟨halone, (step_dirIndex hsched hproper (hguard halone) hstep) ▸ hdrop⟩
  rcases step_cases hproper.shell hsched.sound hproper.typed hstep with
    ⟨_, hmove⟩ | ⟨hends, hend⟩
  · obtain ⟨family', hnext, hmem'⟩ := hmove.mem hsched hmem
    refine ⟨⟨family', t, hnext, hmem'⟩, ?_, hnames⟩
    rcases hmove.pcb_cases hsched hmem with hsame | ⟨hruns, hpcb⟩
    · have hsame : next.pcb (pcbAddress num) = s.pcb (pcbAddress num) := hsame
      exact hsame ▸ hrepr.pcb
    · rw [fdEffect_of_isInterrupt (hforeign.resolve_left (not_not.mpr hruns))] at hpcb
      exact Pcb.Shows.saved hrepr.pcb hpcb
  · have hne : num ≠ s.view.current := by
      intro hruns
      rw [endsProcess_of_isInterrupt (hforeign.resolve_left (not_not.mpr hruns.symm))] at hends
      contradiction
    obtain ⟨family', hnext, hmem'⟩ := hend.mem hsched hmem hne
    have hsame : next.pcb (pcbAddress num) = s.pcb (pcbAddress num) :=
      hend.pcb_eq hsched hmem hne
    exact ⟨⟨family', t, hnext, hmem'⟩, hsame ▸ hrepr.pcb, hnames⟩

end Others

/-! ## What the process does itself -/

section Own

variable {img : Image} {map : MemoryMap} {link : Link} {num : ℕ} {alone : Prop} {s next : Kernel}
  {v after : Private} {answer promised : Answer} {request : Request} {frame : StackFrame}
  {fd : Fin 8} {handle : Handle} {desc : FileDesc} {effect : Option FdEffect}

theorem Represents.pcbPtr_eq (hrepr : Represents img num alone s v)
    (hruns : s.running.processNum = num) : s.pcbPtr = pcbAddress num := by
  obtain ⟨_, _, hsched, _⟩ := hrepr.live
  rw [← hruns]
  exact hsched.pcbPtr_eq

theorem Represents.shows (hrepr : Represents img num alone s v)
    (hruns : s.running.processNum = num) (fd : Fin 8) :
    (s.fileDesc fd).Shows img (v.table fd) := by
  rw [Kernel.fileDesc, hrepr.pcbPtr_eq hruns]
  exact hrepr.pcb.table fd

/-- A step that keeps the view keeps the service. -/
theorem Represents.of_view (hrepr : Represents img num alone s v)
    (hview : next.view = s.view) : Represents img num alone next v where
  live := hview ▸ hrepr.live
  pcb := by
    have hpcb : next.pcb = s.pcb := congrArg ProcessView.pcb hview
    exact hpcb ▸ hrepr.pcb
  names := by
    have hindex : next.dirIndex = s.dirIndex := congrArg ProcessView.dirIndex hview
    exact hindex ▸ hrepr.names

/-- A step that sets one descriptor of the process. -/
theorem Represents.of_setFd {handle : Option Handle} {names : Option (List (List UInt8))}
    (hrepr : Represents img num alone s v) (hruns : s.running.processNum = num)
    (hmove : Move s.view effect next.view)
    (hpcb : next.pcb = (s.view.touch (s.view.currentPcb.setFd fd desc)).pcb)
    (hdesc : desc.Shows img handle)
    (hnames : ∀ list, names = some list → alone ∧ list = img.names.drop next.view.dirIndex) :
    Represents img num alone next { v.setHandle fd handle with names := names } where
  live := by
    obtain ⟨family, t, hsched, hmem⟩ := hrepr.live
    obtain ⟨family', hnext, hmem'⟩ := hmove.mem hsched hmem
    exact ⟨family', t, hnext, hmem'⟩
  pcb := by
    have hptr : s.view.pcbPtr = pcbAddress num := hrepr.pcbPtr_eq hruns
    rw [hpcb]
    simp only [ProcessView.touch, ProcessView.currentPcb, hptr, Function.update_self]
    have hset := hrepr.pcb.setFd fd hdesc
    exact ⟨hset.argument, hset.table⟩
  names := hnames

/-- What the process stores through its buffers stays on its page. -/
theorem Represents.sparesKernel (hrepr : Represents img num alone s v)
    (hpage : request.InUserPage) : SparesKernel img map s (request.op frame) := by
  obtain ⟨_, _, hsched, _⟩ := hrepr.live
  have hentry : s.pageDirectory 32 = userPage s.running.processNum := hsched.page
  have hpages : ∀ {buffer : UserBuffer} {nbytes : ℤ}, buffer.InUserPage nbytes →
      s.OnUserPages map buffer.address nbytes.toNat := fun hin =>
    onUserPages_of_userPage hentry hsched.sound.pos hsched.sound.le_max hin.1 hin.2
  cases request with
  | getargs buf nbytes =>
      cases buf with
      | none => trivial
      | some buffer => exact hpages (hpage buffer rfl)
  | read fd buf nbytes =>
      cases buf with
      | none => trivial
      | some buffer => exact hpages (hpage buffer rfl)
  | write fd buf nbytes => trivial
  | openFile filename => trivial
  | close fd => trivial
  | vidmap screenStart => trivial

theorem strncpyBytes_cString (source : List UInt8) (count : ℕ) :
    strncpyBytes (cString source) count = strncpyBytes source count := by
  have hstring : cString (cString source) = cString source :=
    cString_of_ne_zero fun _ hmem => ne_zero_of_mem_cString hmem
  simp only [strncpyBytes, hstring]

theorem cString_ofFn_eq_nil_iff (buffer : LineBuffer) :
    cString (List.ofFn buffer) = [] ↔ buffer 0 = 0 := by
  rw [List.ofFn_succ, cString, List.takeWhile_cons]
  by_cases hzero : buffer 0 = 0
  · rw [if_neg (by simpa only [decide_eq_true_eq, not_not] using hzero)]
    exact iff_of_true rfl hzero
  · rw [if_pos (by simpa only [decide_eq_true_eq] using hzero)]
    exact iff_of_false (List.cons_ne_nil _ _) hzero

theorem Represents.own_getargs (hrepr : Represents img num alone s v)
    (hruns : s.running.processNum = num) {buf : UserPointer} {nbytes : ℤ}
    (hserve : v.respond img (.getargs buf nbytes) = some (after, promised)) :
    (⟨some (getargs s buf nbytes).1, (getargs s buf nbytes).2⟩ : Answer) = promised ∧
      Represents img num alone s after := by
  have hargument := hrepr.pcb.argument
  rw [← hrepr.pcbPtr_eq hruns] at hargument
  have hempty := cString_ofFn_eq_nil_iff (s.pcb s.pcbPtr).argument
  rw [hargument] at hempty
  simp only [Private.respond] at hserve
  unfold getargs
  dsimp only
  split at hserve
  · rename_i hrefused
    obtain ⟨rfl, rfl⟩ := Prod.mk.inj (Option.some.inj hserve)
    refine ⟨?_, hrepr⟩
    by_cases hnull : buf = none ∨ nbytes < 0
    · rw [if_pos hnull]
      rfl
    · have hzero := hempty.mp (by tauto)
      rw [if_neg hnull, if_pos hzero]
      rfl
  · rename_i hproper
    obtain ⟨rfl, rfl⟩ := Prod.mk.inj (Option.some.inj hserve)
    refine ⟨?_, hrepr⟩
    have hfirst : ¬ (s.pcb s.pcbPtr).argument 0 = 0 := fun hzero =>
      hproper (.inr (.inr (hempty.mpr hzero)))
    rw [if_neg (by tauto), if_neg hfirst, ← hargument, strncpyBytes_cString]

theorem Represents.own_vidmap (hrepr : Represents img num alone s v)
    {screenStart : BitVec 32}
    (hserve : v.respond img (.vidmap screenStart) = some (after, promised)) :
    (⟨some (vidmap link s screenStart).1, []⟩ : Answer) = promised ∧
      Represents img num alone (vidmap link s screenStart).2 after := by
  have hkept : Represents img num alone (vidmap link s screenStart).2 v :=
    hrepr.of_view (view_vidmap link s screenStart)
  simp only [Private.respond] at hserve
  split at hserve
  · rename_i hrange
    obtain ⟨rfl, rfl⟩ := Prod.mk.inj (Option.some.inj hserve)
    exact ⟨by rw [vidmap, if_pos hrange, Answer.refusal], hkept⟩
  · rename_i hrange
    obtain ⟨rfl, rfl⟩ := Prod.mk.inj (Option.some.inj hserve)
    exact ⟨by rw [vidmap, if_neg hrange], hkept⟩

theorem Represents.own_close (hrepr : Represents img num alone s v)
    (hruns : s.running.processNum = num) {index : ℤ}
    (hserve : v.respond img (.close index) = some (after, promised))
    (hanswer : (close s index).answer img frame = some (next, answer)) :
    answer = promised ∧ Represents img num alone next after := by
  simp only [Private.respond] at hserve
  have hrefused : ∀ {result}, result = CallResult.returned (-1) [] s →
      result.answer img frame = some (next, answer) → some (v, Answer.refusal) =
        some (after, promised) → answer = promised ∧ Represents img num alone next after := by
    rintro _ rfl hresult heq
    obtain ⟨rfl, rfl⟩ := Prod.mk.inj (Option.some.inj heq)
    obtain ⟨rfl, rfl⟩ := Prod.mk.inj (Option.some.inj hresult)
    exact ⟨rfl, hrepr⟩
  cases hindex : fdIndex index with
  | none =>
      simp only [hindex] at hserve
      exact hrefused (by simp [close, hindex]) hanswer hserve
  | some fd =>
      simp only [hindex] at hserve
      by_cases hlow : index ≤ 1
      · rw [if_pos hlow] at hserve
        exact hrefused (by simp [close, hindex, hlow]) hanswer hserve
      · rw [if_neg hlow] at hserve
        have hshows := hrepr.shows hruns fd
        have hval := fdIndex_eq_some hindex
        cases htable : v.table fd with
        | none =>
            simp only [htable] at hserve hshows
            have hzero : (s.fileDesc fd).flags = 0 := hshows
            exact hrefused (by simp [close, hindex, hlow, hzero]) hanswer hserve
        | some handle =>
            simp only [htable] at hserve hshows
            obtain ⟨rfl, rfl⟩ := Prod.mk.inj (Option.some.inj hserve)
            have hfd : 1 < fd.val := by omega
            rw [hval, close_eq_returned hfd hshows.flags_eq_one hshows.fops_ne_none] at hanswer
            obtain ⟨rfl, rfl⟩ := Prod.mk.inj (Option.some.inj hanswer)
            have hclosed : ({ s.fileDesc fd with flags := 0 } : FileDesc).Shows img none := rfl
            exact ⟨rfl, hrepr.of_setFd hruns (.touch _ _ (.closed fd hfd)) rfl hclosed
              hrepr.names⟩

theorem openByType_shows (s : Kernel) (fd : Fin 8) {dentry : Dentry}
    (htype : dentry.fileType ≤ 2) (hinode : dentry.inodeNum < img.inodeCount) :
    ∃ opened desc, openByType s fd dentry = some opened ∧
      (opened.modifyFd opened.pcbPtr fd fun desc =>
          { desc with flags := 1, filePos := 0 }).view =
        (s.view.touch (s.view.currentPcb.setFd fd desc)).setDirIndex
          (if dentry.fileType = 1 then 0 else s.dirIndex) ∧
      desc.Shows img (some (dentry.handle img)) := by
  by_cases hzero : dentry.fileType = 0
  · obtain ⟨rated, hrate⟩ := rtcOpen_isSome s
    have hopened : openByType s fd dentry =
        some (rated.modifyFd rated.pcbPtr fd fun desc =>
          { desc with fops := some .rtc, inode := 0 }) := by
      rw [openByType, if_pos hzero, hrate]
      rfl
    refine ⟨_, ⟨some .rtc, 0, 0, 1⟩, hopened, ?_, ?_⟩
    · rw [if_neg (by omega)]
      refine (view_open rated fd .rtc 0).trans ?_
      rw [view_rtcWrite hrate]
      rfl
    · rw [Dentry.handle, if_pos hzero]
      exact ⟨rfl, rfl⟩
  · obtain ⟨opened, row, inode, hopened, hview, hdir, hfile⟩ := openByType_spec s fd htype
    refine ⟨opened, _, hopened, hview, ?_⟩
    rw [Dentry.handle, if_neg hzero]
    split
    · rename_i hone
      obtain rfl := hdir hone
      exact ⟨rfl, rfl⟩
    · obtain ⟨rfl, rfl⟩ := hfile (by omega)
      exact ⟨rfl, rfl, hinode, 0, Nat.zero_le _, rfl, rfl⟩

theorem Represents.own_openFile (hformed : img.WellFormed)
    (hrepr : Represents img num alone s v) (hruns : s.running.processNum = num)
    {filename : Option (List UInt8)} {value : ℤ} {bytes : List UInt8}
    (hserve : v.serveOpen img filename = (after, promised))
    (hopen : openFile img s filename = some (.returned value bytes next)) :
    ⟨some value, bytes⟩ = promised ∧ Represents img num alone next after := by
  have hcall := hopen
  unfold Private.serveOpen at hserve
  unfold openFile at hopen
  have hrefused : some (CallResult.returned (-1) [] s) = some (.returned value bytes next) →
      (v, Answer.refusal) = (after, promised) →
      ⟨some value, bytes⟩ = promised ∧ Represents img num alone next after := by
    intro hcall heq
    obtain ⟨rfl, rfl⟩ := Prod.mk.inj heq
    obtain ⟨rfl, rfl, rfl⟩ := CallResult.returned.inj (Option.some.inj hcall)
    exact ⟨rfl, hrepr⟩
  cases hfound : filename.bind (readDentryByName img) with
  | none =>
      simp only [hfound] at hserve hopen
      exact hrefused hopen hserve
  | some dentry =>
      have hsame : (openSlots.find? fun fd => (s.fileDesc fd).flags = 0) =
          openSlots.find? fun fd => (v.table fd).isNone := by
        simp only [Kernel.fileDesc, hrepr.pcbPtr_eq hruns]
        exact hrepr.pcb.find?_eq openSlots
      simp only [hfound, hsame] at hserve hopen
      cases hfind : openSlots.find? fun fd => (v.table fd).isNone with
      | none =>
          simp only [hfind] at hserve hopen
          exact hrefused hopen hserve
      | some fd =>
          simp only [hfind] at hserve hopen
          obtain ⟨rfl, rfl⟩ := Prod.mk.inj hserve
          obtain ⟨name, _, hname⟩ := Option.bind_eq_some_iff.mp hfound
          obtain ⟨index, hindex, hdentry, _⟩ := readDentryByName_eq_some hname
          have htype : dentry.fileType ≤ 2 := hdentry ▸ hformed.fileType_le index hindex
          have hinode : dentry.inodeNum < img.inodeCount :=
            hdentry ▸ hformed.inodeNum_lt index hindex
          obtain ⟨opened, desc, hopened, hview, hdesc⟩ :=
            openByType_shows s fd htype hinode
          have hmove := openFile_move (hformed.opensTyped s (.openFile filename)) hcall
          rw [hopened, Option.map_some] at hopen
          obtain ⟨rfl, rfl, rfl⟩ := CallResult.returned.inj (Option.some.inj hopen)
          have hpcb := congrArg ProcessView.pcb hview
          have hindex := congrArg ProcessView.dirIndex hview
          refine ⟨rfl, hrepr.of_setFd hruns hmove hpcb hdesc fun list hlist => ?_⟩
          rw [hindex]
          by_cases hdir : dentry.fileType = 1
          · rw [if_pos hdir] at hlist ⊢
            obtain ⟨names, hnames, rfl⟩ := Option.map_eq_some_iff.mp hlist
            exact ⟨(hrepr.names names hnames).1, rfl⟩
          · rw [if_neg hdir] at hlist ⊢
            exact hrepr.names list hlist

theorem strncpyBytes_take_name (dentry : Dentry) (count : ℕ) :
    strncpyBytes dentry.bytes (min (min (strlen dentry.bytes) filenameLen) count) =
      dentry.name.take count := by
  have hlength : dentry.name.length = min (strlen dentry.bytes) filenameLen := by
    rw [dentry.name_eq_take, List.length_take, strlen_eq_cString_length, Nat.min_comm]
  have hcopied : (cString dentry.bytes).take (min dentry.name.length count) =
      dentry.name.take count := by
    rw [dentry.name_eq_take, List.take_take, List.length_take, List.take_eq_take_iff]
    omega
  rw [← hlength, strncpyBytes, hcopied]
  simp [Nat.min_comm]

theorem dirRead_names (img : Image) (s : Kernel) (count : ℕ) :
    ∃ index, dirRead img s count =
        .returned (((img.names.drop s.dirIndex).headD []).take count).length
          (((img.names.drop s.dirIndex).headD []).take count) { s with dirIndex := index } ∧
      (img.names.drop s.dirIndex).tail = img.names.drop index := by
  unfold dirRead
  rcases Nat.lt_or_ge s.dirIndex img.dirCount with hlt | hge
  · have hhead : (img.names.drop s.dirIndex).headD [] = (img.direntry s.dirIndex).name := by
      simp [Image.names, hlt, List.headD_eq_head?_getD, List.head?_drop]
    refine ⟨s.dirIndex + 1, ?_, ?_⟩
    · simp only [readDentryByIndex, if_neg (not_le.mpr hlt), hhead, ← strncpyBytes_take_name,
        length_strncpyBytes]
    · rw [List.tail_drop]
  · have hnil : img.names.drop s.dirIndex = [] := by
      apply List.drop_eq_nil_of_le
      simpa [Image.names] using hge
    refine ⟨s.dirIndex, ?_, by rw [hnil, List.tail_nil]⟩
    simp [hnil, hge]

theorem Represents.own_write (hrepr : Represents img num alone s v)
    (hruns : s.running.processNum = num) {index nbytes : ℤ} {buf : UserPointer}
    (hserve : v.respond img (.write index buf nbytes) = some (after, promised))
    (hanswer : (write s index buf nbytes).bind (·.answer img frame) = some (next, answer)) :
    answer = promised ∧ Represents img num alone next after := by
  obtain ⟨result, hwrite, hresult⟩ := Option.bind_eq_some_iff.mp hanswer
  have hview := write_keeps hwrite
  have hkept : ∀ {value : ℤ} {bytes : List UInt8} {after' : Kernel},
      result = .returned value bytes after' → some (v, Answer.mk (some value) bytes) =
        some (after, promised) → answer = promised ∧ Represents img num alone next after := by
    rintro value bytes after' rfl heq
    obtain ⟨rfl, rfl⟩ := Prod.mk.inj (Option.some.inj heq)
    obtain ⟨rfl, rfl⟩ := Prod.mk.inj (Option.some.inj hresult)
    exact ⟨rfl, hrepr.of_view hview⟩
  simp only [Private.respond] at hserve
  unfold write at hwrite
  cases hindex : fdIndex index with
  | none =>
      simp only [hindex] at hserve hwrite
      exact hkept (Option.some.inj hwrite).symm hserve
  | some fd =>
      cases buf with
      | none =>
          simp only [hindex] at hserve hwrite
          exact hkept (Option.some.inj hwrite).symm hserve
      | some memory =>
          simp only [hindex] at hserve hwrite
          by_cases hrefused : nbytes < 0 ∨ index = 0
          · rw [if_pos hrefused] at hserve hwrite
            exact hkept (Option.some.inj hwrite).symm hserve
          · rw [if_neg hrefused] at hserve hwrite
            have hshows := hrepr.shows hruns fd
            obtain ⟨handle, htable, heq⟩ := Option.map_eq_some_iff.mp hserve
            rw [htable] at hshows
            cases handle with
            | rtc =>
                rw [hshows.2] at hwrite
                obtain ⟨rated, _, rfl⟩ := Option.map_eq_some_iff.mp hwrite
                exact hkept rfl (congrArg some heq)
            | dir =>
                rw [hshows.2] at hwrite
                exact hkept (Option.some.inj hwrite).symm (congrArg some heq)
            | file rest =>
                rw [hshows.2.1] at hwrite
                exact hkept (Option.some.inj hwrite).symm (congrArg some heq)
            | term =>
                rw [hshows.2] at hwrite
                obtain ⟨printed, _, rfl⟩ := Option.map_eq_some_iff.mp hwrite
                have hnbytes : (nbytes.toNat : ℤ) = nbytes := by omega
                rw [hnbytes] at hkept
                exact hkept rfl (congrArg some heq)

theorem Represents.own_dirRead (hrepr : Represents img num alone s v) {nbytes : ℕ}
    {value : ℤ} {bytes : List UInt8}
    (hserve : v.serveRead fd nbytes .dir = some (after, promised))
    (hread : dirRead img s nbytes = .returned value bytes next)
    (hmove : Move s.view effect next.view) :
    ⟨some value, bytes⟩ = promised ∧ Represents img num alone next after := by
  obtain ⟨names, hnames, heq⟩ := Option.map_eq_some_iff.mp hserve
  obtain ⟨rfl, rfl⟩ := Prod.mk.inj heq
  obtain ⟨halone, rfl⟩ := hrepr.names names hnames
  obtain ⟨index, hdir, htail⟩ := dirRead_names img s nbytes
  rw [hdir] at hread
  obtain ⟨rfl, rfl, rfl⟩ := CallResult.returned.inj hread
  obtain ⟨family, t, hsched, hmem⟩ := hrepr.live
  obtain ⟨family', hnext, hmem'⟩ := hmove.mem hsched hmem
  refine ⟨rfl, ⟨family', t, hnext, hmem'⟩, ⟨hrepr.pcb.argument, hrepr.pcb.table⟩, ?_⟩
  rintro list hlist
  obtain rfl := Option.some.inj hlist
  exact ⟨halone, htail⟩

theorem Represents.own_fileRead (hformed : img.WellFormed)
    (hrepr : Represents img num alone s v) (hruns : s.running.processNum = num) {nbytes : ℕ}
    {rest : List UInt8} {value : ℤ} {bytes : List UInt8}
    (htable : v.table fd = some (.file rest))
    (hserve : v.serveRead fd nbytes (.file rest) = some (after, promised))
    (hread : fileRead img s fd nbytes = .returned value bytes next)
    (hmove : Move s.view effect next.view) :
    ⟨some value, bytes⟩ = promised ∧ Represents img num alone next after := by
  obtain ⟨rfl, rfl⟩ := Prod.mk.inj (Option.some.inj hserve)
  have hshows := hrepr.shows hruns fd
  rw [htable] at hshows
  obtain ⟨hflags, hfops, hinode, pos, hpos, hfilePos, rfl⟩ := hshows
  have hlength := hformed.inodeLength_le _ hinode
  have hsmall : (BitVec.ofNat 32 pos).toNat = pos := by
    rw [BitVec.toNat_ofNat]
    omega
  have hslice : pos + (img.slice (s.fileDesc fd).inode pos nbytes).length ≤
      img.inodeLength (s.fileDesc fd).inode := slice_length_le hpos
  simp only [fileRead, hfilePos, hsmall, readData_eq_slice hinode hlength] at hread
  obtain ⟨rfl, rfl, rfl⟩ := CallResult.returned.inj hread
  refine ⟨rfl, hrepr.of_setFd hruns hmove rfl ?_ hrepr.names⟩
  refine ⟨hflags, hfops, hinode, pos + (img.slice (s.fileDesc fd).inode pos nbytes).length,
    hslice, ?_, ?_⟩
  · change (s.fileDesc fd).filePos + _ = _
    rw [hfilePos, BitVec.ofInt_natCast, BitVec.ofNat_add]
  · change _ = (img.fileContents (s.fileDesc fd).inode).drop _
    rw [List.drop_drop, Image.slice, List.length_take, List.drop_eq_drop_iff, List.length_drop]
    omega

theorem Represents.own_read (hformed : img.WellFormed)
    (hrepr : Represents img num alone s v) (hruns : s.running.processNum = num)
    {index nbytes : ℤ} {buf : UserPointer}
    (hserve : v.respond img (.read index buf nbytes) = some (after, promised))
    (hanswer : (read img s index buf nbytes).bind (·.answer img frame) = some (next, answer)) :
    answer = promised ∧ Represents img num alone next after := by
  obtain ⟨result, hread, hresult⟩ := Option.bind_eq_some_iff.mp hanswer
  have hmoves := read_moves hread
  have hrefused : result = .returned (-1) [] s → some (v, Answer.refusal) =
      some (after, promised) → answer = promised ∧ Represents img num alone next after := by
    rintro rfl heq
    obtain ⟨rfl, rfl⟩ := Prod.mk.inj (Option.some.inj heq)
    obtain ⟨rfl, rfl⟩ := Prod.mk.inj (Option.some.inj hresult)
    exact ⟨rfl, hrepr⟩
  simp only [Private.respond] at hserve
  unfold read at hread
  cases hindex : fdIndex index with
  | none =>
      simp only [hindex] at hserve hread
      exact hrefused (Option.some.inj hread).symm hserve
  | some fd =>
      cases buf with
      | none =>
          simp only [hindex] at hserve hread
          exact hrefused (Option.some.inj hread).symm hserve
      | some memory =>
          simp only [hindex] at hserve hread
          by_cases hproper : nbytes < 0 ∨ index = 1
          · rw [if_pos hproper] at hserve hread
            exact hrefused (Option.some.inj hread).symm hserve
          · rw [if_neg hproper] at hserve hread
            have hshows := hrepr.shows hruns fd
            cases htable : v.table fd with
            | none =>
                simp only [htable] at hserve hshows
                have hzero : (s.fileDesc fd).flags = 0 := hshows
                rw [if_pos hzero] at hread
                exact hrefused (Option.some.inj hread).symm hserve
            | some handle =>
                simp only [htable] at hserve hshows
                rw [if_neg (by simp [hshows.flags_eq_one])] at hread
                cases handle with
                | term => contradiction
                | rtc =>
                    rw [hshows.2] at hread
                    obtain rfl := Option.some.inj hread
                    obtain ⟨rfl, rfl⟩ := Prod.mk.inj (Option.some.inj hserve)
                    obtain ⟨rfl, rfl⟩ := Prod.mk.inj (Option.some.inj hresult)
                    exact ⟨rfl, hrepr.of_view rfl⟩
                | dir =>
                    rw [hshows.2] at hread
                    have hdir := Option.some.inj hread
                    cases result with
                    | pageFault middle =>
                        obtain ⟨_, hnames, _⟩ := dirRead_names img s nbytes.toNat
                        rw [hnames] at hdir
                        contradiction
                    | returned value bytes middle =>
                        obtain ⟨rfl, rfl⟩ := Prod.mk.inj (Option.some.inj hresult)
                        exact hrepr.own_dirRead hserve hdir hmoves
                | file rest =>
                    rw [hshows.2.1] at hread
                    have hfile := Option.some.inj hread
                    cases result with
                    | pageFault middle => contradiction
                    | returned value bytes middle =>
                        obtain ⟨rfl, rfl⟩ := Prod.mk.inj (Option.some.inj hresult)
                        exact hrepr.own_fileRead hformed hruns htable hserve hfile hmoves

/-- What the service tolerates of the others. -/
structure Tolerated (img : Image) (map : MemoryMap) (alone : Prop) (s : Kernel) (op : Op) :
    Prop where
  spares : SparesKernel img map s op
  directory : alone → ¬ usesDirectory img s op

/-- Interrupts store nothing for a process and do not use the directory. -/
theorem Tolerated.of_isInterrupt {op : Op} (hop : op.isInterrupt = true) :
    Tolerated img map alone s op :=
  ⟨sparesKernel_of_isInterrupt hop, fun _ => not_usesDirectory_of_isInterrupt hop⟩

/-- Without the directory it is enough that the others spare the kernel. -/
theorem Tolerated.of_spares {op : Op} (hspares : SparesKernel img map s op) :
    Tolerated img map (false = true) s op := ⟨hspares, nofun⟩

/-- The kernel is the private service of every process. -/
theorem processHost_implements (img : Image) (map : MemoryMap) (num : ℕ) (alone : Prop)
    (hformed : img.WellFormed) (hshell : img.Loadable shellName) :
    Implements (processHost img map num) (Private.serve img) (Represents img num alone)
      (Tolerated img map alone) where
  own := by
    intro s next v after request frame answer promised hrepr hturn hperform hserve
    have hruns : s.running.processNum = num := by simpa [processHost] using hturn
    obtain ⟨hpage, hrespond⟩ := Private.serve_eq_some.mp hserve
    have hcall : perform img map.toLink s (request.op frame) = some (next, answer) :=
      (performThrough_eq (hrepr.sparesKernel hpage)).symm.trans hperform
    cases request with
    | getargs buf nbytes =>
        obtain ⟨rfl, rfl⟩ := Prod.mk.inj (Option.some.inj hcall)
        exact hrepr.own_getargs hruns hrespond
    | openFile filename =>
        obtain ⟨result, hopen, hresult⟩ := Option.bind_eq_some_iff.mp hcall
        cases result with
        | pageFault middle => contradiction
        | returned value bytes middle =>
            obtain ⟨rfl, rfl⟩ := Prod.mk.inj (Option.some.inj hresult)
            exact hrepr.own_openFile hformed hruns (Option.some.inj hrespond) hopen
    | read fd buf nbytes => exact hrepr.own_read hformed hruns hrespond hcall
    | write fd buf nbytes => exact hrepr.own_write hruns hrespond hcall
    | close fd => exact hrepr.own_close hruns hrespond hcall
    | vidmap screenStart =>
        obtain ⟨rfl, rfl⟩ := Prod.mk.inj (Option.some.inj hcall)
        exact hrepr.own_vidmap hrespond
  other := by
    intro s next v op answer hrepr hforeign hguard hperform
    have hstep : stepThrough img map s op = some next :=
      Option.map_eq_some_iff.mpr ⟨_, hperform, rfl⟩
    exact hrepr.step_other hformed hshell (by simpa [processHost] using hforeign)
      hguard.directory hguard.spares hstep

end Own

/-! ## A process that starts -/

/-- A new process has its argument and the terminal on descriptors 0 and 1. -/
def Private.initial (argument : List UInt8) (names : Option (List (List UInt8))) : Private where
  argument := argument
  table fd := if fd.val ≤ 1 then some .term else none
  names := names

section Start

variable {img : Image} {s child : Kernel} {command : Option (List UInt8)} {frame : StackFrame}
  {entry image : List UInt8} {family : Fin 3 → List ℕ} {alone : Prop}
  {names : Option (List (List UInt8))}

theorem newPcb_shows {num : ℕ} (prev : ℕ) {argument : List UInt8} {old : Pcb}
    (hbytes : ∀ byte ∈ argument, byte ≠ 0) (hshort : argument.length < 128)
    (hfree : ∀ fd : Fin 8, 1 < fd.val → (old.fileDescArray fd).flags = 0) :
    (newPcb prev num argument frame old).Shows img (.initial argument names) where
  argument := cString_storeArgument old.argument hbytes hshort
  table fd := by
    by_cases hlow : fd.val ≤ 1
    · simp [newPcb, Private.initial, hlow, FileDesc.Shows]
    · simpa [newPcb, Private.initial, hlow, FileDesc.Shows] using hfree fd (by omega)

theorem Represents.of_execute (hsched : Scheduled s.view family) (hclean : Clean s.pcb family)
    (hexecute : execute img s command frame = some (.started child entry image))
    (hnames : ∀ list, names = some list → alone ∧ list = img.names.drop s.dirIndex) :
    ∃ line, command = some line ∧ Represents img child.running.processNum alone child
      (.initial (parseCommand line).2 names) := by
  obtain ⟨line, num, dentry, hline, hfind, _, hshort, _, _, rfl, _, _⟩ :=
    execute_eq_started hexecute
  have hfree : s.view.Free num := freeSlot_eq_some hfind
  have hview : (startProcess (loadCurrentProcess s) num (parseCommand line).2 frame).view =
      s.view.start num (parseCommand line).2 frame := view_startProcess rfl
  have hcurrent : (startProcess (loadCurrentProcess s) num (parseCommand line).2
      frame).running.processNum = num := by
    have hstarted : (s.view.start num (parseCommand line).2 frame).current = num := by
      simp [ProcessView.current, ProcessView.start]
    exact (congrArg ProcessView.current hview).trans hstarted
  have hpcb := congrArg ProcessView.pcb hview
  have hindex := congrArg ProcessView.dirIndex hview
  have hfresh := hsched.toForest.fresh_of_free hfree
  refine ⟨line, hline, ⟨⟨_, s.terminalNum, hview ▸ hsched.start _ frame hfree, ?_⟩, ?_, ?_⟩⟩
  · rw [hcurrent]
    exact mem_push.mpr (.inl ⟨rfl, rfl⟩)
  · rw [hcurrent, show Kernel.pcb _ = _ from hpcb, ProcessView.start_pcb_self]
    exact newPcb_shows _ (fun byte hmem => ne_zero_of_mem_nextWord hmem) hshort
      (hclean.closed num hfree.2.1 hfresh)
  · intro list hlist
    rw [show Kernel.dirIndex _ = _ from hindex]
    exact hnames list hlist

end Start

end VirtualOS
