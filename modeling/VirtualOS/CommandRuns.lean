import VirtualOS.ProcessService
import VirtualOS.ExitStatus
import VirtualOS.MemorySlices
import Mathlib.Tactic

/-!
# A command from `execute` to `halt`

A program that `execute` has started runs on the private service of its process, and
when it returns, its status goes to the caller of `execute`, on the terminal and with
the control block that the caller had.
-/

namespace VirtualOS

open PartialRuns LinkedStacks CallingPrograms

/-! ## Promised calls do not end the process -/

section Spared

variable {img : Image} {num : ℕ} {alone : Prop} {s next : Kernel}
  {v after : Private} {promised : Answer} {request : Request} {frame : StackFrame}
  {index nbytes : ℤ} {buf : UserPointer} {result : CallResult}

theorem read_faults (hread : read img s index buf nbytes = some result)
    (hfaults : result.faults = true) :
    ∃ fd, (s.fileDesc fd).flags ≠ 0 ∧ (s.fileDesc fd).fops = none := by
  unfold read at hread
  split at hread
  · rename_i fd memory hindex
    split at hread
    · obtain rfl := Option.some.inj hread
      contradiction
    · split at hread
      · obtain rfl := Option.some.inj hread
        contradiction
      · rename_i hflags
        refine ⟨fd, hflags, ?_⟩
        cases hrow : (s.fileDesc fd).fops with
        | none => rfl
        | some row =>
            rw [hrow] at hread
            cases row with
            | rtc =>
                obtain rfl := Option.some.inj hread
                contradiction
            | dir =>
                obtain rfl := Option.some.inj hread
                obtain ⟨_, hnames, _⟩ := dirRead_names img s nbytes.toNat
                rw [hnames] at hfaults
                contradiction
            | file =>
                obtain rfl := Option.some.inj hread
                contradiction
            | term =>
                obtain ⟨_, _, rfl⟩ := Option.map_eq_some_iff.mp hread
                contradiction
  · obtain rfl := Option.some.inj hread
    contradiction

theorem write_faults (hwrite : write s index buf nbytes = some result)
    (hfaults : result.faults = true) :
    ∃ fd memory, fdIndex index = some fd ∧ buf = some memory ∧ ¬ (nbytes < 0 ∨ index = 0) ∧
      (s.fileDesc fd).fops = none := by
  unfold write at hwrite
  split at hwrite
  · rename_i fd memory hindex
    split at hwrite
    · obtain rfl := Option.some.inj hwrite
      contradiction
    · rename_i hproper
      refine ⟨fd, memory, hindex, rfl, hproper, ?_⟩
      cases hrow : (s.fileDesc fd).fops with
      | none => rfl
      | some row =>
          rw [hrow] at hwrite
          cases row with
          | rtc =>
              obtain ⟨_, _, rfl⟩ := Option.map_eq_some_iff.mp hwrite
              contradiction
          | dir =>
              obtain rfl := Option.some.inj hwrite
              contradiction
          | file =>
              obtain rfl := Option.some.inj hwrite
              contradiction
          | term =>
              obtain ⟨_, _, rfl⟩ := Option.map_eq_some_iff.mp hwrite
              contradiction
  · obtain rfl := Option.some.inj hwrite
    contradiction

theorem Represents.spared (hrepr : Represents img num alone s v)
    (hruns : s.running.processNum = num) (hserve : v.serve img request = some (after, promised)) :
    endsProcess img s (request.op frame) = false := by
  have hrespond := (Private.serve_eq_some.mp hserve).2
  have hopen : ∀ {fd : Fin 8} {handle : Handle}, v.table fd = some handle →
      (s.fileDesc fd).fops ≠ none := by
    intro fd handle htable
    have hshows := hrepr.shows hruns fd
    rw [htable] at hshows
    exact hshows.fops_ne_none
  obtain ⟨family, _, hsched, _⟩ := hrepr.live
  cases request with
  | read index buf nbytes =>
      by_contra hends
      have hany : (read img s index buf nbytes).any CallResult.faults = true :=
        eq_true_of_ne_false hends
      obtain ⟨result, hread, hfaults⟩ := (Option.any_eq_true _ _).mp hany
      obtain ⟨fd, hflags, hfops⟩ := read_faults hread hfaults
      have hshows := hrepr.shows hruns fd
      obtain ⟨handle, htable⟩ :=
        Option.ne_none_iff_exists'.mp (mt hshows.flags_iff.mpr hflags)
      exact hopen htable hfops
  | write index buf nbytes =>
      by_contra hends
      have hany : (write s index buf nbytes).any CallResult.faults = true :=
        eq_true_of_ne_false hends
      obtain ⟨result, hwrite, hfaults⟩ := (Option.any_eq_true _ _).mp hany
      obtain ⟨fd, memory, hindex, rfl, hproper, hfops⟩ := write_faults hwrite hfaults
      simp only [Private.respond, hindex, if_neg hproper] at hrespond
      obtain ⟨handle, htable, _⟩ := Option.map_eq_some_iff.mp hrespond
      exact hopen htable hfops
  | close index => exact (close_moves hsched.sound.callable).2
  | getargs buf nbytes => rfl
  | openFile filename => rfl
  | vidmap screenStart => rfl

end Spared

/-! ## The caller waits -/

section Sessions

variable {img : Image} {map : MemoryMap} {num parent : ℕ} {alone : Prop} {t : Fin 3}
  {below : List ℕ} {pcb : Pcb} {π : Type} {code : π → Doing Request Answer ℤ π}
  {whole : List (Request × Answer)} {status : ℤ} {x next : Session Kernel π Request Answer}
  {event : SessionEvent Op StackFrame} {events : List (SessionEvent Op StackFrame)}

theorem waiting_step_own {s next : Kernel} {v after : Private} {request : Request}
    {answer promised : Answer} {frame : StackFrame} (hshell : img.Loadable shellName)
    (hformed : img.WellFormed) (hrepr : Represents img num alone s v)
    (hruns : s.running.processNum = num)
    (hserve : v.serve img request = some (after, promised))
    (hwait : Waiting s.view t num parent below pcb)
    (hperform : performThrough img map s (request.op frame) = some (next, answer)) :
    Waiting next.view t num parent below pcb := by
  obtain ⟨family, _, hsched, _⟩ := hrepr.live
  have hspares : SparesKernel img map s (request.op frame) :=
    hrepr.sparesKernel (Private.serve_eq_some.mp hserve).1
  have hstep : step img map.toLink s (request.op frame) = some next :=
    Option.map_eq_some_iff.mpr ⟨_, (performThrough_eq hspares).symm.trans hperform, rfl⟩
  have hspared : endsProcess img s (request.op frame) = false := hrepr.spared hruns hserve
  rcases step_cases (fun _ => hshell) hsched.sound (hformed.opensTyped _ _) hstep with
    ⟨_, hmove⟩ | ⟨hends, _⟩
  · exact hwait.move hmove
  · rw [hspared] at hends
    contradiction

theorem waiting_step_other {s next : Kernel} {op : Op} {family : Fin 3 → List ℕ}
    (hshell : img.Loadable shellName) (hformed : img.WellFormed)
    (hsched : Scheduled s.view family)
    (hforeign : s.running.processNum ≠ num ∨ op.isInterrupt = true)
    (hwait : Waiting s.view t num parent below pcb) (hspares : SparesKernel img map s op)
    (hstep : stepThrough img map s op = some next) :
    Waiting next.view t num parent below pcb := by
  rw [stepThrough_eq hspares] at hstep
  rcases step_cases (fun _ => hshell) hsched.sound (hformed.opensTyped _ op) hstep with
    ⟨_, hmove⟩ | ⟨hends, hend⟩
  · exact hwait.move hmove
  · refine hwait.end_other hend fun hruns => ?_
    rw [endsProcess_of_isInterrupt (hforeign.resolve_left (not_not.mpr hruns))] at hends
    contradiction

theorem sessionStep_waiting (hshell : img.Loadable shellName) (hformed : img.WellFormed)
    (hcourse : OnCourse code (Private.serve img) (Represents img num alone) whole status x)
    (hwait : Waiting x.state.view t num parent below pcb)
    (hguard : event.Observes (Tolerated img map alone) x)
    (hstep : (processHost img map num).sessionStep code x event = some next) :
    Waiting next.state.view t num parent below pcb := by
  obtain ⟨v, left, hrepr, hcompletes, _⟩ := hcourse
  cases event with
  | own frame =>
      obtain ⟨request, resume, s, answer, hturn, hcode, hperform, rfl⟩ := sessionStep_own hstep
      have hruns : x.state.running.processNum = num := by simpa [processHost] using hturn
      cases hcompletes with
      | returns hreturns =>
          rw [hcode] at hreturns
          contradiction
      | calls hcalls hserve _ =>
          rw [hcode] at hcalls
          obtain ⟨rfl, rfl⟩ := Doing.calls.inj hcalls
          exact waiting_step_own hshell hformed hrepr hruns hserve hwait hperform
  | other op =>
      obtain ⟨s, answer, hforeign, hperform, rfl⟩ := sessionStep_other hstep
      obtain ⟨family, _, hsched, _⟩ := hrepr.live
      exact waiting_step_other hshell hformed hsched (by simpa [processHost] using hforeign)
        hwait hguard.spares (Option.map_eq_some_iff.mpr ⟨_, hperform, rfl⟩)

theorem run_waiting_onCourse (hshell : img.Loadable shellName) (hformed : img.WellFormed)
    (hcourse : OnCourse code (Private.serve img) (Represents img num alone) whole status x)
    (hwait : Waiting x.state.view t num parent below pcb)
    (hspares : Meets ((processHost img map num).sessionStep code)
      (fun x event => event.Observes (Tolerated img map alone) x) x events)
    (hrun : run ((processHost img map num).sessionStep code) x events = some next) :
    OnCourse code (Private.serve img) (Represents img num alone) whole status next ∧
      Waiting next.state.view t num parent below pcb := by
  have himpl := processHost_implements img map num alone hformed hshell
  refine run_invariant_of_meets (fun x : Session Kernel π Request Answer =>
    OnCourse code (Private.serve img) (Represents img num alone) whole status x ∧
      Waiting x.state.view t num parent below pcb) ?_ ⟨hcourse, hwait⟩ hspares hrun
  rintro x event next ⟨hbefore, hbelow⟩ hguard hstep
  exact ⟨hbefore.step himpl hguard hstep,
    sessionStep_waiting hshell hformed hbefore hbelow hguard hstep⟩

end Sessions

/-! ## A command -/

/-- The service of a process that `execute` starts in state `s`. -/
def Private.ofCommand (img : Image) (s : Kernel) (line : List UInt8) (alone : Bool) : Private :=
  .initial (parseCommand line).2 (if alone then some (img.names.drop s.dirIndex) else none)

/-- A tidy operation that spares the memory of the kernel. -/
structure TidySparing (img : Image) (map : MemoryMap) (s : Kernel) (op : Op) : Prop where
  tidy : op.Tidy img s
  spares : SparesKernel img map s op

/-- The kernel has come to state `s` in a tidy and sparing run, and `execute` starts a
process there with a command that fits. -/
structure CommandStarts (img : Image) (map : MemoryMap) (s : Kernel) (line : List UInt8)
    (child : Kernel) : Prop where
  reached : ∃ boot first frame entry image before, Booted boot ∧
    execute img boot (some shellName) frame = some (.started first entry image) ∧
    Meets (stepThrough img map) (TidySparing img map) first before ∧
    run (stepThrough img map) first before = some s
  starts : ∃ frame, FitsArrays img line frame ∧
    performThrough img map s (.execute (some line) frame) = some (child, ⟨none, []⟩)

/-- The caller of `execute` goes on after it, with this answer. -/
structure ReturnsTo (before : Kernel) (status : ℤ) (answer : Answer) (after : Kernel) :
    Prop where
  value : answer.value = some (BitVec.ofInt 32 status).toInt
  terminalNum : after.terminalNum = before.terminalNum
  processNum : after.running.processNum = before.running.processNum
  pcb : after.pcb (pcbAddress before.running.processNum) =
    before.pcb (pcbAddress before.running.processNum)

/-- Whenever the process halts with this status, its caller gets it. -/
def AnswersCaller (img : Image) (map : MemoryMap) (s child : Kernel) (status : ℤ) (last : Kernel) :
    Prop :=
  ∀ frame final answer, last.running.processNum = child.running.processNum →
    performThrough img map last (.halt (BitVec.ofInt 32 status) frame) = some (final, answer) →
    ReturnsTo s status answer final

/-- `ece391_fdputs`.  The literals of a program lie in its image. -/
def fdputs (fd : ℤ) (text : List UInt8) : Request :=
  .write fd (some ⟨0x8048000, MemorySlices.stringBytes text⟩) text.length

/-- `main` of `testprint`. -/
def testprint : Bool → Doing Request Answer ℤ Bool
  | false => .calls
      (fdputs 1 (ascii "Hello, if this ran, the program was correct. Yay!\n")) fun _ => true
  | true => .returns 0

/-- The second process, with an argument. -/
def argumentKernel : Kernel :=
  startProcess (loadCurrentProcess pagedShell) 2 (ascii "frame0.txt") zeroFrame

theorem argumentKernel_starts :
    CommandStarts smallImage smallMap pagedShell (shellLine oneArgument) argumentKernel := by
  obtain ⟨entry, image, hfirst⟩ := execute_pagedKernel
  refine ⟨⟨pagedKernel, pagedShell, zeroFrame, entry, image, [], pagedKernel_booted, hfirst,
    trivial, rfl⟩, zeroFrame, ?_⟩
  obtain ⟨dentry, haccepted, hroom⟩ := smallImage_loadable.acceptedFile zeroFrame
  have hfound : freeSlot (loadCurrentProcess pagedShell) = some 2 := by decide +kernel
  have hparse : parseCommand (shellLine oneArgument) = (shellName, ascii "frame0.txt") := by
    decide
  have hname : acceptedFile smallImage (shellLine oneArgument) zeroFrame = some dentry := by
    rw [← haccepted, acceptedFile, acceptedFile, hparse,
      show parseCommand shellName = (shellName, []) by decide]
  have hfits : FitsArrays smallImage (shellLine oneArgument) zeroFrame := by decide +kernel
  have hexecute := execute_of_accepted hfound hfits.name hfits.argument hname hroom
  rw [hparse] at hexecute
  have hspares : SparesKernel smallImage smallMap pagedShell
      (.execute (some (shellLine oneArgument)) zeroFrame) := hfits
  exact ⟨hfits, (performThrough_eq hspares).trans
    (perform_execute_started.mpr ⟨_, _, hexecute⟩)⟩

/-- A call between a terminal switch that starts a shell there and a timer tick. -/
def smallEvents : List (SessionEvent Op StackFrame) :=
  [.other (.switchTerminal 1 ⟨0, 0⟩ zeroFrame), .other (.openFile (some (ascii "frame0.txt"))),
    .other (.pit ⟨0, 0⟩), .own zeroFrame]

section Command

variable {img : Image} {map : MemoryMap} {s child last : Kernel} {line : List UInt8} {alone : Bool}
  {π : Type} {code : π → Doing Request Answer ℤ π} {point : π}
  {whole : List (Request × Answer)} {status : ℤ} {events : List (SessionEvent Op StackFrame)}
  {x : Session Kernel π Request Answer}

theorem Waiting.answersCaller {below : List ℕ} (hshell : img.Loadable shellName)
    (hformed : img.WellFormed) (status : ℤ)
    (hwait : Waiting last.view s.terminalNum child.running.processNum s.running.processNum below
      (s.pcb (pcbAddress s.running.processNum))) :
    AnswersCaller img map s child status last := by
  intro frame final answer hruns hhalt
  have hhalt : perform img map.toLink last (.halt (BitVec.ofInt 32 status) frame) =
      some (final, answer) := hhalt
  obtain ⟨hvalue, hterminal, hnum⟩ := ended_delivers hshell hwait hruns rfl hhalt
  obtain ⟨_, _, hlive, _⟩ := hwait.family
  have hstep : step img map.toLink last (.halt (BitVec.ofInt 32 status) frame) = some final :=
    Option.map_eq_some_iff.mpr ⟨_, hhalt, rfl⟩
  rcases step_cases (fun _ => hshell) hlive.sound (hformed.opensTyped _ _) hstep with
    ⟨hgoes, _⟩ | ⟨_, hend⟩
  · contradiction
  · obtain ⟨_, _, _, _, _, _, hpcb⟩ := hwait.end_child hend hruns
    exact ⟨hvalue, hterminal, hnum, hpcb⟩

theorem CommandStarts.execute_eq (hstarts : CommandStarts img map s line child) :
    ∃ frame entry image, execute img s (some line) frame = some (.started child entry image) := by
  obtain ⟨frame, hfits, hperform⟩ := hstarts.starts
  have hspares : SparesKernel img map s (.execute (some line) frame) := hfits
  rw [performThrough_eq hspares] at hperform
  exact ⟨frame, perform_execute_started.mp hperform⟩

theorem CommandStarts.represents (hstarts : CommandStarts img map s line child)
    (hshell : img.Loadable shellName) :
    Represents img child.running.processNum (alone = true) child (.ofCommand img s line alone) ∧
      ∃ below, Waiting child.view s.terminalNum child.running.processNum s.running.processNum
        below (s.pcb (pcbAddress s.running.processNum)) := by
  obtain ⟨boot, first, frame, entry, image, before, hboot, hfirst, htidy, hreach⟩ :=
    hstarts.reached
  obtain ⟨childFrame, childEntry, childImage, hexecute⟩ := hstarts.execute_eq
  rw [run_stepThrough (fun _ _ => TidySparing.spares) htidy] at hreach
  have htidy := (meets_stepThrough (fun _ _ => TidySparing.spares) htidy).imp
    fun _ _ => TidySparing.tidy
  obtain ⟨family, hsched, hclean⟩ := run_clean hshell (hboot.clean hfirst).1 htidy hreach
  obtain ⟨rest, hcells⟩ := hsched.eq_cons
  refine ⟨?_, rest, Waiting.of_execute hsched hcells hexecute⟩
  have hnames : ∀ list, (if alone then some (img.names.drop s.dirIndex) else none) = some list →
      alone = true ∧ list = img.names.drop s.dirIndex := by
    intro list hlist
    simpa [eq_comm] using hlist
  obtain ⟨_, hline, hrepr⟩ := Represents.of_execute hsched hclean hexecute hnames
  obtain rfl := Option.some.inj hline
  exact hrepr

theorem command_course (hformed : img.WellFormed) (hshell : img.Loadable shellName)
    (hstarts : CommandStarts img map s line child)
    (hcompletes : Completes code (Private.serve img) (.ofCommand img s line alone) point whole
      status)
    (hspares : Meets ((processHost img map child.running.processNum).sessionStep code)
      (fun x event => event.Observes (Tolerated img map alone) x) ⟨child, point, []⟩ events)
    (hrun : run ((processHost img map child.running.processNum).sessionStep code)
      ⟨child, point, []⟩ events = some x) :
    x.calls <+: whole ∧ ∀ ending, code x.point = .returns ending →
      x.calls = whole ∧ ending = status ∧ AnswersCaller img map s child status x.state := by
  obtain ⟨hrepr, below, hwait⟩ := hstarts.represents hshell
  have hcourse : OnCourse code (Private.serve img)
      (Represents img child.running.processNum (alone = true)) whole status
      ⟨child, point, []⟩ := ⟨_, whole, hrepr, hcompletes, rfl⟩
  obtain ⟨hlast, hwaits⟩ := run_waiting_onCourse hshell hformed hcourse hwait hspares hrun
  refine ⟨hlast.beginning, fun ending hreturns => ?_⟩
  obtain ⟨hcalls, hending⟩ := hlast.returned hreturns
  exact ⟨hcalls, hending, hwaits.answersCaller hshell hformed status⟩

theorem meets_tolerated {host : Host Kernel Op StackFrame Request Answer} {alone : Prop}
    (x : Session Kernel π Request Answer)
    (hall : ∀ op, SessionEvent.other op ∈ events → ∀ s, Tolerated img map alone s op) :
    Meets (host.sessionStep code)
      (fun x event => event.Observes (Tolerated img map alone) x) x events := by
  have hevents : ∀ event ∈ events, ∀ op, event = .other op →
      ∀ s, Tolerated img map alone s op := by
    rintro event hmem op rfl
    exact hall op hmem
  refine (meets_of_forall_mem hevents x).imp fun x event hevent => ?_
  cases event with
  | own frame => trivial
  | other op => exact hevent op rfl x.state

end Command

end VirtualOS
