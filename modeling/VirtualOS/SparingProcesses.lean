import VirtualOS.ExitStatus
import VirtualOS.FailedExecute
import VirtualOS.RoundRobin
import Mathlib.Tactic

/-!
# Processes in runs that spare the kernel

The laws of the processes for calls with their stores.  They hold in every run in
which buffers lie on the pages of processes and `execute` is given what fits its
arrays and a page.  A longer program goes on at 132MB, where a tick may have mapped
a text page, and takes the terminals with it; a longer word can put a zero into the
page directory.
-/

namespace VirtualOS

open PartialRuns PageWalk LinkedStacks

/-- No open gives an untyped entry a descriptor, and no store reaches the kernel. -/
structure Sparing (img : Image) (map : MemoryMap) (s : Kernel) (op : Op) : Prop where
  typed : NoUntypedOpen img s op
  spares : SparesKernel img map s op

instance (img : Image) (map : MemoryMap) (s : Kernel) (op : Op) :
    Decidable (Sparing img map s op) :=
  decidable_of_iff (NoUntypedOpen img s op ∧ SparesKernel img map s op)
    ⟨fun ⟨htyped, hspares⟩ => ⟨htyped, hspares⟩,
      fun hsparing => ⟨hsparing.typed, hsparing.spares⟩⟩

section Transfer

variable {img : Image} {map : MemoryMap} {s final : Kernel} {ops : List Op}

theorem run_sparing (hsparing : Meets (stepThrough img map) (Sparing img map) s ops) :
    run (stepThrough img map) s ops = run (step img map.toLink) s ops :=
  run_stepThrough (fun _ _ => Sparing.spares) hsparing

theorem meets_typed (hsparing : Meets (stepThrough img map) (Sparing img map) s ops) :
    Meets (step img map.toLink) (NoUntypedOpen img) s ops :=
  (meets_stepThrough (fun _ _ => Sparing.spares) hsparing).imp fun _ _ => Sparing.typed

end Transfer

/-! ## The forest and the running process -/

section Laws

variable {img : Image} {map : MemoryMap} {boot first final : Kernel} {frame : StackFrame}
  {entry image : List UInt8} {ops : List Op}

/-- After the first shell, every sparing run keeps the forest. -/
theorem processForest_of_sparingRun
    (hshell : img.Loadable shellName) (hboot : Booted boot)
    (hfirst : execute img boot (some shellName) frame = some (.started first entry image))
    (hsparing : Meets (stepThrough img map) (Sparing img map) first ops)
    (hrun : run (stepThrough img map) first ops = some final) :
    final.ProcessForest := by
  rw [run_sparing hsparing] at hrun
  exact processForest_of_run hshell hboot hfirst (meets_typed hsparing) hrun

/-- A shell on each of two terminals, a child, a tick and two halts. -/
def smallRun : List Op :=
  [.switchTerminal 1 ⟨0, 0⟩ zeroFrame, .execute (some shellName) zeroFrame, .pit ⟨0, 0⟩,
    .halt 0 zeroFrame, .pit ⟨0, 0⟩, .halt 0 zeroFrame]

theorem smallRun_sparing :
    (run (stepThrough smallImage smallMap) pagedShell smallRun).isSome ∧
      Meets (stepThrough smallImage smallMap) (Sparing smallImage smallMap) pagedShell
        smallRun := by
  decide +kernel

theorem processForest_of_smallRun : ∃ final,
    run (stepThrough smallImage smallMap) pagedShell smallRun = some final ∧
      final.ProcessForest := by
  obtain ⟨entry, image, hfirst⟩ := execute_pagedKernel
  obtain ⟨hsome, hsparing⟩ := smallRun_sparing
  obtain ⟨final, hrun⟩ := Option.isSome_iff_exists.mp hsome
  exact ⟨final, hrun, processForest_of_sparingRun smallImage_loadable pagedKernel_booted hfirst
    hsparing hrun⟩

/-- After the first shell, every sparing run keeps the stack pointer, the control block
and the user page on the running process. -/
theorem runningContext_of_sparingRun
    (hshell : img.Loadable shellName) (hboot : Booted boot)
    (hfirst : execute img boot (some shellName) frame = some (.started first entry image))
    (hsparing : Meets (stepThrough img map) (Sparing img map) first ops)
    (hrun : run (stepThrough img map) first ops = some final) :
    final.RunningContext final.running.processNum := by
  rw [run_sparing hsparing] at hrun
  exact runningContext_of_run hshell hboot hfirst (meets_typed hsparing) hrun

theorem runningContext_of_smallRun : ∃ final,
    run (stepThrough smallImage smallMap) pagedShell smallRun = some final ∧
      final.RunningContext final.running.processNum := by
  obtain ⟨entry, image, hfirst⟩ := execute_pagedKernel
  obtain ⟨hsome, hsparing⟩ := smallRun_sparing
  obtain ⟨final, hrun⟩ := Option.isSome_iff_exists.mp hsome
  exact ⟨final, hrun, runningContext_of_sparingRun smallImage_loadable pagedKernel_booted hfirst
    hsparing hrun⟩

end Laws

/-! ### A program that is longer than its page -/

/-- What lies behind the room of a page: 52 bytes that end at `process_num` of the first
terminal, then a process number, a flag and a count of zero. -/
def overrunBytes : List UInt8 :=
  exeMagicNumber ++ List.replicate 48 0 ++ [0xFA, 1, 0, 0, 1, 0, 0, 0, 0, 0, 0, 0]

/-- The image of the large file, with 64 bytes more than a page has room for. -/
def tailImage : Image where
  filesystemStart := 0
  memory address :=
    if address = 8192 then 0x40
    else if 12288 ≤ address then overrunBytes.getD (address - 12288) 0
    else bigImage.memory address

example : tailImage.inodeLength 1 = imageRoom + 64 := by decide +kernel

/-- A shell on the second terminal, which runs while the first one is displayed, and the
large program in it. -/
def secondShellRun : List Op :=
  [.switchTerminal 1 ⟨0, 0⟩ zeroFrame, .pit ⟨0, 0⟩, .switchTerminal 0 ⟨0, 0⟩ zeroFrame,
    .pit ⟨0, 0⟩]

def executeBig : Op := .execute (some (ascii "big")) zeroFrame

theorem tailImage_loadable : tailImage.Loadable shellName := by
  refine ⟨tailImage.direntry 0, by decide +kernel, fun stale => ?_, by decide +kernel⟩
  have hdata : (readData tailImage (tailImage.direntry 0).inodeNum 0 4).2 =
      exeMagicNumber := by decide +kernel
  rw [readWord, hdata]
  rfl

theorem execute_tailImage : ∃ entry image,
    execute tailImage pagedKernel (some shellName) zeroFrame =
      some (.started pagedShell entry image) := by
  have hfound : freeSlot (loadCurrentProcess pagedKernel) = some 1 := by decide
  exact execute_shell_eq zeroFrame tailImage_loadable hfound

theorem tailImage_drop :
    (readData tailImage (tailImage.direntry 1).inodeNum 0 fourMb.toNat).2.drop imageRoom =
      overrunBytes := by
  have hinode : (tailImage.direntry 1).inodeNum < tailImage.inodeCount := by decide +kernel
  have hlength : tailImage.inodeLength (tailImage.direntry 1).inodeNum = imageRoom + 64 := by
    decide +kernel
  have htail : (readData tailImage (tailImage.direntry 1).inodeNum imageRoom 64).2 =
      overrunBytes := by decide +kernel
  have hbehind : ((tailImage.fileContents (tailImage.direntry 1).inodeNum).drop
      imageRoom).length = 64 := by
    rw [List.length_drop, Image.fileContents_length, hlength, Nat.add_sub_cancel_left]
  rw [readData_snd hinode, List.take_of_length_le hbehind.le] at htail
  rw [readData_snd hinode, List.drop_zero, List.drop_take, htail.symm,
    List.take_of_length_le (hbehind.le.trans (by decide))]

/-- The large program, started where the running process has the third free slot. -/
theorem executeBig_overruns {s stored : Kernel} (hfound : freeSlot s = some 3)
    (hstored : ((loadCurrentProcess s).setPageDirectory pdeIndex (userPage 3)).storeBuffer
      smallMap 0x8400000 overrunBytes = some (stored, true)) :
    performThrough tailImage smallMap s (.execute (some (ascii "big")) zeroFrame) =
      some (startProcess stored 3 [] zeroFrame, ⟨none, []⟩) := by
  have hparse : parseCommand (ascii "big") = (ascii "big", []) := by decide
  have haccepted : acceptedFile tailImage (ascii "big") zeroFrame =
      some (tailImage.direntry 1) := by decide +kernel
  have hload : executeLoad tailImage s (some (ascii "big")) zeroFrame =
      some (3, (readData tailImage (tailImage.direntry 1).inodeNum 0 fourMb.toNat).2) := by
    refine executeLoad_eq_some_iff.mpr ⟨hfound, ?_, _, haccepted, rfl⟩
    rw [hparse]
    decide
  have hlong : imageRoom ≤
      (readData tailImage (tailImage.direntry 1).inodeNum 0 fourMb.toNat).2.length := by
    rw [length_readData_program (by decide +kernel)]
    decide +kernel
  rw [performThrough_overrun hload hlong (by rwa [tailImage_drop]), hparse]

/-- The load ends the chain of the first terminal at a process that there is not, and sets
its count to zero. -/
theorem secondShellRun_overruns : ∃ s final ticked,
    run (stepThrough tailImage smallMap) pagedShell secondShellRun = some s ∧
      stepThrough tailImage smallMap s executeBig = some final ∧
      stepThrough tailImage smallMap final (.pit ⟨0, 0⟩) = some ticked ∧
      (final.terminalT 0).flag = 1 ∧ (final.terminalT 0).totalProcess = 0 ∧
      ticked.running.processNum = 506 := by
  have hchecked : (run (stepThrough tailImage smallMap) pagedShell secondShellRun).any (fun s =>
      freeSlot s = some 3 ∧
        (((loadCurrentProcess s).setPageDirectory pdeIndex (userPage 3)).storeBuffer smallMap
          0x8400000 overrunBytes).any fun stored =>
            let final := startProcess stored.1 3 [] zeroFrame
            stored.2 ∧ (final.terminalT 0).flag = 1 ∧ (final.terminalT 0).totalProcess = 0 ∧
              (pitHandler smallMap.toLink final ⟨0, 0⟩).1.running.processNum = 506) = true := by
    decide +kernel
  obtain ⟨s, hrun, hfound⟩ := (Option.any_eq_true _ _).mp hchecked
  obtain ⟨hslot, hload⟩ := of_decide_eq_true hfound
  obtain ⟨⟨stored, complete⟩, hstored, hend⟩ := (Option.any_eq_true _ _).mp hload
  obtain ⟨rfl, hflag, htotal, hticked⟩ := of_decide_eq_true hend
  have hexecute := executeBig_overruns hslot hstored
  have hstep : stepThrough tailImage smallMap s executeBig =
      some (startProcess stored 3 [] zeroFrame) := by
    rw [stepThrough, executeBig, hexecute, Option.map_some]
  exact ⟨s, _, _, hrun, hstep, rfl, hflag, htotal, hticked⟩

theorem overrun_breaks_forest : tailImage.Loadable shellName ∧ Booted pagedKernel ∧
    ∃ entry image final,
      execute tailImage pagedKernel (some shellName) zeroFrame =
          some (.started pagedShell entry image) ∧
        run (stepThrough tailImage smallMap) pagedShell (secondShellRun ++ [executeBig]) =
          some final ∧
        ¬ final.ProcessForest := by
  obtain ⟨entry, image, hfirst⟩ := execute_tailImage
  obtain ⟨s, final, _, hrun, hexecute, -, hflag, htotal, -⟩ := secondShellRun_overruns
  refine ⟨tailImage_loadable, pagedKernel_booted, entry, image, final, hfirst, ?_,
    fun hforest => ?_⟩
  · rw [run_append, hrun, Option.bind_some, run_cons, hexecute, Option.bind_some, run_nil]
  · have hcounted := (hforest.flag_iff 0).mp hflag
    rw [htotal] at hcounted
    omega

theorem overrun_breaks_context : tailImage.Loadable shellName ∧ Booted pagedKernel ∧
    ∃ entry image final,
      execute tailImage pagedKernel (some shellName) zeroFrame =
          some (.started pagedShell entry image) ∧
        run (stepThrough tailImage smallMap) pagedShell
          (secondShellRun ++ [executeBig, .pit ⟨0, 0⟩]) = some final ∧
        ¬ final.RunningContext final.running.processNum := by
  obtain ⟨entry, image, hfirst⟩ := execute_tailImage
  obtain ⟨s, loaded, final, hrun, hexecute, htick, -, -, hnum⟩ := secondShellRun_overruns
  refine ⟨tailImage_loadable, pagedKernel_booted, entry, image, final, hfirst, ?_,
    fun hcontext => ?_⟩
  · rw [run_append, hrun, Option.bind_some, run_cons, hexecute, Option.bind_some, run_cons, htick,
      Option.bind_some, run_nil]
  · have hmax := hcontext.le_max
    rw [hnum] at hmax
    omega

/-! ## The address space -/

/-- After `page_init` and the first process, every sparing run of the operations that change
a page table keeps the address space of the running process. -/
theorem addressSpace_of_sparingRun {img : Image} {map : MemoryMap} {tables : PageTables}
    {boot first final : Kernel} {command : Option (List UInt8)} {frame : StackFrame}
    {entry image : List UInt8} {ops : List Op} (hboot : Booted boot)
    (hentries : map.entries = (pageInit map.pageTable tables).pageTable)
    (hpages : boot.pageDirectory = (pageInit map.pageTable tables).pageDirectory)
    (hfirst : execute img boot command frame = some (.started first entry image))
    (hops : ∀ op ∈ ops, op.Maps)
    (hspares : Meets (stepThrough img map) (SparesKernel img map) first ops)
    (hrun : run (stepThrough img map) first ops = some final) :
    AddressSpace (map.translate final) final.running.processNum ∧ final.SeparatePages := by
  rw [run_stepThrough (fun _ _ => id) hspares] at hrun
  rw [MemoryMap.translate, hentries]
  exact addressSpace_of_run hboot hpages hfirst hops hrun

/-- A second terminal with a child, a tick, a `vidmap` and two halts. -/
def mappingRun : List Op :=
  [.switchTerminal 1 ⟨0, 0⟩ zeroFrame, .execute (some shellName) zeroFrame, .pit ⟨0, 0⟩,
    .vidmap 0x8000100, .halt 0 zeroFrame, .pit ⟨0, 0⟩, .halt 0 zeroFrame]

theorem addressSpace_of_mappingRun : ∃ final,
    run (stepThrough smallImage smallMap) pagedShell mappingRun = some final ∧
      AddressSpace (smallMap.translate final) final.running.processNum ∧
      final.SeparatePages := by
  obtain ⟨entry, image, hfirst⟩ := execute_pagedKernel
  have hchecked : (run (stepThrough smallImage smallMap) pagedShell mappingRun).isSome ∧
      Meets (stepThrough smallImage smallMap) (SparesKernel smallImage smallMap) pagedShell
        mappingRun := by
    decide +kernel
  obtain ⟨hsome, hspares⟩ := hchecked
  obtain ⟨final, hrun⟩ := Option.isSome_iff_exists.mp hsome
  exact ⟨final, hrun, addressSpace_of_sparingRun pagedKernel_booted rfl rfl hfirst
    (by simp [mappingRun, Op.Maps]) hspares hrun⟩

/-- A name of 211 bytes that sends its zero into the entry of the page at 128MB. -/
def pageName : List UInt8 := List.replicate 208 (0x61 : UInt8) ++ [0x25, 0xFF, 0x3E]

example : LongName pageName := by decide +kernel

/-- No file has this name, and the process that asked for it is left with physical memory
from 0 on as its page. -/
theorem pageName_remaps : Booted pagedKernel ∧
    smallMap.entries = (pageInit smallMap.pageTable zeroTables).pageTable ∧
    pagedKernel.pageDirectory = (pageInit smallMap.pageTable zeroTables).pageDirectory ∧
    ∃ entry image next,
      execute smallImage pagedKernel (some shellName) zeroFrame =
          some (.started pagedShell entry image) ∧
        performThrough smallImage smallMap pagedShell (.execute (some pageName) shellFrame) =
          some (next, ⟨some (-1), []⟩) ∧
        smallMap.translate next 0x8000000 = some ⟨0, true⟩ ∧
        ¬ AddressSpace (smallMap.translate next) next.running.processNum := by
  obtain ⟨entry, image, hfirst⟩ := execute_pagedKernel
  have hload : executeLoad smallImage pagedShell (some pageName) shellFrame = none := by
    decide +kernel
  have hlong : LongName pageName ∧ (freeSlot pagedShell).isSome := by decide +kernel
  have hfar : 212 ≤ (nameEnd pageName shellFrame - shellFrame.cmd).toNat := by decide +kernel
  have hstored : ((loadCurrentProcess pagedShell).storeBuffer smallMap
      (nameEnd pageName shellFrame) [0]).any (fun stored =>
        stored.2 ∧ stored.1.running.processNum = 1 ∧
          smallMap.translate stored.1 0x8000000 = some ⟨0, true⟩) = true := by
    decide +kernel
  obtain ⟨⟨next, complete⟩, hstore, hchecked⟩ := (Option.any_eq_true _ _).mp hstored
  obtain ⟨rfl, hnum, hzero⟩ := of_decide_eq_true hchecked
  have hreturned := (executeThrough_of_longName hload hlong.1 hlong.2).trans
    (executeLong_of_far hfar hstore)
  refine ⟨pagedKernel_booted, rfl, rfl, entry, image, next, hfirst, ?_, hzero, fun hspace => ?_⟩
  · rw [performThrough, hreturned]
    rfl
  · have huser := hspace.user 0x8000000 (by decide) (by decide)
    rw [hzero, hnum] at huser
    exact absurd huser (by decide)

/-! ## A child and its parent -/

section Children

variable {img : Image} {map : MemoryMap} {boot first s child last final : Kernel}
  {frame childFrame : StackFrame} {entry image : List UInt8} {before during : List Op}
  {command : Option (List UInt8)} {op : Op}

/-- A child which opens a file, executes and ends a child of its own, and is
interrupted by the shell of another terminal. -/
def childRun : List Op :=
  [.openFile (some (ascii "frame0.txt")), .execute (some shellName) zeroFrame,
    .switchTerminal 1 ⟨0, 0⟩ zeroFrame, .pit ⟨0, 0⟩, .halt 0 zeroFrame]

def pagedChild : Kernel := startProcess (loadCurrentProcess pagedShell) 2 [] zeroFrame

theorem perform_pagedShell :
    performThrough smallImage smallMap pagedShell (.execute (some shellName) zeroFrame) =
      some (pagedChild, ⟨none, []⟩) := by
  have hspares : SparesKernel smallImage smallMap pagedShell
      (.execute (some shellName) zeroFrame) := by decide +kernel
  have hfound : freeSlot (loadCurrentProcess pagedShell) = some 2 := by decide +kernel
  rw [performThrough_eq hspares]
  exact perform_execute_started.mpr (execute_shell_eq zeroFrame smallImage_loadable hfound)

variable {next : Kernel} {outcome : Outcome} {answer : Answer}

theorem Concludes.of_sparing (hspares : SparesKernel img map s (.execute command frame))
    (hconcludes : Concludes img (performThrough img map) (Sparing img map) s command frame
      outcome next answer) :
    Concludes img (perform img map.toLink) (NoUntypedOpen img) s command frame outcome next
      answer := by
  have hsame := performThrough_eq hspares
  cases hconcludes with
  | returned hexecute => exact .returned (hsame ▸ hexecute)
  | ended hexecute hguard hrun halive hruns hends hcall =>
      obtain ⟨hduring, hlast⟩ := meets_append.mp hguard
      obtain ⟨hend, -⟩ := hlast _ hrun
      have hspared := meets_stepThrough_of_spares (fun _ _ => Sparing.spares) hduring halive
      have hplain : run (step img map.toLink) _ _ = some _ := (run_sparing hduring).symm.trans hrun
      rw [performThrough_eq hend.spares] at hcall
      exact .ended (hsame ▸ hexecute) (meets_typed hguard) hplain hspared hruns hends hcall

theorem concludes_pagedChild {status : BitVec 32} {next : Kernel} {answer : Answer}
    (hcall : performThrough smallImage smallMap pagedChild (.halt status zeroFrame) =
      some (next, answer)) :
    Concludes smallImage (performThrough smallImage smallMap) (Sparing smallImage smallMap)
      pagedShell (some shellName) zeroFrame (.halted status) next answer := by
  have hsparing : Sparing smallImage smallMap pagedChild (.halt status zeroFrame) :=
    ⟨.of_opened_none rfl, trivial⟩
  have hguard : Meets (stepThrough smallImage smallMap) (Sparing smallImage smallMap)
      pagedChild ([] ++ [.halt status zeroFrame]) := ⟨hsparing, fun _ _ => trivial⟩
  exact .ended perform_pagedShell hguard rfl (meets_nil _ _) rfl rfl hcall

variable {ops : List Op}

/-- After the first shell, every sparing run is the run of its events on three stacks. -/
theorem sparingRun_refines_scheduler (hshell : img.Loadable shellName) (hboot : Booted boot)
    (hfirst : execute img boot (some shellName) frame = some (.started first entry image))
    (hsparing : Meets (stepThrough img map) (Sparing img map) first ops)
    (hrun : run (stepThrough img map) first ops = some final) :
    final.scheduler = (schedulerEvents img (stepThrough img map) first ops).foldl Scheduler.step
      Scheduler.start := by
  have hevents : schedulerEvents img (stepThrough img map) first ops =
      schedulerEvents img (step img map.toLink) first ops :=
    translate_eq_of_meets (fun _ _ hspared => stepThrough_eq hspared.spares) hsparing
  rw [run_sparing hsparing] at hrun
  rw [hevents]
  exact kernel_refines_scheduler hshell hboot hfirst (meets_typed hsparing) hrun

theorem smallRun_refines_scheduler : ∃ final,
    run (stepThrough smallImage smallMap) pagedShell smallRun = some final ∧
      final.scheduler = (schedulerEvents smallImage (stepThrough smallImage smallMap) pagedShell
        smallRun).foldl Scheduler.step Scheduler.start := by
  obtain ⟨entry, image, hfirst⟩ := execute_pagedKernel
  obtain ⟨hsome, hsparing⟩ := smallRun_sparing
  obtain ⟨final, hrun⟩ := Option.isSome_iff_exists.mp hsome
  exact ⟨final, hrun, sparingRun_refines_scheduler smallImage_loadable pagedKernel_booted hfirst
    hsparing hrun⟩

/-- At any time in a sparing run, a started terminal that has not the processor gets it within
two ticks of the timer, whatever happens in between. -/
theorem sparingRun_serves_terminals (hshell : img.Loadable shellName) (hboot : Booted boot)
    (hfirst : execute img boot (some shellName) frame = some (.started first entry image))
    (hsparing : Meets (stepThrough img map) (Sparing img map) first (before ++ ops))
    (hbefore : run (stepThrough img map) first before = some s)
    (hrun : run (stepThrough img map) s ops = some final) (t : Fin 3)
    (hstarted : (s.terminalT t).flag ≠ 0) (hticks : 2 ≤ ops.countP Op.isPit) :
    ∃ early late middle, ops = early ++ late ∧
      run (stepThrough img map) s early = some middle ∧
      run (stepThrough img map) middle late = some final ∧ middle.terminalNum = t ∧
      early.countP Op.isPit ≤ 2 := by
  obtain ⟨hfront, hback⟩ := meets_append.mp hsparing
  have hops := hback s hbefore
  obtain ⟨early, late, middle, rfl, hearly, hlate, ht, hcount⟩ :=
    started_terminal_runs_within_two_ticks hshell hboot hfirst (meets_typed hsparing)
      ((run_sparing hfront).symm.trans hbefore) ((run_sparing hops).symm.trans hrun) t hstarted
      hticks
  obtain ⟨hfirstPart, hsecond⟩ := meets_append.mp hops
  rw [← run_sparing hfirstPart] at hearly
  rw [← run_sparing (hsecond middle hearly)] at hlate
  exact ⟨early, late, middle, rfl, hearly, hlate, ht, hcount⟩

/-- A shell on the second terminal, and two ticks. -/
theorem sparingRun_serves_first_terminal : ∃ s final early late middle,
    run (stepThrough smallImage smallMap) pagedShell [.switchTerminal 1 ⟨0, 0⟩ zeroFrame] =
        some s ∧
      run (stepThrough smallImage smallMap) s [.pit ⟨0, 0⟩, .pit ⟨0, 0⟩] = some final ∧
      [Op.pit ⟨0, 0⟩, .pit ⟨0, 0⟩] = early ++ late ∧
      run (stepThrough smallImage smallMap) s early = some middle ∧
      run (stepThrough smallImage smallMap) middle late = some final ∧ middle.terminalNum = 0 ∧
      early.countP Op.isPit ≤ 2 := by
  have hsome : (run (stepThrough smallImage smallMap) pagedShell
      [.switchTerminal 1 ⟨0, 0⟩ zeroFrame]).any (fun s => (s.terminalT 0).flag ≠ 0 ∧
        (run (stepThrough smallImage smallMap) s [.pit ⟨0, 0⟩, .pit ⟨0, 0⟩]).isSome) = true := by
    decide +kernel
  obtain ⟨s, hs, hchecked⟩ := (Option.any_eq_true _ _).mp hsome
  have hstarted := of_decide_eq_true hchecked
  obtain ⟨final, hfinal⟩ := Option.isSome_iff_exists.mp hstarted.2
  obtain ⟨entry, image, hfirst⟩ := execute_pagedKernel
  obtain ⟨early, late, middle, hreached⟩ := sparingRun_serves_terminals smallImage_loadable
    pagedKernel_booted hfirst (by decide +kernel) hs hfinal 0 hstarted.1 (by decide)
  exact ⟨s, final, early, late, middle, hs, hfinal, hreached⟩

end Children

end VirtualOS
