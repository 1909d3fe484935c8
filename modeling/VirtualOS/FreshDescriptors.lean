import VirtualOS.ChildBracket
import Mathlib.Tactic

/-!
# Fresh descriptor tables

`execute` fills descriptors 0 and 1 of the new control block and leaves the other
six as the previous process of the slot left them.  They are closed only if that
process closed them or `halt` did, and `halt` does so only on its way back to a
parent: the last process of a terminal gives up its slot with its descriptors
open.  In the runs in which no last process does that, every table starts fresh
and a descriptor in use was opened by the process that uses it.
-/

namespace VirtualOS

open PartialRuns LinkedStacks

/-! ## Closed slots -/

/-- Flags are 0 or 1, and 0 in the slots that no process holds. -/
structure Clean (pcbs : BitVec 32 → Pcb) (family : Fin 3 → List ℕ) : Prop where
  flags : ∀ num, num ≤ processNumMax → ∀ fd : Fin 8, 1 < fd.val →
    ((pcbs (pcbAddress num)).fileDescArray fd).flags = 0 ∨
      ((pcbs (pcbAddress num)).fileDescArray fd).flags = 1
  closed : ∀ num, num ≤ processNumMax → Fresh family num → ∀ fd : Fin 8, 1 < fd.val →
    ((pcbs (pcbAddress num)).fileDescArray fd).flags = 0

section Clean

variable {pcbs : BitVec 32 → Pcb} {pcb : Pcb} {family : Fin 3 → List ℕ} {num : ℕ} {t : Fin 3}

theorem Clean.update (hclean : Clean pcbs family) (hmax : num ≤ processNumMax)
    (hmem : num ∈ family t)
    (hflags : ∀ fd : Fin 8, 1 < fd.val →
      (pcb.fileDescArray fd).flags = 0 ∨ (pcb.fileDescArray fd).flags = 1) :
    Clean (Function.update pcbs (pcbAddress num) pcb) family where
  flags other hother fd hfd := by
    by_cases hne : other = num
    · subst hne
      rw [Function.update_self]
      exact hflags fd hfd
    · rw [update_pcb_of_ne hmax hother hne]
      exact hclean.flags other hother fd hfd
  closed other hother hfresh fd hfd := by
    have hne : other ≠ num := by
      rintro rfl
      exact hfresh t hmem
    rw [update_pcb_of_ne hmax hother hne]
    exact hclean.closed other hother hfresh fd hfd

theorem Clean.release {rest : List ℕ} (hclean : Clean pcbs family)
    (htop : family t = num :: rest)
    (hzero : ∀ fd : Fin 8, 1 < fd.val →
      ((pcbs (pcbAddress num)).fileDescArray fd).flags = 0) :
    Clean pcbs (pop family t) where
  flags := hclean.flags
  closed other hother hfresh fd hfd := by
    by_cases hne : other = num
    · subst hne
      exact hzero fd hfd
    · refine hclean.closed other hother (fun u hmem => hfresh u ?_) fd hfd
      by_cases hu : u = t
      · subst hu
        rw [htop, List.mem_cons] at hmem
        rw [pop_self, htop]
        exact hmem.resolve_left hne
      · rwa [pop_of_ne hu]

theorem Clean.start (hclean : Clean pcbs family) (prev : ℕ) (argument : List UInt8)
    (frame : StackFrame) (hmax : num ≤ processNumMax) :
    Clean (Function.update pcbs (pcbAddress num)
      (newPcb prev num argument frame (pcbs (pcbAddress num)))) (push family t num) where
  flags other hother fd hfd := by
    have hlow : ¬ fd.val ≤ 1 := by omega
    by_cases hne : other = num
    · subst hne
      rw [Function.update_self]
      simpa only [newPcb, hlow, if_false] using hclean.flags other hother fd hfd
    · rw [update_pcb_of_ne hmax hother hne]
      exact hclean.flags other hother fd hfd
  closed other hother hfresh fd hfd := by
    have hne : other ≠ num := by
      rintro rfl
      exact hfresh t (by simp)
    rw [update_pcb_of_ne hmax hother hne]
    exact hclean.closed other hother
      (fun u hmem => hfresh u (mem_push.mpr (.inr hmem))) fd hfd

/-- Exactly standard input and output are in use. -/
def Pcb.Fresh (pcb : Pcb) : Prop :=
  ∀ fd : Fin 8, (pcb.fileDescArray fd).flags = 1 ↔ fd.val ≤ 1

theorem Clean.newPcb_fresh (hclean : Clean pcbs family) (prev : ℕ) (argument : List UInt8)
    (frame : StackFrame) (hmax : num ≤ processNumMax) (hfresh : LinkedStacks.Fresh family num) :
    (newPcb prev num argument frame (pcbs (pcbAddress num))).Fresh := by
  intro fd
  by_cases hlow : fd.val ≤ 1
  · simp [newPcb, hlow]
  · simp [newPcb, hlow, hclean.closed num hmax hfresh fd (by omega)]

end Clean

section Moves

variable {v next : ProcessView} {family : Fin 3 → List ℕ} {effect : Option FdEffect}

theorem PcbStep.flags {pcb after : Pcb} (hstep : PcbStep pcb effect after) (fd : Fin 8) :
    (after.fileDescArray fd).flags = (pcb.fileDescArray fd).flags ∨
      (after.fileDescArray fd).flags = 0 ∨
        (after.fileDescArray fd).flags = 1 ∧ effect = some (.opens fd) := by
  cases hstep with
  | opened other row inode _ _ =>
      by_cases hne : fd = other
      · subst hne
        exact .inr (.inr ⟨by simp [Pcb.setFd], rfl⟩)
      · exact .inl (by simp [Pcb.setFd, hne])
  | closed other _ =>
      by_cases hne : fd = other
      · subst hne
        exact .inr (.inl (by simp [Pcb.setFd]))
      · exact .inl (by simp [Pcb.setFd, hne])
  | advanced other filePos =>
      by_cases hne : fd = other
      · subst hne
        exact .inl (by simp [Pcb.setFd])
      · exact .inl (by simp [Pcb.setFd, hne])
  | saved cpu => exact .inl rfl

theorem Clean.touch {pcb : Pcb} (hclean : Clean v.pcb family) (hsched : Scheduled v family)
    (hstep : PcbStep v.currentPcb effect pcb) : Clean (v.touch pcb).pcb family := by
  rw [hsched.touch_eq]
  refine hclean.update hsched.current_le hsched.current_mem fun fd hfd => ?_
  have hbefore := hclean.flags _ hsched.current_le fd hfd
  rw [← hsched.currentPcb_eq] at hbefore
  rcases hstep.flags fd with hsame | hzero | hone
  · rwa [hsame]
  · exact .inl hzero
  · exact .inr hone.1

theorem Move.clean (hmove : Move v effect next) (hsched : Scheduled v family)
    (hclean : Clean v.pcb family) :
    ∃ family', Scheduled next family' ∧ Clean next.pcb family' := by
  cases hmove with
  | stay _ => exact ⟨family, hsched, hclean⟩
  | touch _ pcb hpcb => exact ⟨family, hsched.touch hpcb, hclean.touch hsched hpcb⟩
  | enumerated fd => exact ⟨family, hsched.setDirIndex _, hclean⟩
  | openedDir fd pcb hpcb =>
      exact ⟨family, (hsched.touch hpcb).setDirIndex 0, hclean.touch hsched hpcb⟩
  | start num argument frame hfree =>
      exact ⟨_, hsched.start argument frame hfree, hclean.start _ argument frame hfree.2.1⟩
  | dispatch t cpu hflag =>
      exact ⟨family, (hsched.save cpu).dispatch hflag, hclean.touch hsched (.saved cpu)⟩
  | begin t cpu num argument frame _ hfree =>
      exact ⟨_, (hsched.save cpu).begin t argument frame hfree,
        (hclean.touch hsched (.saved cpu)).start _ argument frame hfree.2.1⟩

theorem cleanPcb_flags {pcb : Pcb} {fd : Fin 8} (hfd : 1 < fd.val)
    (hflags : (pcb.fileDescArray fd).flags = 0 ∨ (pcb.fileDescArray fd).flags = 1) :
    ((cleanPcb pcb).fileDescArray fd).flags = 0 := by
  rcases hflags with hzero | hone
  · simp [cleanPcb, hzero]
  · simp [cleanPcb, hone, hfd]

theorem End.clean (hend : End v next) (hsched : Scheduled v family)
    (hclean : Clean v.pcb family)
    (hlast : v.totalProcess v.terminalNum - 1 = 0 → ∀ fd : Fin 8, 1 < fd.val →
      (v.currentPcb.fileDescArray fd).flags ≠ 1) :
    ∃ family', Scheduled next family' ∧ Clean next.pcb family' := by
  obtain ⟨rest, hcells⟩ := hsched.eq_cons
  have hflags : ∀ fd : Fin 8, 1 < fd.val → (v.currentPcb.fileDescArray fd).flags = 0 ∨
      (v.currentPcb.fileDescArray fd).flags = 1 := by
    intro fd hfd
    rw [hsched.currentPcb_eq]
    exact hclean.flags _ hsched.current_le fd hfd
  cases hend with
  | resume hmore =>
      have hpcb : v.resume.pcb =
          Function.update v.pcb (pcbAddress v.current) (cleanPcb v.currentPcb) := by
        simp only [ProcessView.resume, hsched.pcbPtr_eq]
      refine ⟨_, hsched.resume hmore, ?_⟩
      rw [hpcb]
      refine (hclean.update hsched.current_le hsched.current_mem
        fun fd hfd => .inl (cleanPcb_flags hfd (hflags fd hfd))).release hcells
        fun fd hfd => ?_
      rw [Function.update_self]
      exact cleanPcb_flags hfd (hflags fd hfd)
  | restart num argument frame htotal hfree =>
      have hreleased : Clean v.vacate.pcb (pop family v.terminalNum) := by
        refine hclean.release hcells fun fd hfd => ?_
        rw [← hsched.currentPcb_eq]
        exact (hflags fd hfd).resolve_right (hlast htotal fd hfd)
      exact ⟨_, hsched.restart argument frame htotal hfree,
        hreleased.start _ argument frame hfree.2.1⟩

/-! ## Who opened a descriptor -/

theorem Move.flags_ne_zero {num : ℕ} {t : Fin 3} (hmove : Move v effect next)
    (hsched : Scheduled v family) (hmem : num ∈ family t) {fd : Fin 8}
    (hflags : ((next.pcb (pcbAddress num)).fileDescArray fd).flags ≠ 0) :
    ((v.pcb (pcbAddress num)).fileDescArray fd).flags ≠ 0 ∨
      (v.current = num ∧ effect = some (.opens fd)) := by
  rcases hmove.pcb_cases hsched hmem with hsame | ⟨hruns, hstep⟩
  · exact .inl (hsame ▸ hflags)
  · rcases hstep.flags fd with hkept | hzero | ⟨_, hopens⟩
    · exact .inl (hkept ▸ hflags)
    · exact absurd hzero hflags
    · exact .inr ⟨hruns, hopens⟩

end Moves

/-! ## Runs -/

/-- A step starts a process when it ends the last one of a terminal, whose shell
is executed again, or makes the counter of the running terminal grow. -/
def startsProcess (img : Image) (s next : Kernel) (op : Op) : Prop :=
  (endsProcess img s op = true ∧ s.running.totalProcess = 1) ∨
    (s.terminalT next.terminalNum).totalProcess < next.running.totalProcess

/-- The call goes through the operations of descriptor `fd`: `read` and `close`
look at its flags first, `write` does not. -/
def Op.Uses (s : Kernel) (fd : Fin 8) : Op → Prop
  | .read num _ _ _ => fdIndex num = some fd ∧ (s.fileDesc fd).flags ≠ 0
  | .write num _ _ _ => fdIndex num = some fd
  | .close num _ => fdIndex num = some fd ∧ (s.fileDesc fd).flags ≠ 0
  | _ => False

/-- What a run must avoid: an untyped entry that gets a descriptor, the end of a last
process with a descriptor open, and a `write` to a descriptor that is not in use. -/
structure Op.Tidy (img : Image) (s : Kernel) (op : Op) : Prop where
  typed : NoUntypedOpen img s op
  closes : endsProcess img s op = true → s.running.totalProcess = 1 →
    ∀ fd : Fin 8, 1 < fd.val → (s.fileDesc fd).flags ≠ 1
  writes : ∀ fd : Fin 8, 1 < fd.val → op.Uses s fd → (s.fileDesc fd).flags ≠ 0

/-- The run contains an `open` by process `num` which returns `fd`. -/
def OpenedBy (img : Image) (link : Link) (s : Kernel) (ops : List Op) (num : ℕ)
    (fd : Fin 8) : Prop :=
  ∃ front filename back middle, ops = front ++ .openFile filename :: back ∧
    run (step img link) s front = some middle ∧ middle.running.processNum = num ∧
    opensFd img middle (.openFile filename) = some fd

section Runs

variable {img : Image} {link : Link}

theorem run_clean {s final : Kernel} {ops : List Op}
    (hshell : img.Loadable shellName)
    (hinv : ∃ family, Scheduled s.view family ∧ Clean s.pcb family)
    (htidy : Meets (step img link) (fun state op => op.Tidy img state) s ops)
    (hrun : run (step img link) s ops = some final) :
    ∃ family, Scheduled final.view family ∧ Clean final.pcb family := by
  refine run_invariant_of_meets (fun s : Kernel => ∃ family,
    Scheduled s.view family ∧ Clean s.pcb family) ?_ hinv htidy hrun
  rintro state op next ⟨family, hsched, hclean⟩ hop hstep
  rcases step_cases (fun _ => hshell) hsched.sound hop.typed hstep with ⟨_, hmove⟩ | ⟨hends, hend⟩
  · exact hmove.clean hsched hclean
  · refine hend.clean hsched hclean fun hlast => hop.closes hends ?_
    have htotal : state.running.totalProcess - 1 = 0 := hlast
    omega

theorem fresh_of_start {next : Kernel} {base : ProcessView} {num : ℕ} {argument : List UInt8}
    {frame : StackFrame} {family : Fin 3 → List ℕ}
    (hview : next.view = base.start num argument frame) (hmax : num ≤ processNumMax)
    (hbase : Clean base.pcb family) (hfresh : LinkedStacks.Fresh family num) :
    (next.pcb (pcbAddress next.running.processNum)).Fresh := by
  have hpcb : next.pcb = (base.start num argument frame).pcb := congrArg ProcessView.pcb hview
  have hcurrent : next.view.current = num := by
    simp [hview, ProcessView.current, ProcessView.start]
  have hnum : next.running.processNum = num := hcurrent
  rw [hpcb, hnum, ProcessView.start_pcb_self]
  exact hbase.newPcb_fresh _ argument frame hmax hfresh

theorem Booted.clean {boot first : Kernel} {frame : StackFrame} {entry image : List UInt8}
    (hboot : Booted boot)
    (hfirst : execute img boot (some shellName) frame = some (.started first entry image)) :
    (∃ family, Scheduled first.view family ∧ Clean first.pcb family) ∧
      (first.pcb (pcbAddress first.running.processNum)).Fresh := by
  obtain ⟨num, argument, hfree, hview⟩ := execute_moves hfirst
  have hsched : Scheduled first.view (push (fun _ => []) boot.terminalNum num) := by
    rw [hview]
    exact hboot.forest.start_scheduled argument frame hfree fun t _ =>
      (hboot.flag t).trans (by simp)
  have hempty : Clean boot.pcb fun _ => [] :=
    ⟨fun num _ fd _ => .inl (hboot.flags _ fd), fun num _ _ fd _ => hboot.flags _ fd⟩
  have hpcb : first.pcb = (boot.view.start num argument frame).pcb :=
    congrArg ProcessView.pcb hview
  refine ⟨⟨_, hsched, ?_⟩, ?_⟩
  · rw [hpcb]
    exact hempty.start _ argument frame hfree.2.1
  · apply fresh_of_start hview hfree.2.1 hempty
    simp [LinkedStacks.Fresh]

theorem step_fresh {s next : Kernel} {op : Op} {family : Fin 3 → List ℕ}
    (hshell : img.Loadable shellName) (hsched : Scheduled s.view family)
    (hclean : Clean s.pcb family) (hop : op.Tidy img s)
    (hstep : step img link s op = some next) (hstarts : startsProcess img s next op) :
    (next.pcb (pcbAddress next.running.processNum)).Fresh := by
  have hsaved := fun cpu => hclean.touch hsched (.saved cpu)
  rcases step_cases (fun _ => hshell) hsched.sound hop.typed hstep with
    ⟨hgoes, hmove⟩ | ⟨hends, hend⟩
  · have hgrows : (s.terminalT next.terminalNum).totalProcess < next.running.totalProcess := by
      rcases hstarts with ⟨hends, _⟩ | hgrows
      · rw [hends] at hgoes
        contradiction
      · exact hgrows
    have hsame : next.view.totalProcess ≠ s.view.totalProcess := by
      intro heq
      have hterminal := congrFun heq next.terminalNum
      exact absurd hterminal (ne_of_gt hgrows)
    generalize fdEffect img s op = effect at hmove
    generalize hview : next.view = after at hmove hsame
    cases hmove with
    | stay _ => exact absurd rfl hsame
    | touch _ pcb hpcb => exact absurd rfl hsame
    | enumerated fd => exact absurd rfl hsame
    | openedDir fd pcb hpcb => exact absurd rfl hsame
    | dispatch t cpu hflag => exact absurd rfl hsame
    | start num argument frame hfree =>
        exact fresh_of_start hview hfree.2.1 hclean (hsched.toForest.fresh_of_free hfree)
    | begin t cpu num argument frame _ hfree =>
        exact fresh_of_start hview hfree.2.1 (hsaved cpu) (hsched.toForest.fresh_of_free hfree)
  · generalize hview : next.view = after at hend
    cases hend with
    | resume hmore =>
        rcases hstarts with ⟨_, hone⟩ | hgrows
        · have htotal : s.running.totalProcess - 1 ≠ 0 := hmore
          omega
        · have hterminal : next.terminalNum = s.terminalNum :=
            congrArg ProcessView.terminalNum hview
          have htotal : next.view.totalProcess s.terminalNum = s.running.totalProcess - 1 := by
            rw [hview]
            simp [ProcessView.resume, Kernel.view, Kernel.running]
          rw [hterminal, Kernel.running, hterminal] at hgrows
          have hless : s.running.totalProcess < s.running.totalProcess - 1 :=
            lt_of_lt_of_eq hgrows htotal
          omega
    | restart num argument frame hlast hfree =>
        obtain ⟨rest, hcells⟩ := hsched.eq_cons
        have htotal : s.running.totalProcess - 1 = 0 := hlast
        have hreleased : Clean s.view.vacate.pcb (pop family s.terminalNum) := by
          refine hclean.release hcells fun fd hfd => ?_
          have hflags := hclean.flags _ hsched.current_le fd hfd
          refine hflags.resolve_right ?_
          have hnot := hop.closes hends (by omega) fd hfd
          rw [Kernel.fileDesc, show s.pcbPtr = _ from hsched.pcbPtr_eq] at hnot
          exact hnot
        refine fresh_of_start hview hfree.2.1 hreleased ?_
        rcases hsched.pop.taken num hfree.1 hfree.2.1 with ⟨hone, _⟩ | ⟨_, hfresh⟩
        · have hzero := hfree.2.2
          rw [show s.view.vacate.process = s.view.pop.process from rfl, hone] at hzero
          contradiction
        · exact hfresh

theorem run_openedBy {s final : Kernel} {ops : List Op} {num : ℕ} {t : Fin 3}
    {family : Fin 3 → List ℕ} {fd : Fin 8} (hshell : img.Loadable shellName)
    (hsched : Scheduled s.view family) (hmem : num ∈ family t)
    (htidy : Meets (step img link) (fun state op => op.Tidy img state) s ops)
    (halive : Meets (step img link) (Spares img num) s ops)
    (hrun : run (step img link) s ops = some final)
    (hflags : ((final.pcb (pcbAddress num)).fileDescArray fd).flags ≠ 0) :
    ((s.pcb (pcbAddress num)).fileDescArray fd).flags ≠ 0 ∨ OpenedBy img link s ops num fd := by
  induction ops generalizing s family with
  | nil =>
      obtain rfl := Option.some.inj hrun
      exact .inl hflags
  | cons op rest ih =>
      obtain ⟨next, hstep, hrest⟩ := run_cons_eq_some.mp hrun
      have hlater : ∀ {family'}, Scheduled next.view family' → num ∈ family' t →
          ((next.pcb (pcbAddress num)).fileDescArray fd).flags ≠ 0 ∨
            OpenedBy img link s (op :: rest) num fd := by
        intro family' hnext hmem'
        refine (ih hnext hmem' (htidy.2 next hstep) (halive.2 next hstep) hrest).imp id ?_
        rintro ⟨front, filename, back, middle, rfl, hmiddle, hnum, hopened⟩
        exact ⟨op :: front, filename, back, middle, rfl,
          run_cons_eq_some.mpr ⟨next, hstep, hmiddle⟩, hnum, hopened⟩
      rcases step_cases (fun _ => hshell) hsched.sound htidy.1.typed hstep with
        ⟨_, hmove⟩ | ⟨hends, hend⟩
      · obtain ⟨family', hnext, hmem'⟩ := hmove.mem hsched hmem
        rcases hlater hnext hmem' with hnonzero | hopened
        · rcases hmove.flags_ne_zero hsched hmem hnonzero with hbefore | ⟨hnum, hopens⟩
          · exact .inl hbefore
          · cases op with
            | openFile filename =>
                obtain ⟨opened, hopened, heq⟩ := Option.map_eq_some_iff.mp hopens
                obtain rfl := FdEffect.opens.inj heq
                exact .inr ⟨[], filename, rest, s, rfl, rfl, hnum, hopened⟩
            | _ => simp [fdEffect] at hopens
        · exact .inr hopened
      · have hne : num ≠ s.view.current := by
          rintro rfl
          rw [halive.1 rfl] at hends
          contradiction
        obtain ⟨family', hnext, hmem'⟩ := hend.mem hsched hmem hne
        rcases hlater hnext hmem' with hnonzero | hopened
        · rw [show next.pcb (pcbAddress num) = _ from hend.pcb_eq hsched hmem hne] at hnonzero
          exact .inl hnonzero
        · exact .inr hopened

/-- The states in which a process has just been started, in tidy runs. -/
inductive JustStarted (img : Image) (link : Link) (boot : Kernel) : Kernel → Prop where
  | first {frame : StackFrame} {s : Kernel} {entry image : List UInt8}
      (hfirst : execute img boot (some shellName) frame = some (.started s entry image)) :
      JustStarted img link boot s
  | later {frame : StackFrame} {first middle s : Kernel} {entry image : List UInt8}
      {before : List Op} {op : Op}
      (hfirst : execute img boot (some shellName) frame = some (.started first entry image))
      (htidy : Meets (step img link) (fun state op => op.Tidy img state) first (before ++ [op]))
      (hrun : run (step img link) first before = some middle)
      (hstep : step img link middle op = some s)
      (hstarts : startsProcess img middle s op) : JustStarted img link boot s

theorem JustStarted.clean {boot s : Kernel} (hshell : img.Loadable shellName)
    (hboot : Booted boot) (hstarted : JustStarted img link boot s) :
    (∃ family, Scheduled s.view family ∧ Clean s.pcb family) ∧
      (s.pcb (pcbAddress s.running.processNum)).Fresh := by
  cases hstarted with
  | first hfirst => exact hboot.clean hfirst
  | later hfirst htidy hrun hstep hstarts =>
      obtain ⟨hbefore, hlast⟩ := meets_append.mp htidy
      obtain ⟨family, hsched, hclean⟩ :=
        run_clean hshell (hboot.clean hfirst).1 hbefore hrun
      have hop := (hlast _ hrun).1
      refine ⟨run_clean hshell ⟨family, hsched, hclean⟩ (hlast _ hrun)
        (run_cons_eq_some.mpr ⟨_, hstep, rfl⟩), ?_⟩
      exact step_fresh hshell hsched hclean hop hstep hstarts

/-- In tidy runs a process starts with exactly its standard descriptors in use,
and every descriptor it uses beside these it has opened itself. -/
theorem freshDescriptors_of_run {boot s : Kernel} (hshell : img.Loadable shellName)
    (hboot : Booted boot) (hstarted : JustStarted img link boot s) :
    (s.pcb (pcbAddress s.running.processNum)).Fresh ∧
      ∀ (ops : List Op) (last : Kernel) (op : Op) (fd : Fin 8),
        Meets (step img link) (fun state op => op.Tidy img state) s ops →
        Meets (step img link) (Spares img s.running.processNum) s ops →
        run (step img link) s ops = some last →
        last.running.processNum = s.running.processNum →
        op.Tidy img last → op.Uses last fd → 1 < fd.val →
        OpenedBy img link s ops s.running.processNum fd := by
  obtain ⟨⟨family, hsched, hclean⟩, hfresh⟩ := hstarted.clean hshell hboot
  refine ⟨hfresh, fun ops last op fd htidy halive hrun hnum hop huses hfd => ?_⟩
  obtain ⟨family', hlast, _⟩ := run_clean hshell ⟨family, hsched, hclean⟩ htidy hrun
  have hflags := hop.writes fd hfd huses
  have hptr : last.pcbPtr = pcbAddress s.running.processNum := by
    rw [← hnum]
    exact hlast.pcbPtr_eq
  rw [Kernel.fileDesc, hptr] at hflags
  refine (run_openedBy hshell hsched hsched.current_mem htidy halive hrun hflags).resolve_left ?_
  rw [not_not]
  refine (hclean.flags _ hsched.current_le fd hfd).resolve_right fun hone => ?_
  have hlow := (hfresh fd).mp hone
  omega

end Runs

/-- A process opens a file and reads it. -/
def openFrame : Op := .openFile (some (ascii "frame0.txt"))
def readTwo : Op := .read 2 (some zeroBuffer) 32 zeroFrame

theorem openFrame_typed (s : Kernel) : NoUntypedOpen smallImage s openFrame := by
  have hentry : openFrame.opened smallImage = some (smallImage.direntry 3) := by decide +kernel
  have htype : (smallImage.direntry 3).fileType ≤ 2 := by decide +kernel
  intro dentry hmem hodd
  obtain rfl := Option.some.inj (hentry.symm.trans hmem)
  exact absurd hodd (typeRow_ne_none htype)

theorem freshDescriptors_of_childKernel :
    (childKernel.pcb (pcbAddress childKernel.running.processNum)).Fresh ∧
      OpenedBy smallImage zeroLink childKernel [openFrame] childKernel.running.processNum 2 := by
  obtain ⟨entry, image, hfirst⟩ := execute_bootKernel
  obtain ⟨childEntry, childImage, hexecute⟩ := execute_shellKernel
  have hstep : step smallImage zeroLink shellKernel (.execute (some shellName) zeroFrame) =
      some childKernel := by
    simp only [step, perform, hexecute, Option.map_some, Execution.answer]
  have htidy : Meets (step smallImage zeroLink) (fun state op => op.Tidy smallImage state)
      shellKernel ([] ++ [.execute (some shellName) zeroFrame]) :=
    ⟨⟨.of_opened_none rfl, by simp [endsProcess], by simp [Op.Uses]⟩, fun _ _ => trivial⟩
  have hstarted : JustStarted smallImage zeroLink bootKernel childKernel :=
    .later hfirst htidy rfl hstep (.inr (by decide +kernel))
  obtain ⟨hfresh, hopened⟩ :=
    freshDescriptors_of_run smallImage_loadable bootKernel_booted hstarted
  refine ⟨hfresh, ?_⟩
  have hsome : (run (step smallImage zeroLink) childKernel [openFrame]).map (fun last =>
      (last.running.processNum, endsProcess smallImage last readTwo,
        (last.fileDesc 2).flags)) = some (childKernel.running.processNum, false, 1) := by
    decide +kernel
  obtain ⟨last, hrun, heq⟩ := Option.map_eq_some_iff.mp hsome
  obtain ⟨hnum, heq⟩ := Prod.mk.inj heq
  obtain ⟨hends, hflags⟩ := Prod.mk.inj heq
  have hindex : fdIndex 2 = some 2 := by decide
  have huses : readTwo.Uses last 2 := ⟨hindex, by simp [hflags]⟩
  have htidy : readTwo.Tidy smallImage last := by
    refine ⟨.of_opened_none rfl, by simp [hends], fun fd _ hfd => ?_⟩
    exact hfd.2
  exact hopened [openFrame] last readTwo 2
    ⟨⟨openFrame_typed _, by simp [openFrame, endsProcess], by simp [openFrame, Op.Uses]⟩,
      fun _ _ => trivial⟩
    ⟨fun _ => rfl, fun _ _ => trivial⟩ hrun hnum htidy huses (by decide)

/-- The first shell opens a file and halts.  The shell that is started in its
place reads the file through the descriptor it finds open. -/
theorem inheritedDescriptor_of_shellKernel : ∃ opened next final,
    run (step smallImage zeroLink) shellKernel [openFrame] = some opened ∧
      step smallImage zeroLink opened (.halt 0 zeroFrame) = some next ∧
      startsProcess smallImage opened next (.halt 0 zeroFrame) ∧
      ¬ (next.pcb (pcbAddress next.running.processNum)).Fresh ∧
      perform smallImage zeroLink next readTwo = some (final, ⟨some 5, ascii "hello"⟩) := by
  have hopen : (run (step smallImage zeroLink) shellKernel [openFrame]).map
      (fun opened => opened.running.totalProcess) = some 1 := by decide +kernel
  obtain ⟨opened, hopened, htotal⟩ := Option.map_eq_some_iff.mp hopen
  have hnext : ((run (step smallImage zeroLink) shellKernel [openFrame]).bind fun opened =>
      step smallImage zeroLink opened (.halt 0 zeroFrame)).map (fun next =>
        ((next.pcb (pcbAddress next.running.processNum)).fileDescArray 2).flags) = some 1 := by
    decide +kernel
  rw [hopened, Option.bind_some] at hnext
  obtain ⟨next, hstep, hflags⟩ := Option.map_eq_some_iff.mp hnext
  have hread : ((run (step smallImage zeroLink) shellKernel [openFrame]).bind fun opened =>
      (step smallImage zeroLink opened (.halt 0 zeroFrame)).bind fun next =>
        perform smallImage zeroLink next readTwo).map (fun final =>
          (final.2.value, final.2.bytes)) = some (some 5, ascii "hello") := by
    decide +kernel
  rw [hopened, Option.bind_some, hstep, Option.bind_some] at hread
  obtain ⟨⟨final, answer⟩, hfinal, heq⟩ := Option.map_eq_some_iff.mp hread
  obtain ⟨hvalue, hbytes⟩ := Prod.mk.inj heq
  have hanswer : answer = ⟨some 5, ascii "hello"⟩ := by
    cases answer
    simp_all
  refine ⟨opened, next, final, hopened, hstep, .inl ⟨rfl, htotal⟩, fun hfresh => ?_,
    hanswer ▸ hfinal⟩
  have hlow := (hfresh 2).mp hflags
  exact absurd hlow (by decide)

end VirtualOS
