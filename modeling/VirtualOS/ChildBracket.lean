import VirtualOS.ProcessInvariants
import Mathlib.Tactic

/-!
# The life of a child, seen from its parent

A process that executes a child waits in the middle of its stack until the child
halts.  Only the control block of a running process or of a fresh slot is ever
written, so the parent's block stays as it was; and when the child ends, `halt`
puts the parent back where `execute` left it.  The exception is a descriptor
without operations, which `open` makes for an entry of an unknown type: closing
it faults inside `halt`, and the handler halts the parent as well.
-/

namespace VirtualOS

open PartialRuns LinkedStacks

/-! ## While the child lives -/

/-- The process `child` is on the stack of terminal `t` directly above its parent,
and the parent's control block is `pcb`. -/
structure Waiting (v : ProcessView) (t : Fin 3) (child parent : ℕ) (rest : List ℕ)
    (pcb : Pcb) : Prop where
  family : ∃ family front, Scheduled v family ∧ family t = front ++ child :: parent :: rest
  pcb_eq : v.pcb (pcbAddress parent) = pcb

section Waiting

variable {v next : ProcessView} {t : Fin 3} {child parent : ℕ} {rest : List ℕ} {pcb : Pcb}

/-- The parent is below the top of its stack, so it is not the running process. -/
theorem parent_ne_current {family : Fin 3 → List ℕ} {front : List ℕ}
    (hsched : Scheduled v family) (hcells : family t = front ++ child :: parent :: rest) :
    parent ≠ v.current := by
  intro heq
  have hparent : parent ∈ family t := by simp [hcells]
  have ht : v.terminalNum = t :=
    hsched.separate.eq_of_mem (heq ▸ hsched.current_mem) hparent
  obtain ⟨below, htop⟩ := hsched.eq_cons
  rw [ht, hcells, ← heq] at htop
  have hnodup := hsched.separate.nodup t
  rw [hcells] at hnodup
  cases front with
  | nil =>
      rw [List.nil_append, List.cons.injEq] at htop
      rw [List.nil_append, List.nodup_cons] at hnodup
      exact hnodup.1 (by simp [htop.1])
  | cons num front =>
      rw [List.cons_append, List.cons.injEq] at htop
      rw [List.cons_append, List.nodup_cons] at hnodup
      exact hnodup.1 (by simp [htop.1])

theorem Waiting.move {effect : Option FdEffect} (hwait : Waiting v t child parent rest pcb)
    (hmove : Move v effect next) : Waiting next t child parent rest pcb := by
  obtain ⟨⟨family, front, hsched, hcells⟩, hpcb⟩ := hwait
  have hmem : parent ∈ family t := by simp [hcells]
  have hne := parent_ne_current hsched hcells
  have hkeep := (hmove.pcb_eq hsched hmem hne).trans hpcb
  obtain ⟨family', hnext, hsame | ⟨u, num, _, hpush⟩⟩ := hmove.scheduled hsched
  · exact ⟨⟨family', front, hnext, hsame ▸ hcells⟩, hkeep⟩
  · by_cases hut : t = u
    · subst hut
      refine ⟨⟨family', num :: front, hnext, ?_⟩, hkeep⟩
      rw [hpush, push_self, hcells]
      rfl
    · refine ⟨⟨family', front, hnext, ?_⟩, hkeep⟩
      rw [hpush, push_of_ne hut, hcells]

theorem Waiting.end_other (hwait : Waiting v t child parent rest pcb) (hend : End v next)
    (hother : v.current ≠ child) : Waiting next t child parent rest pcb := by
  obtain ⟨⟨family, front, hsched, hcells⟩, hpcb⟩ := hwait
  have hmem : parent ∈ family t := by simp [hcells]
  have hne := parent_ne_current hsched hcells
  have hkeep := (hend.pcb_eq hsched hmem hne).trans hpcb
  obtain ⟨below, htop⟩ := hsched.eq_cons
  by_cases ht : v.terminalNum = t
  · rw [ht, hcells] at htop
    cases front with
    | nil =>
        rw [List.nil_append, List.cons.injEq] at htop
        exact absurd htop.1.symm hother
    | cons num front =>
        have hpop : LinkedStacks.pop family v.terminalNum t =
            front ++ child :: parent :: rest := by
          rw [ht, pop_self, hcells]
          rfl
        cases hend with
        | resume hmore => exact ⟨⟨_, front, hsched.resume hmore, hpop⟩, hkeep⟩
        | restart other argument frame hlast hfree =>
            rw [hsched.count, ht, hcells] at hlast
            simp only [List.length_append, List.length_cons] at hlast
            omega
  · have htne : t ≠ v.terminalNum := fun heq => ht heq.symm
    have hpop : LinkedStacks.pop family v.terminalNum t =
        front ++ child :: parent :: rest := by
      rw [pop_of_ne htne, hcells]
    cases hend with
    | resume hmore => exact ⟨⟨_, front, hsched.resume hmore, hpop⟩, hkeep⟩
    | restart other argument frame hlast hfree =>
        refine ⟨⟨_, front, hsched.restart argument frame hlast hfree, ?_⟩, hkeep⟩
        rw [push_of_ne htne, hpop]

theorem Waiting.end_child (hwait : Waiting v t child parent rest pcb) (hend : End v next)
    (hchild : v.current = child) :
    next.terminalNum = t ∧ next.processNum t = parent ∧
      next.totalProcess t = (parent :: rest).length ∧ next.esp0 = kernelStack parent ∧
      next.page = userPage parent ∧ next.process child = 0 ∧
      next.pcb (pcbAddress parent) = pcb := by
  obtain ⟨⟨family, front, hsched, hcells⟩, hpcb⟩ := hwait
  have hmem : parent ∈ family t := by simp [hcells]
  have hkeep := (hend.pcb_eq hsched hmem (parent_ne_current hsched hcells)).trans hpcb
  have ht : v.terminalNum = t :=
    hsched.separate.eq_of_mem (hchild ▸ hsched.current_mem) (by simp [hcells])
  obtain ⟨below, htop⟩ := hsched.eq_cons
  have hnodup := hsched.separate.nodup t
  rw [ht, hchild, hcells] at htop
  rw [hcells] at hnodup
  have hfront : front = [] := by
    cases front with
    | nil => rfl
    | cons num front =>
        rw [List.cons_append, List.cons.injEq] at htop
        rw [List.cons_append, List.nodup_cons] at hnodup
        exact absurd (by simp [htop.1]) hnodup.1
  subst hfront
  cases hend with
  | restart other argument frame hlast hfree =>
      rw [hsched.count, ht, hcells] at hlast
      simp only [List.nil_append, List.length_cons] at hlast
      omega
  | resume hmore =>
      have hnext := hsched.resume hmore
      have hnextTop : LinkedStacks.pop family v.terminalNum t = parent :: rest := by
        rw [ht, pop_self, hcells]
        rfl
      have hlinked := hnext.linked t
      rw [hnextTop] at hlinked
      have hcurrent : v.resume.current = parent := by
        rw [← hlinked.1, ← ht]
        rfl
      refine ⟨ht, hlinked.1, ?_, ?_, ?_, ?_, hkeep⟩
      · rw [hnext.count t, hnextTop]
      · rw [hnext.esp0, hcurrent]
      · rw [hnext.page, hcurrent]
      · subst hchild
        simp [ProcessView.resume]

end Waiting

/-! ## The law -/

/-- After the child, the parent finds its terminal, its context and its control
block as they were before `execute`. -/
structure Kernel.ChildInvisible (before : Kernel) (child : ℕ) (after : Kernel) : Prop where
  terminalNum : after.terminalNum = before.terminalNum
  processNum : after.running.processNum = before.running.processNum
  totalProcess : after.running.totalProcess = before.running.totalProcess
  esp0 : after.esp0 = before.esp0
  page : after.pageDirectory pdeIndex = before.pageDirectory pdeIndex
  slot : after.process child = 0
  pcb : after.pcb (pcbAddress before.running.processNum) =
    before.pcb (pcbAddress before.running.processNum)

section Law

variable {img : Image} {link : Link}

theorem Waiting.of_execute {s child : Kernel} {family : Fin 3 → List ℕ} {rest : List ℕ}
    {command : Option (List UInt8)} {frame : StackFrame} {entry image : List UInt8}
    (hsched : Scheduled s.view family)
    (hcells : family s.terminalNum = s.running.processNum :: rest)
    (hexecute : execute img s command frame = some (.started child entry image)) :
    Waiting child.view s.terminalNum child.running.processNum s.running.processNum rest
      (s.pcb (pcbAddress s.running.processNum)) := by
  obtain ⟨num, argument, hfree, hview⟩ := execute_moves hexecute
  have hchild : child.running.processNum = num := by
    have hcurrent : child.view.current = num := by
      simp [hview, ProcessView.current, ProcessView.start]
    exact hcurrent
  refine ⟨⟨_, [], hview ▸ hsched.start argument frame hfree, ?_⟩, ?_⟩
  · rw [hchild]
    exact push_self.trans (congrArg _ hcells)
  · have hne : s.view.current ≠ num := by
      rintro rfl
      exact hsched.toForest.fresh_of_free hfree _ hsched.current_mem
    rw [hview]
    exact ProcessView.start_pcb_of_ne argument frame hfree.2.1 hsched.current_le hne

theorem run_waiting {s final : Kernel} {ops : List Op} {t : Fin 3} {child parent : ℕ}
    {below : List ℕ} {pcb : Pcb} (hshell : img.Loadable shellName)
    (htyped : Meets (step img link) (NoUntypedOpen img) s ops)
    (halive : Meets (step img link) (Spares img child) s ops)
    (hwait : Waiting s.view t child parent below pcb)
    (hrun : run (step img link) s ops = some final) :
    Waiting final.view t child parent below pcb := by
  induction ops generalizing s with
  | nil =>
      obtain rfl := Option.some.inj hrun
      exact hwait
  | cons op rest ih =>
      obtain ⟨next, hstep, hrest⟩ := run_cons_eq_some.mp hrun
      obtain ⟨family, _, hsched, _⟩ := hwait.family
      have hnext : Waiting next.view t child parent below pcb := by
        rcases step_cases (fun _ => hshell) hsched.sound htyped.1 hstep with
          ⟨_, hmove⟩ | ⟨hends, hend⟩
        · exact hwait.move hmove
        · refine hwait.end_other hend fun hchild => ?_
          rw [halive.1 hchild] at hends
          contradiction
      exact ih (htyped.2 next hstep) (halive.2 next hstep) hnext hrest

variable {boot first s child last final : Kernel} {frame childFrame : StackFrame}
  {entry image childEntry childImage : List UInt8} {before during : List Op}
  {command : Option (List UInt8)} {op : Op}

/-- In every run without an `open` of an untyped entry, a process that executes a
child gets everything back when the child ends. -/
theorem childInvisible_of_run
    (hshell : img.Loadable shellName) (hboot : Booted boot)
    (hfirst : execute img boot (some shellName) frame = some (.started first entry image))
    (hbefore : Meets (step img link) (NoUntypedOpen img) first before)
    (hreach : run (step img link) first before = some s)
    (hexecute : execute img s command childFrame = some (.started child childEntry childImage))
    (hduring : Meets (step img link) (NoUntypedOpen img) child during)
    (hrun : run (step img link) child during = some last)
    (halive : Meets (step img link) (Spares img child.running.processNum) child during)
    (hruns : last.running.processNum = child.running.processNum)
    (hends : endsProcess img last op = true)
    (hhalt : step img link last op = some final) :
    s.ChildInvisible child.running.processNum final := by
  obtain ⟨_, hstart⟩ := hboot.scheduled hfirst
  obtain ⟨family, hsched⟩ := run_scheduled hshell hstart hbefore hreach
  obtain ⟨rest, hcells⟩ := hsched.eq_cons
  have hwait := Waiting.of_execute hsched hcells hexecute
  have hlast := run_waiting hshell hduring halive hwait hrun
  obtain ⟨_, _, hlastSched, _⟩ := hlast.family
  have htyped : NoUntypedOpen img last op := by
    refine .of_opened_none ?_
    cases op with
    | openFile filename => exact absurd hends Bool.false_ne_true
    | _ => rfl
  have hend : End last.view final.view := by
    rcases step_cases (fun _ => hshell) hlastSched.sound htyped hhalt with ⟨hgoes, _⟩ | ⟨_, hend⟩
    · rw [hends] at hgoes
      contradiction
    · exact hend
  obtain ⟨ht, hnum, htotal, hesp0, hpage, hslot, hpcb⟩ := hlast.end_child hend hruns
  have hbeforeTotal : s.running.totalProcess = (s.running.processNum :: rest).length := by
    have hcount := hsched.count s.terminalNum
    rw [show family s.terminalNum = _ from hcells] at hcount
    exact hcount
  have hterminal : final.terminalNum = s.terminalNum := ht
  refine ⟨hterminal, ?_, ?_, hesp0.trans hsched.esp0.symm, hpage.trans hsched.page.symm, hslot,
    hpcb⟩
  · rw [Kernel.running, hterminal]
    exact hnum
  · rw [hbeforeTotal, Kernel.running, hterminal]
    exact htotal

def childKernel : Kernel := startProcess (loadCurrentProcess shellKernel) 2 [] zeroFrame

theorem execute_shellKernel : ∃ entry image,
    execute smallImage shellKernel (some shellName) zeroFrame =
      some (.started childKernel entry image) := by
  have hfound : freeSlot (loadCurrentProcess shellKernel) = some 2 := by decide +kernel
  exact execute_shell_eq zeroFrame smallImage_loadable hfound

/-! ## An entry of an unknown type -/

/-- The small image with an entry of type 7. -/
def oddImage : Image where
  filesystemStart := 0
  memory address := if address = 64 + 3 * 64 + 32 then 7 else smallImage.memory address

theorem oddImage_loadable : oddImage.Loadable shellName := by
  refine ⟨oddImage.direntry 1, by decide +kernel, fun stale => ?_, by decide +kernel⟩
  have hdata : (readData oddImage (oddImage.direntry 1).inodeNum 0 4).2 =
      exeMagicNumber := by decide +kernel
  rw [readWord, hdata]
  rfl

def grandchildKernel : Kernel := startProcess (loadCurrentProcess childKernel) 3 [] zeroFrame

end Law

end VirtualOS
