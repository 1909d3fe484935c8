import VirtualOS.PreemptionSteps
import Mathlib.Tactic

/-!
# Preemption without lost contexts or shared slots

Every event of an orderly run keeps the holdings of the threads.  So a tick loads
the pair that was saved when the terminal lost the processor, and a slot is handed
out only when nobody holds it.  Two short runs that are not orderly show what
happens otherwise: a tick inside `halt` loses the context of its terminal, and two
searches before either `cli` give one slot to two processes.
-/

namespace VirtualOS

open PartialRuns LinkedStacks

/-! ## Runs -/

/-- A call gives no untyped entry a descriptor. -/
def Machine.OpensTyped (img : Image) (m : Machine) : Event → Prop
  | .statement => True
  | .op operation => NoUntypedOpen img m.kernel operation

instance Machine.OpensTyped.decidable (img : Image) (m : Machine) :
    ∀ event, Decidable (m.OpensTyped img event)
  | .statement => isTrue trivial
  | .op operation => NoUntypedOpen.decidable img m.kernel operation

section Runs

variable {img : Image} {link : Link} {m next : Machine} {cells : Holdings}

theorem call_threads (hthreads : m.Threads img cells) {op : Op}
    (htyped : NoUntypedOpen img m.kernel op)
    (hcall : m.call img link op = some next) : next.Threads img cells := by
  unfold Machine.call at hcall
  split at hcall
  · rename_i huser
    obtain ⟨after, hpoint, rfl⟩ := Option.map_eq_some_iff.mp hcall
    exact callPoint_threads hthreads huser htyped hpoint
  · contradiction

theorem statement_threads (hshell : img.Loadable shellName) (hthreads : m.Threads img cells)
    (horderly : m.Orderly img .statement) (hstep : m.statement img = some next) :
    ∃ cells', next.Threads img cells' := by
  unfold Machine.statement at hstep
  split at hstep
  · contradiction
  · rename_i hrunning
    obtain ⟨after, hafter, rfl⟩ := Option.map_eq_some_iff.mp hstep
    exact executeStatement_threads hshell hthreads horderly hrunning hafter
  · rename_i hrunning
    obtain ⟨after, hafter, rfl⟩ := Option.map_eq_some_iff.mp hstep
    exact haltStatement_threads hthreads horderly hrunning hafter

theorem machineStep_threads (hshell : img.Loadable shellName) (hthreads : m.Threads img cells)
    {event : Event} (htyped : m.OpensTyped img event) (horderly : m.Orderly img event)
    (hstep : machineStep img link m event = some next) : ∃ cells', next.Threads img cells' := by
  cases event with
  | statement => exact statement_threads hshell hthreads horderly hstep
  | op op =>
      have hop : NoUntypedOpen img m.kernel op := htyped
      cases op with
      | pit cpu =>
          obtain rfl := Option.some.inj hstep
          exact ⟨cells, pit_threads link hthreads horderly⟩
      | keyboard scancode cpu frame =>
          obtain ⟨after, hkey, rfl⟩ := Option.map_eq_some_iff.mp hstep
          rcases keyboardHandler_view hkey with ⟨_, hview⟩ | ⟨t, htarget, hswitch⟩
          · have hnum : after.terminalNum = m.kernel.terminalNum :=
              congrArg ProcessView.terminalNum hview
            refine ⟨cells, ?_⟩
            simpa [Machine.interrupted, hnum, Machine.Threads, hview] using hthreads
          · exact switch_threads hshell hthreads htarget rfl horderly hswitch
      | switchTerminal t cpu frame =>
          obtain ⟨after, hswitch, rfl⟩ := Option.map_eq_some_iff.mp hstep
          exact switch_threads hshell hthreads rfl rfl horderly hswitch
      | rtcInterrupt =>
          obtain rfl := Option.some.inj hstep
          exact ⟨cells, hthreads⟩
      | _ => exact ⟨cells, call_threads hthreads hop hstep⟩

theorem Booted.threads {boot first : Kernel} {frame : StackFrame} {entry image : List UInt8}
    (hboot : Booted boot)
    (hfirst : execute img boot (some shellName) frame = some (.started first entry image)) :
    ∃ cells, (Machine.start first).Threads img cells := by
  obtain ⟨num, argument, ⟨hpos, hmax, hzero⟩, hview⟩ := execute_moves hfirst
  have hledger : Ledger boot.view fun _ => [] := by
    refine ⟨⟨by simp, by simp⟩, by simp, ?_, hboot.forest.callable⟩
    exact fun other hotherPos hotherMax =>
      .inr ⟨hboot.process other hotherPos hotherMax, by simp⟩
  have hfresh : Fresh (fun _ => [] : Holdings) num := by simp [Fresh]
  have hothers : ∀ t, t ≠ boot.view.terminalNum → Untouched boot.view first.view (fun _ => [])
      (push (fun _ => []) (.inl boot.view.terminalNum) num) t := by
    intro t ht
    rw [hview]
    exact .start hledger hfresh hmax argument frame ht
  have hterminal : first.view.terminalNum = boot.view.terminalNum := by rw [hview]; rfl
  have hflag : first.view.flag boot.view.terminalNum ≠ 0 := by
    rw [hview]
    simp [ProcessView.start]
  have hfirstOnly : ∀ t, t ≠ boot.view.terminalNum → first.view.flag t = 0 :=
    fun t ht => (hothers t ht).flag.trans (hboot.flag t)
  refine ⟨push (fun _ => []) (.inl boot.view.terminalNum) num, ?_, ?_, ?_, ?_, ?_, ?_, ?_⟩
  · exact hview ▸ hledger.start hfresh hpos hmax argument frame
  · intro t ht
    have hne : t ≠ boot.view.terminalNum := fun heq => hflag (heq ▸ ht)
    refine Vacant.of_untouched ⟨rfl, rfl, rfl, ?_, ?_⟩ (hothers t hne)
    · exact hboot.processNum t
    · exact hboot.totalProcess t
  · intro t ht
    have heq : t = boot.view.terminalNum := by
      by_contra hne
      exact ht (hfirstOnly t hne)
    subst heq
    refine hview ▸ stands_start hledger hfresh hpos hmax argument frame ?_ ?_ rfl
    · exact hboot.processNum _
    · exact hboot.totalProcess _
  · exact hterminal ▸ hflag
  · exact fun _ _ => rfl
  · intro t ht hstarted
    exact absurd (hfirstOnly t (hterminal ▸ ht)) hstarted
  · have hesp0 : first.view.esp0 = kernelStack first.view.current := by
      rw [hview]
      simp [ProcessView.start, ProcessView.current]
    exact hesp0

/-! ## What the threads hold is held once -/

theorem Machine.Threads.picked_mem (hthreads : m.Threads img cells) {t : Fin 3} {num : ℕ}
    (hpicked : m.picked img t = some num) : num ∈ cells (.inr t) := by
  unfold Machine.picked at hpicked
  split at hpicked
  · rename_i hpoint
    split at hpicked
    · rename_i hstarts
      obtain rfl := Option.some.inj hpicked
      have hflag : m.kernel.view.flag t ≠ 0 := by
        intro hzero
        have huser := (hthreads.vacant t hzero).user
        rw [hpoint] at huser
        contradiction
      have hspare := (hthreads.stands t hflag).spare
      rw [hpoint] at hspare
      simp only [Point.Spare, hstarts, if_true] at hspare
      simp [hspare]
    · contradiction
  · contradiction

theorem Machine.Threads.chain (hthreads : m.Threads img cells) (t : Fin 3) :
    ∃ chain : List ℕ,
      Linked m.kernel.processNumPrev 0 (m.kernel.terminalT t).processNum chain ∧ chain.Nodup ∧
        ∀ num ∈ chain, num ∈ cells (.inl t) ∨
          num ∈ cells (.inr t) ∧ (m.point t).leaves = true := by
  by_cases hflag : m.kernel.view.flag t = 0
  · exact ⟨[], (hthreads.vacant t hflag).processNum, List.nodup_nil, by simp⟩
  · have hstands := hthreads.stands t hflag
    have hlinked := hstands.linked
    have hnodup := hthreads.separate.nodup (.inl t)
    by_cases hleaves : (m.point t).leaves = true
    · rw [if_pos hleaves] at hlinked
      have hmem : m.kernel.view.processNum t ∈ cells (.inr t) := by
        simp [hstands.spare.of_leaves hleaves]
      refine ⟨_, hlinked, List.nodup_cons.mpr ⟨fun hstack => ?_, hnodup⟩, fun num hnum => ?_⟩
      · exact hthreads.separate.disjoint (.inl t) (.inr t) (by simp) hstack hmem
      · rcases List.mem_cons.mp hnum with rfl | hstack
        · exact .inr ⟨hmem, hleaves⟩
        · exact .inl hstack
    · rw [if_neg hleaves] at hlinked
      exact ⟨_, hlinked, hnodup, fun num hnum => .inl hnum⟩

theorem Machine.Threads.onChain_mem (hthreads : m.Threads img cells) {t : Fin 3} {num : ℕ}
    (hchain : m.kernel.OnChain t num) :
    num ∈ cells (.inl t) ∨ num ∈ cells (.inr t) ∧ (m.point t).leaves = true := by
  obtain ⟨chain, hlinked, _, hheld⟩ := hthreads.chain t
  obtain ⟨k, rfl, hk⟩ := hchain
  have hlt := hlinked.lt_length hk
  refine hheld _ ?_
  have hmet : m.kernel.ancestor t k = chain[k] := hlinked.iterate_eq_getElem hlt
  rw [hmet]
  exact List.getElem_mem hlt

theorem Machine.Threads.heldOnce (hthreads : m.Threads img cells) : m.HeldOnce where
  apart t u num ht hu := by
    rcases hthreads.onChain_mem ht with ht | ⟨ht, _⟩ <;>
      rcases hthreads.onChain_mem hu with hu | ⟨hu, _⟩
    · simpa using hthreads.separate.eq_of_mem ht hu
    · simpa using hthreads.separate.eq_of_mem ht hu
    · simpa using hthreads.separate.eq_of_mem ht hu
    · simpa using hthreads.separate.eq_of_mem ht hu
  no_repetition t j k hjk hk := by
    obtain ⟨chain, hlinked, hnodup, _⟩ := hthreads.chain t
    have hlt := hlinked.lt_length hk
    have hfirst : m.kernel.ancestor t j = chain[j] := hlinked.iterate_eq_getElem (hjk.trans hlt)
    have hsecond : m.kernel.ancestor t k = chain[k] := hlinked.iterate_eq_getElem hlt
    rw [hfirst, hsecond]
    intro heq
    have hsame := hnodup.getElem_inj_iff.mp heq
    omega

theorem handsOutFree_of_threads (hthreads : m.Threads img cells) {event : Event}
    (horderly : m.Orderly img event) : m.HandsOutFree img event := by
  intro num hnum
  cases event with
  | statement =>
      have hpicked : m.picked img m.kernel.terminalNum = some num := hnum
      have hmem := hthreads.picked_mem hpicked
      obtain ⟨_, hmax, hzero⟩ := hthreads.free_of_spare hmem
      have hinside : (m.point m.kernel.terminalNum).leaves = false ∧
          m.halting m.kernel.terminalNum = none := by
        unfold Machine.picked at hpicked
        unfold Machine.halting
        split at hpicked
        · rename_i hpoint
          rw [hpoint]
          exact ⟨rfl, rfl⟩
        · contradiction
      have hsame : ∀ t, num ∈ cells (.inr t) → t = m.kernel.terminalNum := by
        intro t ht
        simpa using hthreads.separate.eq_of_mem ht hmem
      refine ⟨hzero, fun t => ⟨fun hchain => ?_, fun hhalting => ?_⟩⟩
      · rcases hthreads.onChain_mem hchain with hstack | ⟨hspare, hleaves⟩
        · exact hthreads.separate.disjoint (.inl t) (.inr _) (by simp) hstack hmem
        · rw [hsame t hspare, hinside.1] at hleaves
          contradiction
      · have hspare := (hthreads.mem_spare_iff hmax).mpr (.inr hhalting)
        rw [hsame t hspare, hinside.2] at hhalting
        contradiction
  | op op =>
      have hfound : freeSlot m.kernel = some num := by
        simp only [Machine.handsOut] at hnum
        split at hnum
        · exact hnum
        · contradiction
      have hfree := freeSlot_eq_some hfound
      refine ⟨hfree.2.2, fun t => ?_⟩
      have hunclaimed := horderly.2.1 num hnum t
      refine ⟨fun hchain => ?_, hunclaimed.2⟩
      rcases hthreads.onChain_mem hchain with hstack | ⟨hspare, _⟩
      · exact hthreads.notMem_stack hfree hstack
      · exact hthreads.notMem_spare hfree.2.1 hunclaimed hspare

end Runs

/-! ## The laws and their limits -/

section Laws

variable {img : Image} {link : Link} {boot first : Kernel} {frame : StackFrame}
  {entry image : List UInt8} {events : List Event}

/-- In an orderly run every tick loads the pair that was saved when the terminal it
resumes last lost the processor. -/
theorem resumesLost_of_run
    (hshell : img.Loadable shellName) (hboot : Booted boot)
    (hfirst : execute img boot (some shellName) frame = some (.started first entry image))
    (htyped : Meets (machineStep img link) (Machine.OpensTyped img) (.start first) events)
    (horderly : Meets (machineStep img link) (Machine.Orderly img) (.start first) events) :
    Meets (machineStep img link) (Machine.ResumesLost link) (.start first) events := by
  refine Meets.imp_of_invariant (fun m : Machine => ∃ cells, m.Threads img cells) ?_ ?_
    (hboot.threads hfirst) (htyped.and horderly)
  · rintro m event next ⟨cells, hthreads⟩ ⟨hevent, hguard⟩ hstep
    exact machineStep_threads hshell hthreads hevent hguard hstep
  · rintro m event ⟨cells, hthreads⟩ ⟨_, hguard⟩
    exact resumesLost_of_threads link hthreads hguard

/-- Terminal 1 gets a shell and starts a child, which is interrupted twice on its way
through `halt`. -/
def preemptedRun : List Event := List.flatten
  [[.op (.switchTerminal 1 ⟨1, 1⟩ zeroFrame), .op (.execute (some shellName) zeroFrame)],
    statements 3, [.op (.pit ⟨2, 2⟩), .op (.pit ⟨3, 3⟩)],
    statements 2, [.op (.halt 0 zeroFrame)],
    statements 4, [.op (.pit ⟨4, 4⟩), .op (.pit ⟨5, 5⟩)],
    statements 11, [.op (.pit ⟨6, 6⟩), .op (.pit ⟨7, 7⟩), .statement]]

theorem preemptedRun_orderly :
    (run (machineStep smallImage zeroLink) (.start shellKernel) preemptedRun).isSome ∧
      Meets (machineStep smallImage zeroLink) (Machine.OpensTyped smallImage)
        (.start shellKernel) preemptedRun ∧
      Meets (machineStep smallImage zeroLink) (Machine.Orderly smallImage)
        (.start shellKernel) preemptedRun := by
  decide +kernel

theorem resumesLost_of_preemptedRun :
    (run (machineStep smallImage zeroLink) (.start shellKernel) preemptedRun).isSome ∧
      Meets (machineStep smallImage zeroLink) (Machine.ResumesLost zeroLink)
        (.start shellKernel) preemptedRun := by
  obtain ⟨entry, image, hfirst⟩ := execute_bootKernel
  obtain ⟨hsome, htyped, horderly⟩ := preemptedRun_orderly
  exact ⟨hsome, resumesLost_of_run smallImage_loadable bootKernel_booted hfirst htyped
    horderly⟩

/-- A child on terminal 0 has given `process_num` back to its parent when a tick falls
into its `halt`.  The next tick loads the pair that its parent once lost. -/
def tickInHalt : List Event := List.flatten
  [[.op (.switchTerminal 1 ⟨1, 1⟩ zeroFrame), .op (.pit ⟨2, 2⟩),
      .op (.execute (some shellName) zeroFrame)],
    statements 5, [.op (.halt 0 zeroFrame)], statements 6, [.op (.pit ⟨3, 3⟩)]]

theorem tickInHalt_loads_stale_pair : ∃ final,
    run (machineStep smallImage zeroLink) (.start shellKernel) tickInHalt = some final ∧
      final.lost 0 = some ⟨3, 3⟩ ∧
      (pitHandler zeroLink final.kernel ⟨4, 4⟩).1.terminalNum = 0 ∧
      (pitHandler zeroLink final.kernel ⟨4, 4⟩).2 = ⟨1, 1⟩ ∧
      ¬ final.ResumesLost zeroLink (.op (.pit ⟨4, 4⟩)) := by
  have hany : (run (machineStep smallImage zeroLink) (.start shellKernel) tickInHalt).any
      (fun m => decide (m.lost 0 = some ⟨3, 3⟩ ∧ m.kernel.terminalNum = 1 ∧
        ¬ ((m.kernel.terminalT 1).flag = 0 ∧ (m.kernel.terminalT 2).flag = 0) ∧
        (pitHandler zeroLink m.kernel ⟨4, 4⟩).1.terminalNum = 0 ∧
        (pitHandler zeroLink m.kernel ⟨4, 4⟩).2 = ⟨1, 1⟩)) = true := by
    decide +kernel
  obtain ⟨final, hrun, hfinal⟩ := (Option.any_eq_true _ _).mp hany
  obtain ⟨hlost, hnum, hbusy, hnext, hpair⟩ := of_decide_eq_true hfinal
  refine ⟨final, hrun, hlost, hnext, hpair, fun hresumes => ?_⟩
  have hloaded := hresumes hbusy
  rw [hnum, hnext, hpair, Function.update_of_ne (by decide), hlost] at hloaded
  exact absurd hloaded (by decide)

/-- In an orderly run every slot is handed out free, and no slot is ever held by two
processes. -/
theorem handsOutFree_of_run
    (hshell : img.Loadable shellName) (hboot : Booted boot)
    (hfirst : execute img boot (some shellName) frame = some (.started first entry image))
    (htyped : Meets (machineStep img link) (Machine.OpensTyped img) (.start first) events)
    (horderly : Meets (machineStep img link) (Machine.Orderly img) (.start first) events) :
    Meets (machineStep img link) (Machine.HandsOutFree img) (.start first) events ∧
      ∀ final, run (machineStep img link) (.start first) events = some final →
        final.HeldOnce := by
  have hguard := htyped.and horderly
  have hkept : ∀ (m : Machine) (event : Event) (next : Machine),
      (∃ cells, m.Threads img cells) → m.OpensTyped img event ∧ m.Orderly img event →
      machineStep img link m event = some next → ∃ cells, next.Threads img cells := by
    rintro m event next ⟨cells, hthreads⟩ ⟨hevent, hmet⟩ hstep
    exact machineStep_threads hshell hthreads hevent hmet hstep
  refine ⟨?_, fun final hrun => ?_⟩
  · refine Meets.imp_of_invariant (fun m : Machine => ∃ cells, m.Threads img cells) hkept ?_
      (hboot.threads hfirst) hguard
    rintro m event ⟨cells, hthreads⟩ ⟨_, hmet⟩
    exact handsOutFree_of_threads hthreads hmet
  · obtain ⟨cells, hthreads⟩ := run_invariant_of_meets
      (fun m : Machine => ∃ cells, m.Threads img cells) hkept (hboot.threads hfirst) hguard hrun
    exact hthreads.heldOnce

theorem handsOutFree_of_preemptedRun : ∃ final,
    run (machineStep smallImage zeroLink) (.start shellKernel) preemptedRun = some final ∧
      Meets (machineStep smallImage zeroLink) (Machine.HandsOutFree smallImage)
        (.start shellKernel) preemptedRun ∧ final.HeldOnce := by
  obtain ⟨entry, image, hfirst⟩ := execute_bootKernel
  obtain ⟨hsome, htyped, horderly⟩ := preemptedRun_orderly
  obtain ⟨final, hrun⟩ := Option.isSome_iff_exists.mp hsome
  obtain ⟨hfree, honce⟩ := handsOutFree_of_run smallImage_loadable bootKernel_booted hfirst
    htyped horderly
  exact ⟨final, hrun, hfree, honce final hrun⟩

/-- Two terminals search the table before either of them reaches its `cli`. -/
def twoSearches : List Event := List.flatten
  [[.op (.switchTerminal 1 ⟨1, 1⟩ zeroFrame), .op (.execute (some shellName) zeroFrame)],
    statements 4, [.op (.pit ⟨2, 2⟩), .op (.execute (some shellName) zeroFrame)],
    statements 4, [.op (.pit ⟨3, 3⟩), .statement, .op (.pit ⟨4, 4⟩)]]

/-- The second of them takes the slot from the process that the first has started. -/
theorem twoSearches_share_slot : ∃ final,
    run (machineStep smallImage zeroLink) (.start shellKernel) twoSearches = some final ∧
      final.handsOut smallImage .statement = some 3 ∧ final.kernel.process 3 = 1 ∧
      (final.kernel.terminalT 1).processNum = 3 ∧
      ¬ final.HandsOutFree smallImage .statement := by
  have hany : (run (machineStep smallImage zeroLink) (.start shellKernel) twoSearches).any
      (fun m => decide (m.handsOut smallImage .statement = some 3 ∧ m.kernel.process 3 = 1 ∧
        (m.kernel.terminalT 1).processNum = 3)) = true := by
    decide +kernel
  obtain ⟨final, hrun, hfinal⟩ := (Option.any_eq_true _ _).mp hany
  obtain ⟨hslot, hprocess, hnum⟩ := of_decide_eq_true hfinal
  refine ⟨final, hrun, hslot, hprocess, hnum, fun hfree => ?_⟩
  have hzero := (hfree 3 hslot).1
  exact one_ne_zero (hprocess.symm.trans hzero)

end Laws

end VirtualOS
