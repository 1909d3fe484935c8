import VirtualOS.SchedulerModel
import Mathlib.Tactic

/-!
# Round robin between the terminals

The timer passes the processor on to the next terminal that has processes.  A
terminal that waits gets it after two ticks at the latest, whatever the running
programs and the keyboard do in between: a terminal that is begun takes the
processor at once, but each terminal is begun only once.
-/

namespace VirtualOS

open PartialRuns LinkedStacks

namespace Scheduler

variable {m : Scheduler} {t : Fin 3}

/-- The ticks that terminal `t` waits at most: its distance when all terminals are busy. -/
def wait (m : Scheduler) (t : Fin 3) : ℕ :=
  if m.running = t then 0 else if ∀ u, m.stack u ≠ [] then (t - m.running).val else 2

theorem wait_eq_zero : m.wait t = 0 ↔ m.running = t := by
  have hdistance : ∀ r u : Fin 3, (u - r).val = 0 ↔ r = u := by decide
  unfold wait
  split
  · simp_all
  · split <;> simp_all

theorem wait_le_two : m.wait t ≤ 2 := by
  unfold wait
  split
  · omega
  · split <;> omega

/-- The waiting time depends only on which terminals are busy. -/
theorem wait_congr {next : Scheduler} (hrunning : next.running = m.running)
    (hbusy : ∀ u, next.stack u = [] ↔ m.stack u = []) : next.wait t = m.wait t := by
  simp only [wait, hrunning, ne_eq, hbusy]

theorem nextBusy_of_all (hall : ∀ u, m.stack u ≠ []) (u : Fin 3) : m.nextBusy 3 u = u :=
  if_pos (hall u)

theorem nextBusy_of_pair {u : Fin 3} (hidle : m.stack u = []) (hbusy : m.stack t ≠ [])
    (hut : u ≠ t) (hur : u ≠ m.running) (hne : m.running ≠ t) :
    m.nextBusy 3 (m.running + 1) = t := by
  have hthird : ∀ r t u : Fin 3, u ≠ t → u ≠ r → r ≠ t →
      r + 1 = t ∨ r + 1 = u ∧ r + 1 + 1 = t := by decide
  rcases hthird m.running t u hut hur hne with hnext | ⟨hnext, hafter⟩
  · rw [hnext]
    exact if_pos hbusy
  · rw [nextBusy, hnext, if_neg (by simpa using hidle), nextBusy, ← hnext, hafter, if_pos hbusy]

/-- A tick brings the terminals that wait closer to the processor. -/
theorem wait_tick (hrunning : m.stack m.running ≠ []) (hbusy : m.stack t ≠ [])
    (hne : m.running ≠ t) : (m.step .tick).wait t + 1 ≤ m.wait t := by
  have hsome : ¬ (m.stack 1 = [] ∧ m.stack 2 = []) := by
    rintro ⟨hone, htwo⟩
    have hzero : ∀ u, m.stack u ≠ [] → u = 0 := by
      intro u hu
      fin_cases u
      · rfl
      · exact absurd hone hu
      · exact absurd htwo hu
    exact hne ((hzero _ hrunning).trans (hzero _ hbusy).symm)
  rw [step, if_neg hsome]
  by_cases hall : ∀ u, m.stack u ≠ []
  · have hdistance : ∀ r u : Fin 3, r ≠ u → (u - (r + 1)).val + 1 = (u - r).val := by decide
    rw [nextBusy_of_all hall, wait, wait, if_neg hne, if_pos hall]
    split
    · have := (hdistance _ _ hne).symm
      omega
    · exact (hdistance _ _ hne).le
  · obtain ⟨u, hu⟩ := not_forall.mp hall
    have hidle : m.stack u = [] := not_not.mp hu
    rw [nextBusy_of_pair hidle hbusy (fun heq => hbusy (heq ▸ hidle))
      (fun heq => hrunning (heq ▸ hidle)) hne, wait, if_pos rfl, wait, if_neg hne, if_neg hall]
    omega

theorem spawn_cases (m : Scheduler) (t : Fin 3) :
    m.spawn t = m ∨ ∃ num, m.spawn t = ⟨push m.stack t num, t⟩ := by
  unfold spawn
  split
  · exact Or.inl rfl
  · exact Or.inr ⟨_, rfl⟩

theorem stack_tick (u : Fin 3) : (m.step .tick).stack u = m.stack u := by
  rw [step]
  split <;> rfl

theorem busy_push {family : Fin 3 → List ℕ} {u : Fin 3} {num : ℕ} (ht : family t ≠ []) :
    push family u num t ≠ [] := by
  by_cases htu : t = u
  · subst htu
    simp
  · rwa [push_of_ne htu]

theorem busy_spawn (hbusy : m.stack t ≠ []) (u : Fin 3) : (m.spawn u).stack t ≠ [] := by
  rcases m.spawn_cases u with heq | ⟨num, heq⟩
  · rwa [heq]
  · rw [heq]
    exact busy_push hbusy

/-- A busy terminal stays busy. -/
theorem busy_step (hbusy : m.stack t ≠ []) {event : SchedulerEvent}
    (hnext : (m.step event).stack (m.step event).running ≠ []) :
    (m.step event).stack t ≠ [] := by
  cases event with
  | tick => rwa [stack_tick]
  | other => exact hbusy
  | execute accepted =>
      rw [step]
      split
      · exact busy_spawn hbusy _
      · exact hbusy
  | select u =>
      rw [step]
      split
      · exact busy_spawn hbusy u
      · exact hbusy
  | exit =>
      by_cases ht : t = m.running
      · have hrunning : (m.step .exit).running = m.running := by
          rw [step]
          dsimp only
          split
          · rcases spawn_cases ⟨pop m.stack m.running, m.running⟩ m.running with heq | ⟨_, heq⟩ <;>
              rw [heq]
          · rfl
        rw [hrunning] at hnext
        rwa [ht]
      · have hkept : pop m.stack m.running t ≠ [] := by rwa [pop_of_ne ht]
        rw [step]
        dsimp only
        split
        · exact busy_spawn hkept m.running
        · exact hkept

/-- Neither the running program nor the keyboard makes a busy terminal wait longer. -/
theorem wait_step (hrunning : m.stack m.running ≠ []) (hne : m.running ≠ t)
    {event : SchedulerEvent} (htick : event ≠ .tick)
    (hnext : (m.step event).stack (m.step event).running ≠ []) :
    (m.step event).wait t ≤ m.wait t := by
  -- the stacks of the other terminals stay, that of the running one stays busy
  have hsame : ∀ next : Scheduler, next.running = m.running → next.stack next.running ≠ [] →
      (∀ u, u ≠ m.running → next.stack u = m.stack u) → next.wait t ≤ m.wait t := by
    intro next heq hkept hothers
    refine (wait_congr heq fun u => ?_).le
    by_cases hu : u = m.running
    · subst hu
      rw [heq] at hkept
      simp [hkept, hrunning]
    · rw [hothers u hu]
  cases event with
  | tick => exact absurd rfl htick
  | other => exact le_rfl
  | execute accepted =>
      cases accepted with
      | false => exact le_rfl
      | true =>
          change (m.spawn m.running).wait t ≤ m.wait t
          rcases m.spawn_cases m.running with heq | ⟨num, heq⟩
          · rw [heq]
          · rw [heq]
            exact hsame _ rfl (by simp) fun u hu => push_of_ne hu
  | exit =>
      have hpop : ∀ u, u ≠ m.running → pop m.stack m.running u = m.stack u :=
        fun u hu => pop_of_ne hu
      rw [step] at hnext ⊢
      dsimp only at hnext ⊢
      split at hnext
      · rename_i hlast
        rw [if_pos hlast]
        rcases spawn_cases ⟨pop m.stack m.running, m.running⟩ m.running with heq | ⟨num, heq⟩
        · rw [heq] at hnext ⊢
          exact hsame _ rfl hnext hpop
        · rw [heq] at hnext ⊢
          exact hsame _ rfl hnext fun u hu => (push_of_ne hu).trans (hpop u hu)
      · rename_i hmore
        rw [if_neg hmore]
        exact hsame _ rfl hmore hpop
  | select u =>
      rw [step]
      split
      · rename_i hbegins
        have hwait : m.wait t = 2 := by
          rw [wait, if_neg hne, if_neg fun hall => hall u hbegins.2]
        rw [hwait]
        exact wait_le_two
      · exact le_rfl

end Scheduler

/-! ## The kernel -/

def Op.isPit : Op → Bool
  | .pit _ => true
  | _ => false

theorem schedulerEvent_eq_tick (img : Image) (s : Kernel) (op : Op) :
    schedulerEvent img s op = .tick ↔ op.isPit = true := by
  cases op with
  | pit cpu => simp [schedulerEvent, Op.isPit]
  | execute command frame => simp [schedulerEvent, Op.isPit]
  | _ =>
      simp only [schedulerEvent, Op.isPit, Bool.false_eq_true, iff_false]
      split
      · simp
      · split <;> simp

section Runs

variable {img : Image} {link : Link} {boot first s final : Kernel} {frame : StackFrame}
  {entry image : List UInt8} {before ops : List Op}

/-- At any time after the first shell, a started terminal that has not the processor gets it
within two ticks of the timer, whatever happens in between. -/
theorem started_terminal_runs_within_two_ticks (hshell : img.Loadable shellName)
    (hboot : Booted boot)
    (hfirst : execute img boot (some shellName) frame = some (.started first entry image))
    (htyped : Meets (step img link) (NoUntypedOpen img) first (before ++ ops))
    (hbefore : run (step img link) first before = some s)
    (hrun : run (step img link) s ops = some final) (t : Fin 3)
    (hstarted : (s.terminalT t).flag ≠ 0) (hticks : 2 ≤ ops.countP Op.isPit) :
    ∃ early late middle, ops = early ++ late ∧ run (step img link) s early = some middle ∧
      run (step img link) middle late = some final ∧ middle.terminalNum = t ∧
      early.countP Op.isPit ≤ 2 := by
  obtain ⟨htypedBefore, htypedAfter⟩ := meets_append.mp htyped
  have hreached := run_schedules hshell (hboot.schedules hfirst) htypedBefore hbefore
  generalize
    (schedulerEvents img (step img link) first before).foldl Scheduler.step Scheduler.start = m
    at hreached
  have hbusy : m.stack t ≠ [] := fun hnil => hstarted ((hreached.flag_eq_zero t).mpr hnil)
  have hstep : ∀ (state : Kernel) (op : Op) (next : Kernel),
      (∃ m, state.Schedules m ∧ m.stack t ≠ []) → NoUntypedOpen img state op →
      step img link state op = some next →
      (∃ m, next.Schedules m ∧ m.stack t ≠ []) ∧
        (state.scheduler.wait t ≠ 0 →
          next.scheduler.wait t + op.isPit.toNat ≤ state.scheduler.wait t) := by
    rintro state op next ⟨m, hs, hbusy⟩ hop hnext
    have hkept := step_schedules hshell hs hop hnext
    have hnextBusy := hkept.scheduled.running
    rw [show next.view.terminalNum = _ from hkept.running] at hnextBusy
    refine ⟨⟨_, hkept, Scheduler.busy_step hbusy hnextBusy⟩, fun hwait => ?_⟩
    rw [hs.scheduler_eq] at hwait ⊢
    rw [hkept.scheduler_eq]
    have hne : m.running ≠ t := fun heq => hwait (Scheduler.wait_eq_zero.mpr heq)
    have hrunning := hs.scheduled.running
    rw [show state.view.terminalNum = _ from hs.running] at hrunning
    cases hpit : op.isPit with
    | true =>
        rw [(schedulerEvent_eq_tick img state op).mpr hpit]
        exact Scheduler.wait_tick hrunning hbusy hne
    | false =>
        refine Scheduler.wait_step hrunning hne (fun htick => ?_) hnextBusy
        rw [(schedulerEvent_eq_tick img state op).mp htick] at hpit
        contradiction
  obtain ⟨early, late, middle, hsplit, hearly, hlate, hrank, hshort⟩ :=
    run_reaches_of_rank _ (fun s : Kernel => s.scheduler.wait t) Op.isPit hstep
      ⟨m, hreached, hbusy⟩ (htypedAfter s hbefore) hrun
      (Scheduler.wait_le_two.trans hticks)
  have hrunning : middle.scheduler.running = t := Scheduler.wait_eq_zero.mp hrank
  exact ⟨early, late, middle, hsplit, hearly, hlate, hrunning,
    hshort.trans Scheduler.wait_le_two⟩

end Runs

end VirtualOS
