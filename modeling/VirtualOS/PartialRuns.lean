import Mathlib.Tactic

/-!
# Runs of a partial step function

A machine is given by a partial step function `step : σ → α → Option σ`: from
a state and a label it yields the next state, or nothing when the label has no
defined effect there.  This file collects the run of a list of labels, the
invariant rule with a guard on every step, and the transfer of a run along an
abstraction which replaces one concrete label by a list of abstract ones.
-/

namespace PartialRuns

variable {σ τ α β ω : Type*}

/-- The state after a list of labels, if every one of them has an effect. -/
def run (step : σ → α → Option σ) : σ → List α → Option σ
  | state, [] => some state
  | state, label :: rest => (step state label).bind fun next => run step next rest

/-- Every step of the run of `labels` meets the guard in the state before it. -/
def Meets (step : σ → α → Option σ) (guard : σ → α → Prop) : σ → List α → Prop
  | _, [] => True
  | state, label :: rest =>
      guard state label ∧
        ∀ next, step state label = some next → Meets step guard next rest

/-- The state after a list of labels together with the outputs of the steps. -/
def trace (step : σ → α → Option (σ × ω)) : σ → List α → Option (σ × List ω)
  | state, [] => some (state, [])
  | state, label :: rest =>
      (step state label).bind fun next =>
        (trace step next.1 rest).map fun final => (final.1, next.2 :: final.2)

/-- The abstract labels which a concrete run stands for. -/
def translate (step : σ → α → Option σ) (labels : σ → α → List β) :
    σ → List α → List β
  | _, [] => []
  | state, label :: rest =>
      labels state label ++
        match step state label with
        | some next => translate step labels next rest
        | none => []

section Run

variable {step : σ → α → Option σ}

@[simp] theorem run_nil (state : σ) : run step state [] = some state := rfl

@[simp] theorem run_cons (state : σ) (label : α) (rest : List α) :
    run step state (label :: rest) =
      (step state label).bind fun next => run step next rest := rfl

theorem run_cons_eq_some
    {state final : σ} {label : α} {rest : List α} :
    run step state (label :: rest) = some final ↔
      ∃ next, step state label = some next ∧ run step next rest = some final := by
  rw [run_cons, Option.bind_eq_some_iff]

theorem run_append (state : σ) (first second : List α) :
    run step state (first ++ second) =
      (run step state first).bind fun next => run step next second := by
  induction first generalizing state with
  | nil => simp
  | cons label rest ih =>
      simp only [List.cons_append, run_cons, Option.bind_assoc]
      congr 1
      funext next
      exact ih next

@[simp] theorem meets_nil (guard : σ → α → Prop) (state : σ) :
    Meets step guard state [] := trivial

theorem meets_cons
    {guard : σ → α → Prop} {state : σ} {label : α} {rest : List α} :
    Meets step guard state (label :: rest) ↔
      guard state label ∧
        ∀ next, step state label = some next → Meets step guard next rest :=
  Iff.rfl

theorem meets_append
    {guard : σ → α → Prop} {state : σ} {first second : List α} :
    Meets step guard state (first ++ second) ↔
      Meets step guard state first ∧
        ∀ next, run step state first = some next → Meets step guard next second := by
  induction first generalizing state with
  | nil => simp
  | cons label rest ih =>
      simp only [List.cons_append, meets_cons, run_cons_eq_some, ih]
      constructor
      · rintro ⟨hguard, hrest⟩
        refine ⟨⟨hguard, fun next hnext => (hrest next hnext).1⟩, ?_⟩
        rintro final ⟨next, hnext, hrun⟩
        exact (hrest next hnext).2 final hrun
      · rintro ⟨⟨hguard, hrest⟩, hfinal⟩
        refine ⟨hguard, fun next hnext => ⟨hrest next hnext, fun final hrun => ?_⟩⟩
        exact hfinal final ⟨next, hnext, hrun⟩

theorem Meets.imp
    {guard weaker : σ → α → Prop} (himp : ∀ state label, guard state label → weaker state label)
    {state : σ} {labels : List α} (hmeets : Meets step guard state labels) :
    Meets step weaker state labels := by
  induction labels generalizing state with
  | nil => trivial
  | cons label rest ih =>
      exact ⟨himp state label hmeets.1, fun next hnext => ih (hmeets.2 next hnext)⟩

theorem Meets.and {guard other : σ → α → Prop} {state : σ} {labels : List α}
    (hguard : Meets step guard state labels) (hother : Meets step other state labels) :
    Meets step (fun state label => guard state label ∧ other state label) state labels := by
  induction labels generalizing state with
  | nil => trivial
  | cons label rest ih =>
      exact ⟨⟨hguard.1, hother.1⟩, fun next hnext => ih (hguard.2 next hnext) (hother.2 next hnext)⟩

instance Meets.decidable {guard : σ → α → Prop}
    [∀ state label, Decidable (guard state label)] :
    ∀ (state : σ) (labels : List α), Decidable (Meets step guard state labels)
  | _, [] => isTrue trivial
  | state, label :: rest =>
      match hstep : step state label with
      | none => decidable_of_iff (guard state label)
          ⟨fun hguard => ⟨hguard, by simp [hstep]⟩, And.left⟩
      | some next =>
          have : Decidable (Meets step guard next rest) := Meets.decidable next rest
          decidable_of_iff (guard state label ∧ Meets step guard next rest)
            (by simp [meets_cons, hstep])

/-- Where the guard holds, another step function has the same effect: it has the same runs. -/
theorem run_eq_of_meets
    {other : σ → α → Option σ} {guard : σ → α → Prop}
    (heq : ∀ state label, guard state label → step state label = other state label)
    {state : σ} {labels : List α} (hmeets : Meets step guard state labels) :
    run step state labels = run other state labels := by
  induction labels generalizing state with
  | nil => rfl
  | cons label rest ih =>
      rw [run_cons, run_cons, ← heq state label hmeets.1]
      cases hnext : step state label with
      | none => rfl
      | some next => exact ih (hmeets.2 next hnext)

theorem Meets.of_step_eq
    {other : σ → α → Option σ} {guard : σ → α → Prop}
    (heq : ∀ state label, guard state label → step state label = other state label)
    {state : σ} {labels : List α} (hmeets : Meets step guard state labels) :
    Meets other guard state labels := by
  induction labels generalizing state with
  | nil => trivial
  | cons label rest ih =>
      refine ⟨hmeets.1, fun next hnext => ih (hmeets.2 next ?_)⟩
      rw [heq state label hmeets.1, hnext]

theorem translate_eq_of_meets
    {other : σ → α → Option σ} {guard : σ → α → Prop} {stands : σ → α → List β}
    (heq : ∀ state label, guard state label → step state label = other state label)
    {state : σ} {labels : List α} (hmeets : Meets step guard state labels) :
    translate step stands state labels = translate other stands state labels := by
  induction labels generalizing state with
  | nil => rfl
  | cons label rest ih =>
      rw [translate, translate, ← heq state label hmeets.1]
      cases hnext : step state label with
      | none => rfl
      | some next => simp only [ih (hmeets.2 next hnext)]

/-- The invariant rule: an invariant kept by every guarded step holds at the
end of every run whose steps meet the guard. -/
theorem run_invariant_of_meets
    (Inv : σ → Prop) {guard : σ → α → Prop}
    (hstep : ∀ state label next, Inv state → guard state label →
      step state label = some next → Inv next)
    {state final : σ} {labels : List α} (hinv : Inv state)
    (hmeets : Meets step guard state labels)
    (hrun : run step state labels = some final) :
    Inv final := by
  induction labels generalizing state with
  | nil =>
      simp only [run_nil, Option.some.injEq] at hrun
      exact hrun ▸ hinv
  | cons label rest ih =>
      obtain ⟨next, hnext, hrest⟩ := run_cons_eq_some.mp hrun
      exact ih (hstep state label next hinv hmeets.1 hnext)
        (hmeets.2 next hnext) hrest

/-- A run whose steps meet the guard goes through if every guarded step does and
keeps the invariant. -/
theorem run_progress_of_meets
    (Inv : σ → Prop) {guard : σ → α → Prop}
    (hstep : ∀ state label, Inv state → guard state label →
      ∃ next, step state label = some next ∧ Inv next)
    {state : σ} {labels : List α} (hinv : Inv state)
    (hmeets : Meets step guard state labels) :
    ∃ final, run step state labels = some final ∧ Inv final := by
  induction labels generalizing state with
  | nil => exact ⟨state, rfl, hinv⟩
  | cons label rest ih =>
      obtain ⟨next, hnext, hkept⟩ := hstep state label hinv hmeets.1
      obtain ⟨final, hrest, hfinal⟩ := ih hkept (hmeets.2 next hnext)
      exact ⟨final, run_cons_eq_some.mpr ⟨next, hnext, hrest⟩, hfinal⟩

/-- A rank that no step raises before it is zero, and that counted steps lower, is zero after
some part of a run with enough counted steps. -/
theorem run_reaches_of_rank
    (Inv : σ → Prop) {guard : σ → α → Prop} (rank : σ → ℕ) (counted : α → Bool)
    (hstep : ∀ state label next, Inv state → guard state label →
      step state label = some next →
      Inv next ∧ (rank state ≠ 0 → rank next + (counted label).toNat ≤ rank state))
    {state final : σ} {labels : List α} (hinv : Inv state)
    (hmeets : Meets step guard state labels) (hrun : run step state labels = some final)
    (hcount : rank state ≤ labels.countP counted) :
    ∃ before after middle, labels = before ++ after ∧ run step state before = some middle ∧
      run step middle after = some final ∧ rank middle = 0 ∧
      before.countP counted ≤ rank state := by
  induction labels generalizing state with
  | nil =>
      have hzero : rank state = 0 := Nat.le_zero.mp hcount
      exact ⟨[], [], state, rfl, rfl, hrun, hzero, Nat.zero_le _⟩
  | cons label rest ih =>
      by_cases hzero : rank state = 0
      · exact ⟨[], label :: rest, state, rfl, rfl, hrun, hzero, Nat.zero_le _⟩
      · obtain ⟨next, hnext, hrest⟩ := run_cons_eq_some.mp hrun
        obtain ⟨hkept, hlower⟩ := hstep state label next hinv hmeets.1 hnext
        have hrank := hlower hzero
        have hcounted : (label :: rest).countP counted =
            rest.countP counted + (counted label).toNat := by
          rw [List.countP_cons]
          cases counted label <;> rfl
        obtain ⟨before, after, middle, rfl, hbefore, hafter, hmiddle, hshort⟩ :=
          ih hkept (hmeets.2 next hnext) hrest (by omega)
        refine ⟨label :: before, after, middle, rfl, ?_, hafter, hmiddle, ?_⟩
        · exact run_cons_eq_some.mpr ⟨next, hnext, hbefore⟩
        · rw [List.countP_cons]
          cases hlabel : counted label <;> simp_all <;> omega

/-- Under an invariant of the guarded steps a guard may be replaced by what it
implies there. -/
theorem Meets.imp_of_invariant
    (Inv : σ → Prop) {guard weaker : σ → α → Prop}
    (hstep : ∀ state label next, Inv state → guard state label →
      step state label = some next → Inv next)
    (himp : ∀ state label, Inv state → guard state label → weaker state label)
    {state : σ} {labels : List α} (hinv : Inv state)
    (hmeets : Meets step guard state labels) :
    Meets step weaker state labels := by
  induction labels generalizing state with
  | nil => trivial
  | cons label rest ih =>
      refine ⟨himp state label hinv hmeets.1, fun next hnext => ?_⟩
      exact ih (hstep state label next hinv hmeets.1 hnext) (hmeets.2 next hnext)

/-- Two guards that say the same under an invariant of the steps guarded by one of them are
met by the same runs. -/
theorem meets_iff_of_invariant
    (Inv : σ → Prop) {guard other : σ → α → Prop}
    (hstep : ∀ state label next, Inv state → guard state label →
      step state label = some next → Inv next)
    (hiff : ∀ state label, Inv state → (other state label ↔ guard state label))
    {state : σ} {labels : List α} (hinv : Inv state) :
    Meets step other state labels ↔ Meets step guard state labels := by
  induction labels generalizing state with
  | nil => exact Iff.rfl
  | cons label rest ih =>
      rw [meets_cons, meets_cons, hiff state label hinv]
      refine and_congr_right fun hguard => forall_congr' fun next => ?_
      exact imp_congr_right fun hnext => ih (hstep state label next hinv hguard hnext)

/-- A guard which does not look at the state is met as soon as every label
satisfies it. -/
theorem meets_of_forall_mem
    {guard : α → Prop} {labels : List α} (hall : ∀ label ∈ labels, guard label)
    (state : σ) : Meets step (fun _ label => guard label) state labels := by
  induction labels generalizing state with
  | nil => trivial
  | cons label rest ih =>
      refine ⟨hall label (by simp), fun next _ => ih ?_ next⟩
      intro other hother
      exact hall other (by simp [hother])

/-- If every concrete step is matched by the abstract run of its labels, a
whole concrete run is matched by the abstract run of its translation. -/
theorem run_translate
    (abs : σ → τ) {abstractStep : τ → β → Option τ} {labels : σ → α → List β}
    (hstep : ∀ state label next, step state label = some next →
      run abstractStep (abs state) (labels state label) = some (abs next))
    {state final : σ} {word : List α}
    (hrun : run step state word = some final) :
    run abstractStep (abs state) (translate step labels state word) =
      some (abs final) := by
  induction word generalizing state with
  | nil =>
      simp only [run_nil, Option.some.injEq] at hrun
      simp [translate, hrun]
  | cons label rest ih =>
      obtain ⟨next, hnext, hrest⟩ := run_cons_eq_some.mp hrun
      simp only [translate, hnext, run_append, hstep state label next hnext,
        Option.bind_some]
      exact ih hrest

/-- If every step is matched by a step of an abstract machine with the corresponding
output, whole traces correspond. -/
theorem trace_simulation {ω' : Type*} {concrete : σ → α → Option (σ × ω)}
    {abstract : τ → α → Option (τ × ω')} {R : σ → τ → Prop} {guard : α → Prop} {f : ω → ω'}
    (hstep : ∀ state model label, R state model → guard label →
      ∃ next output model', concrete state label = some (next, output) ∧
        abstract model label = some (model', f output) ∧ R next model')
    {state : σ} {model : τ} {labels : List α} (hrel : R state model)
    (hguard : ∀ label ∈ labels, guard label) :
    ∃ final outputs model', trace concrete state labels = some (final, outputs) ∧
      trace abstract model labels = some (model', outputs.map f) ∧ R final model' := by
  induction labels generalizing state model with
  | nil => exact ⟨state, [], model, rfl, rfl, hrel⟩
  | cons label rest ih =>
      obtain ⟨next, output, middle, hnext, hmiddle, hkept⟩ :=
        hstep state model label hrel (hguard label (by simp))
      obtain ⟨final, outputs, model', hrest, hmodel, hfinal⟩ :=
        ih hkept fun other hother => hguard other (by simp [hother])
      refine ⟨final, output :: outputs, model', ?_, ?_, hfinal⟩
      · simp [trace, hnext, hrest]
      · simp [trace, hmiddle, hmodel]

end Run

end PartialRuns
