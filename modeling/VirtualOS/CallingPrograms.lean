import VirtualOS.PartialRuns
import Mathlib.Tactic

/-!
# Programs that call a shared machine

A program is given by its points: at a point it makes a call and goes on with the
answer, or it has returned.  The machine it calls does other things between two of
its calls.  A service is a machine for one program alone.  If the machine answers
every call as the service does and everything else keeps the relation between the
two, then a program that the service carries to its end makes the same calls with
the same answers on the machine, whatever comes between them.
-/

namespace CallingPrograms

open PartialRuns

/-- What a program does at a point. -/
inductive Doing (ρ α β π : Type*) where
  | calls (request : ρ) (resume : α → π)
  | returns (status : β)

/-- A machine with the requests of one program among its labels.  The mode is the part
of a label that the program does not choose. -/
structure Host (σ ℓ φ ρ α : Type*) where
  perform : σ → ℓ → Option (σ × α)
  label : ρ → φ → ℓ
  turn : σ → Bool
  foreign : σ → ℓ → Bool

inductive SessionEvent (ℓ φ : Type*) where
  | own (mode : φ)
  | other (label : ℓ)

def SessionEvent.isOwn {ℓ φ : Type*} : SessionEvent ℓ φ → Bool
  | .own _ => true
  | .other _ => false

/-- The machine, the program and the calls made so far with their answers. -/
structure Session (σ π ρ α : Type*) where
  state : σ
  point : π
  calls : List (ρ × α)

variable {σ ℓ φ ρ α β π τ : Type*}

namespace Host

/-- The next call of the program in its turn, or a label that is not its own. -/
def sessionStep (host : Host σ ℓ φ ρ α) (code : π → Doing ρ α β π) (x : Session σ π ρ α) :
    SessionEvent ℓ φ → Option (Session σ π ρ α)
  | .own mode =>
      if host.turn x.state then
        match code x.point with
        | .calls request resume => (host.perform x.state (host.label request mode)).map
            fun result => ⟨result.1, resume result.2, x.calls ++ [(request, result.2)]⟩
        | .returns _ => none
      else none
  | .other label =>
      if host.foreign x.state label then
        (host.perform x.state label).map fun result => { x with state := result.1 }
      else none

end Host

/-- The program completes on the service, by these calls and with this status. -/
inductive Completes (code : π → Doing ρ α β π) (serve : τ → ρ → Option (τ × α)) :
    τ → π → List (ρ × α) → β → Prop where
  | returns {v : τ} {point : π} {status : β} (hcode : code point = .returns status) :
      Completes code serve v point [] status
  | calls {v next : τ} {point : π} {request : ρ} {resume : α → π} {answer : α}
      {rest : List (ρ × α)} {status : β} (hcode : code point = .calls request resume)
      (hserve : serve v request = some (next, answer))
      (hrest : Completes code serve next (resume answer) rest status) :
      Completes code serve v point ((request, answer) :: rest) status

/-- The first calls of a program on the service, up to one that is not promised. -/
def replay (code : π → Doing ρ α β π) (serve : τ → ρ → Option (τ × α)) :
    ℕ → τ → π → List (ρ × α)
  | 0, _, _ => []
  | count + 1, v, point =>
      match code point with
      | .returns _ => []
      | .calls request resume =>
          match serve v request with
          | none => []
          | some (next, answer) =>
              (request, answer) :: replay code serve count next (resume answer)

theorem Completes.call {code : π → Doing ρ α β π} {serve : τ → ρ → Option (τ × α)} {v next : τ}
    {point later : π} {request : ρ} {resume : α → π} {answer : α} {rest : List (ρ × α)}
    {status : β} (hrest : Completes code serve next later rest status)
    (hcode : code point = .calls request resume)
    (hserve : serve v request = some (next, answer)) (hresume : resume answer = later) :
    Completes code serve v point ((request, answer) :: rest) status := by
  subst hresume
  exact .calls hcode hserve hrest

/-- The machine answers the program as the service does.  The guard is what the other
labels have to observe for it. -/
structure Implements (host : Host σ ℓ φ ρ α) (serve : τ → ρ → Option (τ × α))
    (Represents : σ → τ → Prop) (guard : σ → ℓ → Prop) : Prop where
  own : ∀ {s s' v v' request mode answer promised}, Represents s v → host.turn s = true →
    host.perform s (host.label request mode) = some (s', answer) →
    serve v request = some (v', promised) → answer = promised ∧ Represents s' v'
  other : ∀ {s s' v label answer}, Represents s v → host.foreign s label = true →
    guard s label → host.perform s label = some (s', answer) → Represents s' v

/-- The guard of `Implements` on the events of a session. -/
def SessionEvent.Observes (guard : σ → ℓ → Prop) (x : Session σ π ρ α) : SessionEvent ℓ φ → Prop
  | .own _ => True
  | .other label => guard x.state label

section Runs

variable {host : Host σ ℓ φ ρ α} {code : π → Doing ρ α β π} {serve : τ → ρ → Option (τ × α)}
  {Represents : σ → τ → Prop} {guard : σ → ℓ → Prop} {x next : Session σ π ρ α}
  {event : SessionEvent ℓ φ} {events : List (SessionEvent ℓ φ)} {whole : List (ρ × α)} {status : β}

theorem sessionStep_own {mode : φ} (hstep : host.sessionStep code x (.own mode) = some next) :
    ∃ request resume s answer, host.turn x.state = true ∧
      code x.point = .calls request resume ∧
      host.perform x.state (host.label request mode) = some (s, answer) ∧
      next = ⟨s, resume answer, x.calls ++ [(request, answer)]⟩ := by
  simp only [Host.sessionStep] at hstep
  split at hstep
  · rename_i hturn
    split at hstep
    · rename_i request resume hcode
      obtain ⟨⟨s, answer⟩, hperform, rfl⟩ := Option.map_eq_some_iff.mp hstep
      exact ⟨request, resume, s, answer, hturn, hcode, hperform, rfl⟩
    · contradiction
  · contradiction

theorem sessionStep_other {label : ℓ}
    (hstep : host.sessionStep code x (.other label) = some next) :
    ∃ s answer, host.foreign x.state label = true ∧
      host.perform x.state label = some (s, answer) ∧ next = { x with state := s } := by
  simp only [Host.sessionStep] at hstep
  split at hstep
  · rename_i hforeign
    obtain ⟨⟨s, answer⟩, hperform, rfl⟩ := Option.map_eq_some_iff.mp hstep
    exact ⟨s, answer, hforeign, hperform, rfl⟩
  · contradiction

theorem calls_length (hrun : run (host.sessionStep code) x events = some next) :
    next.calls.length = x.calls.length + events.countP SessionEvent.isOwn := by
  induction events generalizing x with
  | nil =>
      obtain rfl := Option.some.inj hrun
      rfl
  | cons event rest ih =>
      obtain ⟨middle, hstep, hrest⟩ := run_cons_eq_some.mp hrun
      have hlength := ih hrest
      cases event with
      | own mode =>
          obtain ⟨request, resume, s, answer, _, _, _, rfl⟩ := sessionStep_own hstep
          simp only [List.length_append, List.length_singleton] at hlength
          simp only [List.countP_cons, SessionEvent.isOwn, if_true]
          omega
      | other label =>
          obtain ⟨s, answer, _, _, rfl⟩ := sessionStep_other hstep
          simpa [List.countP_cons, SessionEvent.isOwn] using hlength

theorem calls_append (hrun : run (host.sessionStep code) x events = some next) :
    ∃ made, next.calls = x.calls ++ made := by
  refine run_invariant_of_meets (fun y => ∃ made, y.calls = x.calls ++ made) ?_
    ⟨[], (List.append_nil _).symm⟩
    (meets_of_forall_mem (fun event _ => trivial) x : Meets _ (fun _ _ => True) x events) hrun
  rintro y event later ⟨made, hmade⟩ _ hstep
  cases event with
  | own mode =>
      obtain ⟨request, resume, s, answer, _, _, _, rfl⟩ := sessionStep_own hstep
      exact ⟨made ++ [(request, answer)], by simp [hmade]⟩
  | other label =>
      obtain ⟨s, answer, _, _, rfl⟩ := sessionStep_other hstep
      exact ⟨made, hmade⟩

/-- Whatever comes between its calls, the program makes the calls that it makes on the
service, as long as they are promised. -/
theorem run_replay (himpl : Implements host serve Represents guard) {v : τ}
    (hrepr : Represents x.state v)
    (hobserves : Meets (host.sessionStep code) (fun x event => event.Observes guard x) x events)
    (hrun : run (host.sessionStep code) x events = some next) :
    x.calls ++ replay code serve (events.countP SessionEvent.isOwn) v x.point <+: next.calls := by
  induction events generalizing x v with
  | nil =>
      obtain rfl := Option.some.inj hrun
      simp [replay]
  | cons event rest ih =>
      obtain ⟨middle, hstep, hrest⟩ := run_cons_eq_some.mp hrun
      have hlater := hobserves.2 middle hstep
      cases event with
      | other label =>
          obtain ⟨s, answer, hforeign, hperform, rfl⟩ := sessionStep_other hstep
          have hnext := himpl.other hrepr hforeign hobserves.1 hperform
          simpa [List.countP_cons, SessionEvent.isOwn] using ih hnext hlater hrest
      | own mode =>
          obtain ⟨request, resume, s, answer, hturn, hcode, hperform, rfl⟩ := sessionStep_own hstep
          have hcount : (SessionEvent.own mode :: rest).countP SessionEvent.isOwn =
              rest.countP SessionEvent.isOwn + 1 := by
            simp [List.countP_cons, SessionEvent.isOwn]
          simp only [hcount, replay, hcode]
          cases hserve : serve v request with
          | none =>
              obtain ⟨made, hmade⟩ := calls_append hrest
              exact ⟨(request, answer) :: made, by simp [hmade]⟩
          | some result =>
              obtain ⟨rfl, hnext⟩ := himpl.own hrepr hturn hperform hserve
              simpa using ih hnext hlater hrest

/-- What is left of the program completes on the service. -/
def OnCourse (code : π → Doing ρ α β π) (serve : τ → ρ → Option (τ × α))
    (Represents : σ → τ → Prop) (whole : List (ρ × α)) (status : β)
    (x : Session σ π ρ α) : Prop :=
  ∃ v left, Represents x.state v ∧ Completes code serve v x.point left status ∧
    whole = x.calls ++ left

theorem OnCourse.step (himpl : Implements host serve Represents guard)
    (hcourse : OnCourse code serve Represents whole status x)
    (hobserves : event.Observes guard x) (hstep : host.sessionStep code x event = some next) :
    OnCourse code serve Represents whole status next := by
  obtain ⟨v, left, hrepr, hcompletes, hwhole⟩ := hcourse
  cases event with
  | own mode =>
      obtain ⟨request, resume, s, answer, hturn, hcode, hperform, rfl⟩ := sessionStep_own hstep
      cases hcompletes with
      | returns hreturns =>
          rw [hcode] at hreturns
          contradiction
      | calls hcalls hserve hrest =>
          rw [hcode] at hcalls
          obtain ⟨rfl, rfl⟩ := Doing.calls.inj hcalls
          obtain ⟨rfl, hnext⟩ := himpl.own hrepr hturn hperform hserve
          exact ⟨_, _, hnext, hrest, by simp [hwhole]⟩
  | other label =>
      obtain ⟨s, answer, hforeign, hperform, rfl⟩ := sessionStep_other hstep
      exact ⟨v, left, himpl.other hrepr hforeign hobserves hperform, hcompletes, hwhole⟩

theorem OnCourse.beginning (hcourse : OnCourse code serve Represents whole status x) :
    x.calls <+: whole := by
  obtain ⟨v, left, _, _, hwhole⟩ := hcourse
  exact ⟨left, hwhole.symm⟩

theorem OnCourse.returned {ending : β} (hcourse : OnCourse code serve Represents whole status x)
    (hreturns : code x.point = .returns ending) : x.calls = whole ∧ ending = status := by
  obtain ⟨v, left, _, hcompletes, hwhole⟩ := hcourse
  cases hcompletes with
  | returns hcode =>
      rw [hreturns] at hcode
      exact ⟨by simp [hwhole], Doing.returns.inj hcode⟩
  | calls hcode _ _ =>
      rw [hreturns] at hcode
      contradiction

end Runs

end CallingPrograms
