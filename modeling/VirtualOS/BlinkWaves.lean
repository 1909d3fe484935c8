import VirtualOS.BlinkSafety
import Mathlib.Tactic

/-!
# The rhythm of a blinking character

A record blinks as a square wave over the ticks of the clock: it shows its first
character for the first length, its second one for the second length, and so on.
A countdown is compared as a signed number after it was lowered, so a length of
zero, or one with the sign bit set, counts as one tick.  Calls for other
locations do not disturb the wave.
-/

namespace VirtualOS

/-- The ticks that a countdown lasts. -/
def period (length : BitVec 16) : ℕ :=
  if 1 ≤ length.toNat ∧ length.toNat ≤ 0x8000 then length.toNat else 1

/-- The character shown after some ticks. -/
def squareWave (on off : ℕ) (onChar offChar : UInt8) (ticks : ℕ) : UInt8 :=
  if ticks % (on + off) < on then onChar else offChar

theorem period_pos (length : BitVec 16) : 0 < period length := by
  unfold period
  split <;> omega

theorem toInt_sub_one_nonpos (countdown : BitVec 16) :
    (countdown - 1).toInt ≤ 0 ↔ period countdown = 1 := by
  have hsub : (countdown - 1).toNat = (65535 + countdown.toNat) % 65536 := by
    rw [BitVec.toNat_sub]
    rfl
  have hlt := countdown.isLt
  rw [BitVec.toInt_eq_toNat_cond, hsub]
  unfold period
  split <;> split <;> omega

theorem period_sub_one {countdown : BitVec 16} (hlong : period countdown ≠ 1) :
    period (countdown - 1) + 1 = period countdown := by
  have hsub : (countdown - 1).toNat = (65535 + countdown.toNat) % 65536 := by
    rw [BitVec.toNat_sub]
    rfl
  have hlt := countdown.isLt
  unfold period at hlong ⊢
  rw [hsub]
  split at hlong
  · split <;> omega
  · exact absurd rfl hlong

namespace Blinker

variable {entry source : Blinker}

theorem due_iff : entry.Due ↔ period entry.countdown = 1 :=
  toInt_sub_one_nonpos entry.countdown

/-- The record is `phase` ticks into a round of its wave. -/
structure InPhase (entry : Blinker) (phase : ℕ) : Prop where
  lt_round : phase < period entry.onLength + period entry.offLength
  status_eq : entry.status = if phase < period entry.onLength then 1 else 0
  left_eq : period entry.countdown + phase =
    if phase < period entry.onLength then period entry.onLength
    else period entry.onLength + period entry.offLength

theorem inPhase_started (entry : Blinker) : entry.started.InPhase 0 := by
  have hon := period_pos entry.onLength
  constructor
  · change 0 < period entry.onLength + period entry.offLength
    omega
  · exact (if_pos hon).symm
  · exact (if_pos hon).symm

@[simp] theorem onLength_tick : entry.tick.onLength = entry.onLength := by
  unfold tick
  split <;> rfl

@[simp] theorem offLength_tick : entry.tick.offLength = entry.offLength := by
  unfold tick
  split <;> rfl

@[simp] theorem onChar_tick : entry.tick.onChar = entry.onChar := by
  unfold tick
  split <;> rfl

@[simp] theorem offChar_tick : entry.tick.offChar = entry.offChar := by
  unfold tick
  split <;> rfl

/-- One tick goes one step on in the round. -/
theorem InPhase.tick {phase : ℕ} (hphase : entry.InPhase phase) :
    entry.tick.InPhase ((phase + 1) % (period entry.onLength + period entry.offLength)) := by
  obtain ⟨hround, hstatus, hleft⟩ := hphase
  have hon := period_pos entry.onLength
  have hoff := period_pos entry.offLength
  by_cases hdue : entry.Due
  · have hone : period entry.countdown = 1 := due_iff.mp hdue
    by_cases hfirst : phase < period entry.onLength
    · rw [if_pos hfirst] at hstatus hleft
      have hnext : (phase + 1) % (period entry.onLength + period entry.offLength) =
          period entry.onLength := by
        rw [Nat.mod_eq_of_lt (by omega)]
        omega
      rw [hnext]
      constructor
      · simpa using hoff
      · simp [Blinker.tick, hdue, hstatus]
      · simp [Blinker.tick, hdue, hstatus]
        omega
    · rw [if_neg hfirst] at hstatus hleft
      have hnext : (phase + 1) % (period entry.onLength + period entry.offLength) = 0 := by
        have hend : phase + 1 = period entry.onLength + period entry.offLength := by omega
        rw [hend, Nat.mod_self]
      rw [hnext]
      constructor
      · simp [hon]
      · simp [Blinker.tick, hdue, hstatus, hon]
      · simp [Blinker.tick, hdue, hstatus, hon]
  · have hlong : period entry.countdown ≠ 1 := fun hone => hdue (due_iff.mpr hone)
    have hcountdown := period_sub_one hlong
    have hside : phase + 1 < period entry.onLength ↔ phase < period entry.onLength := by
      split at hleft <;> omega
    have hnext : (phase + 1) % (period entry.onLength + period entry.offLength) = phase + 1 := by
      apply Nat.mod_eq_of_lt
      have := period_pos (entry.countdown - 1)
      split at hleft <;> omega
    rw [hnext]
    constructor
    · rw [onLength_tick, offLength_tick, ← hnext]
      exact Nat.mod_lt _ (by omega)
    · simp [Blinker.tick, hdue, hstatus, hside]
    · simp only [Blinker.tick, hdue, if_false, hside, ← hleft]
      omega

theorem InPhase.on_iff {phase : ℕ} (hphase : entry.InPhase phase) :
    entry.status &&& 1 = 0 ↔ ¬ phase < period entry.onLength := by
  rw [hphase.status_eq]
  split <;> simp_all

/-- The character for the status of the record. -/
def face (entry : Blinker) : UInt8 :=
  if entry.status &&& 1 = 0 then entry.offChar else entry.onChar

/-- What a tick leaves where `char` was. -/
def painted (entry : Blinker) (char : UInt8) : UInt8 :=
  if entry.Due then entry.tick.face else char

theorem xor_one_and_one (status : BitVec 16) :
    (status ^^^ 1) &&& 1 = 0 ↔ ¬ status &&& 1 = 0 := by
  have hbit : ∀ word : BitVec 16, word &&& 1 = 0 ↔ word.getLsbD 0 = false := by
    intro word
    rw [show (1 : BitVec 16) = 1#16 from rfl, BitVec.and_one_eq_setWidth_ofBool_getLsbD]
    cases word.getLsbD 0 <;> decide
  rw [hbit, hbit]
  simp

theorem face_tick_of_due (hdue : entry.Due) :
    entry.tick.face = if entry.status &&& 1 = 0 then entry.onChar else entry.offChar := by
  have hstatus := xor_one_and_one entry.status
  by_cases hoff : entry.status &&& 1 = 0
  · have hon : ¬ (entry.status ^^^ 1) &&& 1 = 0 := fun h => hstatus.mp h hoff
    rw [if_pos hoff, face, tick, if_pos hdue]
    exact if_neg hon
  · have hon : (entry.status ^^^ 1) &&& 1 = 0 := hstatus.mpr hoff
    rw [if_neg hoff, face, tick, if_pos hdue]
    exact if_pos hon

theorem face_tick_of_not_due (hdue : ¬ entry.Due) : entry.tick.face = entry.face := by
  rw [face, face, tick, if_neg hdue]

theorem painted_face (entry : Blinker) : entry.painted entry.face = entry.tick.face := by
  unfold painted
  split
  · rfl
  · rename_i hdue
    exact (face_tick_of_not_due hdue).symm

/-- What some ticks leave where `char` was. -/
def paintedAfter (entry : Blinker) : ℕ → UInt8 → UInt8
  | 0, char => char
  | ticks + 1, char => entry.tick.paintedAfter ticks (entry.painted char)

theorem paintedAfter_face (entry : Blinker) (ticks : ℕ) :
    entry.paintedAfter ticks entry.face = (tick^[ticks] entry).face := by
  induction ticks generalizing entry with
  | zero => rfl
  | succ ticks ih =>
      rw [paintedAfter, painted_face, ih, Function.iterate_succ_apply]

theorem repaint_apply (entry : Blinker) (vmem : ℕ → UInt8) (offset : ℕ) :
    entry.repaint vmem offset =
      if offset = entry.cell then entry.painted (vmem offset) else vmem offset := by
  unfold repaint painted
  by_cases hdue : entry.Due
  · rw [if_pos hdue, if_pos hdue, face_tick_of_due hdue, Function.update_apply]
  · rw [if_neg hdue, if_neg hdue, ite_self]

theorem cell_inj {location : BitVec 16} : entry.cell = location.toNat * 2 ↔
    entry.location = location := by
  unfold cell
  rw [Nat.mul_left_inj (by decide), BitVec.toNat_inj]

end Blinker

/-! ## Calls for other locations -/

def BlinkCall.IsTick : BlinkCall → Bool
  | .tasklet => true
  | _ => false

/-- The call does not change a record at the location. -/
def BlinkCall.Spares (location : BitVec 16) : BlinkCall → Prop
  | .add user => user.location ≠ location
  | .remove arg => arg.setWidth 16 ≠ location
  | .sync arg => (arg &&& 0xFFFF).setWidth 16 ≠ location
  | .find _ | .tasklet => True

namespace Blinkers

variable {blinkers : Blinkers} {entry : Blinker} {location : BitVec 16}

/-- The records at the location are `entries`, and the page shows `char` there. -/
structure Local (blinkers : Blinkers) (location : BitVec 16) (entries : List Blinker)
    (char : UInt8) : Prop where
  entries_eq : blinkers.entries.filter (Blinker.At location) = entries
  vmem_eq : blinkers.vmem (location.toNat * 2) = char

/-- There is one record at the location. -/
abbrev Sole (blinkers : Blinkers) (location : BitVec 16) (entry : Blinker) (char : UInt8) :
    Prop :=
  blinkers.Local location [entry] char

theorem filter_eraseP_at {other : BitVec 16} (hne : other ≠ location) (entries : List Blinker) :
    (entries.eraseP (Blinker.At other)).filter (Blinker.At location) =
      entries.filter (Blinker.At location) := by
  induction entries with
  | nil => rfl
  | cons first rest ih =>
      by_cases hfirst : first.location = other
      · simp [Blinker.At, hfirst, hne]
      · rw [List.eraseP_cons_of_neg (by simpa [Blinker.At] using hfirst), List.filter_cons,
          List.filter_cons, ih]

theorem filter_replaceF_at {other : BitVec 16} (hne : other ≠ location) (source : Blinker)
    (entries : List Blinker) :
    (entries.replaceF fun entry =>
        if entry.At other then some (entry.follow source) else none).filter
          (Blinker.At location) =
      entries.filter (Blinker.At location) := by
  induction entries with
  | nil => rfl
  | cons first rest ih =>
      by_cases hfirst : first.location = other
      · simp [Blinker.At, Blinker.follow, hfirst, hne]
      · simp only [Blinker.At, decide_eq_true_eq] at ih
        simp [Blinker.At, hfirst, List.filter_cons, ih]

theorem filter_map_tick (entries : List Blinker) :
    (entries.map Blinker.tick).filter (Blinker.At location) =
      (entries.filter (Blinker.At location)).map Blinker.tick := by
  rw [List.filter_map]
  congr 1
  apply List.filter_congr
  intro entry _
  simp [Blinker.At]

theorem foldl_repaint_apply (entries : List Blinker) (vmem : ℕ → UInt8) :
    (entries.foldl (fun vmem entry => entry.repaint vmem) vmem) (location.toNat * 2) =
      (entries.filter (Blinker.At location)).foldl (fun char entry => entry.painted char)
        (vmem (location.toNat * 2)) := by
  induction entries generalizing vmem with
  | nil => rfl
  | cons first rest ih =>
      rw [List.foldl_cons, ih, Blinker.repaint_apply, List.filter_cons]
      by_cases hfirst : first.location = location
      · simp [Blinker.At, hfirst, (Blinker.cell_inj.mpr hfirst).symm]
      · have hcell : location.toNat * 2 ≠ first.cell := fun heq =>
          hfirst (Blinker.cell_inj.mp heq.symm)
        simp [Blinker.At, hfirst, hcell]

theorem Local.call_tasklet {entries : List Blinker} {char : UInt8}
    (hlocal : blinkers.Local location entries char) :
    (blinkers.call .tasklet).1.Local location (entries.map Blinker.tick)
      (entries.foldl (fun char entry => entry.painted char) char) := by
  constructor
  · change (blinkers.entries.map Blinker.tick).filter _ = _
    rw [filter_map_tick, hlocal.entries_eq]
  · change (blinkers.entries.foldl (fun vmem entry => entry.repaint vmem) blinkers.vmem) _ = _
    rw [foldl_repaint_apply, hlocal.entries_eq, hlocal.vmem_eq]

theorem Local.call_spared {entries : List Blinker} {char : UInt8}
    (hlocal : blinkers.Local location entries char)
    {label : BlinkCall} (hspares : label.Spares location) (htick : label.IsTick = false) :
    (blinkers.call label).1.Local location entries char := by
  have hcell : ∀ other : Blinker, other.location ≠ location → location.toNat * 2 ≠ other.cell :=
    fun other hother heq => hother (Blinker.cell_inj.mp heq.symm)
  cases label with
  | add user =>
      rw [call]
      split
      · exact hlocal
      · constructor
        · have hother : ¬ user.toBlinker.started.At location := fun hat =>
            hspares (of_decide_eq_true hat)
          rw [add, List.filter_cons, if_neg hother, hlocal.entries_eq]
        · exact (Function.update_of_ne (hcell _ hspares) _ _).trans hlocal.vmem_eq
  | remove arg =>
      rw [call]
      split
      · exact ⟨(filter_eraseP_at hspares _).trans hlocal.entries_eq, hlocal.vmem_eq⟩
      · exact hlocal
  | find other =>
      rw [call]
      split <;> exact hlocal
  | sync arg =>
      rw [call]
      split
      · rename_i source target _ htarget
        have hat : target.location = (arg &&& 0xFFFF).setWidth 16 := by
          simpa [Blinker.At] using List.find?_some htarget
        constructor
        · exact (filter_replaceF_at hspares _ _).trans hlocal.entries_eq
        · have hother : target.location ≠ location := fun heq => hspares (hat.symm.trans heq)
          exact (Function.update_of_ne (hcell _ hother) _ _).trans hlocal.vmem_eq
      · exact hlocal
  | tasklet => exact absurd htick (by simp [BlinkCall.IsTick])

/-- The records at a location and the character there, after one tick. -/
def advance (view : List Blinker × UInt8) : List Blinker × UInt8 :=
  (view.1.map Blinker.tick, view.1.foldl (fun char entry => entry.painted char) view.2)

/-- What there is at a location after some calls for other locations depends on the number
of ticks alone. -/
theorem Local.after (view : List Blinker × UInt8)
    (hlocal : blinkers.Local location view.1 view.2) {calls : List BlinkCall}
    (hspares : ∀ label ∈ calls, label.Spares location) :
    (blinkers.after calls).Local location (advance^[calls.countP BlinkCall.IsTick] view).1
      (advance^[calls.countP BlinkCall.IsTick] view).2 := by
  induction calls generalizing blinkers view with
  | nil => exact hlocal
  | cons label rest ih =>
      have hrest : ∀ other ∈ rest, other.Spares location := fun other hother =>
        hspares other (by simp [hother])
      by_cases htick : label.IsTick
      · have hlabel : label = .tasklet := by
          cases label <;> simp_all [BlinkCall.IsTick]
        subst hlabel
        rw [List.countP_cons_of_pos htick, Function.iterate_succ_apply]
        exact ih (advance view) hlocal.call_tasklet hrest
      · rw [List.countP_cons_of_neg htick]
        have hkept := hlocal.call_spared (hspares label (by simp)) (by simpa using htick)
        exact ih view hkept hrest

theorem advance_iterate_nil (ticks : ℕ) (char : UInt8) : advance^[ticks] ([], char) = ([], char) :=
  Function.iterate_fixed rfl ticks

theorem advance_iterate_singleton (ticks : ℕ) (entry : Blinker) (char : UInt8) :
    advance^[ticks] ([entry], char) =
      ([Blinker.tick^[ticks] entry], entry.paintedAfter ticks char) := by
  induction ticks generalizing entry char with
  | zero => rfl
  | succ ticks ih =>
      rw [Function.iterate_succ_apply, Function.iterate_succ_apply]
      exact ih entry.tick (entry.painted char)

theorem Sole.after {char : UInt8} (hsole : blinkers.Sole location entry char)
    {calls : List BlinkCall} (hspares : ∀ label ∈ calls, label.Spares location) :
    (blinkers.after calls).Sole location
      (Blinker.tick^[calls.countP BlinkCall.IsTick] entry)
      (entry.paintedAfter (calls.countP BlinkCall.IsTick) char) := by
  have hafter := Local.after ([entry], char) hsole hspares
  rwa [advance_iterate_singleton] at hafter

theorem Local.after_of_nil {char : UInt8} (hlocal : blinkers.Local location [] char)
    {calls : List BlinkCall} (hspares : ∀ label ∈ calls, label.Spares location) :
    (blinkers.after calls).Local location [] char := by
  have hafter := Local.after ([], char) hlocal hspares
  rwa [advance_iterate_nil] at hafter

end Blinkers

namespace Blinker

variable {entry : Blinker}

theorem tick_iterate_fields (entry : Blinker) (ticks : ℕ) :
    (tick^[ticks] entry).onLength = entry.onLength ∧
      (tick^[ticks] entry).offLength = entry.offLength ∧
      (tick^[ticks] entry).onChar = entry.onChar ∧
      (tick^[ticks] entry).offChar = entry.offChar := by
  induction ticks with
  | zero => exact ⟨rfl, rfl, rfl, rfl⟩
  | succ ticks ih =>
      rw [Function.iterate_succ_apply']
      simpa using ih

theorem inPhase_iterate (entry : Blinker) (ticks : ℕ) :
    (tick^[ticks] entry.started).InPhase
      (ticks % (period entry.onLength + period entry.offLength)) := by
  induction ticks with
  | zero => simpa using inPhase_started entry
  | succ ticks ih =>
      obtain ⟨hon, hoff, _⟩ := tick_iterate_fields entry.started ticks
      have hnext := ih.tick
      rw [hon, hoff] at hnext
      rw [Function.iterate_succ_apply', ← Nat.mod_add_mod]
      exact hnext

theorem face_iterate (entry : Blinker) (ticks : ℕ) :
    (tick^[ticks] entry.started).face =
      squareWave (period entry.onLength) (period entry.offLength) entry.onChar entry.offChar
        ticks := by
  obtain ⟨hon, _, honChar, hoffChar⟩ := tick_iterate_fields entry.started ticks
  have hiff := (inPhase_iterate entry ticks).on_iff
  rw [hon] at hiff
  rw [face, squareWave, honChar, hoffChar]
  by_cases hfirst : ticks % (period entry.onLength + period entry.offLength) <
      period entry.onLength
  · rw [if_pos hfirst, if_neg fun hoff => hiff.mp hoff hfirst]
    rfl
  · rw [if_neg hfirst, if_pos (hiff.mpr hfirst)]
    rfl

theorem paintedAfter_started (entry : Blinker) (ticks : ℕ) :
    entry.started.paintedAfter ticks entry.onChar =
      squareWave (period entry.onLength) (period entry.offLength) entry.onChar entry.offChar
        ticks := by
  have hface : entry.started.face = entry.onChar := by simp [face, started]
  rw [← face_iterate, ← paintedAfter_face, hface]

end Blinker

theorem Blinkers.sole_add {blinkers : Blinkers} {entry : Blinker}
    (halone : ∀ other ∈ blinkers.entries, other.location ≠ entry.location) :
    (blinkers.add entry).Sole entry.location entry.started entry.onChar := by
  constructor
  · have hnone : blinkers.entries.filter (Blinker.At entry.location) = [] := by
      rw [List.filter_eq_nil_iff]
      intro other hother
      simpa [Blinker.At] using halone other hother
    have hat : entry.started.At entry.location := decide_eq_true rfl
    rw [Blinkers.add, List.filter_cons, if_pos hat, hnone]
  · exact Function.update_self ..

namespace Blinker

variable {entry : Blinker}

/-- The first character is painted when the countdown runs out. -/
theorem paintedAfter_eq (entry : Blinker) (ticks : ℕ) (char : UInt8) :
    entry.paintedAfter ticks char =
      if ticks < period entry.countdown then char else (tick^[ticks] entry).face := by
  induction ticks generalizing entry char with
  | zero => exact (if_pos (period_pos _)).symm
  | succ ticks ih =>
      by_cases hdue : entry.Due
      · have hone : ¬ ticks + 1 < period entry.countdown := by
          rw [due_iff.mp hdue]
          omega
        rw [if_neg hone, paintedAfter, painted, if_pos hdue, paintedAfter_face,
          Function.iterate_succ_apply]
      · have hlong := period_sub_one fun hone => hdue (due_iff.mpr hone)
        have hleft : entry.tick.countdown = entry.countdown - 1 := by
          rw [tick, if_neg hdue]
        have hside : ticks < period (entry.countdown - 1) ↔
            ticks + 1 < period entry.countdown := by omega
        rw [paintedAfter, painted, if_neg hdue, ih, hleft, Function.iterate_succ_apply]
        simp only [hside]

/-- Records with the same lengths, countdown and status. -/
structure InStep (entry other : Blinker) : Prop where
  onLength : entry.onLength = other.onLength
  offLength : entry.offLength = other.offLength
  countdown : entry.countdown = other.countdown
  status : entry.status = other.status

theorem InStep.tick {other : Blinker} (hstep : entry.InStep other) :
    entry.tick.InStep other.tick := by
  obtain ⟨hon, hoff, hcountdown, hstatus⟩ := hstep
  have hdue : entry.Due ↔ other.Due := by rw [Due, Due, hcountdown]
  by_cases hother : other.Due
  · constructor <;> simp [Blinker.tick, hdue, hother, hon, hoff, hstatus]
  · constructor <;> simp [Blinker.tick, hdue, hother, hon, hoff, hstatus, hcountdown]

theorem InStep.iterate {other : Blinker} (hstep : entry.InStep other) (ticks : ℕ) :
    (Blinker.tick^[ticks] entry).InStep (Blinker.tick^[ticks] other) := by
  induction ticks with
  | zero => exact hstep
  | succ ticks ih =>
      rw [Function.iterate_succ_apply', Function.iterate_succ_apply']
      exact ih.tick

end Blinker

namespace Blinkers

variable {blinkers : Blinkers} {source target : Blinker} {arg : BitVec 32}

theorem Sole.find?_eq {location : BitVec 16} {entry : Blinker} {char : UInt8}
    (hsole : blinkers.Sole location entry char) :
    blinkers.entries.find? (Blinker.At location) = some entry := by
  rw [← List.head?_filter, hsole.entries_eq]
  rfl

theorem Sole.location_eq {location : BitVec 16} {entry : Blinker} {char : UInt8}
    (hsole : blinkers.Sole location entry char) : entry.location = location := by
  simpa [Blinker.At] using List.find?_some hsole.find?_eq

/-- Only the record at the target of a synchronisation changes. -/
theorem Sole.filter_replaceF {location : BitVec 16} {entry : Blinker} {char : UInt8}
    (hsole : blinkers.Sole location entry char) (source : Blinker) :
    (blinkers.entries.replaceF fun entry =>
        if entry.At location then some (entry.follow source) else none).filter
          (Blinker.At location) = [entry.follow source] := by
  obtain ⟨hat, before, after, hentries, hbefore⟩ :=
    List.find?_eq_some_iff_append.mp hsole.find?_eq
  have hnot : ∀ other ∈ before, ¬ other.At location := by simpa using hbefore
  have hfilter := hsole.entries_eq
  rw [hentries, List.filter_append, List.filter_eq_nil_iff.mpr hnot, List.nil_append,
    List.filter_cons, if_pos hat, List.cons.injEq] at hfilter
  have hfollow : (entry.follow source).At location := hat
  rw [hentries, Fish.replaceF_at before after hnot hat fun entry => entry.follow source,
    List.filter_append, List.filter_eq_nil_iff.mpr hnot, List.nil_append, List.filter_cons,
    if_pos hfollow, hfilter.2]

theorem Sole.call_sync {first second : UInt8}
    (hsource : blinkers.Sole ((arg >>> 16).setWidth 16) source first)
    (htarget : blinkers.Sole ((arg &&& 0xFFFF).setWidth 16) target second) :
    (blinkers.call (.sync arg)).1.Sole ((arg &&& 0xFFFF).setWidth 16) (target.follow source)
      target.offChar := by
  rw [call, hsource.find?_eq, htarget.find?_eq]
  constructor
  · exact htarget.filter_replaceF source
  · have hcell := Blinker.cell_inj.mpr htarget.location_eq
    simp [hcell]

end Blinkers

/-- After a synchronisation the two characters keep the same countdown and status for ever,
but the second one shows its character for off until the countdown runs out. -/
theorem fish_sync_keeps_in_step {fish : Fish} {blinkers : Blinkers} {cells : List BlinkIndex}
    (hrep : fish.Represents blinkers cells) (rounds : ℕ) (hrounds : 2000 < rounds)
    (arg : BitVec 32) (source target : Blinker) (first second : UInt8)
    (hsource : blinkers.Sole ((arg >>> 16).setWidth 16) source first)
    (htarget : blinkers.Sole ((arg &&& 0xFFFF).setWidth 16) target second)
    (hother : (arg >>> 16).setWidth 16 ≠ (arg &&& 0xFFFF).setWidth 16)
    (calls : List BlinkCall)
    (hspares : ∀ label ∈ calls, label.Spares ((arg >>> 16).setWidth 16) ∧
      label.Spares ((arg &&& 0xFFFF).setWidth 16))
    (hzero : ∀ user, BlinkCall.add user ∈ calls → user.location ≠ 0) :
    ∃ final blinkers' left leader follower,
      PartialRuns.run (Fish.step rounds) fish (.sync arg :: calls) = some final ∧
      final.Represents blinkers' left ∧
      blinkers'.entries.filter (Blinker.At ((arg >>> 16).setWidth 16)) = [leader] ∧
      blinkers'.entries.filter (Blinker.At ((arg &&& 0xFFFF).setWidth 16)) = [follower] ∧
      follower.InStep leader ∧
      final.vmem (target.location.toNat * 2) =
        if calls.countP BlinkCall.IsTick < period source.countdown then target.offChar
        else follower.face := by
  have hzero' : ∀ user, BlinkCall.add user ∈ .sync arg :: calls → user.location ≠ 0 := by
    intro user huser
    exact hzero user (by simpa using huser)
  obtain ⟨final, left, hrun, hfinal⟩ := hrep.run hrounds _ hzero'
  have hspared : (BlinkCall.sync arg).Spares ((arg >>> 16).setWidth 16) := hother.symm
  have hleader := Blinkers.Sole.after (hsource.call_spared hspared rfl)
    fun label hlabel => (hspares label hlabel).1
  have hfollower := (hsource.call_sync htarget).after
    fun label hlabel => (hspares label hlabel).2
  have hstep : (target.follow source).InStep source := ⟨rfl, rfl, rfl, rfl⟩
  refine ⟨final, _, left, _, _, hrun, hfinal, hleader.entries_eq, hfollower.entries_eq,
    hstep.iterate _, ?_⟩
  rw [hfinal.vmem_eq, htarget.location_eq]
  exact hfollower.vmem_eq.trans (Blinker.paintedAfter_eq _ _ _)

theorem fish_sync_keeps_in_step_witness :
    ∃ fish final blinkers left leader follower,
      PartialRuns.run (Fish.step 2001) (bootFish fun _ => 0)
        [.add ⟨⟨40, 73, 77, 15, 15, 0, 0⟩, none⟩, .add ⟨⟨540, 65, 66, 7, 6, 0, 0⟩, none⟩] =
          some fish ∧
      PartialRuns.run (Fish.step 2001) fish [.sync (40 <<< 16 ||| 540), .tasklet] = some final ∧
      final.Represents blinkers left ∧
      blinkers.entries.filter (Blinker.At 40) = [leader] ∧
      blinkers.entries.filter (Blinker.At 540) = [follower] ∧
      follower.InStep leader ∧ final.vmem 1080 = 66 := by
  have hboot := Fish.represents_bootFish fun _ => 0
  obtain ⟨fish, cells, hrun, hrep⟩ := hboot.run (show 2000 < 2001 by decide)
    [.add ⟨⟨40, 73, 77, 15, 15, 0, 0⟩, none⟩, .add ⟨⟨540, 65, 66, 7, 6, 0, 0⟩, none⟩]
    (by simp)
  obtain ⟨final, blinkers, left, leader, follower, hfinal, hrest⟩ :=
    fish_sync_keeps_in_step hrep 2001 (by decide) (40 <<< 16 ||| 540)
      ⟨40, 73, 77, 15, 15, 15, 1⟩ ⟨540, 65, 66, 7, 6, 7, 1⟩ 73 65
      ⟨by rfl, by rfl⟩ ⟨by rfl, by rfl⟩ (by decide) [.tasklet] (by simp [BlinkCall.Spares])
      (by simp)
  exact ⟨fish, final, blinkers, left, leader, follower, hrun, hfinal, hrest⟩

end VirtualOS
