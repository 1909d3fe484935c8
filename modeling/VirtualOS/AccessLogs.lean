import Mathlib.Tactic

/-!
# Computations with a log of their accesses

A computation that works on memory has a value and the list of the accesses
made to find it, in the order in which they were made.  The value does not depend on
the log, so that a logged program can be compared with a plain function, while
a statement about the log is a statement about every access of the program.
The loops are those of C: over the indices below a bound, along a string for as
long as its elements satisfy a test, and over places up to the first that satisfies one.
-/

namespace AccessLogs

structure Logged (ι α : Type) where
  value : α
  accesses : List ι

namespace Logged

variable {ι α γ δ : Type}

instance : Monad (Logged ι) where
  pure value := ⟨value, []⟩
  bind m f := ⟨(f m.value).value, m.accesses ++ (f m.value).accesses⟩

@[simp] theorem value_pure (value : γ) : (pure value : Logged ι γ).value = value := rfl

@[simp] theorem accesses_pure (value : γ) : (pure value : Logged ι γ).accesses = [] := rfl

@[simp] theorem value_bind (m : Logged ι γ) (f : γ → Logged ι δ) :
    (m >>= f).value = (f m.value).value := rfl

@[simp] theorem accesses_bind (m : Logged ι γ) (f : γ → Logged ι δ) :
    (m >>= f).accesses = m.accesses ++ (f m.value).accesses := rfl

@[simp] theorem value_ite (test : Prop) {_ : Decidable test} (m n : Logged ι γ) :
    (if test then m else n).value = if test then m.value else n.value :=
  apply_ite Logged.value test m n

@[simp] theorem accesses_ite (test : Prop) {_ : Decidable test} (m n : Logged ι γ) :
    (if test then m else n).accesses = if test then m.accesses else n.accesses :=
  apply_ite Logged.accesses test m n

/-- One access, with what is found there. -/
abbrev access (place : ι) (value : α) : Logged ι α := ⟨value, [place]⟩

@[simp] theorem value_access (place : ι) (value : α) : (access place value).value = value := rfl

@[simp] theorem accesses_access (place : ι) (value : α) :
    (access place value).accesses = [place] := rfl

/-- A loop over items, with the results of its rounds. -/
def forEach (items : List α) (body : α → Logged ι γ) : Logged ι (List γ) :=
  match items with
  | [] => pure []
  | item :: rest => do
      let first ← body item
      let others ← forEach rest body
      pure (first :: others)

@[simp] theorem value_forEach (items : List α) (body : α → Logged ι γ) :
    (forEach items body).value = items.map fun item => (body item).value := by
  induction items with
  | nil => rfl
  | cons item rest ih => simp [forEach, ih]

@[simp] theorem accesses_forEach (items : List α) (body : α → Logged ι γ) :
    (forEach items body).accesses = items.flatMap fun item => (body item).accesses := by
  induction items with
  | nil => rfl
  | cons item rest ih => simp [forEach, ih]

/-- The loop `while (test(s[i])) i++` on the elements from position `i` on.  The
terminator behind the last of them ends it. -/
def scanWhile (place : ℕ → ι) (test : α → Bool) : List α → ℕ → Logged ι ℕ
  | [], i => access (place i) i
  | item :: rest, i => do
      let found ← access (place i) item
      if test found then scanWhile place test rest (i + 1) else pure i

theorem value_scanWhile (place : ℕ → ι) (test : α → Bool) (items : List α) (i : ℕ) :
    (scanWhile place test items i).value = i + (items.takeWhile test).length := by
  induction items generalizing i with
  | nil => rfl
  | cons item rest ih =>
      by_cases htest : test item
      · simp [scanWhile, htest, ih]
        omega
      · simp [scanWhile, htest]

theorem accesses_scanWhile (place : ℕ → ι) (test : α → Bool) (items : List α) (i : ℕ) :
    (scanWhile place test items i).accesses =
      (List.range' i ((items.takeWhile test).length + 1)).map place := by
  induction items generalizing i with
  | nil => rfl
  | cons item rest ih =>
      by_cases htest : test item
      · simp [scanWhile, htest, ih, List.range'_succ]
      · simp [scanWhile, htest]

theorem forall_scanWhile {good : ι → Prop} (place : ℕ → ι) (test : α → Bool) (items : List α)
    (i : ℕ) :
    (∀ access ∈ (scanWhile place test items i).accesses, good access) ↔
      ∀ j < (items.takeWhile test).length + 1, good (place (i + j)) := by
  rw [accesses_scanWhile]
  constructor
  · intro hall j hj
    apply hall
    rw [List.mem_map]
    exact ⟨i + j, List.mem_range'_1.mpr ⟨by omega, by omega⟩, rfl⟩
  · intro hall access haccess
    obtain ⟨j, hj, rfl⟩ := List.mem_map.mp haccess
    have hbounds := List.mem_range'_1.mp hj
    have hgood := hall (j - i) (by omega)
    rwa [Nat.add_sub_cancel' hbounds.1] at hgood

/-- The loop that reads one place after the other and breaks where the test holds. -/
def findFirst (read : ι → α) (test : α → Bool) : List ι → Logged ι (Option ι)
  | [] => pure none
  | place :: rest => do
      let found ← access place (read place)
      if test found then pure (some place) else findFirst read test rest

theorem value_findFirst (read : ι → α) (test : α → Bool) (places : List ι) :
    (findFirst read test places).value = places.find? fun place => test (read place) := by
  induction places with
  | nil => rfl
  | cons place rest ih =>
      by_cases htest : test (read place)
      · simp [findFirst, htest]
      · simp [findFirst, htest, ih]

theorem mem_of_mem_findFirst {read : ι → α} {test : α → Bool} {places : List ι} {place : ι}
    (hmem : place ∈ (findFirst read test places).accesses) : place ∈ places := by
  induction places with
  | nil => simp [findFirst] at hmem
  | cons first rest ih =>
      by_cases htest : test (read first)
      · simp only [findFirst, accesses_bind, htest, if_true, accesses_pure,
          List.append_nil, List.mem_singleton] at hmem
        simp [hmem]
      · simp only [findFirst, accesses_bind, htest, Bool.false_eq_true, if_false,
          List.singleton_append, List.mem_cons] at hmem
        rcases hmem with hfirst | hrest
        · simp [hfirst]
        · simp [ih hrest]

theorem accesses_findFirst_append (read : ι → α) (test : α → Bool) (front back : List ι) :
    (findFirst read test (front ++ back)).accesses =
      (findFirst read test front).accesses ++
        if (front.find? fun place => test (read place)) = none then
          (findFirst read test back).accesses
        else [] := by
  induction front with
  | nil => simp [findFirst]
  | cons place rest ih =>
      by_cases htest : test (read place)
      · simp [findFirst, htest]
      · simp [findFirst, htest, ih]

/-- A computation that goes on with a result that may be missing. -/
def whenSome (found : Option α) (next : α → Logged ι (Option γ)) : Logged ι (Option γ) :=
  match found with
  | none => pure none
  | some item => next item

@[simp] theorem value_whenSome (found : Option α) (next : α → Logged ι (Option γ)) :
    (whenSome found next).value = found.bind fun item => (next item).value := by
  cases found <;> rfl

@[simp] theorem whenSome_some (item : α) (next : α → Logged ι (Option γ)) :
    whenSome (some item) next = next item := rfl

end Logged
end AccessLogs
