import Mathlib.Tactic

/-!
# Layouts of structures

The members of a structure lie one behind the other, each on its alignment, and
the size is rounded up so that the elements of an array are aligned as well.
A byte of an array of structures belongs to one member of one element.
-/

namespace StructLayouts

/-- What the layout needs to know of a member. -/
structure Member where
  size : ℕ
  alignment : ℕ

/-- The next multiple of `alignment`. -/
def roundUp (offset alignment : ℕ) : ℕ := offset + (alignment - offset % alignment) % alignment

/-- The offset of member `i`, or the end of the last member when there are `i` members. -/
def offsetFrom (start : ℕ) : List Member → ℕ → ℕ
  | [], _ => start
  | m :: _, 0 => roundUp start m.alignment
  | m :: rest, i + 1 => offsetFrom (roundUp start m.alignment + m.size) rest i

def offsetOf (members : List Member) (i : ℕ) : ℕ := offsetFrom 0 members i

def structAlignment (members : List Member) : ℕ :=
  members.foldr (fun m alignment => max m.alignment alignment) 1

def structSize (members : List Member) : ℕ :=
  roundUp (offsetOf members members.length) (structAlignment members)

/-- Byte `o` of member `i` of element `t` of an array of structures. -/
def arrayOffset (members : List Member) (t i o : ℕ) : ℕ :=
  structSize members * t + offsetOf members i + o

theorem le_roundUp (offset alignment : ℕ) : offset ≤ roundUp offset alignment :=
  Nat.le_add_right _ _

theorem le_offsetFrom (members : List Member) (start i : ℕ) :
    start ≤ offsetFrom start members i := by
  induction members generalizing start i with
  | nil => rw [offsetFrom]
  | cons m rest ih =>
      have hround := le_roundUp start m.alignment
      cases i with
      | zero => exact hround
      | succ i => exact hround.trans ((Nat.le_add_right _ _).trans (ih _ i))

theorem offsetFrom_add_size_le {members : List Member} {i j : ℕ} (hi : i < members.length)
    (hij : i < j) (start : ℕ) :
    offsetFrom start members i + members[i].size ≤ offsetFrom start members j := by
  induction members generalizing start i j with
  | nil => exact absurd hi (Nat.not_lt_zero i)
  | cons m rest ih =>
      obtain ⟨j, rfl⟩ : ∃ k, j = k + 1 := ⟨j - 1, by omega⟩
      cases i with
      | zero => exact le_offsetFrom rest _ j
      | succ i => exact ih (Nat.lt_of_succ_lt_succ hi) (by omega) _

variable {members : List Member}

theorem offsetOf_add_size_le_structSize {i : ℕ} (hi : i < members.length) :
    offsetOf members i + members[i].size ≤ structSize members :=
  (offsetFrom_add_size_le hi hi 0).trans (le_roundUp _ _)

theorem member_of_byte {i j o p : ℕ} (hi : i < members.length) (hj : j < members.length)
    (ho : o < members[i].size) (hp : p < members[j].size)
    (heq : offsetOf members i + o = offsetOf members j + p) : i = j ∧ o = p := by
  rcases lt_trichotomy i j with hlt | rfl | hgt
  · have hle : offsetOf members i + members[i].size ≤ offsetOf members j :=
      offsetFrom_add_size_le hi hlt 0
    omega
  · exact ⟨rfl, Nat.add_left_cancel heq⟩
  · have hle : offsetOf members j + members[j].size ≤ offsetOf members i :=
      offsetFrom_add_size_le hj hgt 0
    omega

theorem arrayOffset_lt {t n i o : ℕ} (ht : t < n) (hi : i < members.length)
    (ho : o < members[i].size) : arrayOffset members t i o < structSize members * n := by
  have hmember := offsetOf_add_size_le_structSize hi
  have helement : structSize members * (t + 1) ≤ structSize members * n :=
    Nat.mul_le_mul_left _ ht
  rw [Nat.mul_succ] at helement
  unfold arrayOffset
  omega

/-- The byte of an array of structures tells its element and its member. -/
theorem arrayOffset_inj {t u i j o p : ℕ} (hi : i < members.length) (hj : j < members.length)
    (ho : o < members[i].size) (hp : p < members[j].size)
    (heq : arrayOffset members t i o = arrayOffset members u j p) :
    t = u ∧ i = j ∧ o = p := by
  have hfirst := offsetOf_add_size_le_structSize hi
  have hsecond := offsetOf_add_size_le_structSize hj
  have hdiv : ∀ v x, x < structSize members →
      (structSize members * v + x) / structSize members = v := by
    intro v x hx
    rw [Nat.mul_add_div (by omega), Nat.div_eq_of_lt hx, Nat.add_zero]
  unfold arrayOffset at heq
  rw [Nat.add_assoc, Nat.add_assoc] at heq
  have htu : t = u := by
    rw [← hdiv t (offsetOf members i + o) (by omega), heq, hdiv u _ (by omega)]
  subst htu
  exact ⟨rfl, member_of_byte hi hj ho hp (Nat.add_left_cancel heq)⟩

end StructLayouts
