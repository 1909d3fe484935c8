import Mathlib.Tactic

/-!
# Stacks kept as linked cells

Several stacks share one pool of cells.  A stack is stored as the chain that
starts at its top cell and follows a successor map down to a terminator; the
abstract stack is the list of cells on that chain.  The family of stacks is
`Separate` when no cell occurs twice.  Pushing a fresh cell and popping the top
keep the family separate, and rewriting the successor of a cell off a chain
leaves the chain alone.  The last part is about lists whose pointers may be null:
a cell is unlinked from such a chain, and a cell that is put in front of a chain
it already lies on makes the chain endless.
-/

namespace LinkedStacks

variable {ι α : Type*}

/-- `cells` is the chain from `top` along `next` down to the terminator. -/
def Linked (next : α → α) (bottom : α) : α → List α → Prop
  | top, [] => top = bottom
  | top, cell :: rest => top = cell ∧ cell ≠ bottom ∧ Linked next bottom (next cell) rest

section Chains

variable {next other : α → α} {bottom top : α} {cells : List α}

@[simp] theorem linked_nil : Linked next bottom top [] ↔ top = bottom := Iff.rfl

@[simp] theorem linked_cons {cell : α} {rest : List α} :
    Linked next bottom top (cell :: rest) ↔
      top = cell ∧ cell ≠ bottom ∧ Linked next bottom (next cell) rest := Iff.rfl

theorem Linked.congr (hlinked : Linked next bottom top cells)
    (hagree : ∀ cell ∈ cells, other cell = next cell) :
    Linked other bottom top cells := by
  induction cells generalizing top with
  | nil => exact hlinked
  | cons cell rest ih =>
      obtain ⟨htop, hcell, hrest⟩ := hlinked
      refine ⟨htop, hcell, ?_⟩
      rw [hagree cell (by simp)]
      exact ih hrest fun below hbelow => hagree below (by simp [hbelow])

theorem Linked.bottom_notMem (hlinked : Linked next bottom top cells) :
    bottom ∉ cells := by
  induction cells generalizing top with
  | nil => simp
  | cons cell rest ih =>
      obtain ⟨_, hcell, hrest⟩ := hlinked
      simp only [List.mem_cons, not_or]
      exact ⟨hcell.symm, ih hrest⟩

theorem Linked.head?_eq (hlinked : Linked next bottom top cells)
    (hcells : cells ≠ []) : cells.head? = some top := by
  cases cells with
  | nil => exact absurd rfl hcells
  | cons cell rest => simp [hlinked.1]

theorem Linked.iterate_eq_getElem (hlinked : Linked next bottom top cells)
    {k : ℕ} (hk : k < cells.length) : next^[k] top = cells[k] := by
  induction cells generalizing top k with
  | nil => simp at hk
  | cons cell rest ih =>
      obtain ⟨rfl, _, hrest⟩ := hlinked
      cases k with
      | zero => rfl
      | succ k =>
          rw [Function.iterate_succ_apply]
          simpa using ih hrest (by simpa using hk)

theorem Linked.iterate_length (hlinked : Linked next bottom top cells) :
    next^[cells.length] top = bottom := by
  induction cells generalizing top with
  | nil => exact hlinked
  | cons cell rest ih =>
      obtain ⟨rfl, _, hrest⟩ := hlinked
      rw [List.length_cons, Function.iterate_succ_apply]
      exact ih hrest

/-- Following the chain meets the terminator after its last cell at the latest. -/
theorem Linked.lt_length (hlinked : Linked next bottom top cells) {k : ℕ}
    (hk : ∀ j ≤ k, next^[j] top ≠ bottom) : k < cells.length := by
  by_contra hlong
  exact hk cells.length (not_lt.mp hlong) hlinked.iterate_length

theorem Linked.mem_iff_iterate (hlinked : Linked next bottom top cells) {cell : α} :
    cell ∈ cells ↔ ∃ k < cells.length, next^[k] top = cell := by
  rw [List.mem_iff_getElem]
  constructor
  · rintro ⟨k, hk, heq⟩
    exact ⟨k, hk, (hlinked.iterate_eq_getElem hk).trans heq⟩
  · rintro ⟨k, hk, heq⟩
    exact ⟨k, hk, (hlinked.iterate_eq_getElem hk).symm.trans heq⟩

end Chains

/-- No cell occurs twice in the family of stacks. -/
structure Separate (family : ι → List α) : Prop where
  nodup : ∀ i, (family i).Nodup
  disjoint : ∀ i j, i ≠ j → List.Disjoint (family i) (family j)

def Fresh (family : ι → List α) (cell : α) : Prop := ∀ i, cell ∉ family i

section Families

variable [DecidableEq ι] {family : ι → List α} {i j : ι} {cell : α}

def push (family : ι → List α) (i : ι) (cell : α) : ι → List α :=
  Function.update family i (cell :: family i)

def pop (family : ι → List α) (i : ι) : ι → List α :=
  Function.update family i (family i).tail

@[simp] theorem push_self : push family i cell i = cell :: family i := by
  simp [push]

@[simp] theorem pop_self : pop family i i = (family i).tail := by
  simp [pop]

theorem push_of_ne (hne : j ≠ i) : push family i cell j = family j := by
  simp [push, hne]

theorem pop_of_ne (hne : j ≠ i) : pop family i j = family j := by
  simp [pop, hne]

theorem mem_push {other : α} :
    other ∈ push family i cell j ↔ (j = i ∧ other = cell) ∨ other ∈ family j := by
  by_cases hne : j = i
  · subst hne
    simp
  · simp [push_of_ne hne, hne]

theorem mem_of_mem_pop {other : α} (hmem : other ∈ pop family i j) :
    other ∈ family j := by
  by_cases hne : j = i
  · subst hne
    rw [pop_self] at hmem
    exact List.mem_of_mem_tail hmem
  · rwa [pop_of_ne hne] at hmem

theorem Separate.eq_of_mem (hsep : Separate family)
    (hi : cell ∈ family i) (hj : cell ∈ family j) : i = j := by
  by_contra hne
  exact hsep.disjoint i j hne hi hj

theorem Separate.push (hsep : Separate family) (hfresh : Fresh family cell) :
    Separate (push family i cell) := by
  constructor
  · intro j
    by_cases hne : j = i
    · subst hne
      rw [push_self, List.nodup_cons]
      exact ⟨hfresh j, hsep.nodup j⟩
    · rw [push_of_ne hne]
      exact hsep.nodup j
  · intro j k hjk other hj hk
    rw [mem_push] at hj hk
    rcases hj with ⟨hji, hother⟩ | hj <;> rcases hk with ⟨hki, hother'⟩ | hk
    · exact hjk (hji.trans hki.symm)
    · exact hfresh k (hother ▸ hk)
    · exact hfresh j (hother' ▸ hj)
    · exact hsep.disjoint j k hjk hj hk

theorem Separate.pop (hsep : Separate family) : Separate (pop family i) := by
  constructor
  · intro j
    by_cases hne : j = i
    · subst hne
      rw [pop_self]
      exact (hsep.nodup j).tail
    · rw [pop_of_ne hne]
      exact hsep.nodup j
  · intro j k hjk other hj hk
    exact hsep.disjoint j k hjk (mem_of_mem_pop hj) (mem_of_mem_pop hk)

theorem Separate.fresh_pop (hsep : Separate family) {rest : List α}
    (htop : family i = cell :: rest) : Fresh (LinkedStacks.pop family i) cell := by
  intro j hmem
  by_cases hne : j = i
  · subst hne
    have hnodup := hsep.nodup j
    rw [htop, List.nodup_cons] at hnodup
    rw [pop_self, htop] at hmem
    exact hnodup.1 hmem
  · rw [pop_of_ne hne] at hmem
    exact hsep.disjoint j i hne hmem (by simp [htop])

/-- A cell of the pool is held by exactly one stack iff it is held at all. -/
theorem Separate.existsUnique_iff (hsep : Separate family) :
    (∃! i, cell ∈ family i) ↔ ∃ i, cell ∈ family i := by
  constructor
  · exact ExistsUnique.exists
  · rintro ⟨i, hi⟩
    exact ⟨i, hi, fun j hj => hsep.eq_of_mem hj hi⟩

end Families

/-! ## Chains of nullable pointers -/

/-- `cells` is the chain from the pointer `head` down to the null pointer. -/
def Chain (next : α → Option α) (head : Option α) (cells : List α) : Prop :=
  Linked (fun pointer => pointer.bind next) none head (cells.map some)

/-- Following the links from `head` never meets the null pointer: the cells of some set are
linked among themselves, and `head` points into it. -/
def Endless (next : α → Option α) (head : Option α) : Prop :=
  ∃ cells : Set α, (∃ cell ∈ cells, head = some cell) ∧
    ∀ cell ∈ cells, ∃ below ∈ cells, next cell = some below

section Pointers

variable {next other : α → Option α} {head : Option α} {cells : List α} {cell : α}

@[simp] theorem chain_nil : Chain next head [] ↔ head = none := Iff.rfl

@[simp] theorem chain_cons {rest : List α} :
    Chain next head (cell :: rest) ↔ head = some cell ∧ Chain next (next cell) rest := by
  simp [Chain]

theorem Chain.congr (hchain : Chain next head cells)
    (hagree : ∀ cell ∈ cells, other cell = next cell) : Chain other head cells := by
  apply Linked.congr hchain
  intro pointer hpointer
  obtain ⟨cell, hcell, rfl⟩ := List.mem_map.mp hpointer
  exact hagree cell hcell

/-- A cell is taken out of the chain when its predecessor is linked to its successor. -/
theorem Chain.unlink [DecidableEq α] {before after : List α} {last : α}
    (hchain : Chain next head (before ++ last :: cell :: after))
    (hnodup : (before ++ last :: cell :: after).Nodup) :
    Chain (Function.update next last (next cell)) head (before ++ last :: after) := by
  induction before generalizing head with
  | nil =>
      simp only [List.nil_append, chain_cons, List.nodup_cons] at hchain hnodup ⊢
      obtain ⟨hhead, hlast, hafter⟩ := hchain
      refine ⟨hhead, ?_⟩
      rw [Function.update_self]
      apply hafter.congr
      intro below hbelow
      apply Function.update_of_ne
      rintro rfl
      exact hnodup.1 (by simp [hbelow])
  | cons first before ih =>
      simp only [List.cons_append, chain_cons, List.nodup_cons] at hchain hnodup ⊢
      refine ⟨hchain.1, ?_⟩
      rw [Function.update_of_ne]
      · exact ih hchain.2 hnodup.2
      · rintro rfl
        exact hnodup.1 (by simp)

theorem Endless.ne_none (hendless : Endless next head) : head ≠ none := by
  obtain ⟨_, ⟨cell, _, hhead⟩, _⟩ := hendless
  simp [hhead]

theorem Endless.tail (hendless : Endless next (some cell)) : Endless next (next cell) := by
  obtain ⟨cells, ⟨first, hfirst, hhead⟩, hclosed⟩ := hendless
  have hcell : cell = first := Option.some.inj hhead
  obtain ⟨below, hbelow, hnext⟩ := hclosed first hfirst
  exact ⟨cells, ⟨below, hbelow, hcell ▸ hnext⟩, hclosed⟩

theorem Endless.congr (hendless : Endless next head) (hagree : ∀ cell, other cell = next cell) :
    Endless other head := by
  rwa [show other = next from funext hagree]

/-- A cell put in front of an endless chain leaves it endless, also when it was part of it. -/
theorem Endless.push [DecidableEq α] (hendless : Endless next head) (cell : α) :
    Endless (Function.update next cell head) (some cell) := by
  obtain ⟨cells, ⟨first, hfirst, hhead⟩, hclosed⟩ := hendless
  refine ⟨insert cell cells, ⟨cell, Set.mem_insert .., rfl⟩, fun other hother => ?_⟩
  by_cases hcell : other = cell
  · subst hcell
    exact ⟨first, Set.mem_insert_of_mem _ hfirst, by rw [Function.update_self, hhead]⟩
  · obtain ⟨below, hbelow, hnext⟩ := hclosed other (hother.resolve_left hcell)
    exact ⟨below, Set.mem_insert_of_mem _ hbelow, by rw [Function.update_of_ne hcell, hnext]⟩

theorem Chain.exists_below {before after : List α}
    (hchain : Chain next head (before ++ cell :: after)) :
    (∃ first ∈ before ++ [cell], head = some first) ∧
      ∀ other ∈ before, ∃ below ∈ before ++ [cell], next other = some below := by
  induction before generalizing head with
  | nil =>
      rw [List.nil_append, chain_cons] at hchain
      exact ⟨⟨cell, by simp, hchain.1⟩, by simp⟩
  | cons first before ih =>
      rw [List.cons_append, chain_cons] at hchain
      obtain ⟨⟨second, hsecond, hnext⟩, hbelow⟩ := ih hchain.2
      refine ⟨⟨first, by simp, hchain.1⟩, fun other hother => ?_⟩
      rcases List.mem_cons.mp hother with rfl | hother
      · exact ⟨second, List.mem_cons_of_mem _ hsecond, hnext⟩
      · obtain ⟨below, hmem, hlink⟩ := hbelow other hother
        exact ⟨below, List.mem_cons_of_mem _ hmem, hlink⟩

/-- A cell of the chain that is put in front of it once more closes the chain to a ring. -/
theorem Chain.push_mem [DecidableEq α] (hchain : Chain next head cells) (hcell : cell ∈ cells)
    (hnodup : cells.Nodup) : Endless (Function.update next cell head) (some cell) := by
  obtain ⟨before, after, rfl⟩ := List.append_of_mem hcell
  have hfresh : cell ∉ before := by
    have hmiddle := (List.nodup_middle.mp hnodup).notMem
    simp only [List.mem_append, not_or] at hmiddle
    exact hmiddle.1
  obtain ⟨⟨first, hfirst, hhead⟩, hbelow⟩ := hchain.exists_below
  refine ⟨{other | other ∈ before ++ [cell]}, ⟨cell, by simp, rfl⟩, fun other hother => ?_⟩
  by_cases heq : other = cell
  · subst heq
    exact ⟨first, hfirst, by rw [Function.update_self, hhead]⟩
  · have hmem : other ∈ before := by simpa [heq] using hother
    obtain ⟨below, hbelow, hnext⟩ := hbelow other hmem
    exact ⟨below, hbelow, by rw [Function.update_of_ne heq, hnext]⟩

end Pointers

end LinkedStacks
