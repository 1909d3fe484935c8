import VirtualOS.BlinkList
import Mathlib.Tactic

/-!
# The blinking characters as a list

What the chain of cells stands for is a list of records, newest first, together
with the memory they are painted on.  Every call of `mp1_ioctl` and the tasklet
carry out the corresponding operation on this list, as long as no record is
added at location zero: a cell with that location counts as free.
-/

namespace VirtualOS

open LinkedStacks

/-! ## The abstract list -/

structure Blinkers where
  entries : List Blinker
  vmem : ℕ → UInt8

namespace Blinker

def At (location : BitVec 16) (entry : Blinker) : Bool := entry.location = location

/-- The offset of the character in the text page. -/
def cell (entry : Blinker) : ℕ := entry.location.toNat * 2

/-- A record as it is put into the list. -/
def started (entry : Blinker) : Blinker :=
  { entry with status := 1, countdown := entry.onLength }

/-- The countdown of the record runs out at the next tick. -/
def Due (entry : Blinker) : Prop := (entry.countdown - 1).toInt ≤ 0

instance (entry : Blinker) : Decidable entry.Due := inferInstanceAs (Decidable (_ ≤ _))

/-- A record after one more tick. -/
def tick (entry : Blinker) : Blinker :=
  if entry.Due then
    { entry with
      countdown := if entry.status &&& 1 = 0 then entry.onLength else entry.offLength
      status := entry.status ^^^ 1 }
  else { entry with countdown := entry.countdown - 1 }

/-- What the tick paints. -/
def repaint (entry : Blinker) (vmem : ℕ → UInt8) : ℕ → UInt8 :=
  if entry.Due then
    Function.update vmem entry.cell
      (if entry.status &&& 1 = 0 then entry.onChar else entry.offChar)
  else vmem

/-- A record that takes the rhythm of another one. -/
def follow (entry source : Blinker) : Blinker :=
  { entry with
    onLength := source.onLength
    offLength := source.offLength
    countdown := source.countdown
    status := source.status }

@[simp] theorem location_tick (entry : Blinker) : entry.tick.location = entry.location := by
  unfold tick
  split <;> rfl

end Blinker

namespace Blinkers

def add (blinkers : Blinkers) (entry : Blinker) : Blinkers where
  entries := entry.started :: blinkers.entries
  vmem := Function.update blinkers.vmem entry.cell entry.onChar

/-- The calls on the list. -/
def call (blinkers : Blinkers) : BlinkCall → Blinkers × BlinkAnswer Blinker
  | .add user =>
      if 2000 ≤ user.location.toNat ∨ blinkers.entries.length = 2000 then (blinkers, -1, none)
      else (blinkers.add user.toBlinker, 0, none)
  | .remove arg =>
      if blinkers.entries.any (Blinker.At (arg.setWidth 16)) then
        ({ blinkers with entries := blinkers.entries.eraseP (Blinker.At (arg.setWidth 16)) },
          0, none)
      else (blinkers, -1, none)
  | .find location =>
      match blinkers.entries.find? (Blinker.At location) with
      | none => (blinkers, -1, none)
      | some entry => (blinkers, 0, some entry)
  | .sync arg =>
      match blinkers.entries.find? (Blinker.At ((arg >>> 16).setWidth 16)),
          blinkers.entries.find? (Blinker.At ((arg &&& 0xFFFF).setWidth 16)) with
      | some source, some target =>
          ({ entries := blinkers.entries.replaceF fun entry =>
              if entry.At ((arg &&& 0xFFFF).setWidth 16) then some (entry.follow source) else none
             vmem := Function.update blinkers.vmem target.cell target.offChar }, 0, none)
      | _, _ => (blinkers, -1, none)
  | .tasklet =>
      ({ entries := blinkers.entries.map Blinker.tick
         vmem := blinkers.entries.foldl (fun vmem entry => entry.repaint vmem) blinkers.vmem },
        0, none)

end Blinkers

/-- The answer without the link in the record copied. -/
def BlinkAnswer.forget (answer : BlinkAnswer Mp1BlinkStruct) : BlinkAnswer Blinker :=
  (answer.1, answer.2.map Mp1BlinkStruct.toBlinker)

/-- The cells of the list hold the entries, and exactly they are in use. -/
structure Fish.Represents (fish : Fish) (blinkers : Blinkers) (cells : List BlinkIndex) :
    Prop where
  chain : Chain (fun i => (fish.blinkArray i).next) fish.mp1ListHead cells
  nodup : cells.Nodup
  entries_eq : blinkers.entries = cells.map fun i => (fish.blinkArray i).toBlinker
  vmem_eq : fish.vmem = blinkers.vmem
  used : ∀ i, (fish.blinkArray i).location ≠ 0 ↔ i ∈ cells

namespace Fish

variable {fish : Fish} {blinkers : Blinkers} {cells : List BlinkIndex} {rounds : ℕ}

/-! ## The loops -/

theorem findLoop_eq {location : BitVec 16} {head : Option BlinkIndex}
    (hchain : Chain (fun i => (fish.blinkArray i).next) head cells)
    (hrounds : cells.length < rounds) :
    fish.findLoop location rounds head =
      some (cells.find? fun i => (fish.blinkArray i).At location) := by
  induction cells generalizing head rounds with
  | nil =>
      obtain ⟨rounds, rfl⟩ := Nat.exists_eq_add_one_of_ne_zero (Nat.ne_zero_of_lt hrounds)
      rw [chain_nil] at hchain
      subst hchain
      rfl
  | cons i rest ih =>
      obtain ⟨rounds, rfl⟩ := Nat.exists_eq_add_one_of_ne_zero (Nat.ne_zero_of_lt hrounds)
      rw [chain_cons] at hchain
      obtain ⟨rfl, hrest⟩ := hchain
      have hlong : rest.length < rounds := by simpa using hrounds
      by_cases hat : (fish.blinkArray i).location = location
      · simp [findLoop, Blinker.At, hat]
      · rw [findLoop, if_neg hat, ih hrest hlong]
        simp [Blinker.At, hat]

theorem Represents.mp1FindHelper_eq (hrep : fish.Represents blinkers cells)
    (hrounds : cells.length < rounds) (location : BitVec 16) :
    fish.mp1FindHelper rounds location =
      some (cells.find? fun i => (fish.blinkArray i).At location) :=
  findLoop_eq hrep.chain hrounds

theorem Represents.find?_entries (hrep : fish.Represents blinkers cells)
    (location : BitVec 16) :
    blinkers.entries.find? (Blinker.At location) =
      (cells.find? fun i => (fish.blinkArray i).At location).map fun i =>
        (fish.blinkArray i).toBlinker := by
  rw [hrep.entries_eq, List.find?_map]
  rfl

/-! ## One cell of the tasklet -/

theorem blink_eq (fish : Fish) (i : BlinkIndex) :
    fish.blink i =
      { fish.setCell i { (fish.blinkArray i) with toBlinker := (fish.blinkArray i).tick } with
        vmem := (fish.blinkArray i).repaint fish.vmem } := by
  by_cases hdue : (fish.blinkArray i).Due
  · have hleft : ¬ 0 < ((fish.blinkArray i).countdown - 1).toInt := not_lt.mpr hdue
    rw [blink, if_neg hleft, Blinker.tick, if_pos hdue, Blinker.repaint, if_pos hdue]
    by_cases hoff : (fish.blinkArray i).status &&& 1 = 0
    · rw [if_pos hoff, if_pos hoff, if_pos hoff]
      rfl
    · rw [if_neg hoff, if_neg hoff, if_neg hoff]
      rfl
  · have hleft : 0 < ((fish.blinkArray i).countdown - 1).toInt := not_le.mp hdue
    rw [blink, if_pos hleft, Blinker.tick, if_neg hdue, Blinker.repaint, if_neg hdue]
    rfl

@[simp] theorem blinkArray_blink_self (i : BlinkIndex) :
    (fish.blink i).blinkArray i =
      { (fish.blinkArray i) with toBlinker := (fish.blinkArray i).tick } := by
  simp [blink_eq, setCell]

theorem blinkArray_blink_of_ne {i j : BlinkIndex} (hne : j ≠ i) :
    (fish.blink i).blinkArray j = fish.blinkArray j := by
  simp [blink_eq, setCell, hne]

@[simp] theorem vmem_blink (i : BlinkIndex) :
    (fish.blink i).vmem = (fish.blinkArray i).repaint fish.vmem := by
  simp [blink_eq]

@[simp] theorem mp1ListHead_blink (i : BlinkIndex) :
    (fish.blink i).mp1ListHead = fish.mp1ListHead := by
  simp [blink_eq, setCell]

theorem next_blink (i j : BlinkIndex) :
    ((fish.blink i).blinkArray j).next = (fish.blinkArray j).next := by
  by_cases hne : j = i
  · subst hne
    simp
  · rw [blinkArray_blink_of_ne hne]

/-! ## The whole tasklet -/

theorem taskletLoop_eq {head : Option BlinkIndex}
    (hchain : Chain (fun i => (fish.blinkArray i).next) head cells)
    (hrounds : cells.length < rounds) :
    taskletLoop rounds fish head = some (cells.foldl blink fish) := by
  induction cells generalizing fish head rounds with
  | nil =>
      obtain ⟨rounds, rfl⟩ := Nat.exists_eq_add_one_of_ne_zero (Nat.ne_zero_of_lt hrounds)
      rw [chain_nil] at hchain
      subst hchain
      rfl
  | cons i rest ih =>
      obtain ⟨rounds, rfl⟩ := Nat.exists_eq_add_one_of_ne_zero (Nat.ne_zero_of_lt hrounds)
      rw [chain_cons] at hchain
      obtain ⟨rfl, hrest⟩ := hchain
      rw [taskletLoop, next_blink, List.foldl_cons]
      apply ih _ (by simpa using hrounds)
      exact hrest.congr fun below _ => next_blink i below

theorem mp1ListHead_foldl_blink (cells : List BlinkIndex) :
    (cells.foldl blink fish).mp1ListHead = fish.mp1ListHead := by
  induction cells generalizing fish with
  | nil => rfl
  | cons i rest ih => rw [List.foldl_cons, ih, mp1ListHead_blink]

theorem blinkArray_foldl_blink_of_not_mem {i : BlinkIndex} (hi : i ∉ cells) :
    (cells.foldl blink fish).blinkArray i = fish.blinkArray i := by
  induction cells generalizing fish with
  | nil => rfl
  | cons j rest ih =>
      rw [List.mem_cons, not_or] at hi
      rw [List.foldl_cons, ih hi.2, blinkArray_blink_of_ne hi.1]

/-- Every cell of the list is visited once. -/
theorem blinkArray_foldl_blink {i : BlinkIndex} (hnodup : cells.Nodup) (hi : i ∈ cells) :
    (cells.foldl blink fish).blinkArray i =
      { (fish.blinkArray i) with toBlinker := (fish.blinkArray i).tick } := by
  induction cells generalizing fish with
  | nil => simp at hi
  | cons j rest ih =>
      rw [List.nodup_cons] at hnodup
      rw [List.foldl_cons]
      by_cases hij : i = j
      · subst hij
        rw [blinkArray_foldl_blink_of_not_mem hnodup.1, blinkArray_blink_self]
      · rw [ih hnodup.2 ((List.mem_cons.mp hi).resolve_left hij), blinkArray_blink_of_ne hij]

theorem vmem_foldl_blink (hnodup : cells.Nodup) :
    (cells.foldl blink fish).vmem =
      (cells.map fun i => (fish.blinkArray i).toBlinker).foldl
        (fun vmem entry => entry.repaint vmem) fish.vmem := by
  induction cells generalizing fish with
  | nil => rfl
  | cons i rest ih =>
      rw [List.nodup_cons] at hnodup
      rw [List.foldl_cons, ih hnodup.2, List.map_cons, List.foldl_cons, vmem_blink]
      congr 1
      apply List.map_congr_left
      intro j hj
      rw [blinkArray_blink_of_ne (ne_of_mem_of_not_mem hj hnodup.1)]

theorem next_foldl_blink (cells : List BlinkIndex) (i : BlinkIndex) :
    ((cells.foldl blink fish).blinkArray i).next = (fish.blinkArray i).next := by
  induction cells generalizing fish with
  | nil => rfl
  | cons j rest ih => rw [List.foldl_cons, ih, next_blink]

theorem location_foldl_blink (hnodup : cells.Nodup) (i : BlinkIndex) :
    ((cells.foldl blink fish).blinkArray i).location = (fish.blinkArray i).location := by
  by_cases hi : i ∈ cells
  · rw [blinkArray_foldl_blink hnodup hi]
    exact Blinker.location_tick _
  · rw [blinkArray_foldl_blink_of_not_mem hi]

theorem Represents.mp1RtcTasklet (hrep : fish.Represents blinkers cells)
    (hrounds : cells.length < rounds) :
    ∃ next, fish.mp1RtcTasklet rounds = some next ∧
      next.Represents (blinkers.call .tasklet).1 cells := by
  refine ⟨cells.foldl blink fish, taskletLoop_eq hrep.chain hrounds, ?_⟩
  constructor
  · rw [mp1ListHead_foldl_blink]
    exact hrep.chain.congr fun i _ => next_foldl_blink cells i
  · exact hrep.nodup
  · simp only [Blinkers.call, hrep.entries_eq, List.map_map]
    apply List.map_congr_left
    intro i hi
    simp [blinkArray_foldl_blink hrep.nodup hi]
  · rw [vmem_foldl_blink hrep.nodup, Blinkers.call, hrep.entries_eq, hrep.vmem_eq]
  · intro i
    rw [location_foldl_blink hrep.nodup, hrep.used]

/-! ## Cells taken and given back -/

theorem location_of_mp1Malloc {i : BlinkIndex} (hmalloc : fish.mp1Malloc = some i) :
    (fish.blinkArray i).location = 0 := by
  simpa using List.find?_some hmalloc

theorem Represents.mp1Malloc_eq_none (hrep : fish.Represents blinkers cells) :
    fish.mp1Malloc = none ↔ cells.length = 2000 := by
  have hall : fish.mp1Malloc = none ↔ ∀ i, i ∈ cells := by
    simp [mp1Malloc, ← hrep.used]
  rw [hall]
  constructor
  · intro hcells
    have hcard := Fintype.card_of_subtype cells.toFinset (p := fun _ => True) (by simp [hcells])
    simpa [List.toFinset_card_of_nodup hrep.nodup] using hcard.symm
  · intro hlength i
    have huniv : cells.toFinset = Finset.univ := by
      rw [← Finset.card_eq_iff_eq_univ, List.toFinset_card_of_nodup hrep.nodup, hlength,
        Fintype.card_fin]
    have hmem : i ∈ cells.toFinset := huniv ▸ Finset.mem_univ i
    simpa using hmem

theorem Represents.length_entries (hrep : fish.Represents blinkers cells) :
    blinkers.entries.length = cells.length := by
  rw [hrep.entries_eq, List.length_map]

theorem Represents.mp1IoctlAdd_fail (hrep : fish.Represents blinkers cells)
    {user : Mp1BlinkStruct}
    (hfail : 2000 ≤ user.location.toNat ∨ blinkers.entries.length = 2000) :
    fish.mp1IoctlAdd user = (-1, fish) := by
  unfold mp1IoctlAdd
  by_cases hlocation : 2000 ≤ user.location.toNat
  · rw [if_pos hlocation]
  · have hnone : fish.mp1Malloc = none :=
      hrep.mp1Malloc_eq_none.mpr (hrep.length_entries ▸ hfail.resolve_left hlocation)
    rw [if_neg hlocation, hnone]

/-- A record with any valid location is chained in at the front, in a cell that was free. -/
theorem mp1IoctlAdd_of_some {user : Mp1BlinkStruct} {i : BlinkIndex}
    (hlocation : user.location.toNat < 2000) (hmalloc : fish.mp1Malloc = some i) :
    fish.mp1IoctlAdd user =
      (0, { fish.setCell i ⟨user.toBlinker.started, fish.mp1ListHead⟩ with
        mp1ListHead := some i
        vmem := Function.update fish.vmem user.cell user.onChar }) := by
  rw [mp1IoctlAdd, if_neg (not_le.mpr hlocation), hmalloc]
  rfl

theorem Represents.mp1IoctlAdd (hrep : fish.Represents blinkers cells)
    {user : Mp1BlinkStruct} (hzero : user.location ≠ 0)
    (hlocation : user.location.toNat < 2000) (hroom : blinkers.entries.length ≠ 2000) :
    ∃ i next, fish.mp1IoctlAdd user = (0, next) ∧
      next.Represents (blinkers.add user.toBlinker) (i :: cells) := by
  cases hmalloc : fish.mp1Malloc with
  | none => exact absurd (hrep.length_entries ▸ hrep.mp1Malloc_eq_none.mp hmalloc) hroom
  | some i =>
      have hfresh : i ∉ cells := by
        rw [← hrep.used, not_not]
        exact location_of_mp1Malloc hmalloc
      have hother : ∀ j ∈ cells, j ≠ i := fun j hj => ne_of_mem_of_not_mem hj hfresh
      refine ⟨i, _, mp1IoctlAdd_of_some hlocation hmalloc, ?_⟩
      constructor
      · simp only [setCell, chain_cons, Function.update_self, true_and]
        exact hrep.chain.congr fun j hj => by rw [Function.update_of_ne (hother j hj)]
      · exact List.nodup_cons.mpr ⟨hfresh, hrep.nodup⟩
      · simp only [Blinkers.add, hrep.entries_eq, setCell, List.map_cons, Function.update_self]
        refine congrArg (List.cons user.started) ?_
        exact List.map_congr_left fun j hj => by rw [Function.update_of_ne (hother j hj)]
      · simp [Blinkers.add, hrep.vmem_eq]
      · intro j
        by_cases hj : j = i
        · subst hj
          simpa [setCell, Blinker.started] using hzero
        · rw [List.mem_cons, or_iff_right hj, ← hrep.used]
          simp [setCell, hj]

/-- The search for the link that reaches a cell ends at the link of the cell before it. -/
theorem removeFindPrev_eq {field : LinkField} {before after : List BlinkIndex} {i : BlinkIndex}
    (hchain : Chain (fun i => (fish.blinkArray i).next) (fish.readLink field)
      (before ++ i :: after))
    (hi : i ∉ before) (hrounds : before.length < rounds) :
    fish.removeFindPrev i rounds field =
      some (before.foldl (fun _ j => .next j) field) := by
  induction before generalizing field rounds with
  | nil =>
      obtain ⟨rounds, rfl⟩ := Nat.exists_eq_add_one_of_ne_zero (Nat.ne_zero_of_lt hrounds)
      rw [List.nil_append, chain_cons] at hchain
      simp [removeFindPrev, hchain.1]
  | cons j before ih =>
      obtain ⟨rounds, rfl⟩ := Nat.exists_eq_add_one_of_ne_zero (Nat.ne_zero_of_lt hrounds)
      rw [List.cons_append, chain_cons] at hchain
      rw [List.mem_cons, not_or] at hi
      have hne : j ≠ i := fun heq => hi.1 heq.symm
      simp only [removeFindPrev, hchain.1, if_neg hne, List.foldl_cons]
      exact ih hchain.2 hi.2 (by simpa using hrounds)

/-- The chain after the link that reaches a cell was made to skip it. -/
theorem chain_writeLink {before after : List BlinkIndex} {i : BlinkIndex}
    (hchain : Chain (fun i => (fish.blinkArray i).next) fish.mp1ListHead (before ++ i :: after))
    (hnodup : (before ++ i :: after).Nodup) :
    let next := fish.writeLink (before.foldl (fun _ j => .next j) .listHead)
      (fish.blinkArray i).next
    Chain (fun i => (next.blinkArray i).next) next.mp1ListHead (before ++ after) := by
  rcases List.eq_nil_or_concat before with rfl | ⟨before, last, rfl⟩
  · rw [List.nil_append, chain_cons] at hchain
    exact hchain.2
  · simp only [List.concat_eq_append, List.append_assoc, List.singleton_append] at hchain hnodup ⊢
    rw [List.foldl_append]
    have hunlink := hchain.unlink hnodup
    apply hunlink.congr
    intro j _
    by_cases hj : j = last
    · subst hj
      simp [writeLink, setCell]
    · simp [writeLink, setCell, hj]

theorem blinker_writeLink (field : LinkField) (pointer : Option BlinkIndex) (j : BlinkIndex) :
    ((fish.writeLink field pointer).blinkArray j).toBlinker =
      (fish.blinkArray j).toBlinker := by
  cases field with
  | listHead => rfl
  | next i =>
      by_cases hj : j = i
      · subst hj
        simp [writeLink, setCell]
      · simp [writeLink, setCell, hj]

theorem Represents.removeFindPrev_eq {before after : List BlinkIndex} {i : BlinkIndex}
    (hrep : fish.Represents blinkers (before ++ i :: after)) (hi : i ∉ before)
    (hrounds : before.length < rounds) :
    fish.removeFindPrev i rounds .listHead =
      some (before.foldl (fun _ j => .next j) .listHead) :=
  Fish.removeFindPrev_eq hrep.chain hi hrounds

theorem vmem_writeLink (field : LinkField) (pointer : Option BlinkIndex) :
    (fish.writeLink field pointer).vmem = fish.vmem := by
  cases field <;> rfl

theorem Represents.writeLink_mp1Free {before after : List BlinkIndex} {i : BlinkIndex}
    (hrep : fish.Represents blinkers (before ++ i :: after)) :
    ((fish.writeLink (before.foldl (fun _ j => .next j) .listHead)
        (fish.blinkArray i).next).mp1Free i).Represents
      ⟨(before ++ after).map fun j => (fish.blinkArray j).toBlinker, blinkers.vmem⟩
      (before ++ after) := by
  have hcell : i ∉ before ++ after := (List.nodup_middle.mp hrep.nodup).notMem
  have hother : ∀ j ∈ before ++ after, j ≠ i := fun j hj => ne_of_mem_of_not_mem hj hcell
  constructor
  · apply (chain_writeLink hrep.chain hrep.nodup).congr
    intro j hj
    simp [mp1Free, setCell, hother j hj]
  · exact (List.nodup_middle.mp hrep.nodup).of_cons
  · apply List.map_congr_left
    intro j hj
    simp [mp1Free, setCell, hother j hj, blinker_writeLink]
  · rw [← hrep.vmem_eq]
    exact vmem_writeLink _ _
  · intro j
    by_cases hj : j = i
    · subst hj
      simp [mp1Free, setCell, hcell]
    · have hused := hrep.used j
      simp only [List.mem_append, List.mem_cons, hj, false_or] at hused ⊢
      rw [← hused]
      simp [mp1Free, setCell, hj, blinker_writeLink]

/-- The cell found, and the cells around it. -/
theorem find?_cells_split {location : BitVec 16} {i : BlinkIndex}
    (hfind : (cells.find? fun i => (fish.blinkArray i).At location) = some i) :
    ∃ before after, cells = before ++ i :: after ∧
      (fish.blinkArray i).At location ∧
      ∀ j ∈ before, ¬ (fish.blinkArray j).At location := by
  obtain ⟨hat, before, after, hcells, hbefore⟩ := List.find?_eq_some_iff_append.mp hfind
  exact ⟨before, after, hcells, hat, fun j hj => by simpa using hbefore j hj⟩

theorem Represents.mp1IoctlRemove (hrep : fish.Represents blinkers cells)
    (hrounds : cells.length < rounds) (arg : BitVec 32) :
    ∃ next left, fish.mp1IoctlRemove rounds arg =
        some ((blinkers.call (.remove arg)).2.1, next) ∧
      next.Represents (blinkers.call (.remove arg)).1 left := by
  have hfind := hrep.find?_entries (arg.setWidth 16)
  rw [Fish.mp1IoctlRemove, hrep.mp1FindHelper_eq hrounds, Option.bind_some]
  cases hcell : cells.find? fun i => (fish.blinkArray i).At (arg.setWidth 16) with
  | none =>
      rw [hcell, Option.map_none, List.find?_eq_none] at hfind
      have hany : ¬ blinkers.entries.any (Blinker.At (arg.setWidth 16)) := by
        simpa using hfind
      rw [Blinkers.call, if_neg hany]
      exact ⟨fish, cells, rfl, hrep⟩
  | some i =>
      obtain ⟨before, after, rfl, hat, hbefore⟩ := find?_cells_split hcell
      have hmem : i ∉ before := by
        have hnodup := List.nodup_middle.mp hrep.nodup
        simp only [List.nodup_cons, List.mem_append, not_or] at hnodup
        exact hnodup.1.1
      have hlong : before.length < rounds := by
        simp only [List.length_append, List.length_cons] at hrounds
        omega
      have hany : blinkers.entries.any (Blinker.At (arg.setWidth 16)) := by
        rw [hrep.entries_eq]
        simp [hat]
      have herase : blinkers.entries.eraseP (Blinker.At (arg.setWidth 16)) =
          (before ++ after).map fun j => (fish.blinkArray j).toBlinker := by
        rw [hrep.entries_eq, List.map_append, List.map_cons,
          List.eraseP_append_right _ (by simpa using hbefore), List.eraseP_cons_of_pos hat,
          List.map_append]
      have hfield := hrep.removeFindPrev_eq hmem hlong
      rw [Blinkers.call, if_pos hany, herase]
      exact ⟨_, before ++ after, congrArg (Option.map _) hfield, hrep.writeLink_mp1Free⟩

theorem Represents.mp1IoctlFind (hrep : fish.Represents blinkers cells)
    (hrounds : cells.length < rounds) (location : BitVec 16) :
    ∃ answer, fish.mp1IoctlFind rounds location = some answer ∧
      BlinkAnswer.forget answer = (blinkers.call (.find location)).2 := by
  rw [Fish.mp1IoctlFind, hrep.mp1FindHelper_eq hrounds, Option.map_some, Blinkers.call,
    hrep.find?_entries]
  cases cells.find? fun i => (fish.blinkArray i).At location with
  | none => exact ⟨_, rfl, rfl⟩
  | some i => exact ⟨_, rfl, rfl⟩

/-! ## A record with a new rhythm -/

/-- Only the first entry at the location is replaced. -/
theorem replaceF_at (before after : List Blinker) {entry : Blinker} {location : BitVec 16}
    (hbefore : ∀ other ∈ before, ¬ other.At location) (hat : entry.At location)
    (f : Blinker → Blinker) :
    (before ++ entry :: after).replaceF
        (fun entry => if entry.At location then some (f entry) else none) =
      before ++ f entry :: after := by
  induction before with
  | nil => simp [hat]
  | cons first before ih =>
      have hfirst : ¬ first.At location := hbefore first (by simp)
      simp [hfirst, ih fun other hother => hbefore other (by simp [hother])]

theorem Represents.setCell_follow {before after : List BlinkIndex} {j : BlinkIndex}
    (hrep : fish.Represents blinkers (before ++ j :: after)) (source : Blinker) :
    ((fish.setCell j { (fish.blinkArray j) with
          toBlinker := (fish.blinkArray j).follow source }).mp1Poke (fish.blinkArray j).offChar
        (fish.blinkArray j).cell).Represents
      ⟨(before.map fun i => (fish.blinkArray i).toBlinker) ++
          (fish.blinkArray j).follow source ::
            after.map fun i => (fish.blinkArray i).toBlinker,
        Function.update blinkers.vmem (fish.blinkArray j).cell (fish.blinkArray j).offChar⟩
      (before ++ j :: after) := by
  have hcell : j ∉ before ++ after := (List.nodup_middle.mp hrep.nodup).notMem
  rw [List.mem_append, not_or] at hcell
  constructor
  · apply hrep.chain.congr
    intro i _
    by_cases hi : i = j
    · subst hi
      simp [setCell, mp1Poke]
    · simp [setCell, mp1Poke, hi]
  · exact hrep.nodup
  · have hbefore : ∀ i ∈ before, i ≠ j := fun i hi => ne_of_mem_of_not_mem hi hcell.1
    have hafter : ∀ i ∈ after, i ≠ j := fun i hi => ne_of_mem_of_not_mem hi hcell.2
    simp only [List.map_append, List.map_cons, setCell, mp1Poke, Function.update_self]
    congr 1
    · exact List.map_congr_left fun i hi => by rw [Function.update_of_ne (hbefore i hi)]
    · refine congrArg (List.cons _) ?_
      exact List.map_congr_left fun i hi => by rw [Function.update_of_ne (hafter i hi)]
  · simp [mp1Poke, setCell, hrep.vmem_eq]
  · intro i
    rw [← hrep.used]
    by_cases hi : i = j
    · subst hi
      simp [setCell, mp1Poke, Blinker.follow]
    · simp [setCell, mp1Poke, hi]

theorem Represents.mp1IoctlSync (hrep : fish.Represents blinkers cells)
    (hrounds : cells.length < rounds) (arg : BitVec 32) :
    ∃ next, fish.mp1IoctlSync rounds arg =
        some ((blinkers.call (.sync arg)).2.1, next) ∧
      next.Represents (blinkers.call (.sync arg)).1 cells := by
  have hsource := hrep.find?_entries ((arg >>> 16).setWidth 16)
  have htarget := hrep.find?_entries ((arg &&& 0xFFFF).setWidth 16)
  rw [Fish.mp1IoctlSync, hrep.mp1FindHelper_eq hrounds, Option.bind_some, Blinkers.call]
  cases hi : cells.find? fun i => (fish.blinkArray i).At ((arg >>> 16).setWidth 16) with
  | none =>
      rw [hi, Option.map_none] at hsource
      rw [hsource]
      exact ⟨fish, rfl, hrep⟩
  | some i =>
      rw [hi, Option.map_some] at hsource
      simp only [hsource, hrep.mp1FindHelper_eq hrounds]
      cases hj : cells.find? fun j => (fish.blinkArray j).At ((arg &&& 0xFFFF).setWidth 16) with
      | none =>
          rw [hj, Option.map_none] at htarget
          rw [htarget]
          exact ⟨fish, rfl, hrep⟩
      | some j =>
          rw [hj, Option.map_some] at htarget
          obtain ⟨before, after, rfl, hat, hbefore⟩ := find?_cells_split hj
          have hreplace := replaceF_at (before.map fun i => (fish.blinkArray i).toBlinker)
            (after.map fun i => (fish.blinkArray i).toBlinker)
            (by simpa using hbefore) hat fun entry => entry.follow (fish.blinkArray i).toBlinker
          simp only [htarget]
          simp only [hrep.entries_eq, List.map_append, List.map_cons, hreplace]
          exact ⟨_, rfl, hrep.setCell_follow _⟩

/-! ## Whole runs -/

theorem represents_bootFish (vmem : ℕ → UInt8) : (bootFish vmem).Represents ⟨[], vmem⟩ [] := by
  constructor <;> simp [bootFish]

theorem Represents.length_lt (hrep : fish.Represents blinkers cells) (hrounds : 2000 < rounds) :
    cells.length < rounds := by
  have hcard := hrep.nodup.length_le_card
  rw [Fintype.card_fin] at hcard
  omega

/-- Every call returns and carries out its operation on the list. -/
theorem Represents.call (hrep : fish.Represents blinkers cells) (hrounds : 2000 < rounds)
    (label : BlinkCall) (hzero : ∀ user, label = .add user → user.location ≠ 0) :
    ∃ next answer left, fish.call rounds label = some (next, answer) ∧
      BlinkAnswer.forget answer = (blinkers.call label).2 ∧
      next.Represents (blinkers.call label).1 left := by
  have hlong := hrep.length_lt hrounds
  cases label with
  | add user =>
      by_cases hfail : 2000 ≤ user.location.toNat ∨ blinkers.entries.length = 2000
      · refine ⟨fish, (-1, none), cells, ?_, ?_, ?_⟩
        · rw [Fish.call, hrep.mp1IoctlAdd_fail hfail]
        · rw [Blinkers.call, if_pos hfail]
          rfl
        · rw [Blinkers.call, if_pos hfail]
          exact hrep
      · have hroom := hfail
        rw [not_or, not_le] at hroom
        obtain ⟨i, next, hadd, hnext⟩ := hrep.mp1IoctlAdd (hzero user rfl) hroom.1 hroom.2
        refine ⟨next, (0, none), i :: cells, ?_, ?_, ?_⟩
        · rw [Fish.call, hadd]
        · rw [Blinkers.call, if_neg hfail]
          rfl
        · rw [Blinkers.call, if_neg hfail]
          exact hnext
  | remove arg =>
      obtain ⟨next, left, hremove, hnext⟩ := hrep.mp1IoctlRemove hlong arg
      have hanswer : (blinkers.call (.remove arg)).2.2 = none := by
        rw [Blinkers.call]
        split <;> rfl
      refine ⟨next, ((blinkers.call (.remove arg)).2.1, none), left, ?_, ?_, hnext⟩
      · rw [Fish.call, hremove, Option.map_some]
      · rw [← Prod.mk.eta (p := (blinkers.call (.remove arg)).2), hanswer]
        rfl
  | find location =>
      obtain ⟨answer, hfind, hanswer⟩ := hrep.mp1IoctlFind hlong location
      refine ⟨fish, answer, cells, ?_, hanswer, ?_⟩
      · rw [Fish.call, hfind, Option.map_some]
      · rw [Blinkers.call]
        split <;> exact hrep
  | sync arg =>
      obtain ⟨next, hsync, hnext⟩ := hrep.mp1IoctlSync hlong arg
      have hanswer : (blinkers.call (.sync arg)).2.2 = none := by
        rw [Blinkers.call]
        split <;> rfl
      refine ⟨next, ((blinkers.call (.sync arg)).2.1, none), cells, ?_, ?_, hnext⟩
      · rw [Fish.call, hsync, Option.map_some]
      · rw [← Prod.mk.eta (p := (blinkers.call (.sync arg)).2), hanswer]
        rfl
  | tasklet =>
      obtain ⟨next, htasklet, hnext⟩ := hrep.mp1RtcTasklet hlong
      refine ⟨next, (0, none), cells, ?_, rfl, hnext⟩
      rw [Fish.call, htasklet, Option.map_some]

end Fish

/-- In every run that adds no record at location zero, all calls return, their answers are
those of the list of records, and the chain of cells stands for that list. -/
theorem fish_calls_refine_list (vmem : ℕ → UInt8) (calls : List BlinkCall) (rounds : ℕ)
    (hrounds : 2000 < rounds)
    (hzero : ∀ user, BlinkCall.add user ∈ calls → user.location ≠ 0) :
    ∃ fish answers blinkers cells,
      PartialRuns.trace (Fish.call rounds) (bootFish vmem) calls = some (fish, answers) ∧
      PartialRuns.trace (fun blinkers label => some (blinkers.call label)) ⟨[], vmem⟩ calls =
        some (blinkers, answers.map BlinkAnswer.forget) ∧
      fish.Represents blinkers cells := by
  have hstep : ∀ (fish : Fish) (blinkers : Blinkers) (label : BlinkCall),
      (∃ cells, fish.Represents blinkers cells) →
      (∀ user, label = .add user → user.location ≠ 0) →
      ∃ next answer blinkers', fish.call rounds label = some (next, answer) ∧
        some (blinkers.call label) = some (blinkers', BlinkAnswer.forget answer) ∧
        ∃ cells, next.Represents blinkers' cells := by
    rintro fish blinkers label ⟨cells, hrep⟩ hguard
    obtain ⟨next, answer, left, hcall, hanswer, hnext⟩ := hrep.call hrounds label hguard
    exact ⟨next, answer, _, hcall, by rw [hanswer], left, hnext⟩
  obtain ⟨fish, answers, blinkers, hfish, hblinkers, cells, hrep⟩ :=
    PartialRuns.trace_simulation hstep ⟨[], Fish.represents_bootFish vmem⟩
      fun label hlabel user heq => hzero user (heq ▸ hlabel)
  exact ⟨fish, answers, blinkers, cells, hfish, hblinkers, hrep⟩

theorem fish_calls_refine_list_witness :
    ∃ fish answers blinkers cells,
      PartialRuns.trace (Fish.call 2001) (bootFish fun _ => 0)
          [.add ⟨⟨540, 73, 77, 7, 6, 0, 0⟩, none⟩, .tasklet, .sync 540, .remove 540] =
        some (fish, answers) ∧
      PartialRuns.trace (fun blinkers label => some (blinkers.call label)) ⟨[], fun _ => 0⟩
          [.add ⟨⟨540, 73, 77, 7, 6, 0, 0⟩, none⟩, .tasklet, .sync 540, .remove 540] =
        some (blinkers, answers.map BlinkAnswer.forget) ∧
      fish.Represents blinkers cells :=
  fish_calls_refine_list (fun _ => 0)
    [.add ⟨⟨540, 73, 77, 7, 6, 0, 0⟩, none⟩, .tasklet, .sync 540, .remove 540] 2001 (by decide)
    (by simp)

end VirtualOS
