import VirtualOS.BlinkRefinement
import Mathlib.Tactic

/-!
# What the blinking list cannot spoil, and what spoils it

Every call paints inside the text page, on the bytes that hold characters: this
needs no assumption about the list.  A record at location zero, on the other
hand, sits in a cell that still counts as free.  The next record is written into
the same cell, whose link then leads back to itself, and from then on the
tasklet does not come to an end.
-/

namespace VirtualOS

open LinkedStacks

/-- The state after a call that returns. -/
def Fish.step (rounds : ℕ) (fish : Fish) (label : BlinkCall) : Option Fish :=
  (fish.call rounds label).map Prod.fst

/-- The list after some calls. -/
def Blinkers.after (blinkers : Blinkers) (calls : List BlinkCall) : Blinkers :=
  calls.foldl (fun blinkers label => (blinkers.call label).1) blinkers

theorem Blinkers.after_cons (blinkers : Blinkers) (label : BlinkCall) (rest : List BlinkCall) :
    blinkers.after (label :: rest) = (blinkers.call label).1.after rest := rfl

theorem Blinkers.after_append (blinkers : Blinkers) (first second : List BlinkCall) :
    blinkers.after (first ++ second) = (blinkers.after first).after second :=
  List.foldl_append

/-- The cells differ neither in their links nor in their locations. -/
structure Fish.SameLinks (fish next : Fish) : Prop where
  head : next.mp1ListHead = fish.mp1ListHead
  link : ∀ i, (next.blinkArray i).next = (fish.blinkArray i).next
  location : ∀ i, (next.blinkArray i).location = (fish.blinkArray i).location

/-- The bytes painted are characters of cells. -/
def Fish.PaintsCells (fish next : Fish) : Prop :=
  ∀ offset, (∀ i, offset ≠ (fish.blinkArray i).cell) → next.vmem offset = fish.vmem offset

namespace Fish

variable {fish next : Fish} {rounds : ℕ}

theorem SameLinks.refl (fish : Fish) : fish.SameLinks fish :=
  ⟨rfl, fun _ => rfl, fun _ => rfl⟩

theorem SameLinks.trans {final : Fish} (hfirst : fish.SameLinks next)
    (hsecond : next.SameLinks final) : fish.SameLinks final :=
  ⟨hsecond.head.trans hfirst.head, fun i => (hsecond.link i).trans (hfirst.link i),
    fun i => (hsecond.location i).trans (hfirst.location i)⟩

theorem SameLinks.cell (hsame : fish.SameLinks next) (i : BlinkIndex) :
    (next.blinkArray i).cell = (fish.blinkArray i).cell := by
  simp only [Blinker.cell, hsame.location i]

theorem PaintsCells.trans {final : Fish} (hfirst : fish.PaintsCells next)
    (hsame : fish.SameLinks next) (hsecond : next.PaintsCells final) :
    fish.PaintsCells final := by
  intro offset hoffset
  rw [hsecond offset fun i => hsame.cell i ▸ hoffset i, hfirst offset hoffset]

/-- Without records at location zero all calls return, and the list stands for what the
calls make of the records. -/
theorem Represents.run {blinkers : Blinkers} {cells : List BlinkIndex}
    (hrep : fish.Represents blinkers cells) (hrounds : 2000 < rounds) (calls : List BlinkCall)
    (hzero : ∀ user, BlinkCall.add user ∈ calls → user.location ≠ 0) :
    ∃ final left, PartialRuns.run (Fish.step rounds) fish calls = some final ∧
      final.Represents (blinkers.after calls) left := by
  induction calls generalizing fish blinkers cells with
  | nil => exact ⟨fish, cells, rfl, hrep⟩
  | cons label rest ih =>
      obtain ⟨next, answer, left, hcall, _, hnext⟩ :=
        hrep.call hrounds label fun user heq => hzero user (by simp [heq])
      obtain ⟨final, last, hrun, hfinal⟩ :=
        ih hnext fun user huser => hzero user (List.mem_cons_of_mem _ huser)
      refine ⟨final, last, ?_, hfinal⟩
      rw [PartialRuns.run_cons, Fish.step, hcall, Option.map_some, Option.bind_some, hrun]

/-! ## The loop of the tasklet -/

theorem sameLinks_blink (i : BlinkIndex) : fish.SameLinks (fish.blink i) := by
  refine ⟨mp1ListHead_blink i, next_blink i, fun j => ?_⟩
  by_cases hj : j = i
  · subst hj
    simp
  · rw [blinkArray_blink_of_ne hj]

theorem paintsCells_blink (i : BlinkIndex) : fish.PaintsCells (fish.blink i) := by
  intro offset hoffset
  rw [vmem_blink, Blinker.repaint]
  split
  · exact Function.update_of_ne (hoffset i) _ _
  · rfl

theorem taskletLoop_keeps {head : Option BlinkIndex}
    (hloop : taskletLoop rounds fish head = some next) :
    fish.SameLinks next ∧ fish.PaintsCells next := by
  induction rounds generalizing fish head with
  | zero => simp [taskletLoop] at hloop
  | succ rounds ih =>
      cases head with
      | none =>
          have hnext : fish = next := by simpa [taskletLoop] using hloop
          subst hnext
          exact ⟨SameLinks.refl fish, fun _ _ => rfl⟩
      | some i =>
          obtain ⟨hsame, hpaints⟩ := ih hloop
          exact ⟨(sameLinks_blink i).trans hsame,
            (paintsCells_blink i).trans (sameLinks_blink i) hpaints⟩

/-- On links that never end the loop never ends. -/
theorem taskletLoop_eq_none {head : Option BlinkIndex}
    (hendless : Endless (fun i => (fish.blinkArray i).next) head) :
    taskletLoop rounds fish head = none := by
  induction rounds generalizing fish head with
  | zero => rfl
  | succ rounds ih =>
      cases head with
      | none => exact absurd rfl hendless.ne_none
      | some i =>
          apply ih
          rw [next_blink]
          exact hendless.tail.congr fun j => next_blink i j

/-! ## The other calls -/

theorem sameLinks_setCell_poke {j : BlinkIndex} {cell : Mp1BlinkStruct} {char : UInt8}
    {offset : ℕ} (hnext : cell.next = (fish.blinkArray j).next)
    (hlocation : cell.location = (fish.blinkArray j).location) :
    fish.SameLinks ((fish.setCell j cell).mp1Poke char offset) := by
  refine ⟨rfl, fun i => ?_, fun i => ?_⟩
  all_goals
    by_cases hi : i = j
    · subst hi
      simp [setCell, mp1Poke, hnext, hlocation]
    · simp [setCell, mp1Poke, hi]

theorem mp1IoctlSync_keeps {arg : BitVec 32} {value : ℤ}
    (hsync : fish.mp1IoctlSync rounds arg = some (value, next)) :
    fish.SameLinks next ∧ fish.PaintsCells next := by
  obtain ⟨first, _, hsync⟩ := Option.bind_eq_some_iff.mp hsync
  cases first with
  | none =>
      obtain ⟨_, rfl⟩ := Prod.mk.inj (Option.some.inj hsync)
      exact ⟨SameLinks.refl fish, fun _ _ => rfl⟩
  | some i =>
      obtain ⟨second, _, hsync⟩ := Option.map_eq_some_iff.mp hsync
      cases second with
      | none =>
          obtain ⟨_, rfl⟩ := Prod.mk.inj hsync
          exact ⟨SameLinks.refl fish, fun _ _ => rfl⟩
      | some j =>
          obtain ⟨_, rfl⟩ := Prod.mk.inj hsync
          refine ⟨sameLinks_setCell_poke rfl rfl, fun offset hoffset => ?_⟩
          exact Function.update_of_ne (hoffset j) _ _

/-- A record is added or the state stays as it is. -/
theorem mp1IoctlAdd_cases (fish : Fish) (user : Mp1BlinkStruct) :
    fish.mp1IoctlAdd user = (-1, fish) ∨
      ∃ i, user.location.toNat < 2000 ∧ fish.mp1Malloc = some i ∧
        fish.mp1IoctlAdd user =
          (0, { fish.setCell i ⟨user.toBlinker.started, fish.mp1ListHead⟩ with
            mp1ListHead := some i
            vmem := Function.update fish.vmem user.cell user.onChar }) := by
  by_cases hlocation : user.location.toNat < 2000
  · cases hmalloc : fish.mp1Malloc with
    | none =>
        left
        rw [mp1IoctlAdd, if_neg (not_le.mpr hlocation), hmalloc]
    | some i => exact Or.inr ⟨i, hlocation, rfl, mp1IoctlAdd_of_some hlocation hmalloc⟩
  · left
    rw [mp1IoctlAdd, if_pos (not_lt.mp hlocation)]

/-! ## Painting stays on the characters of the page -/

/-- Every cell holds a valid location, in use or not. -/
def InPage (fish : Fish) : Prop := ∀ i, (fish.blinkArray i).location.toNat < 2000

theorem InPage.of_sameLinks (hpage : fish.InPage) (hsame : fish.SameLinks next) :
    next.InPage := fun i => hsame.location i ▸ hpage i

theorem PaintsCells.vmem_eq (hpaints : fish.PaintsCells next) (hpage : fish.InPage)
    {offset : ℕ} (hoffset : ∀ location < 2000, offset ≠ location * 2) :
    next.vmem offset = fish.vmem offset :=
  hpaints offset fun i => hoffset _ (hpage i)

theorem InPage.mp1IoctlAdd (hpage : fish.InPage) (user : Mp1BlinkStruct) {offset : ℕ}
    (hoffset : ∀ location < 2000, offset ≠ location * 2) :
    (fish.mp1IoctlAdd user).2.InPage ∧
      (fish.mp1IoctlAdd user).2.vmem offset = fish.vmem offset := by
  rcases mp1IoctlAdd_cases fish user with hadd | ⟨i, hlocation, _, hadd⟩
  · rw [hadd]
    exact ⟨hpage, rfl⟩
  · rw [hadd]
    refine ⟨fun j => ?_, Function.update_of_ne (hoffset _ hlocation) _ _⟩
    by_cases hj : j = i
    · subst hj
      simpa [setCell, Blinker.started] using hlocation
    · simpa [setCell, hj] using hpage j

theorem InPage.mp1IoctlRemove (hpage : fish.InPage) {arg : BitVec 32} {value : ℤ}
    (hremove : fish.mp1IoctlRemove rounds arg = some (value, next)) :
    next.InPage ∧ next.vmem = fish.vmem := by
  obtain ⟨found, _, hremove⟩ := Option.bind_eq_some_iff.mp hremove
  cases found with
  | none =>
      obtain ⟨_, rfl⟩ := Prod.mk.inj (Option.some.inj hremove)
      exact ⟨hpage, rfl⟩
  | some i =>
      obtain ⟨field, _, hremove⟩ := Option.map_eq_some_iff.mp hremove
      obtain ⟨_, rfl⟩ := Prod.mk.inj hremove
      refine ⟨fun j => ?_, vmem_writeLink _ _⟩
      by_cases hj : j = i
      · subst hj
        simp [mp1Free, setCell]
      · simpa [mp1Free, setCell, hj, blinker_writeLink] using hpage j

theorem InPage.step (hpage : fish.InPage) {label : BlinkCall}
    (hstep : fish.step rounds label = some next) {offset : ℕ}
    (hoffset : ∀ location < 2000, offset ≠ location * 2) :
    next.InPage ∧ next.vmem offset = fish.vmem offset := by
  obtain ⟨⟨after, answer⟩, hcall, rfl⟩ := Option.map_eq_some_iff.mp hstep
  cases label with
  | add user =>
      obtain ⟨rfl, _⟩ := Prod.mk.inj (Option.some.inj hcall)
      exact hpage.mp1IoctlAdd user hoffset
  | remove arg =>
      obtain ⟨⟨value, final⟩, hremove, hfinal⟩ := Option.map_eq_some_iff.mp hcall
      obtain ⟨rfl, _⟩ := Prod.mk.inj hfinal
      obtain ⟨hkept, hvmem⟩ := hpage.mp1IoctlRemove hremove
      exact ⟨hkept, congrFun hvmem offset⟩
  | find location =>
      obtain ⟨result, _, hfinal⟩ := Option.map_eq_some_iff.mp hcall
      obtain ⟨rfl, _⟩ := Prod.mk.inj hfinal
      exact ⟨hpage, rfl⟩
  | sync arg =>
      obtain ⟨⟨value, final⟩, hsync, hfinal⟩ := Option.map_eq_some_iff.mp hcall
      obtain ⟨rfl, _⟩ := Prod.mk.inj hfinal
      obtain ⟨hsame, hpaints⟩ := mp1IoctlSync_keeps hsync
      exact ⟨hpage.of_sameLinks hsame, hpaints.vmem_eq hpage hoffset⟩
  | tasklet =>
      obtain ⟨final, htasklet, hfinal⟩ := Option.map_eq_some_iff.mp hcall
      obtain ⟨rfl, _⟩ := Prod.mk.inj hfinal
      obtain ⟨hsame, hpaints⟩ := taskletLoop_keeps htasklet
      exact ⟨hpage.of_sameLinks hsame, hpaints.vmem_eq hpage hoffset⟩

/-! ## Calls that have not returned -/

/-- A tasklet after at most so many cells. -/
def taskletAt : ℕ → Fish → Option BlinkIndex → Fish
  | 0, fish, _ => fish
  | _ + 1, fish, none => fish
  | rounds + 1, fish, some i =>
      taskletAt rounds (fish.blink i) ((fish.blink i).blinkArray i).next

/-- A call after at most so many rounds of each of its loops, whether it returns or not.  A
search that has not ended has changed nothing. -/
def callAt (rounds : ℕ) (fish : Fish) : BlinkCall → Fish
  | .tasklet => fish.taskletAt rounds fish.mp1ListHead
  | label => (fish.step rounds label).getD fish

theorem taskletLoop_eq_taskletAt {head : Option BlinkIndex}
    (hloop : taskletLoop rounds fish head = some next) : fish.taskletAt rounds head = next := by
  induction rounds generalizing fish head with
  | zero => simp [taskletLoop] at hloop
  | succ rounds ih =>
      cases head with
      | none => exact Option.some.inj hloop
      | some i => exact ih hloop

/-- A call that returns is at its end after the rounds that it needs. -/
theorem callAt_of_step {label : BlinkCall} (hstep : fish.step rounds label = some next) :
    fish.callAt rounds label = next := by
  cases label with
  | tasklet =>
      obtain ⟨⟨after, answer⟩, hcall, rfl⟩ := Option.map_eq_some_iff.mp hstep
      obtain ⟨final, htasklet, hfinal⟩ := Option.map_eq_some_iff.mp hcall
      obtain ⟨rfl, _⟩ := Prod.mk.inj hfinal
      exact taskletLoop_eq_taskletAt htasklet
  | _ => exact (congrArg (Option.getD · fish) hstep).trans (Option.getD_some ..)

theorem taskletAt_keeps (rounds : ℕ) (fish : Fish) (head : Option BlinkIndex) :
    fish.SameLinks (fish.taskletAt rounds head) ∧
      fish.PaintsCells (fish.taskletAt rounds head) := by
  induction rounds generalizing fish head with
  | zero => exact ⟨SameLinks.refl fish, fun _ _ => rfl⟩
  | succ rounds ih =>
      cases head with
      | none => exact ⟨SameLinks.refl fish, fun _ _ => rfl⟩
      | some i =>
          obtain ⟨hsame, hpaints⟩ := ih (fish.blink i) ((fish.blink i).blinkArray i).next
          exact ⟨(sameLinks_blink i).trans hsame,
            (paintsCells_blink i).trans (sameLinks_blink i) hpaints⟩

theorem InPage.callAt (hpage : fish.InPage) (rounds : ℕ) (label : BlinkCall) {offset : ℕ}
    (hoffset : ∀ location < 2000, offset ≠ location * 2) :
    (fish.callAt rounds label).vmem offset = fish.vmem offset := by
  have hother : ((fish.step rounds label).getD fish).vmem offset = fish.vmem offset := by
    cases hstep : fish.step rounds label with
    | none => rfl
    | some next => exact (hpage.step hstep hoffset).2
  cases label with
  | tasklet => exact (taskletAt_keeps _ _ _).2.vmem_eq hpage hoffset
  | _ => exact hother

end Fish

/-- Whatever is called, and also while a call is running that never returns, nothing is painted
but characters of the text page: its attributes and the memory behind it stay as they were. -/
theorem fish_paints_only_characters (vmem : ℕ → UInt8) (calls : List BlinkCall) (rounds : ℕ)
    (fish : Fish) (hrun : PartialRuns.run (Fish.step rounds) (bootFish vmem) calls = some fish)
    (label : BlinkCall) (sofar offset : ℕ) (hoffset : offset % 2 = 1 ∨ 4000 ≤ offset) :
    (fish.callAt sofar label).vmem offset = vmem offset := by
  have hchar : ∀ location < 2000, offset ≠ location * 2 := by
    intro location hlocation
    omega
  have hstart : (bootFish vmem).InPage := fun i => by simp [bootFish]
  have hkept := PartialRuns.run_invariant_of_meets
    (fun fish : Fish => fish.InPage ∧ fish.vmem offset = vmem offset)
    (fun state label next hinv (_ : True) hstep => by
      obtain ⟨hpage, hsame⟩ := hinv.1.step hstep hchar
      exact ⟨hpage, hsame.trans hinv.2⟩)
    ⟨hstart, rfl⟩ (PartialRuns.meets_of_forall_mem (fun _ _ => trivial) _) hrun
  exact (hkept.1.callAt sofar label hchar).trans hkept.2

theorem fish_paints_only_characters_witness :
    ∃ fish, PartialRuns.run (Fish.step 2001) (bootFish fun _ => 7)
        [.add ⟨⟨1999, 73, 77, 1, 1, 0, 0⟩, none⟩, .tasklet] = some fish ∧
      (fish.callAt 1 .tasklet).vmem 3999 = 7 := by
  have hboot := Fish.represents_bootFish fun _ => 7
  obtain ⟨fish, left, hrun, _⟩ := hboot.run (show 2000 < 2001 by decide)
    [.add ⟨⟨1999, 73, 77, 1, 1, 0, 0⟩, none⟩, .tasklet] (by simp)
  exact ⟨fish, hrun, fish_paints_only_characters (fun _ => 7) _ 2001 fish hrun .tasklet 1 3999
    (by decide)⟩

namespace Fish

variable {fish next : Fish} {rounds : ℕ}

/-! ## A record at location zero -/

/-- The cell which is given out next is already in the list. -/
def Ajar (fish : Fish) : Prop :=
  ∃ cells i, Chain (fun i => (fish.blinkArray i).next) fish.mp1ListHead cells ∧
    cells.Nodup ∧ i ∈ cells ∧ fish.mp1Malloc = some i

def Ring (fish : Fish) : Prop :=
  Endless (fun i => (fish.blinkArray i).next) fish.mp1ListHead

theorem SameLinks.mp1Malloc (hsame : fish.SameLinks next) :
    next.mp1Malloc = fish.mp1Malloc := by
  simp only [Fish.mp1Malloc, hsame.location]

theorem Ajar.of_sameLinks (hajar : fish.Ajar) (hsame : fish.SameLinks next) : next.Ajar := by
  obtain ⟨cells, i, hchain, hnodup, hi, hmalloc⟩ := hajar
  refine ⟨cells, i, ?_, hnodup, hi, hsame.mp1Malloc.trans hmalloc⟩
  rw [hsame.head]
  exact hchain.congr fun j _ => hsame.link j

theorem Ring.of_sameLinks (hring : fish.Ring) (hsame : fish.SameLinks next) : next.Ring := by
  rw [Ring, hsame.head]
  exact Endless.congr hring hsame.link

theorem links_setCell (i : BlinkIndex) (cell : Mp1BlinkStruct) :
    (fun j => ((fish.setCell i cell).blinkArray j).next) =
      Function.update (fun j => (fish.blinkArray j).next) i cell.next := by
  funext j
  by_cases hj : j = i
  · subst hj
    simp [setCell]
  · simp [setCell, hj]

theorem Ajar.mp1IoctlAdd (hajar : fish.Ajar) {user : Mp1BlinkStruct}
    (hlocation : user.location.toNat < 2000) : (fish.mp1IoctlAdd user).2.Ring := by
  obtain ⟨cells, i, hchain, hnodup, hi, hmalloc⟩ := hajar
  rw [mp1IoctlAdd_of_some hlocation hmalloc]
  exact (hchain.push_mem hi hnodup).congr fun j => congrFun (links_setCell i _) j

theorem Ring.mp1IoctlAdd (hring : fish.Ring) (user : Mp1BlinkStruct) :
    (fish.mp1IoctlAdd user).2.Ring := by
  rcases mp1IoctlAdd_cases fish user with hadd | ⟨i, _, _, hadd⟩
  · rw [hadd]
    exact hring
  · rw [hadd]
    exact (Endless.push hring i).congr fun j => congrFun (links_setCell i _) j

/-- After a record at location zero was put into a list with room, the cell it took is given
out again. -/
theorem Represents.ajar {blinkers : Blinkers} {cells : List BlinkIndex}
    (hrep : fish.Represents blinkers cells) (hroom : blinkers.entries.length ≠ 2000)
    {user : Mp1BlinkStruct} (hzero : user.location = 0) : (fish.mp1IoctlAdd user).2.Ajar := by
  cases hmalloc : fish.mp1Malloc with
  | none => exact absurd (hrep.length_entries ▸ hrep.mp1Malloc_eq_none.mp hmalloc) hroom
  | some i =>
      have hfree := location_of_mp1Malloc hmalloc
      have hfresh : i ∉ cells := by rw [← hrep.used, not_not, hfree]
      rw [mp1IoctlAdd_of_some (by simp [hzero]) hmalloc]
      refine ⟨i :: cells, i, ?_, List.nodup_cons.mpr ⟨hfresh, hrep.nodup⟩, by simp, ?_⟩
      · simp only [setCell, chain_cons, Function.update_self, true_and]
        apply hrep.chain.congr
        intro j hj
        rw [Function.update_of_ne (ne_of_mem_of_not_mem hj hfresh)]
      · have hsame : ∀ j, ((fish.setCell i ⟨user.toBlinker.started, fish.mp1ListHead⟩).blinkArray
            j).location = (fish.blinkArray j).location := by
          intro j
          by_cases hj : j = i
          · subst hj
            simp [setCell, Blinker.started, hzero, hfree]
          · simp [setCell, hj]
        rw [← hmalloc]
        simp only [Fish.mp1Malloc, hsame]

theorem Ajar.findHelper (hajar : fish.Ajar) (hrounds : 2000 < rounds) (location : BitVec 16) :
    ∃ found, fish.mp1FindHelper rounds location = some found := by
  obtain ⟨cells, i, hchain, hnodup, _⟩ := hajar
  have hcard := hnodup.length_le_card
  rw [Fintype.card_fin] at hcard
  exact ⟨_, findLoop_eq hchain (by omega)⟩

theorem Ajar.mp1RtcTasklet (hajar : fish.Ajar) (hrounds : 2000 < rounds) :
    ∃ next, fish.mp1RtcTasklet rounds = some next := by
  obtain ⟨cells, i, hchain, hnodup, _⟩ := hajar
  have hcard := hnodup.length_le_card
  rw [Fintype.card_fin] at hcard
  exact ⟨_, taskletLoop_eq hchain (by omega)⟩

theorem Ajar.mp1IoctlSync (hajar : fish.Ajar) (hrounds : 2000 < rounds) (arg : BitVec 32) :
    ∃ result, fish.mp1IoctlSync rounds arg = some result := by
  obtain ⟨first, hfirst⟩ := hajar.findHelper hrounds ((arg >>> 16).setWidth 16)
  obtain ⟨second, hsecond⟩ := hajar.findHelper hrounds ((arg &&& 0xFFFF).setWidth 16)
  rw [Fish.mp1IoctlSync, hfirst, hsecond, Option.bind_some]
  cases first with
  | none => exact ⟨_, rfl⟩
  | some i => exact ⟨_, rfl⟩

end Fish

/-- Calls that neither add nor remove a record. -/
def BlinkCall.KeepsList : BlinkCall → Prop
  | .find _ | .sync _ | .tasklet => True
  | .add _ | .remove _ => False

namespace Fish

variable {fish next : Fish} {rounds : ℕ}

theorem Ajar.step (hajar : fish.Ajar) (hrounds : 2000 < rounds) {label : BlinkCall}
    (hlabel : label.KeepsList) : ∃ next, fish.step rounds label = some next ∧ next.Ajar := by
  cases label with
  | add user => exact hlabel.elim
  | remove arg => exact hlabel.elim
  | find location =>
      obtain ⟨found, hfound⟩ := hajar.findHelper hrounds location
      refine ⟨fish, ?_, hajar⟩
      rw [Fish.step, Fish.call, Fish.mp1IoctlFind, hfound]
      rfl
  | sync arg =>
      obtain ⟨⟨value, next⟩, hsync⟩ := hajar.mp1IoctlSync hrounds arg
      refine ⟨next, ?_, hajar.of_sameLinks (mp1IoctlSync_keeps hsync).1⟩
      rw [Fish.step, Fish.call, hsync]
      rfl
  | tasklet =>
      obtain ⟨next, htasklet⟩ := hajar.mp1RtcTasklet hrounds
      refine ⟨next, ?_, hajar.of_sameLinks (taskletLoop_keeps htasklet).1⟩
      rw [Fish.step, Fish.call, htasklet]
      rfl

theorem Ring.step (hring : fish.Ring) {label : BlinkCall}
    (hlabel : ∀ arg, label ≠ .remove arg) (hstep : fish.step rounds label = some next) :
    next.Ring := by
  obtain ⟨⟨after, answer⟩, hcall, rfl⟩ := Option.map_eq_some_iff.mp hstep
  cases label with
  | add user =>
      obtain ⟨rfl, _⟩ := Prod.mk.inj (Option.some.inj hcall)
      exact hring.mp1IoctlAdd user
  | remove arg => exact absurd rfl (hlabel arg)
  | find location =>
      obtain ⟨result, _, hfinal⟩ := Option.map_eq_some_iff.mp hcall
      obtain ⟨rfl, _⟩ := Prod.mk.inj hfinal
      exact hring
  | sync arg =>
      obtain ⟨⟨value, final⟩, hsync, hfinal⟩ := Option.map_eq_some_iff.mp hcall
      obtain ⟨rfl, _⟩ := Prod.mk.inj hfinal
      exact hring.of_sameLinks (mp1IoctlSync_keeps hsync).1
  | tasklet =>
      obtain ⟨final, htasklet, _⟩ := Option.map_eq_some_iff.mp hcall
      rw [Fish.mp1RtcTasklet, taskletLoop_eq_none hring] at htasklet
      exact absurd htasklet (by simp)

end Fish

/-- Once a record was added at location zero and another one after it, no tick of the clock
comes to an end, whatever else is called, until a record is removed. -/
theorem tasklet_never_returns {fish : Fish} {blinkers : Blinkers} {cells : List BlinkIndex}
    (hrep : fish.Represents blinkers cells) (hroom : blinkers.entries.length ≠ 2000)
    (rounds : ℕ) (hrounds : 2000 < rounds) (first second : Mp1BlinkStruct)
    (hfirst : first.location = 0) (hsecond : second.location.toNat < 2000)
    (between : List BlinkCall) (hbetween : ∀ label ∈ between, label.KeepsList) :
    ∃ ring, PartialRuns.run (Fish.step rounds) fish
        (.add first :: (between ++ [.add second])) = some ring ∧
      ∀ after final, (∀ arg, BlinkCall.remove arg ∉ after) →
        PartialRuns.run (Fish.step rounds) ring after = some final →
        ∀ n, final.mp1RtcTasklet n = none := by
  obtain ⟨middle, hmiddle, hajar⟩ := PartialRuns.run_progress_of_meets Fish.Ajar
    (fun _ _ hajar hlabel => hajar.step hrounds hlabel) (hrep.ajar hroom hfirst)
    (PartialRuns.meets_of_forall_mem hbetween (fish.mp1IoctlAdd first).2)
  have hring : (middle.mp1IoctlAdd second).2.Ring := hajar.mp1IoctlAdd hsecond
  refine ⟨(middle.mp1IoctlAdd second).2, ?_, ?_⟩
  · rw [PartialRuns.run_cons]
    change PartialRuns.run (Fish.step rounds) (fish.mp1IoctlAdd first).2 _ = _
    rw [PartialRuns.run_append, hmiddle]
    rfl
  · intro after final hafter hrun n
    have hlabels : ∀ label ∈ after, ∀ arg, label ≠ .remove arg := fun label hlabel arg heq =>
      hafter arg (heq ▸ hlabel)
    have hfinal := PartialRuns.run_invariant_of_meets Fish.Ring
      (fun _ _ _ hring hlabel hstep => hring.step hlabel hstep) hring
      (PartialRuns.meets_of_forall_mem hlabels _) hrun
    exact Fish.taskletLoop_eq_none hfinal

theorem tasklet_never_returns_witness :
    ∃ ring, PartialRuns.run (Fish.step 2001) (bootFish fun _ => 0)
        (.add ⟨⟨0, 73, 77, 7, 6, 0, 0⟩, none⟩ ::
          ([.tasklet] ++ [.add ⟨⟨540, 73, 77, 7, 6, 0, 0⟩, none⟩])) = some ring ∧
      ∀ after final, (∀ arg, BlinkCall.remove arg ∉ after) →
        PartialRuns.run (Fish.step 2001) ring after = some final →
        ∀ n, final.mp1RtcTasklet n = none :=
  tasklet_never_returns (Fish.represents_bootFish fun _ => 0) (by decide) 2001 (by decide)
    ⟨⟨0, 73, 77, 7, 6, 0, 0⟩, none⟩ ⟨⟨540, 73, 77, 7, 6, 0, 0⟩, none⟩ rfl (by decide)
    [.tasklet] (by simp [BlinkCall.KeepsList])

end VirtualOS
