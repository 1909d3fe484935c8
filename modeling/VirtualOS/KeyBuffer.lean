import VirtualOS.ConsoleIndependence
import Mathlib.Tactic

/-!
# The bytes that wait in a keyboard buffer

The first `num_buf` bytes of a keyboard buffer are those that no read has taken
yet.  Keys append to this list or take its last byte, and a read takes a piece
of it from the front, as long as no index leaves the buffer and no read takes
more than what waits.  The bounds of the buffer and the agreement of the line
counter with the waiting lines follow for every run that keeps to these cases.
-/

namespace VirtualOS

open PartialRuns

/-! ## Buffers as lists -/

def LineBuffer.slice (buffer : LineBuffer) (start stop : ℕ) : List UInt8 :=
  (List.range (stop - start)).map fun i => LineBuffer.get buffer (start + i)

namespace LineBuffer

theorem length_slice (buffer : LineBuffer) (start stop : ℕ) :
    (LineBuffer.slice buffer start stop).length = stop - start := by
  simp [LineBuffer.slice]

theorem slice_cons (buffer : LineBuffer) {start stop : ℕ} (hlt : start < stop) :
    LineBuffer.slice buffer start stop =
      LineBuffer.get buffer start :: LineBuffer.slice buffer (start + 1) stop := by
  unfold LineBuffer.slice
  rw [show stop - start = stop - (start + 1) + 1 by omega, List.range_succ_eq_map]
  simp only [List.map_cons, Nat.add_zero, List.map_map, List.cons.injEq, true_and]
  apply List.map_congr_left
  intro i _
  simp only [Function.comp_apply]
  congr 1
  omega

theorem slice_append (buffer : LineBuffer) {start middle stop : ℕ} (hfirst : start ≤ middle)
    (hsecond : middle ≤ stop) :
    LineBuffer.slice buffer start stop =
      LineBuffer.slice buffer start middle ++ LineBuffer.slice buffer middle stop := by
  unfold LineBuffer.slice
  rw [show stop - start = (middle - start) + (stop - middle) by omega, List.range_add,
    List.map_append, List.map_map]
  congr 1
  apply List.map_congr_left
  intro i _
  simp only [Function.comp_apply]
  congr 1
  omega

theorem slice_congr {buffer other : LineBuffer} {start stop start' : ℕ} {stop' : ℕ}
    (hlength : stop - start = stop' - start')
    (hget : ∀ i < stop - start,
      LineBuffer.get buffer (start + i) = LineBuffer.get other (start' + i)) :
    LineBuffer.slice buffer start stop = LineBuffer.slice other start' stop' := by
  unfold LineBuffer.slice
  rw [← hlength]
  apply List.map_congr_left
  intro i hi
  exact hget i (List.mem_range.mp hi)

theorem get_set (buffer : LineBuffer) {index other : ℕ} (value : UInt8) (hother : other < 128) :
    LineBuffer.get (LineBuffer.set buffer index value) other =
      if other = index then value else LineBuffer.get buffer other := by
  unfold LineBuffer.get LineBuffer.set
  by_cases heq : other = index
  · subst heq
    simp [hother]
  · by_cases hindex : index < 128
    · simp [hother, hindex, heq, Function.update_of_ne]
    · simp [hother, hindex, heq]

theorem get_store {buffer stored : LineBuffer} {index : ℤ} {value : UInt8}
    (hstore : LineBuffer.store buffer index value = some stored) {other : ℕ}
    (hother : other < 128) :
    LineBuffer.get stored other =
      if (other : ℤ) = index then value else LineBuffer.get buffer other := by
  unfold LineBuffer.store at hstore
  split at hstore
  case isTrue hindex =>
    obtain rfl := Option.some.inj hstore
    unfold LineBuffer.get
    by_cases heq : (other : ℤ) = index
    · subst heq
      simp [hother]
    · have hne : (⟨other, hother⟩ : Fin 128) ≠ ⟨index.toNat, by omega⟩ := by
        intro h
        have := congrArg Fin.val h
        simp only at this
        omega
      simp [hother, heq, hne]
  case isFalse hindex => contradiction

theorem get_shift (buffer : LineBuffer) (byteRead count : ℕ) (hcount : count + byteRead ≤ 128)
    {i : ℕ} (hi : i < 128) :
    LineBuffer.get ((List.range count).foldl (fun buffer j =>
        LineBuffer.set buffer j (LineBuffer.get buffer (j + byteRead))) buffer) i =
      if i < count then LineBuffer.get buffer (i + byteRead) else LineBuffer.get buffer i := by
  induction count generalizing i with
  | zero => simp
  | succ count ih =>
      rw [List.range_succ, List.foldl_append, List.foldl_cons, List.foldl_nil, get_set _ _ hi]
      have hcount' : count + byteRead ≤ 128 := by omega
      by_cases heq : i = count
      · subst heq
        rw [if_pos rfl, if_pos (by omega), ih hcount' (by omega)]
        split
        · have hzero : byteRead = 0 := by omega
          simp [hzero]
        · rfl
      · rw [if_neg heq, ih hcount' hi]
        by_cases hlt : i < count
        · rw [if_pos hlt, if_pos (by omega)]
        · rw [if_neg hlt, if_neg (by omega)]

theorem get_clearEnd (buffer : LineBuffer) (count : ℕ) {i : ℕ} (hi : i < 128) :
    LineBuffer.get ((List.range count).foldl (fun buffer j =>
        LineBuffer.set buffer (128 - (j + 1)) 0) buffer) i =
      if 128 - count ≤ i then 0 else LineBuffer.get buffer i := by
  induction count with
  | zero => simp [Nat.not_le_of_lt hi]
  | succ count ih =>
      rw [List.range_succ, List.foldl_append, List.foldl_cons, List.foldl_nil, get_set _ _ hi, ih]
      by_cases heq : i = 128 - (count + 1)
      · rw [if_pos heq, if_pos (by omega)]
      · rw [if_neg heq]
        by_cases hle : 128 - count ≤ i
        · rw [if_pos hle, if_pos (by omega)]
        · rw [if_neg hle, if_neg (by omega)]

theorem get_dropBytes (buffer : LineBuffer) {byteRead : ℕ} (hread : byteRead ≤ 128) {i : ℕ}
    (hi : i < 128) :
    LineBuffer.get (LineBuffer.dropBytes buffer byteRead) i =
      if i + byteRead < 128 then LineBuffer.get buffer (i + byteRead) else 0 := by
  unfold LineBuffer.dropBytes
  rw [get_clearEnd _ _ hi]
  by_cases hlt : i + byteRead < 128
  · rw [if_pos hlt, if_neg (by omega), get_shift _ _ _ (by omega) hi, if_pos (by omega)]
  · rw [if_neg hlt, if_pos (by omega)]

theorem slice_dropBytes (buffer : LineBuffer) {byteRead stop : ℕ} (hread : byteRead ≤ stop)
    (hstop : stop ≤ 128) :
    LineBuffer.slice (LineBuffer.dropBytes buffer byteRead) 0 (stop - byteRead) =
      LineBuffer.slice buffer byteRead stop := by
  apply slice_congr (by omega)
  intro i hi
  rw [get_dropBytes buffer (by omega) (by omega), if_pos (by omega)]
  congr 1
  omega

end LineBuffer

/-! ## Reading a line -/

/-- At most `nbytes` bytes of a list, ending after the first newline. -/
def takeLine : ℕ → List UInt8 → List UInt8
  | 0, _ => []
  | _ + 1, [] => []
  | nbytes + 1, c :: rest => if c = newline then [newline] else c :: takeLine nbytes rest

theorem takeLine_isPrefix (nbytes : ℕ) (bytes : List UInt8) : takeLine nbytes bytes <+: bytes := by
  induction nbytes, bytes using takeLine.induct with
  | case1 bytes => exact List.nil_prefix
  | case2 nbytes => exact List.nil_prefix
  | case3 nbytes rest =>
      rw [takeLine, if_pos rfl]
      exact ⟨rest, rfl⟩
  | case4 nbytes c rest hne ih =>
      rw [takeLine, if_neg hne]
      exact List.cons_prefix_cons.mpr ⟨rfl, ih⟩

theorem takeLine_append {nbytes : ℕ} {bytes : List UInt8}
    (hfits : nbytes ≤ bytes.length ∨ newline ∈ bytes) (rest : List UInt8) :
    takeLine nbytes (bytes ++ rest) = takeLine nbytes bytes := by
  induction nbytes, bytes using takeLine.induct with
  | case1 bytes => simp [takeLine]
  | case2 nbytes => simp at hfits
  | case3 nbytes tail => simp [takeLine]
  | case4 nbytes c tail hne ih =>
      rw [List.cons_append, takeLine, takeLine, if_neg hne, if_neg hne, ih]
      rcases hfits with hle | hmem
      · exact .inl (by simpa using hle)
      · exact .inr ((List.mem_cons.mp hmem).resolve_left (Ne.symm hne))

theorem takeLine_line {nbytes : ℕ} {line : List UInt8} (hline : newline ∉ line)
    (hlength : line.length < nbytes) (rest : List UInt8) :
    takeLine nbytes (line ++ newline :: rest) = line ++ [newline] := by
  induction line generalizing nbytes with
  | nil =>
      cases nbytes with
      | zero => simp at hlength
      | succ nbytes => simp [takeLine]
  | cons c tail ih =>
      cases nbytes with
      | zero => simp at hlength
      | succ nbytes =>
          simp only [List.mem_cons, not_or] at hline
          rw [List.cons_append, takeLine, if_neg (Ne.symm hline.1),
            ih hline.2 (by simpa using hlength)]
          rfl

theorem count_takeLine {nbytes : ℕ} {bytes : List UInt8} (hmem : newline ∈ bytes.take nbytes) :
    (takeLine nbytes bytes).count newline = 1 := by
  induction nbytes, bytes using takeLine.induct with
  | case1 bytes => simp at hmem
  | case2 nbytes => simp at hmem
  | case3 nbytes rest => simp [takeLine]
  | case4 nbytes c rest hne ih =>
      rw [List.take_succ_cons] at hmem
      rw [takeLine, if_neg hne, List.count_cons_of_ne hne]
      exact ih ((List.mem_cons.mp hmem).resolve_left (Ne.symm hne))

theorem copyLine_eq {keyBuf : LineBuffer} {nbytes i : ℕ}
    (hfits : nbytes ≤ 128 - i ∨ newline ∈ LineBuffer.slice keyBuf i 128) :
    copyLine keyBuf nbytes i = some (takeLine nbytes (LineBuffer.slice keyBuf i 128)) := by
  induction nbytes generalizing i with
  | zero => rfl
  | succ nbytes ih =>
      have hi : i < 128 := by
        by_contra hge
        have hempty : LineBuffer.slice keyBuf i 128 = [] :=
          List.eq_nil_of_length_eq_zero (by rw [LineBuffer.length_slice]; omega)
        rw [hempty] at hfits
        rcases hfits with hle | hmem
        · omega
        · exact absurd hmem List.not_mem_nil
      have hget : LineBuffer.get keyBuf i = keyBuf ⟨i, hi⟩ := dif_pos hi
      rw [LineBuffer.slice_cons keyBuf hi, hget] at hfits ⊢
      rw [copyLine, dif_pos hi, takeLine]
      by_cases hend : keyBuf ⟨i, hi⟩ = newline
      · rw [if_pos hend, if_pos hend]
      · rw [if_neg hend, if_neg hend, ih, Option.map_some]
        rcases hfits with hle | hmem
        · exact .inl (by omega)
        · exact .inr ((List.mem_cons.mp hmem).resolve_left (Ne.symm hend))

/-! ## The waiting bytes of a console -/

namespace Console

/-- The bytes of the keyboard buffer that no read has taken. -/
def pending (console : Console) : List UInt8 :=
  LineBuffer.slice console.keyBuf 0 console.numBuf.toNat

def Bounded (console : Console) : Prop := 0 ≤ console.numBuf ∧ console.numBuf ≤ 128

theorem length_pending (console : Console) :
    console.pending.length = console.numBuf.toNat := by
  rw [pending, LineBuffer.length_slice, Nat.sub_zero]

theorem push_pending {console next : Console} {c : UInt8} (hpush : console.push c = some next) :
    next.pending = console.pending ++ [c] ∧ next.numBuf = console.numBuf + 1 ∧
      next.bufFlag = console.bufFlag ∧ 0 ≤ console.numBuf ∧ console.numBuf < 128 := by
  obtain ⟨keyBuf, hstore, rfl⟩ := Option.map_eq_some_iff.mp hpush
  have hrange : 0 ≤ console.numBuf ∧ console.numBuf < 128 := by
    unfold LineBuffer.store at hstore
    split at hstore
    · assumption
    · contradiction
  refine ⟨?_, rfl, rfl, hrange⟩
  unfold pending
  dsimp only
  rw [show (console.numBuf + 1).toNat = console.numBuf.toNat + 1 by omega,
    LineBuffer.slice_append keyBuf (Nat.zero_le _) (Nat.le_succ console.numBuf.toNat),
    LineBuffer.slice_cons keyBuf (Nat.lt_succ_self console.numBuf.toNat)]
  congr 1
  · apply LineBuffer.slice_congr rfl
    intro i hi
    rw [LineBuffer.get_store hstore (by omega), if_neg (by omega)]
  · rw [LineBuffer.get_store hstore (by omega), if_pos (by omega)]
    simp [LineBuffer.slice]

/-- A read that asks for no more than what waits, or finds the end of a line
there, does not look further. -/
theorem copyLine_pending {console : Console} {nbytes : ℕ} (hbounded : console.Bounded)
    (hfits : nbytes ≤ console.numBuf ∨ newline ∈ console.pending) :
    copyLine console.keyBuf nbytes 0 = some (takeLine nbytes console.pending) := by
  obtain ⟨hzero, hmax⟩ := hbounded
  have hall : LineBuffer.slice console.keyBuf 0 128 =
      console.pending ++ LineBuffer.slice console.keyBuf console.numBuf.toNat 128 :=
    LineBuffer.slice_append console.keyBuf (Nat.zero_le _) (by omega)
  rw [copyLine_eq, hall, takeLine_append]
  · rw [length_pending]
    exact hfits.imp (by omega) id
  · rcases hfits with hle | hmem
    · exact .inl (by omega)
    · exact .inr (by rw [hall]; exact List.mem_append_left _ hmem)

theorem read_pending {console next : Console} {nbytes : ℕ} {bytes : List UInt8}
    (hbounded : console.Bounded) (hfits : nbytes ≤ console.numBuf ∨ newline ∈ console.pending)
    (hread : console.read nbytes = some (next, bytes)) :
    bytes = takeLine nbytes console.pending ∧ console.pending = bytes ++ next.pending ∧
      next.numBuf = console.numBuf - bytes.length ∧ next.bufFlag = console.bufFlag - 1 ∧
      console.bufFlag ≠ 0 := by
  have hcopy := copyLine_pending hbounded hfits
  obtain ⟨hzero, hmax⟩ := hbounded
  unfold Console.read at hread
  split at hread
  · contradiction
  case isFalse hflag =>
    rw [hcopy, Option.map_some, Option.some.injEq, Prod.mk.injEq] at hread
    obtain ⟨rfl, rfl⟩ := hread
    have hstarts := takeLine_isPrefix nbytes console.pending
    have hlength := hstarts.length_le
    rw [length_pending] at hlength
    refine ⟨rfl, ?_, rfl, rfl, hflag⟩
    generalize takeLine nbytes console.pending = bytes at hstarts hlength
    have hsplit : console.pending = LineBuffer.slice console.keyBuf 0 bytes.length ++
        LineBuffer.slice console.keyBuf bytes.length console.numBuf.toNat :=
      LineBuffer.slice_append console.keyBuf (Nat.zero_le _) hlength
    have hbytes : bytes = LineBuffer.slice console.keyBuf 0 bytes.length := by
      have hlength' : (LineBuffer.slice console.keyBuf 0 bytes.length).length = bytes.length :=
        LineBuffer.length_slice console.keyBuf 0 bytes.length
      rw [List.prefix_iff_eq_take, hsplit, List.take_left' hlength'] at hstarts
      exact hstarts
    have hnext : LineBuffer.slice (LineBuffer.dropBytes console.keyBuf bytes.length) 0
        (console.numBuf - bytes.length).toNat =
          LineBuffer.slice console.keyBuf bytes.length console.numBuf.toNat := by
      rw [← LineBuffer.slice_dropBytes console.keyBuf hlength (by omega)]
      congr 1
      omega
    unfold pending at hsplit ⊢
    dsimp only
    rw [hsplit, hnext, ← hbytes]

def keys (console : Console) : LineBuffer × ℤ × BitVec 8 :=
  (console.keyBuf, console.numBuf, console.bufFlag)

theorem scrolled_keys (console : Console) : console.scrolled.keys = console.keys := by
  unfold scrolled
  split <;> rfl

theorem stepBack_keys (console : Console) : console.stepBack.keys = console.keys := by
  unfold stepBack
  split <;> rfl

theorem advance_keys (console : Console) : console.advance.keys = console.keys := by
  unfold advance
  split <;> rfl

theorem put_keys {console next : Console} {c : UInt8} (hput : console.put c = some next) :
    next.keys = console.keys := by
  unfold Console.put at hput
  split at hput
  · obtain rfl := Option.some.inj hput
    exact scrolled_keys console.newLine
  · split at hput
    · split at hput
      · obtain rfl := Option.some.inj hput
        rfl
      · obtain ⟨wiped, hwipe, rfl⟩ := Option.map_eq_some_iff.mp hput
        obtain ⟨screen, _, rfl⟩ := Option.map_eq_some_iff.mp hwipe
        exact (scrolled_keys _).trans (stepBack_keys console)
    · obtain ⟨drawn, hdraw, rfl⟩ := Option.map_eq_some_iff.mp hput
      obtain ⟨screen, _, hdraw⟩ := Option.bind_eq_some_iff.mp hdraw
      obtain ⟨screen', _, rfl⟩ := Option.map_eq_some_iff.mp hdraw
      exact (scrolled_keys _).trans (advance_keys _)

end Console

/-! ## Keys and reads on the waiting bytes -/

/-- The waiting bytes and the counter of complete lines. -/
structure KeyQueue where
  bytes : List UInt8
  bufFlag : BitVec 8

def Console.queue (console : Console) : KeyQueue := ⟨console.pending, console.bufFlag⟩

def queueStep (queue : KeyQueue) : ConsoleOp → KeyQueue
  | .put _ => queue
  | .clear => queue
  | .type c =>
      if queue.bytes.length ≥ 127 then queue
      else { queue with bytes := queue.bytes ++ [c] }
  | .tab => { queue with bytes := queue.bytes ++ List.replicate 4 space }
  | .erase => { queue with bytes := queue.bytes.dropLast }
  | .enter =>
      if queue.bytes.length = 128 then queue
      else ⟨queue.bytes ++ [newline], queue.bufFlag + 1⟩
  | .reset => ⟨[], 0⟩
  | .read nbytes =>
      ⟨queue.bytes.drop (takeLine nbytes queue.bytes).length, queue.bufFlag - 1⟩

/-- A tab has room for its four blanks, and a read takes no more than what waits:
it asks for no more or finds the end of a line there. -/
def ConsoleOp.Fits (console : Console) : ConsoleOp → Prop
  | .tab => console.numBuf + 4 ≤ 128
  | .read nbytes => nbytes ≤ console.numBuf ∨ newline ∈ console.pending
  | _ => True

instance (console : Console) : (op : ConsoleOp) → Decidable (op.Fits console)
  | .tab => inferInstanceAs (Decidable (console.numBuf + 4 ≤ 128))
  | .read nbytes =>
      inferInstanceAs (Decidable (nbytes ≤ console.numBuf ∨ newline ∈ console.pending))
  | .put _ => isTrue trivial
  | .clear => isTrue trivial
  | .type _ => isTrue trivial
  | .erase => isTrue trivial
  | .enter => isTrue trivial
  | .reset => isTrue trivial

theorem queue_eq_of_keys_eq {console next : Console} (hkeys : next.keys = console.keys) :
    next.queue = console.queue ∧ next.numBuf = console.numBuf := by
  simp only [Console.keys, Prod.mk.injEq] at hkeys
  obtain ⟨hbuf, hnum, hflag⟩ := hkeys
  refine ⟨?_, hnum⟩
  simp only [Console.queue, Console.pending, hbuf, hnum, hflag]

theorem echo_queue {console next : Console} {c : UInt8} (hecho : console.echo c = some next) :
    next.queue = ⟨console.pending ++ [c], console.bufFlag⟩ ∧
      next.numBuf = console.numBuf + 1 := by
  obtain ⟨echoed, hput, hpush⟩ := Option.bind_eq_some_iff.mp hecho
  obtain ⟨hqueue, hnum⟩ := queue_eq_of_keys_eq (Console.put_keys hput)
  obtain ⟨hpending, hnum', hflag, -⟩ := Console.push_pending hpush
  simp only [Console.queue, KeyQueue.mk.injEq] at hqueue ⊢
  exact ⟨⟨by rw [hpending, hqueue.1], hflag.trans hqueue.2⟩, by rw [hnum', hnum]⟩

theorem run_echo_queue {console next : Console} {text : List UInt8}
    (hrun : run Console.echo console text = some next) :
    next.queue = ⟨console.pending ++ text, console.bufFlag⟩ ∧
      next.numBuf = console.numBuf + text.length := by
  induction text generalizing console with
  | nil =>
      obtain rfl := Option.some.inj hrun
      simp [Console.queue]
  | cons c rest ih =>
      obtain ⟨middle, hecho, hrest⟩ := run_cons_eq_some.mp hrun
      obtain ⟨hqueue, hnum⟩ := echo_queue hecho
      obtain ⟨hqueue', hnum'⟩ := ih hrest
      simp only [Console.queue, KeyQueue.mk.injEq] at hqueue hqueue' ⊢
      constructor
      · rw [hqueue'.1, hqueue'.2, hqueue.1, hqueue.2]
        simp
      · rw [hnum', hnum, List.length_cons]
        push_cast
        ring

theorem Console.enter_of_full {console : Console} (hfull : console.numBuf = 128) :
    console.enter = some console := if_pos hfull

theorem Console.type_of_full {console : Console} (hfull : 127 ≤ console.numBuf) (c : UInt8) :
    console.type c = some console := if_pos hfull

theorem Console.type_of_room {console : Console} (hroom : console.numBuf < 127) (c : UInt8) :
    console.type c = console.echo c := if_neg (not_le_of_gt hroom)

theorem enter_queue {console next : Console} (hfull : console.numBuf ≠ 128)
    (henter : console.enter = some next) :
    next.queue = ⟨console.pending ++ [newline], console.bufFlag + 1⟩ ∧
      next.numBuf = console.numBuf + 1 := by
  have hroom : ¬ console.numBuf = (keyboardBufSize : ℤ) := hfull
  rw [Console.enter, if_neg hroom] at henter
  obtain ⟨stored, hpush, henter⟩ := Option.bind_eq_some_iff.mp henter
  obtain ⟨echoed, hput, rfl⟩ := Option.map_eq_some_iff.mp henter
  obtain ⟨hqueue, hnum⟩ := queue_eq_of_keys_eq (Console.put_keys hput)
  obtain ⟨hpending, hnum', hflag, -⟩ := Console.push_pending hpush
  simp only [Console.queue, KeyQueue.mk.injEq] at hqueue ⊢
  refine ⟨⟨?_, by rw [hqueue.2, hflag]⟩, by rw [hnum, hnum']⟩
  rw [← hpending, ← hqueue.1]
  rfl

theorem erase_queue {console next : Console} (hpending : 0 < console.numBuf)
    (herase : console.erase = some next) :
    next.queue = ⟨console.pending.dropLast, console.bufFlag⟩ ∧
      next.numBuf = console.numBuf - 1 := by
  rw [Console.erase, if_pos hpending] at herase
  obtain ⟨echoed, hput, rfl⟩ := Option.map_eq_some_iff.mp herase
  have hkeys := Console.put_keys hput
  simp only [Console.keys, Prod.mk.injEq] at hkeys
  obtain ⟨hbuf, hnum, hflag⟩ := hkeys
  refine ⟨?_, by rw [hnum]⟩
  simp only [Console.queue, Console.pending, hbuf, hnum, hflag, KeyQueue.mk.injEq, and_true]
  have hsplit := LineBuffer.slice_append console.keyBuf (Nat.zero_le (console.numBuf - 1).toNat)
    (show (console.numBuf - 1).toNat ≤ console.numBuf.toNat by omega)
  rw [hsplit, LineBuffer.slice_cons console.keyBuf
    (show (console.numBuf - 1).toNat < console.numBuf.toNat by omega)]
  have hempty : LineBuffer.slice console.keyBuf ((console.numBuf - 1).toNat + 1)
      console.numBuf.toNat = [] :=
    List.eq_nil_of_length_eq_zero (by rw [LineBuffer.length_slice]; omega)
  rw [hempty, List.dropLast_concat]

/-- An operation that fits keeps the counter in its range and acts on the waiting
bytes as on a list. -/
theorem consoleStep_queue {console next : Console} {op : ConsoleOp}
    (hbounded : console.Bounded) (hfits : op.Fits console)
    (hstep : consoleStep console op = some next) :
    next.Bounded ∧ next.queue = queueStep console.queue op := by
  have hlength := console.length_pending
  have hzero := hbounded.1
  have hmax := hbounded.2
  unfold Console.Bounded
  cases op with
  | put c =>
      obtain ⟨hqueue, hnum⟩ := queue_eq_of_keys_eq (Console.put_keys hstep)
      exact ⟨by omega, hqueue⟩
  | clear =>
      obtain rfl := Option.some.inj hstep
      have hkeys : console.clear.keys = console.keys := by
        simp only [Console.keys, Console.clear, Console.home]
      obtain ⟨hqueue, hnum⟩ := queue_eq_of_keys_eq hkeys
      exact ⟨by omega, hqueue⟩
  | type c =>
      simp only [queueStep]
      have hbytes : console.queue.bytes = console.pending := rfl
      rw [hbytes, hlength]
      by_cases hfull : 127 ≤ console.numBuf
      · rw [consoleStep, Console.type_of_full hfull] at hstep
        obtain rfl := Option.some.inj hstep
        rw [if_pos (by omega)]
        exact ⟨hbounded, rfl⟩
      · rw [consoleStep, Console.type_of_room (by omega)] at hstep
        obtain ⟨hqueue, hnum⟩ := echo_queue hstep
        rw [if_neg (by omega)]
        exact ⟨by omega, hqueue⟩
  | tab =>
      obtain ⟨hqueue, hnum⟩ := run_echo_queue hstep
      rw [List.length_replicate] at hnum
      have hroom : console.numBuf + 4 ≤ 128 := hfits
      exact ⟨by omega, hqueue⟩
  | erase =>
      by_cases hpos : 0 < console.numBuf
      · obtain ⟨hqueue, hnum⟩ := erase_queue hpos hstep
        exact ⟨by omega, hqueue⟩
      · have hnext : some console = some next := by
          rw [← hstep, consoleStep, Console.erase, if_neg hpos]
        obtain rfl := Option.some.inj hnext
        have hempty : console.pending = [] := List.eq_nil_of_length_eq_zero (by omega)
        refine ⟨hbounded, ?_⟩
        simp [queueStep, Console.queue, hempty]
  | enter =>
      simp only [queueStep]
      have hbytes : console.queue.bytes = console.pending := rfl
      rw [hbytes, hlength]
      by_cases hfull : console.numBuf = 128
      · rw [consoleStep, Console.enter_of_full hfull] at hstep
        obtain rfl := Option.some.inj hstep
        rw [if_pos (by omega)]
        exact ⟨hbounded, rfl⟩
      · obtain ⟨hqueue, hnum⟩ := enter_queue hfull hstep
        rw [if_neg (by omega)]
        exact ⟨by omega, hqueue⟩
  | reset =>
      obtain rfl := Option.some.inj hstep
      exact ⟨by simp [Console.reset], rfl⟩
  | read nbytes =>
      obtain ⟨⟨next', bytes⟩, hread, rfl⟩ := Option.map_eq_some_iff.mp hstep
      obtain ⟨hbytes, hpending, hnum, hflag, -⟩ := Console.read_pending hbounded hfits hread
      have hle := (takeLine_isPrefix nbytes console.pending).length_le
      rw [← hbytes, hlength] at hle
      refine ⟨by simp only; omega, ?_⟩
      simp only [queueStep, Console.queue, KeyQueue.mk.injEq]
      refine ⟨?_, hflag⟩
      rw [← hbytes, hpending, List.drop_left]

end VirtualOS
