import VirtualOS.GrepProgram
import Mathlib.Tactic

/-!
# The loop over the lines in the buffer

The lines of the buffer are searched one after the other.  What lies behind the
last newline is moved to the front of the buffer or reported as a line, which
depends on the byte behind it.
-/

namespace VirtualOS

open MemorySlices

variable {s fname : List UInt8}

/-! ## One line in the buffer -/

theorem lineEndFrom_of_line {data : ℕ → UInt8} {line rest : List UInt8} {start count : ℕ}
    (hslice : slice data start count = line ++ newline :: rest) (hline : newline ∉ line) :
    lineEndFrom data start count = start + line.length := by
  induction line generalizing start count with
  | nil =>
      cases count with
      | zero => rfl
      | succ count =>
          rw [slice_succ, List.nil_append] at hslice
          rw [lineEndFrom, if_neg (not_not.mpr (List.cons.inj hslice).1.symm)]
          rfl
  | cons c line ih =>
      cases count with
      | zero => exact absurd hslice (by simp [slice])
      | succ count =>
          rw [slice_succ, List.cons_append] at hslice
          obtain ⟨hc, hrest⟩ := List.cons.inj hslice
          obtain ⟨hne, hline'⟩ := List.ne_and_not_mem_of_not_mem_cons hline
          rw [lineEndFrom, hc, if_pos hne, ih hrest hline', List.length_cons]
          omega

theorem lineEndFrom_of_not_mem {data : ℕ → UInt8} {start count : ℕ}
    (hslice : newline ∉ slice data start count) :
    lineEndFrom data start count = start + count := by
  induction count generalizing start with
  | zero => rfl
  | succ count ih =>
      rw [slice_succ] at hslice
      obtain ⟨hne, hrest⟩ := List.ne_and_not_mem_of_not_mem_cons hslice
      rw [lineEndFrom, if_pos hne, ih hrest]
      omega

theorem searchLine_iff {data : ℕ → UInt8} {start : ℕ} {line : List UInt8} (hne : s ≠ [])
    (hs : ∀ c ∈ s, c ≠ 0) (hholds : HoldsString data start line) :
    searchLine s data start (start + line.length) = true ↔ Found s line := by
  have hcompare : ∀ k ≤ line.length,
      MemorySlices.strncmp data (stringBytes s) (start + k) 0 s.length = 0 ↔
        s <+: line.drop k := fun k hk =>
    (hholds.drop hk).strncmp_eq_zero_iff (holdsString_stringBytes hs)
  unfold searchLine
  rw [Nat.add_sub_cancel_left, List.any_eq_true]
  constructor
  · rintro ⟨k, hk, hmatch⟩
    rw [Bool.and_eq_true, decide_eq_true_eq, decide_eq_true_eq] at hmatch
    have hprefix := (hcompare k (List.mem_range.mp hk).le).mp hmatch.2
    refine ⟨?_, hprefix.isInfix.trans (List.drop_suffix k line).isInfix⟩
    rw [hmatch.1]
    exact Int.natCast_nonneg _
  · rintro ⟨hchar, hinfix⟩
    obtain ⟨tail, hprefix, hsuffix⟩ := List.infix_iff_prefix_suffix.mp hinfix
    have hdrop := List.suffix_iff_eq_drop.mp hsuffix
    have hlength := hprefix.length_le
    have hpos := List.length_pos_iff.mpr hne
    have hle := hsuffix.length_le
    rw [hdrop] at hprefix
    refine ⟨line.length - tail.length, List.mem_range.mpr (by omega), ?_⟩
    rw [Bool.and_eq_true, decide_eq_true_eq, decide_eq_true_eq]
    refine ⟨(charValue_eq_iff hchar _).mpr ?_, (hcompare _ (by omega)).mpr hprefix⟩
    obtain ⟨c, s', rfl⟩ := List.exists_cons_of_ne_nil hne
    obtain ⟨rest, hrest⟩ := hprefix
    have hfirst := (hholds.drop (show line.length - tail.length ≤ line.length by omega))
    rw [← hrest] at hfirst
    exact hfirst.tail.1.symm

theorem printed_eq {data : ℕ → UInt8} {start count : ℕ} {line : List UInt8} (hne : s ≠ [])
    (hs : ∀ c ∈ s, c ≠ 0) (hholds : HoldsString data start line) (hcount : line.length < count)
    (output : List UInt8) :
    (if searchLine s data start (start + line.length) then
        (MemorySlices.strlen data start count).map fun n =>
          output ++ report fname (slice data start n)
      else some output) = some (output ++ reportLine s fname line) := by
  rw [reportLine]
  by_cases hmatch : Found s line
  · rw [if_pos ((searchLine_iff hne hs hholds).mpr hmatch), if_pos hmatch,
      hholds.strlen hcount, Option.map_some, hholds.bytes]
  · rw [if_neg (fun h => hmatch ((searchLine_iff hne hs hholds).mp h)), if_neg hmatch,
      List.append_nil]

theorem holdsString_ended {data : ℕ → UInt8} {start : ℕ} {line : List UInt8}
    (hslice : slice data start line.length = line) (hzero : ∀ c ∈ line, c ≠ 0) :
    HoldsString (Function.update data (start + line.length) 0) start line := by
  refine ⟨?_, Function.update_self _ _ _, hzero⟩
  have hsame : slice (Function.update data (start + line.length) 0) start line.length =
      slice data start line.length :=
    slice_congr fun k _ hk => Function.update_of_ne (by omega) _ _
  exact hsame.trans hslice

/-! ## The lines in the buffer -/

section Scan

variable {cnt last fuel lineStart : ℕ} {data : ℕ → UInt8} {line tail output : List UInt8}

theorem scanLines_searches (hne : s ≠ []) (hs : ∀ c ∈ s, c ≠ 0)
    (hslice : slice data lineStart line.length = line) (hzero : ∀ c ∈ line, c ≠ 0)
    (hroom : lineStart + line.length ≤ 1024)
    (hend : lineEndFrom data lineStart (last - lineStart) = lineStart + line.length)
    (hstay : ¬ (newline ≠ data (lineStart + line.length) ∧ cnt ≠ 0 ∧ lineStart ≠ 0)) :
    scanLines s fname cnt last (fuel + 1) data lineStart output =
      if lineStart + line.length + 1 ≥ last then
        some (Function.update data (lineStart + line.length) 0, 0,
          output ++ reportLine s fname line)
      else
        scanLines s fname cnt last fuel (Function.update data (lineStart + line.length) 0)
          (lineStart + line.length + 1) (output ++ reportLine s fname line) := by
  have hholds := holdsString_ended hslice hzero
  have hcount : line.length < grepBufSize + 1 - lineStart := by
    unfold grepBufSize
    omega
  rw [scanLines]
  dsimp only
  rw [hend, if_neg hstay, printed_eq hne hs hholds hcount, Option.bind_some]

theorem scanLines_moves (s fname : List UInt8) (fuel : ℕ) (output : List UInt8)
    (hslice : slice data lineStart tail.length = tail)
    (hzero : ∀ c ∈ tail, c ≠ 0) (hlast : last = lineStart + tail.length) (hle : last ≤ 1024)
    (hend : lineEndFrom data lineStart (last - lineStart) = lineStart + tail.length)
    (hbehind : newline ≠ data last) (hcnt : cnt ≠ 0) (hstart : lineStart ≠ 0) :
    ∃ moved, scanLines s fname cnt last (fuel + 1) data lineStart output =
        some (moved, tail.length, output) ∧
      slice moved 0 tail.length = tail ∧
      moved 1024 = if last = 1024 then 0 else data 1024 := by
  have hholds := holdsString_ended hslice hzero
  have hcount : tail.length < grepBufSize + 1 - lineStart := by
    unfold grepBufSize
    omega
  obtain ⟨moved, hcopy, hmoved, hother⟩ := hholds.strcpy (Nat.pos_of_ne_zero hstart) hcount
  refine ⟨moved, ?_, hmoved, ?_⟩
  · rw [scanLines]
    dsimp only
    rw [hend, ← hlast, if_pos ⟨hbehind, hcnt, hstart⟩, hlast, hcopy, Option.map_some,
      Nat.add_sub_cancel_left]
  · rw [hother 1024 (.inr (by omega)), ← hlast]
    by_cases hfull : last = 1024
    · rw [if_pos hfull, hfull, Function.update_self]
    · rw [if_neg hfull, Function.update_of_ne (Ne.symm hfull)]

/-- The unfinished line is kept at the front of the buffer unless it is taken for the
end of the file, begins the buffer, or the byte behind it looks like its newline. -/
theorem scanLines_tail {carried : Bool} (fname output : List UInt8) (fuel : ℕ) (hne : s ≠ [])
    (hs : ∀ c ∈ s, c ≠ 0) (hbuffer : slice data lineStart (last - lineStart) = tail)
    (hle : lineStart ≤ last) (hlast : last ≤ 1024) (htail : newline ∉ tail)
    (hzero : ∀ c ∈ tail, c ≠ 0) (hopen : tail = [] → lineStart = 0)
    (hcarried : carried = true ↔
      tail ≠ [] ∧ newline ≠ data last ∧ cnt ≠ 0 ∧ lineStart ≠ 0) :
    ∃ after,
      scanLines s fname cnt last (fuel + 1) data lineStart output =
        some (after, if carried then tail.length else 0,
          output ++ if carried then [] else reportLine s fname tail) ∧
      (carried = true → slice after 0 tail.length = tail) ∧
      after 1024 = if tail ≠ [] ∧ last = 1024 then 0 else data 1024 := by
  have hlength : last - lineStart = tail.length := by rw [← hbuffer, length_slice]
  have hlast' : last = lineStart + tail.length := by omega
  have hend : lineEndFrom data lineStart (last - lineStart) = lineStart + tail.length := by
    rw [lineEndFrom_of_not_mem (by rw [hbuffer]; exact htail), hlength]
  rw [hlength] at hbuffer
  cases carried with
  | true =>
      obtain ⟨hsome, hbehind, hcnt, hstart⟩ := hcarried.mp rfl
      obtain ⟨moved, hscan, hmoved, hbyte⟩ :=
        scanLines_moves s fname fuel output hbuffer hzero hlast' hlast hend hbehind hcnt hstart
      exact ⟨moved, by simp [hscan], fun _ => hmoved, by simp [hbyte, hsome]⟩
  | false =>
      have hstay : ¬ (newline ≠ data (lineStart + tail.length) ∧ cnt ≠ 0 ∧ lineStart ≠ 0) := by
        rintro ⟨hbehind, hcnt, hstart⟩
        have hsome : tail ≠ [] := fun hnil => hstart (hopen hnil)
        rw [← hlast'] at hbehind
        exact absurd (hcarried.mpr ⟨hsome, hbehind, hcnt, hstart⟩) Bool.false_ne_true
      rw [scanLines_searches hne hs hbuffer hzero (by omega) hend hstay, if_pos (by omega)]
      refine ⟨Function.update data (lineStart + tail.length) 0, by simp, by simp, ?_⟩
      by_cases hfull : tail ≠ [] ∧ last = 1024
      · rw [if_pos hfull, ← hlast', hfull.2, Function.update_self]
      · rw [if_neg hfull, ← hlast', Function.update_of_ne]
        intro heq
        apply hfull
        refine ⟨fun hnil => ?_, heq.symm⟩
        rw [hnil, hopen hnil, ← heq] at hlast'
        exact absurd hlast' (by decide)

/-- The buffer holds finished lines and an unfinished one.  The finished ones are
reported, and the unfinished one is treated as above. -/
theorem scanLines_joinLines {lines : List (List UInt8)} {carried : Bool}
    (fname output : List UInt8) (hne : s ≠ []) (hs : ∀ c ∈ s, c ≠ 0)
    (hbuffer : slice data lineStart (last - lineStart) = joinLines lines ++ tail)
    (hle : lineStart ≤ last) (hlast : last ≤ 1024)
    (hlines : ∀ line ∈ lines, newline ∉ line) (htail : newline ∉ tail)
    (hzero : ∀ c ∈ joinLines lines ++ tail, c ≠ 0)
    (hopen : lines = [] → tail = [] → lineStart = 0)
    (hcarried : carried = true ↔
      tail ≠ [] ∧ newline ≠ data last ∧ cnt ≠ 0 ∧ (lineStart ≠ 0 ∨ lines ≠ []))
    (hfuel : last - lineStart < fuel) :
    ∃ after,
      scanLines s fname cnt last fuel data lineStart output =
        some (after, if carried then tail.length else 0,
          output ++ lines.flatMap (reportLine s fname) ++
            if carried then [] else reportLine s fname tail) ∧
      (carried = true → slice after 0 tail.length = tail) ∧
      after 1024 = if tail ≠ [] ∧ last = 1024 then 0 else data 1024 := by
  obtain ⟨fuel, rfl⟩ : ∃ n, fuel = n + 1 := ⟨fuel - 1, by omega⟩
  induction lines generalizing fuel lineStart data output with
  | nil =>
      rw [show joinLines [] = [] from rfl, List.nil_append] at hbuffer hzero
      have hcarried' : carried = true ↔
          tail ≠ [] ∧ newline ≠ data last ∧ cnt ≠ 0 ∧ lineStart ≠ 0 := by
        simpa using hcarried
      rw [List.flatMap_nil, List.append_nil]
      exact scanLines_tail fname output fuel hne hs hbuffer hle hlast htail hzero (hopen rfl)
        hcarried'
  | cons line lines ih =>
      obtain ⟨hline, hrest⟩ := List.forall_mem_cons.mp hlines
      rw [joinLines_cons, List.append_assoc, List.cons_append] at hbuffer hzero
      have hcount := congrArg List.length hbuffer
      rw [length_slice, List.length_append, List.length_cons] at hcount
      have hend := lineEndFrom_of_line hbuffer hline
      obtain ⟨hbytes, hbehind⟩ := slice_eq_append hbuffer
      obtain ⟨hnewline, hnext⟩ := slice_eq_cons hbehind
      have hkept : ∀ k, k ≠ lineStart + line.length →
          Function.update data (lineStart + line.length) 0 k = data k :=
        fun k hk => Function.update_of_ne hk _ _
      rw [scanLines_searches hne hs hbytes (fun c hc => hzero c (List.mem_append_left _ hc))
        (by omega) hend (fun h => h.1 hnewline.symm)]
      by_cases hdone : lineStart + line.length + 1 ≥ last
      · have hempty : joinLines lines ++ tail = [] := List.length_eq_zero_iff.mp (by omega)
        obtain ⟨hlines', rfl⟩ := List.append_eq_nil_iff.mp hempty
        obtain rfl := joinLines_eq_nil.mp hlines'
        have hcarried' : carried = false := by
          rw [Bool.eq_false_iff]
          exact fun h => (hcarried.mp h).1 rfl
        subst hcarried'
        rw [if_pos hdone]
        refine ⟨Function.update data (lineStart + line.length) 0, by simp [reportLine_nil hne],
          by simp, ?_⟩
        rw [if_neg (fun h => h.1 rfl), hkept _ (by omega)]
      · rw [if_neg hdone]
        have hbuffer' : slice (Function.update data (lineStart + line.length) 0)
            (lineStart + line.length + 1) (last - (lineStart + line.length + 1)) =
              joinLines lines ++ tail := by
          rw [show last - (lineStart + line.length + 1) = (joinLines lines ++ tail).length by
            omega, slice_congr fun k hk _ => hkept k (by omega)]
          exact hnext
        have hzero' : ∀ c ∈ joinLines lines ++ tail, c ≠ 0 := fun c hc =>
          hzero c (List.mem_append_right _ (List.mem_cons_of_mem _ hc))
        have hopen' : lines = [] → tail = [] → lineStart + line.length + 1 = 0 := by
          rintro rfl rfl
          simp [joinLines] at hcount
          omega
        have hcarried' : carried = true ↔ tail ≠ [] ∧
            newline ≠ Function.update data (lineStart + line.length) 0 last ∧ cnt ≠ 0 ∧
              (lineStart + line.length + 1 ≠ 0 ∨ lines ≠ []) := by
          rw [hcarried, hkept last (by omega)]
          simp
        obtain ⟨fuel, rfl⟩ : ∃ n, fuel = n + 1 := ⟨fuel - 1, by omega⟩
        have hfuel' : last - (lineStart + line.length + 1) < fuel + 1 := by omega
        obtain ⟨after, hscan, hmoved, hbyte⟩ :=
          ih _ hbuffer' (by omega) hrest hzero' hopen' hcarried' fuel hfuel'
        refine ⟨after, ?_, hmoved, ?_⟩
        · rw [hscan, List.flatMap_cons, List.append_assoc output]
        · rw [hbyte, hkept 1024 (by omega)]

end Scan

end VirtualOS
