import VirtualOS.GrepLines
import Mathlib.Tactic

/-!
# The lines that `grep` reports

The test at the end of a piece looks at the byte behind the piece, which the
read has not written.  Behind a full buffer this byte is never part of the file:
it is what the stack held, or a zero once an unfinished line has ended there.
While it is not a newline, every line that contains the string is reported once
and in full, however the lines lie in the pieces.  Otherwise the first line
that is cut at the end of a piece is taken for two lines.
-/

namespace VirtualOS

open MemorySlices

variable {s fname : List UInt8}

/-! ## Short lines -/

def ShortLines (text : List UInt8) : Prop :=
  ∀ line ∈ text.splitOn newline, line.length < 1024

theorem ShortLines.of_append {front text : List UInt8} (hshort : ShortLines (front ++ text)) :
    ShortLines text := by
  induction front with
  | nil => exact hshort
  | cons c front ih =>
      apply ih
      intro line hline
      rw [ShortLines, List.cons_append, List.splitOn_cons_eq_if_modifyHead] at hshort
      split at hshort
      · exact hshort line (List.mem_cons_of_mem _ hline)
      · obtain ⟨first, others, hlines⟩ :=
          List.exists_cons_of_ne_nil (List.splitOn_ne_nil newline (front ++ text))
        rw [hlines] at hline hshort
        rw [List.modifyHead_cons, List.forall_mem_cons, List.length_cons] at hshort
        rcases List.mem_cons.mp hline with rfl | hother
        · exact Nat.lt_of_succ_lt hshort.1
        · exact hshort.2 line hother

theorem ShortLines.length_lt {line rest : List UInt8} (hshort : ShortLines (line ++ rest))
    (hline : newline ∉ line) : line.length < 1024 := by
  by_cases hrest : newline ∈ rest
  · obtain ⟨first, second, rfl, hfirst⟩ := List.eq_append_cons_of_mem hrest
    have hmem : line ++ first ∈ (line ++ (first ++ newline :: second)).splitOn newline := by
      rw [← List.append_assoc, List.splitOn_append_cons_self_of_not_mem (by simp [hline, hfirst])]
      exact List.mem_cons_self
    have hlt := hshort _ hmem
    rw [List.length_append] at hlt
    omega
  · have hmem : line ++ rest ∈ (line ++ rest).splitOn newline := by
      rw [List.splitOn_eq_singleton (by simp [hline, hrest])]
      exact List.mem_cons_self
    have hlt := hshort _ hmem
    rw [List.length_append] at hlt
    omega

/-! ## One piece of the file -/

section Pieces

variable {data : ℕ → UInt8} {carry rest output tail : List UInt8} {lines : List (List UInt8)}

theorem slice_store_append (hcarry : slice data 0 carry.length = carry) (bytes : List UInt8) :
    slice (store data carry.length bytes) 0 (carry.length + bytes.length) = carry ++ bytes := by
  have hkept : slice (store data carry.length bytes) 0 carry.length =
      slice data 0 carry.length :=
    slice_congr fun k _ hk => store_of_not_mem (.inl (by omega))
  rw [slice_add, hkept, hcarry, Nat.zero_add, slice_store]

/-- The last round finds no more bytes and takes what was kept for a line. -/
theorem grepLoop_end (file : List UInt8) (hne : s ≠ []) (hs : ∀ c ∈ s, c ≠ 0)
    (hslice : slice data 0 carry.length = carry) (hcarry : newline ∉ carry)
    (hlength : carry.length < 1024) (hzero : ∀ c ∈ carry, c ≠ 0) (fuel : ℕ) :
    grepLoop (sliceCalls file) s fname (fuel + 1) [] data carry.length output =
      some (0, output ++ reportLine s fname carry) := by
  have hbuffer : slice data 0 (carry.length - 0) = joinLines [] ++ carry := hslice
  have hstay : false = true ↔ carry ≠ [] ∧ newline ≠ data carry.length ∧ 0 ≠ 0 ∧
      (0 ≠ 0 ∨ ([] : List (List UInt8)) ≠ []) := by simp
  have hfuel : carry.length - 0 < carry.length + 1 := by omega
  obtain ⟨after, hscan, -, -⟩ := scanLines_joinLines fname output hne hs hbuffer (Nat.zero_le _)
    hlength.le (by simp) hcarry hzero (fun _ _ => rfl) hstay hfuel
  simp only [grepLoop, sliceCalls, List.take_nil, List.drop_nil, List.length_nil, Nat.add_zero,
    store, hscan, Option.bind_some, if_true]
  simp

theorem grepLoop_piece (file fname output : List UInt8) {carried : Bool} (hne : s ≠ [])
    (hs : ∀ c ∈ s, c ≠ 0) (hslice : slice data 0 carry.length = carry)
    (hlength : carry.length < 1024) (hrest : rest ≠ [])
    (htext : carry ++ rest.take (1024 - carry.length) = joinLines lines ++ tail)
    (hlines : ∀ line ∈ lines, newline ∉ line) (htail : newline ∉ tail)
    (hzero : ∀ c ∈ joinLines lines ++ tail, c ≠ 0)
    (hcarried : carried = true ↔ tail ≠ [] ∧ lines ≠ [] ∧ newline ≠
      store data carry.length (rest.take (1024 - carry.length)) (joinLines lines ++ tail).length)
    (fuel : ℕ) :
    ∃ after,
      grepLoop (sliceCalls file) s fname (fuel + 1) rest data carry.length output =
        grepLoop (sliceCalls file) s fname fuel (rest.drop (1024 - carry.length)) after
          (if carried then tail.length else 0)
          (output ++ lines.flatMap (reportLine s fname) ++
            if carried then [] else reportLine s fname tail) ∧
      (carried = true → slice after 0 tail.length = tail) ∧
      after 1024 =
        if tail ≠ [] ∧ (joinLines lines ++ tail).length = 1024 then 0 else data 1024 := by
  set bytes := rest.take (1024 - carry.length) with hbytes
  have hlast : carry.length + bytes.length = (joinLines lines ++ tail).length := by
    rw [← htext, List.length_append]
  have hcount : bytes.length ≤ 1024 - carry.length := by
    rw [hbytes, List.length_take]
    exact Nat.min_le_left _ _
  have hpos : bytes.length ≠ 0 := by
    have hpos := List.length_pos_iff.mpr hrest
    rw [hbytes, List.length_take]
    omega
  have hbuffer : slice (store data carry.length bytes) 0 (carry.length + bytes.length - 0) =
      joinLines lines ++ tail := (slice_store_append hslice bytes).trans htext
  have hopen : lines = [] → tail = [] → 0 = 0 := fun _ _ => rfl
  have hcarried' : carried = true ↔ tail ≠ [] ∧
      newline ≠ store data carry.length bytes (carry.length + bytes.length) ∧
        bytes.length ≠ 0 ∧ (0 ≠ 0 ∨ lines ≠ []) := by
    rw [hcarried, hlast]
    constructor
    · rintro ⟨hsome, hfinished, hbehind⟩
      exact ⟨hsome, hbehind, hpos, .inr hfinished⟩
    · rintro ⟨hsome, hbehind, -, hfinished⟩
      exact ⟨hsome, hfinished.resolve_left (not_not.mpr rfl), hbehind⟩
  have hfuel : carry.length + bytes.length - 0 < carry.length + bytes.length + 1 := by omega
  obtain ⟨after, hscan, hmoved, hbyte⟩ := scanLines_joinLines fname output hne hs hbuffer
    (Nat.zero_le _) (by omega) hlines htail hzero hopen hcarried' hfuel
  refine ⟨after, ?_, hmoved, ?_⟩
  · have hread : (sliceCalls file).read rest (grepBufSize - carry.length) =
        some (bytes, rest.drop (1024 - carry.length)) := rfl
    rw [grepLoop, hread]
    dsimp only
    rw [hscan, Option.bind_some, if_neg hpos]
  · rw [hbyte, hlast, store_of_not_mem (.inr (by omega))]

theorem exists_piece (carry rest : List UInt8) (hcarry : carry.length < 1024) : ∃ lines tail,
    carry ++ rest.take (1024 - carry.length) = joinLines lines ++ tail ∧
      carry ++ rest = joinLines lines ++ tail ++ rest.drop (1024 - carry.length) ∧
      (∀ line ∈ lines, newline ∉ line) ∧ newline ∉ tail ∧
      (1024 ≤ (carry ++ rest).length → (joinLines lines ++ tail).length = 1024) := by
  obtain ⟨lines, tail, htext, hlines, htail⟩ :=
    exists_joinLines (carry ++ rest.take (1024 - carry.length))
  refine ⟨lines, tail, htext, ?_, hlines, htail, ?_⟩
  · rw [← htext, List.append_assoc, List.take_append_drop]
  · intro hsize
    rw [List.length_append] at hsize
    rw [← htext, List.length_append, List.length_take]
    omega

theorem foundLines_tail (hne : s ≠ []) (htail : newline ∉ tail)
    (hend : tail = [] ∨ rest = []) :
    reportLine s fname tail ++ foundLines s fname ([] ++ rest) =
      foundLines s fname (tail ++ rest) := by
  rcases hend with rfl | rfl
  · rw [reportLine_nil hne, List.nil_append]
  · rw [List.append_nil, List.append_nil, foundLines_of_not_mem htail,
      foundLines_of_not_mem List.not_mem_nil, reportLine_nil hne, List.append_nil]

/-- An unfinished line that is searched ends the file, since it is shorter than the
buffer and the byte behind the buffer does not end it. -/
theorem end_of_searched {bytes : List UInt8} (hbytes : carry.length + bytes.length ≤ 1024)
    (htail : newline ∉ tail) (hshort : ShortLines (tail ++ rest))
    (hsize : rest ≠ [] → (joinLines lines ++ tail).length = 1024)
    (hbehind : data 1024 ≠ newline ∨ (joinLines lines ++ tail ++ rest).length < 1024)
    (hsearched : ¬ (tail ≠ [] ∧ lines ≠ [] ∧
      newline ≠ store data carry.length bytes (joinLines lines ++ tail).length)) :
    tail = [] ∨ rest = [] := by
  by_contra hboth
  obtain ⟨hsome, hmore⟩ := not_or.mp hboth
  have hfull := hsize hmore
  have hdata : data 1024 ≠ newline := by
    apply hbehind.resolve_right
    rw [List.length_append]
    omega
  have hnolines : lines = [] := by
    by_contra hfinished
    apply hsearched
    refine ⟨hsome, hfinished, ?_⟩
    rw [hfull, store_of_not_mem (.inr hbytes)]
    exact hdata.symm
  have hlt := hshort.length_lt htail
  rw [hnolines] at hfull
  exact absurd hfull hlt.ne

/-- While the byte behind the buffer is not a newline, what is still to be read is
reported line by line. -/
theorem grepLoop_matches (file : List UInt8) {fuel : ℕ} (hne : s ≠ []) (hs : ∀ c ∈ s, c ≠ 0)
    (hslice : slice data 0 carry.length = carry) (hcarry : newline ∉ carry)
    (hzero : ∀ c ∈ carry ++ rest, c ≠ 0) (hshort : ShortLines (carry ++ rest))
    (hbehind : data 1024 ≠ newline ∨ (carry ++ rest).length < 1024) (hfuel : rest.length < fuel) :
    grepLoop (sliceCalls file) s fname fuel rest data carry.length output =
      some (0, output ++ foundLines s fname (carry ++ rest)) := by
  induction fuel generalizing data carry rest output with
  | zero => exact absurd hfuel (Nat.not_lt_zero _)
  | succ fuel ih =>
      have hlength := hshort.length_lt hcarry
      by_cases hrest : rest = []
      · subst hrest
        rw [List.append_nil] at hzero ⊢
        rw [grepLoop_end file hne hs hslice hcarry hlength hzero, foundLines_of_not_mem hcarry]
      have hpos := List.length_pos_iff.mpr hrest
      obtain ⟨lines, tail, htext, hwhole, hlines, htail, hfull⟩ :=
        exists_piece carry rest hlength
      have hbytes : carry.length + (rest.take (1024 - carry.length)).length ≤ 1024 := by
        rw [List.length_take]
        omega
      have hsize : rest.drop (1024 - carry.length) ≠ [] →
          (joinLines lines ++ tail).length = 1024 := by
        intro hmore
        apply hfull
        have hlt := List.length_pos_iff.mpr hmore
        rw [List.length_drop] at hlt
        rw [List.length_append]
        omega
      have hleft : (rest.drop (1024 - carry.length)).length < fuel := by
        rw [List.length_drop]
        omega
      rw [hwhole] at hzero hshort hbehind
      rw [hwhole, List.append_assoc, foundLines_joinLines_append hlines,
        ← List.append_assoc output]
      rw [List.append_assoc] at hshort
      have hshort' := hshort.of_append
      have hzero' : ∀ c ∈ tail ++ rest.drop (1024 - carry.length), c ≠ 0 := by
        intro c hc
        apply hzero
        rw [List.append_assoc]
        exact List.mem_append_right _ hc
      obtain ⟨carried, hcarried⟩ : ∃ carried : Bool, carried = true ↔
          tail ≠ [] ∧ lines ≠ [] ∧ newline ≠ store data carry.length
            (rest.take (1024 - carry.length)) (joinLines lines ++ tail).length :=
        ⟨_, decide_eq_true_iff⟩
      obtain ⟨after, hpiece, hmoved, hbyte⟩ := grepLoop_piece file fname output hne hs hslice
        hlength hrest htext hlines htail (fun c hc => hzero c (List.mem_append_left _ hc))
        hcarried fuel
      have hbehind' : after 1024 ≠ newline ∨
          (tail ++ rest.drop (1024 - carry.length)).length < 1024 := by
        rcases hbehind with hdata | hend
        · left
          rw [hbyte]
          split
          · decide
          · exact hdata
        · right
          simp only [List.length_append] at hend ⊢
          omega
      rw [hpiece]
      cases carried with
      | true =>
          rw [if_pos rfl, if_pos rfl, List.append_nil]
          exact ih (hmoved rfl) htail hzero' hshort' hbehind' hleft
      | false =>
          have hnone : slice after 0 ([] : List UInt8).length = [] := rfl
          have hend := end_of_searched hbytes htail hshort' hsize hbehind
            (fun h => Bool.false_ne_true (hcarried.mpr h))
          have hbehind'' : after 1024 ≠ newline ∨
              ([] ++ rest.drop (1024 - carry.length)).length < 1024 := by
            refine hbehind'.imp_right fun hlt => ?_
            rw [List.length_append] at hlt
            rw [List.nil_append]
            omega
          rw [← foundLines_tail hne htail hend, ← List.append_assoc]
          exact ih hnone List.not_mem_nil (fun c hc => hzero' c (List.mem_append_right _ hc))
            hshort'.of_append hbehind'' hleft

end Pieces

/-! ## The first line that is cut -/

/-- The line `a ++ b` of a file, cut behind `a` by the first end of a piece that is
not the end of a line. -/
structure CutLine (file front a b back : List UInt8) : Prop where
  file_eq : file = front ++ a ++ (b ++ back)
  starts : front = [] ∨ front.getLast? = some newline
  plain : newline ∉ a ++ b
  ends : back = [] ∨ back.head? = some newline
  left : a ≠ []
  right : b ≠ []
  boundary : 1024 ∣ (front ++ a).length
  first : ∀ e, 0 < e → e < (front ++ a).length → 1024 ∣ e → file[e - 1]? = some newline

/-- The first line that is cut contains the string. -/
def CutsMatch (s file : List UInt8) : Prop :=
  ∃ front a b back, CutLine file front a b back ∧ s <:+: a ++ b

/-- The string is found in the first line that is cut. -/
def CutsFound (s file : List UInt8) : Prop :=
  ∃ front a b back, CutLine file front a b back ∧ Found s (a ++ b)

theorem getLast?_append_of_newline {front a : List UInt8} (ha : newline ∉ a) (hsome : a ≠ []) :
    (front ++ a).getLast? ≠ some newline := by
  rw [List.getLast?_append_of_ne_nil _ hsome]
  intro hlast
  exact ha (List.mem_of_getLast? hlast)

theorem unfinished_unique {front front' a a' : List UInt8} (heq : front ++ a = front' ++ a')
    (hstarts : front = [] ∨ front.getLast? = some newline) (ha : newline ∉ a)
    (hstarts' : front' = [] ∨ front'.getLast? = some newline) (ha' : newline ∉ a') :
    front = front' ∧ a = a' := by
  have hkey : ∀ {front front' a a' x : List UInt8}, front' = front ++ x → a = x ++ a' →
      (front' = [] ∨ front'.getLast? = some newline) → newline ∉ a → x = [] := by
    rintro front front' a a' x rfl rfl hstarts ha
    by_contra hx
    rcases hstarts with hnil | hlast
    · exact hx (List.append_eq_nil_iff.mp hnil).2
    · have hplain : newline ∉ x := fun hmem => ha (List.mem_append_left _ hmem)
      exact getLast?_append_of_newline hplain hx hlast
  rcases List.append_eq_append_iff.mp heq with ⟨x, hfront, hrest⟩ | ⟨x, hfront, hrest⟩
  · obtain rfl := hkey hfront hrest hstarts' ha
    exact ⟨by rw [hfront, List.append_nil], by rw [hrest, List.nil_append]⟩
  · obtain rfl := hkey hfront hrest hstarts ha'
    exact ⟨by rw [hfront, List.append_nil], by rw [hrest, List.nil_append]⟩

theorem takeWhile_ne_newline {b back : List UInt8} (hb : newline ∉ b)
    (hends : back = [] ∨ back.head? = some newline) :
    (b ++ back).takeWhile (fun c => c ≠ newline) = b := by
  have hback : back.takeWhile (fun c => c ≠ newline) = [] := by
    rcases hends with rfl | hhead
    · rfl
    · obtain ⟨rest, rfl⟩ := List.head?_eq_some_iff.mp hhead
      simp
  rw [List.takeWhile_append_of_pos, hback, List.append_nil]
  intro c hc
  rw [decide_eq_true_iff]
  rintro rfl
  exact hb hc

namespace CutLine

variable {file rest chunk front a b back : List UInt8}

theorem length_front (hcut : CutLine file front a b back) : 1024 ≤ (front ++ a).length := by
  have hpos := List.length_pos_iff.mpr hcut.left
  apply Nat.le_of_dvd _ hcut.boundary
  rw [List.length_append]
  omega

theorem length_file (hcut : CutLine file front a b back) : 1024 < file.length := by
  have hlength := hcut.length_front
  have hpos := List.length_pos_iff.mpr hcut.right
  rw [hcut.file_eq]
  simp only [List.length_append] at hlength ⊢
  omega

theorem newline_not_mem_left (hcut : CutLine file front a b back) : newline ∉ a :=
  fun hmem => hcut.plain (List.mem_append_left _ hmem)

theorem getElem?_cut (hcut : CutLine file front a b back) :
    file[(front ++ a).length - 1]? ≠ some newline := by
  have hlength := hcut.length_front
  rw [hcut.file_eq, List.getElem?_append_left (by omega), ← List.getLast?_eq_getElem?]
  exact getLast?_append_of_newline hcut.newline_not_mem_left hcut.left

/-- A first piece that ends with a newline is not the one that cuts a line. -/
theorem of_append (hcut : CutLine (chunk ++ rest) front a b back) (hchunk : chunk.length = 1024)
    (hend : chunk.getLast? = some newline) :
    ∃ front', front = chunk ++ front' ∧ CutLine rest front' a b back := by
  have hlength := hcut.length_front
  have hbyte : (chunk ++ rest)[1023]? = some newline := by
    rw [List.getElem?_append_left (by omega), ← hend, List.getLast?_eq_getElem?, hchunk]
  have hlong : 2048 ≤ (front ++ a).length := by
    obtain ⟨k, hk⟩ := hcut.boundary
    by_contra hshort
    have hfirst : (front ++ a).length = 1024 := by omega
    have hbefore := hcut.getElem?_cut
    rw [hfirst] at hbefore
    exact hbefore hbyte
  -- the end of the piece before lies in front of the line
  have hfront : chunk.length ≤ front.length := by
    by_contra hshort
    have hmem : newline ∈ a := by
      have hprevious := hcut.first ((front ++ a).length - 1024) (by omega) (by omega)
        (Nat.dvd_sub hcut.boundary (dvd_refl _))
      rw [hcut.file_eq, List.getElem?_append_left (by omega),
        List.getElem?_append_right (by rw [List.length_append] at *; omega)] at hprevious
      exact List.mem_of_getElem? hprevious
    exact hcut.newline_not_mem_left hmem
  have hprefix : chunk <+: front := by
    apply List.prefix_of_prefix_length_le (List.prefix_append chunk rest) _ hfront
    rw [hcut.file_eq, List.append_assoc]
    exact List.prefix_append _ _
  obtain ⟨front', rfl⟩ := hprefix
  refine ⟨front', rfl, ?_, ?_, hcut.plain, hcut.ends, hcut.left, hcut.right, ?_, ?_⟩
  · have heq := hcut.file_eq
    rw [List.append_assoc chunk, List.append_assoc chunk] at heq
    exact List.append_cancel_left heq
  · by_cases hnil : front' = []
    · exact .inl hnil
    · right
      have hstarts := hcut.starts.resolve_left (by simp [hnil])
      rwa [List.getLast?_append_of_ne_nil _ hnil] at hstarts
  · have hboundary := hcut.boundary
    rw [List.append_assoc, List.length_append, hchunk] at hboundary
    exact (Nat.dvd_add_right (dvd_refl 1024)).mp hboundary
  · intro e hpos hlt hdvd
    have hfirst := hcut.first (1024 + e) (by omega)
      (by rw [List.append_assoc, List.length_append]; omega) (Nat.dvd_add (dvd_refl _) hdvd)
    rwa [List.getElem?_append_right (by omega), hchunk,
      show 1024 + e - 1 - 1024 = e - 1 by omega] at hfirst

theorem append_left (hcut : CutLine rest front a b back) (hchunk : chunk.length = 1024)
    (hend : chunk.getLast? = some newline) : CutLine (chunk ++ rest) (chunk ++ front) a b back := by
  refine ⟨?_, .inr ?_, hcut.plain, hcut.ends, hcut.left, hcut.right, ?_, ?_⟩
  · rw [hcut.file_eq]
    simp only [List.append_assoc]
  · rcases hcut.starts with rfl | hstarts
    · rw [List.append_nil, hend]
    · rw [List.getLast?_append, hstarts]
      rfl
  · rw [List.append_assoc, List.length_append, hchunk]
    exact Nat.dvd_add (dvd_refl _) hcut.boundary
  · intro e hpos hlt hdvd
    rw [List.append_assoc, List.length_append, hchunk] at hlt
    rcases Nat.lt_or_ge 1024 e with hmore | hle
    · have hfirst := hcut.first (e - 1024) (by omega) (by omega)
        (Nat.dvd_sub hdvd (dvd_refl _))
      rwa [List.getElem?_append_right (by omega), hchunk,
        show e - 1 - 1024 = e - 1024 - 1 by omega]
    · have heq : e = 1024 := by
        obtain ⟨k, rfl⟩ := hdvd
        omega
      rw [heq, List.getElem?_append_left (by omega), ← hend, List.getLast?_eq_getElem?, hchunk]

end CutLine

/-- A first piece that ends with a newline may be left out. -/
theorem cutsFound_append_iff {chunk rest : List UInt8} (hchunk : chunk.length = 1024)
    (hend : chunk.getLast? = some newline) :
    CutsFound s (chunk ++ rest) ↔ CutsFound s rest := by
  constructor
  · rintro ⟨front, a, b, back, hcut, hinfix⟩
    obtain ⟨front', -, hcut'⟩ := hcut.of_append hchunk hend
    exact ⟨front', a, b, back, hcut', hinfix⟩
  · rintro ⟨front, a, b, back, hcut, hinfix⟩
    exact ⟨chunk ++ front, a, b, back, hcut.append_left hchunk hend, hinfix⟩

def lineRest (text : List UInt8) : List UInt8 := text.takeWhile fun c => c ≠ newline

theorem exists_lineRest (text : List UInt8) : ∃ back,
    text = lineRest text ++ back ∧ newline ∉ lineRest text ∧
      (back = [] ∨ back.head? = some newline) := by
  refine ⟨text.dropWhile fun c => c ≠ newline, List.takeWhile_append_dropWhile.symm, ?_, ?_⟩
  · intro hmem
    simpa using List.mem_takeWhile_imp hmem
  · have hhead := List.head?_dropWhile_not (fun c => decide (c ≠ newline)) text
    cases hdrop : text.dropWhile fun c => c ≠ newline with
    | nil => exact .inl rfl
    | cons c rest =>
        rw [hdrop] at hhead
        right
        simpa using hhead

theorem joinLines_starts (lines : List (List UInt8)) :
    joinLines lines = [] ∨ (joinLines lines).getLast? = some newline := by
  rcases List.eq_nil_or_concat lines with rfl | ⟨front, line, rfl⟩
  · exact .inl rfl
  · right
    simp [joinLines, List.flatMap_append]

section FirstPiece

variable {lines : List (List UInt8)} {tail rest : List UInt8}

/-- The first piece ends in the middle of a line or in front of its newline. -/
theorem cutsFound_of_tail (htail : newline ∉ tail) (hsome : tail ≠ [])
    (hlength : (joinLines lines ++ tail).length = 1024) :
    CutsFound s (joinLines lines ++ tail ++ rest) ↔
      lineRest rest ≠ [] ∧ Found s (tail ++ lineRest rest) := by
  constructor
  · rintro ⟨front, a, b, back, hcut, hinfix⟩
    have hfront := hcut.length_front
    have hfirst : (front ++ a).length = (joinLines lines ++ tail).length := by
      by_contra hne
      have hnewline := hcut.first 1024 (by omega) (by omega) (dvd_refl _)
      rw [List.getElem?_append_left (by omega), ← hlength, ← List.getLast?_eq_getElem?]
        at hnewline
      exact getLast?_append_of_newline htail hsome hnewline
    obtain ⟨hpiece, hrest⟩ := List.append_inj hcut.file_eq hfirst.symm
    obtain ⟨-, rfl⟩ := unfinished_unique hpiece (joinLines_starts lines) htail hcut.starts
      hcut.newline_not_mem_left
    have hb : newline ∉ b := fun hmem => hcut.plain (List.mem_append_right _ hmem)
    rw [hrest, lineRest, takeWhile_ne_newline hb hcut.ends]
    exact ⟨hcut.right, hinfix⟩
  · rintro ⟨hright, hinfix⟩
    obtain ⟨back, hrest, hplain, hends⟩ := exists_lineRest rest
    refine ⟨joinLines lines, tail, lineRest rest, back, ?_, hinfix⟩
    refine ⟨by rw [← hrest], joinLines_starts lines, by simp [htail, hplain], hends, hsome, hright,
      by rw [hlength], ?_⟩
    intro e hpos hlt hdvd
    rw [hlength] at hlt
    exact absurd (Nat.le_of_dvd hpos hdvd) (not_le.mpr hlt)

/-- Two halves of a line are reported like the line when there is no second half or
nothing to be found. -/
theorem reportLine_halves_iff {a b : List UInt8} (hne : s ≠ []) (ha : a ≠ []) :
    reportLine s fname a ++ reportLine s fname b = reportLine s fname (a ++ b) ↔
      ¬ (b ≠ [] ∧ Found s (a ++ b)) := by
  have hapos := List.length_pos_iff.mpr ha
  constructor
  · rintro heq ⟨hb, hinfix⟩
    have hbpos := List.length_pos_iff.mpr hb
    have hlength := congrArg List.length heq
    unfold reportLine report at hlength
    rw [if_pos hinfix] at hlength
    have hnewline : (ascii "\n").length = 1 := rfl
    have hcolon : (ascii ":").length = 1 := rfl
    split_ifs at hlength <;>
      simp only [List.length_append, List.length_nil, hnewline, hcolon] at hlength <;> omega
  · intro hnot
    by_cases hb : b = []
    · rw [hb, reportLine_nil hne, List.append_nil, List.append_nil]
    · have hinfix : ¬ Found s (a ++ b) := fun h => hnot ⟨hb, h⟩
      have hleft : ¬ Found s a := fun h =>
        hinfix ⟨h.1, h.2.trans (List.prefix_append a b).isInfix⟩
      have hright : ¬ Found s b := fun h =>
        hinfix ⟨h.1, h.2.trans (List.suffix_append a b).isInfix⟩
      rw [reportLine, if_neg hleft, reportLine, if_neg hright, reportLine, if_neg hinfix]
      rfl

/-- What follows the first newline is reported in the same way, whatever is put in front. -/
theorem foundLines_lineRest (s fname rest : List UInt8) : ∃ others, ∀ front,
    newline ∉ front → foundLines s fname (front ++ rest) =
      reportLine s fname (front ++ lineRest rest) ++ others := by
  obtain ⟨back, hrest, hplain, hends⟩ := exists_lineRest rest
  rcases hends with rfl | hhead
  · refine ⟨[], fun front hfront => ?_⟩
    rw [List.append_nil] at hrest
    rw [← hrest, List.append_nil, foundLines_of_not_mem]
    rw [hrest]
    simp [hfront, hplain]
  · obtain ⟨others, rfl⟩ := List.head?_eq_some_iff.mp hhead
    refine ⟨foundLines s fname others, fun front hfront => ?_⟩
    conv_lhs => rw [hrest]
    rw [← List.append_assoc, foundLines_append_newline, foundLines_of_not_mem]
    simp [hfront, hplain]

end FirstPiece

/-! ## The whole file -/

/-- The newline behind the buffer ends what is left of the piece. -/
theorem grepLoop_stale_piece (file fname output : List UInt8) {data : ℕ → UInt8}
    {rest tail : List UInt8} {lines : List (List UInt8)} (hne : s ≠ []) (hs : ∀ c ∈ s, c ≠ 0)
    (hzero : ∀ c ∈ rest, c ≠ 0) (hmore : 1024 ≤ rest.length)
    (htext : rest.take 1024 = joinLines lines ++ tail) (hlines : ∀ line ∈ lines, newline ∉ line)
    (htail : newline ∉ tail) (hdata : data 1024 = newline) (fuel : ℕ) :
    ∃ after,
      grepLoop (sliceCalls file) s fname (fuel + 1) rest data 0 output =
        grepLoop (sliceCalls file) s fname fuel (rest.drop 1024) after 0
          (output ++ (lines.flatMap (reportLine s fname) ++ reportLine s fname tail)) ∧
      after 1024 = if tail = [] then newline else 0 := by
  have hnone : slice data 0 ([] : List UInt8).length = [] := rfl
  have hrest : rest ≠ [] := List.length_pos_iff.mp (by omega)
  have hsize : (joinLines lines ++ tail).length = 1024 := by
    rw [← htext, List.length_take]
    omega
  have hzero' : ∀ c ∈ joinLines lines ++ tail, c ≠ 0 := by
    rw [← htext]
    exact fun c hc => hzero c (List.mem_of_mem_take hc)
  have hbyte : store data 0 (rest.take 1024) 1024 = newline := by
    rw [store_of_not_mem (.inr (by rw [List.length_take]; omega)), hdata]
  have hstay : false = true ↔ tail ≠ [] ∧ lines ≠ [] ∧ newline ≠
      store data ([] : List UInt8).length (rest.take (1024 - 0))
        (joinLines lines ++ tail).length := by
    rw [hsize]
    exact iff_of_false Bool.false_ne_true fun h => h.2.2 hbyte.symm
  obtain ⟨after, hpiece, -, hafter⟩ := grepLoop_piece file fname output hne hs hnone
    (by decide) hrest htext hlines htail hzero' hstay fuel
  refine ⟨after, ?_, ?_⟩
  · rw [← List.append_assoc]
    exact hpiece
  · rw [hafter, hdata]
    by_cases hnil : tail = []
    · rw [if_pos hnil, if_neg (fun h => h.1 hnil)]
    · rw [if_neg hnil, if_pos ⟨hnil, hsize⟩]

/-- With a newline behind the buffer the loop still comes to its end, and reports the
matching lines exactly if the first line that is cut is not one of them. -/
theorem grepLoop_stale (file fname : List UInt8) {rest : List UInt8} (hne : s ≠ [])
    (hs : ∀ c ∈ s, c ≠ 0) (hzero : ∀ c ∈ rest, c ≠ 0) (hshort : ShortLines rest) :
    ∃ reported, (reported = foundLines s fname rest ↔ ¬ CutsFound s rest) ∧
      ∀ fuel data output, data 1024 = newline → rest.length < fuel →
        grepLoop (sliceCalls file) s fname fuel rest data 0 output =
          some (0, output ++ reported) := by
  induction hn : rest.length using Nat.strong_induction_on generalizing rest with
  | h n ih =>
      subst hn
      rcases Nat.lt_or_ge rest.length 1024 with hless | hmore
      · refine ⟨foundLines s fname rest, iff_of_true rfl ?_, ?_⟩
        · rintro ⟨front, a, b, back, hcut, -⟩
          have hlong := hcut.length_file
          omega
        · intro fuel data output _ hfuel
          have hnone : slice data 0 ([] : List UInt8).length = [] := rfl
          exact grepLoop_matches file hne hs hnone List.not_mem_nil hzero hshort (.inr hless) hfuel
      obtain ⟨lines, tail, htext, hrest, hlines, htail, hfull⟩ :=
        exists_piece [] rest (by decide)
      have htext : rest.take 1024 = joinLines lines ++ tail := htext
      have hrest : rest = joinLines lines ++ tail ++ rest.drop 1024 := hrest
      have hsize := hfull hmore
      have hleft : (rest.drop 1024).length < rest.length := by
        rw [List.length_drop]
        omega
      have hzero' : ∀ c ∈ rest.drop 1024, c ≠ 0 := fun c hc => hzero c (List.mem_of_mem_drop hc)
      have hshort' : ShortLines (rest.drop 1024) := by
        rw [hrest] at hshort
        exact hshort.of_append
      have hround := fun fuel (data : ℕ → UInt8) output (hdata : data 1024 = newline) =>
        grepLoop_stale_piece file fname output hne hs hzero hmore htext hlines htail hdata fuel
      have hall : foundLines s fname rest = lines.flatMap (reportLine s fname) ++
          foundLines s fname (tail ++ rest.drop 1024) := by
        rw [← foundLines_joinLines_append hlines, ← List.append_assoc, ← hrest]
      by_cases hnil : tail = []
      · subst hnil
        obtain ⟨reported, hiff, hrun⟩ := ih _ hleft hzero' hshort' rfl
        rw [List.append_nil] at hrest hsize
        refine ⟨lines.flatMap (reportLine s fname) ++ reported, ?_, ?_⟩
        · have hend : (joinLines lines).getLast? = some newline := by
            apply (joinLines_starts lines).resolve_left
            intro hempty
            rw [hempty] at hsize
            exact absurd hsize (by decide)
          have hcuts : CutsFound s rest ↔ CutsFound s (rest.drop 1024) := by
            conv_lhs => rw [hrest]
            exact cutsFound_append_iff hsize hend
          rw [hcuts, ← hiff, hall, List.append_right_inj, List.nil_append]
        · intro fuel data output hdata hfuel
          obtain ⟨fuel, rfl⟩ : ∃ n, fuel = n + 1 := ⟨fuel - 1, by omega⟩
          obtain ⟨after, hstep, hafter⟩ := hround fuel data output hdata
          rw [if_pos rfl] at hafter
          rw [hstep, hrun fuel after _ hafter (by omega), reportLine_nil hne, List.append_nil,
            List.append_assoc]
      · refine ⟨lines.flatMap (reportLine s fname) ++ (reportLine s fname tail ++
          foundLines s fname (rest.drop 1024)), ?_, ?_⟩
        · obtain ⟨others, hothers⟩ := foundLines_lineRest s fname (rest.drop 1024)
          have hwhole := hothers tail htail
          have hhalf := hothers [] List.not_mem_nil
          rw [List.nil_append, List.nil_append] at hhalf
          rw [hall, List.append_right_inj, hwhole, hhalf, ← List.append_assoc,
            List.append_left_inj, reportLine_halves_iff hne hnil,
            ← cutsFound_of_tail htail hnil hsize, ← hrest]
        · intro fuel data output hdata hfuel
          obtain ⟨fuel, rfl⟩ : ∃ n, fuel = n + 1 := ⟨fuel - 1, by omega⟩
          obtain ⟨after, hstep, hafter⟩ := hround fuel data output hdata
          rw [if_neg hnil] at hafter
          have hnone : slice after 0 ([] : List UInt8).length = [] := rfl
          have hbehind : after 1024 ≠ newline := by
            rw [hafter]
            decide
          rw [hstep]
          refine (grepLoop_matches file hne hs hnone List.not_mem_nil hzero' hshort'
            (.inl hbehind) (by omega)).trans ?_
          simp only [List.nil_append, List.append_assoc]

theorem cutsFound_iff {file : List UInt8} :
    CutsFound s file ↔ 0 ≤ charValue (stringBytes s 0) ∧ CutsMatch s file := by
  constructor
  · rintro ⟨front, a, b, back, hcut, hchar, hinfix⟩
    exact ⟨hchar, front, a, b, back, hcut, hinfix⟩
  · rintro ⟨hchar, front, a, b, back, hcut, hinfix⟩
    exact ⟨front, a, b, back, hcut, hchar, hinfix⟩

theorem CutLine.mem_splitOn {file front a b back : List UInt8}
    (hcut : CutLine file front a b back) : a ++ b ∈ file.splitOn newline := by
  have hline : ∀ text, text = [] ∨ text.head? = some newline →
      a ++ b ∈ (a ++ b ++ text).splitOn newline := by
    rintro text (rfl | hhead)
    · rw [List.append_nil, List.splitOn_eq_singleton hcut.plain]
      exact List.mem_singleton_self _
    · obtain ⟨others, rfl⟩ := List.head?_eq_some_iff.mp hhead
      rw [List.splitOn_append_cons_self_of_not_mem hcut.plain]
      exact List.mem_cons_self
  have hfile : file = front ++ (a ++ b ++ back) := by
    rw [hcut.file_eq, List.append_assoc, List.append_assoc]
  rw [hfile]
  rcases hcut.starts with rfl | hlast
  · exact hline back hcut.ends
  · obtain ⟨lines, rfl⟩ := List.getLast?_eq_some_iff.mp hlast
    rw [List.append_assoc, List.singleton_append, List.splitOn_append_cons_self]
    exact List.mem_append_right _ (hline back hcut.ends)

/-- `do_one_file` returns, and its output has one line for each line of the file that
contains `s`. -/
def ReportsMatches (s fname file : List UInt8) (data : ℕ → UInt8) : Prop :=
  ∀ fuel, file.length < fuel → doOneFile (sliceCalls file) s fname data fuel =
    some (0, matchingLines s fname file)

section File

variable {file : List UInt8} {data : ℕ → UInt8}

theorem doOneFile_returns (fname : List UInt8) (data : ℕ → UInt8) (hne : s ≠ [])
    (hs : ∀ c ∈ s, c ≠ 0) (hzero : ∀ c ∈ file, c ≠ 0) (hshort : ShortLines file) :
    ∃ reported, (reported = foundLines s fname file ↔
        (data 1024 = newline → ¬ CutsFound s file)) ∧
      ∀ fuel, file.length < fuel →
        doOneFile (sliceCalls file) s fname data fuel = some (0, reported) := by
  by_cases hdata : data 1024 = newline
  · obtain ⟨reported, hiff, hrun⟩ := grepLoop_stale file fname hne hs hzero hshort
    refine ⟨reported, ?_, fun fuel hfuel => hrun fuel data [] hdata hfuel⟩
    rw [hiff]
    exact ⟨fun h _ => h, fun h => h hdata⟩
  · refine ⟨foundLines s fname file, iff_of_true rfl fun h => absurd h hdata, ?_⟩
    intro fuel hfuel
    have hnone : slice data 0 ([] : List UInt8).length = [] := rfl
    exact grepLoop_matches file hne hs hnone List.not_mem_nil hzero hshort (.inl hdata) hfuel

theorem reportsMatches_iff_eq {reported : List UInt8}
    (hrun : ∀ fuel, file.length < fuel →
      doOneFile (sliceCalls file) s fname data fuel = some (0, reported)) :
    ReportsMatches s fname file data ↔ reported = matchingLines s fname file := by
  constructor
  · intro hreports
    have hsame := (hrun _ (Nat.lt_succ_self _)).symm.trans (hreports _ (Nat.lt_succ_self _))
    exact congrArg Prod.snd (Option.some.inj hsame)
  · rintro rfl fuel hfuel
    exact hrun fuel hfuel

/-- `grep` reports the matching lines of a file exactly if there are none, or the first
character of the string is not negative and besides the byte behind the buffer is no
newline at first or the first line that is cut at the end of a piece does not contain the
string. -/
theorem doOneFile_reports_iff (hne : s ≠ []) (hs : ∀ c ∈ s, c ≠ 0) (hzero : ∀ c ∈ file, c ≠ 0)
    (hshort : ShortLines file) :
    ReportsMatches s fname file data ↔
      (0 ≤ charValue (stringBytes s 0) ∧ (data 1024 = newline → ¬ CutsMatch s file)) ∨
        ∀ line ∈ file.splitOn newline, ¬ s <:+: line := by
  obtain ⟨reported, hiff, hrun⟩ := doOneFile_returns fname data hne hs hzero hshort
  have hnone : (∀ line ∈ file.splitOn newline, ¬ s <:+: line) → ¬ CutsMatch s file := by
    rintro hnone ⟨front, a, b, back, hcut, hinfix⟩
    exact hnone _ hcut.mem_splitOn hinfix
  rw [reportsMatches_iff_eq hrun]
  by_cases hchar : 0 ≤ charValue (stringBytes s 0)
  · rw [foundLines_eq hchar, cutsFound_iff] at hiff
    rw [hiff]
    constructor
    · intro hbehind
      exact .inl ⟨hchar, fun hdata hcuts => hbehind hdata ⟨hchar, hcuts⟩⟩
    · rintro (⟨-, hbehind⟩ | hall) hdata hcuts
      · exact hbehind hdata hcuts.2
      · exact hnone hall hcuts.2
  · rw [foundLines_of_neg hchar, cutsFound_iff] at hiff
    obtain rfl := hiff.mpr fun _ hcuts => hchar hcuts.1
    rw [eq_comm, matchingLines_eq_nil_iff]
    exact ⟨.inr, fun h => h.resolve_left fun hleft => hchar hleft.1⟩

end File

/-- A file of less than one piece, with a newline behind the buffer. -/
def shortFile : List UInt8 := ascii "one fish\ntwo fish\nred"

theorem doOneFile_reports_shortFile :
    ReportsMatches (ascii "fish") (ascii "verse1.txt") shortFile fun _ => newline := by
  have hshort : ShortLines shortFile := by
    unfold ShortLines
    decide
  have hs : ∀ c ∈ ascii "fish", c ≠ 0 := List.forall_mem_ne'.mpr (by decide)
  have hzero : ∀ c ∈ shortFile, c ≠ 0 := List.forall_mem_ne'.mpr (by decide)
  refine (doOneFile_reports_iff (by decide) hs hzero hshort).mpr (.inl ⟨by decide, fun _ => ?_⟩)
  rintro ⟨front, a, b, back, hcut, -⟩
  exact absurd hcut.length_file (by decide)

/-- A line of `n` letters and one of 24. -/
def cutFile (n : ℕ) : List UInt8 :=
  List.replicate n 0x78 ++ newline :: (List.replicate 23 0x79 ++ [0x7A])

section CutFile

variable {n : ℕ}

theorem cutFile_line (hn : n + 24 = 1024) : CutLine (cutFile n)
    (List.replicate n 0x78 ++ [newline]) (List.replicate 23 0x79) [0x7A] [] where
  file_eq := by
    rw [cutFile, List.append_nil, List.append_assoc, List.append_assoc, List.singleton_append]
  starts := .inr List.getLast?_concat
  plain := by decide
  ends := .inl rfl
  left := by decide
  right := by decide
  boundary := by
    simp only [List.length_append, List.length_replicate, List.length_singleton]
    omega
  first e hpos hlt hdvd := by
    simp only [List.length_append, List.length_replicate, List.length_singleton] at hlt
    exact absurd (Nat.le_of_dvd hpos hdvd) (by omega)

theorem cutFile_short (hn : n < 1024) : ShortLines (cutFile n) := by
  have hplain : newline ∉ List.replicate n (0x78 : UInt8) := by
    rw [List.mem_replicate]
    exact fun h => absurd h.2 (by decide)
  intro line hline
  rw [cutFile, List.splitOn_append_cons_self_of_not_mem hplain,
    List.splitOn_eq_singleton (by decide)] at hline
  rcases List.mem_cons.mp hline with rfl | hlast
  · rw [List.length_replicate]
    exact hn
  · rw [List.mem_singleton.mp hlast]
    decide

theorem cutFile_ne_zero : ∀ c ∈ cutFile n, c ≠ 0 := by
  intro c hc
  rw [cutFile, List.mem_append, List.mem_replicate] at hc
  rcases hc with ⟨-, rfl⟩ | hc
  · decide
  · exact List.forall_mem_ne'.mpr (by decide) c hc

end CutFile

/-- The stack holds a newline behind the buffer, and the second line is cut in front of
its last letter: it is not reported. -/
theorem doOneFile_cuts_line :
    ShortLines (cutFile 1000) ∧ (∀ c ∈ cutFile 1000, c ≠ 0) ∧
      ¬ ReportsMatches (ascii "y") (ascii "frame0.txt") (cutFile 1000) fun _ => newline := by
  have hshort : ShortLines (cutFile 1000) := cutFile_short (by decide)
  refine ⟨hshort, cutFile_ne_zero, fun hreports => ?_⟩
  obtain ⟨reported, hiff, hrun⟩ := doOneFile_returns (s := ascii "y") (ascii "frame0.txt")
    (fun _ => newline) (by decide) (List.forall_mem_ne'.mpr (by decide)) cutFile_ne_zero hshort
  have hchar : 0 ≤ charValue (stringBytes (ascii "y") 0) := by decide
  rw [reportsMatches_iff_eq hrun, ← foundLines_eq hchar, hiff] at hreports
  exact hreports rfl ⟨_, _, _, _, cutFile_line (by decide), hchar, by decide⟩

end VirtualOS
