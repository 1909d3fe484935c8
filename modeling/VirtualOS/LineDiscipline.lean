import VirtualOS.LineCounter
import Mathlib.Tactic

/-!
# Lines are delivered once, in order and unaltered

The user types lines on a terminal and a process reads them.  The specification
keeps the submitted lines apart from the line that is still edited; the kernel
keeps one flat buffer and two counters.  Unless a backspace is typed on an empty
line while a submitted line waits, what the reads return is the sequence of the
submitted lines.
-/

namespace VirtualOS

open PartialRuns

/-! ## The specification -/

/-- All lines submitted so far, the number of those that have been read, and the
line that is edited. -/
structure Lines where
  submitted : List (List UInt8)
  taken : ℕ
  current : List UInt8

namespace Lines

def unread (lines : Lines) : List (List UInt8) := lines.submitted.drop lines.taken

/-- The bytes that wait: the lines which are not read and the current line. -/
def waiting (lines : Lines) : List UInt8 := lines.unread.flatten ++ lines.current

end Lines

/-- A character goes to the current line unless 127 bytes wait, a backspace takes
the last character of the current line, Enter submits the line unless 128 bytes
wait, and a read takes the next line. -/
def linesStep (lines : Lines) : ConsoleOp → Lines
  | .type c =>
      if lines.waiting.length ≥ 127 then lines
      else { lines with current := lines.current ++ [c] }
  | .erase => { lines with current := lines.current.dropLast }
  | .enter =>
      if lines.waiting.length = 128 then lines
      else
        { lines with
          submitted := lines.submitted ++ [lines.current ++ [newline]]
          current := [] }
  | .read _ => { lines with taken := lines.taken + 1 }
  | _ => lines

theorem linesStep_type (lines : Lines) (c : UInt8) :
    linesStep lines (.type c) = if lines.waiting.length ≥ 127 then lines
      else { lines with current := lines.current ++ [c] } := rfl

theorem linesStep_enter (lines : Lines) :
    linesStep lines .enter = if lines.waiting.length = 128 then lines
      else { lines with
        submitted := lines.submitted ++ [lines.current ++ [newline]]
        current := [] } := rfl

/-- The kernel's buffer agrees with the specification. -/
structure Tracks (console : Console) (lines : Lines) : Prop where
  counted : console.Counted
  pending_eq : console.pending = lines.waiting
  taken_le : lines.taken ≤ lines.submitted.length
  current_plain : newline ∉ lines.current
  line_end : ∀ line ∈ lines.submitted, ∃ text, newline ∉ text ∧ line = text ++ [newline]

/-! ## One operation -/

namespace Tracks

variable {console next : Console} {lines : Lines}

theorem type {c : UInt8} (htracks : Tracks console lines) (hplain : c ≠ newline)
    (hstep : consoleStep console (.type c) = some next) :
    Tracks next (linesStep lines (.type c)) := by
  have hfits : ConsoleOp.Fits console (.type c) := trivial
  have hqueue := (consoleStep_queue htracks.counted.bounded hfits hstep).2
  have hpending : next.pending = (queueStep console.queue (.type c)).bytes :=
    congrArg KeyQueue.bytes hqueue
  have hbytes : console.queue.bytes = lines.waiting := htracks.pending_eq
  have hkeeps : ConsoleOp.KeepsLines console (.type c) := trivial
  have hcounted := htracks.counted.step hkeeps hplain hstep
  rw [queueStep, hbytes] at hpending
  rw [linesStep_type]
  by_cases hfull : lines.waiting.length ≥ 127
  · rw [if_pos hfull] at hpending ⊢
    exact ⟨hcounted, hpending.trans hbytes, htracks.taken_le, htracks.current_plain,
      htracks.line_end⟩
  · rw [if_neg hfull] at hpending ⊢
    refine ⟨hcounted, ?_, htracks.taken_le, ?_, htracks.line_end⟩
    · rw [hpending]
      simp [Lines.waiting, Lines.unread]
    · simp [htracks.current_plain, Ne.symm hplain]

/-- Where the last waiting byte is not a newline, it belongs to the current line. -/
theorem dropLast_waiting (htracks : Tracks console lines)
    (hlast : console.pending.getLast? ≠ some newline) :
    lines.waiting.dropLast = lines.unread.flatten ++ lines.current.dropLast := by
  rw [htracks.pending_eq] at hlast
  unfold Lines.waiting at hlast ⊢
  by_cases hcurrent : lines.current = []
  · rw [hcurrent, List.append_nil] at hlast ⊢
    rcases List.eq_nil_or_concat lines.unread with hnil | ⟨front, line, hlines⟩
    · simp [hnil]
    · have hmem : line ∈ lines.submitted := by
        apply List.mem_of_mem_drop (i := lines.taken)
        change line ∈ lines.unread
        simp [hlines]
      obtain ⟨text, -, rfl⟩ := htracks.line_end line hmem
      rw [hlines] at hlast
      simp at hlast
  · exact List.dropLast_append_of_ne_nil hcurrent

theorem erase (htracks : Tracks console lines)
    (hlast : console.pending.getLast? ≠ some newline)
    (hstep : consoleStep console .erase = some next) :
    Tracks next (linesStep lines .erase) := by
  have hfits : ConsoleOp.Fits console .erase := trivial
  have hqueue := (consoleStep_queue htracks.counted.bounded hfits hstep).2
  have hkeeps : ConsoleOp.KeepsLines console .erase := hlast
  have hpending : next.pending = console.pending.dropLast :=
    congrArg KeyQueue.bytes hqueue
  refine ⟨htracks.counted.step hkeeps trivial hstep, ?_, htracks.taken_le, ?_,
    htracks.line_end⟩
  · rw [hpending, htracks.pending_eq, htracks.dropLast_waiting hlast]
    rfl
  · exact fun hmem => htracks.current_plain (List.mem_of_mem_dropLast hmem)

theorem enter (htracks : Tracks console lines)
    (hstep : consoleStep console .enter = some next) :
    Tracks next (linesStep lines .enter) := by
  have hfits : ConsoleOp.Fits console .enter := trivial
  have hqueue := (consoleStep_queue htracks.counted.bounded hfits hstep).2
  have hkeeps : ConsoleOp.KeepsLines console .enter := trivial
  have hpending : next.pending = (queueStep console.queue .enter).bytes :=
    congrArg KeyQueue.bytes hqueue
  have hbytes : console.queue.bytes = lines.waiting := htracks.pending_eq
  have hcounted := htracks.counted.step hkeeps trivial hstep
  rw [queueStep, hbytes] at hpending
  rw [linesStep_enter]
  by_cases hfull : lines.waiting.length = 128
  · rw [if_pos hfull] at hpending ⊢
    exact ⟨hcounted, hpending.trans hbytes, htracks.taken_le, htracks.current_plain,
      htracks.line_end⟩
  · rw [if_neg hfull] at hpending ⊢
    refine ⟨hcounted, ?_, ?_, by simp, ?_⟩
    · rw [hpending]
      simp [Lines.waiting, Lines.unread, List.drop_append_of_le_length htracks.taken_le]
    · have hle := htracks.taken_le
      simp only [List.length_append, List.length_singleton]
      omega
    · intro line hmem
      rcases List.mem_append.mp hmem with hold | hnew
      · exact htracks.line_end line hold
      · exact ⟨lines.current, htracks.current_plain, List.mem_singleton.mp hnew⟩

/-- A reader that does not wait finds the next line at the front. -/
theorem unread_eq_cons (htracks : Tracks console lines) (hflag : console.bufFlag ≠ 0) :
    ∃ text rest, newline ∉ text ∧ lines.unread = (text ++ [newline]) :: rest := by
  have hmem : newline ∈ console.pending := by
    by_contra hnone
    exact hflag (htracks.counted.flag_eq_zero_iff.mpr hnone)
  rw [htracks.pending_eq] at hmem
  cases hunread : lines.unread with
  | nil =>
      rw [Lines.waiting, hunread] at hmem
      exact absurd hmem htracks.current_plain
  | cons line rest =>
      have hline : line ∈ lines.submitted := by
        apply List.mem_of_mem_drop (i := lines.taken)
        change line ∈ lines.unread
        simp [hunread]
      obtain ⟨text, hplain, rfl⟩ := htracks.line_end line hline
      exact ⟨text, rest, hplain, rfl⟩

theorem read {nbytes : ℕ} {bytes : List UInt8} (htracks : Tracks console lines)
    (hnbytes : 128 ≤ nbytes) (hread : console.read nbytes = some (next, bytes)) :
    Tracks next (linesStep lines (.read nbytes)) ∧
      lines.submitted[lines.taken]? = some bytes := by
  have hflag : console.bufFlag ≠ 0 := by
    intro hzero
    rw [Console.read, if_pos hzero] at hread
    contradiction
  obtain ⟨text, rest, hplain, hunread⟩ := htracks.unread_eq_cons hflag
  have hwaiting : console.pending = text ++ newline :: (rest.flatten ++ lines.current) := by
    rw [htracks.pending_eq, Lines.waiting, hunread]
    simp
  have hlength : text.length < nbytes := by
    have hbound := console.length_pending
    have hmax := htracks.counted.bounded.2
    rw [hwaiting, List.length_append, List.length_cons] at hbound
    omega
  have hline := takeLine_line hplain hlength (rest.flatten ++ lines.current)
  rw [← hwaiting] at hline
  have hmem : newline ∈ console.pending := by
    rw [hwaiting]
    simp
  obtain ⟨hbytes, hpending, -, -, -⟩ :=
    Console.read_pending htracks.counted.bounded (.inr hmem) hread
  rw [hline] at hbytes
  have hstep : consoleStep console (.read nbytes) = some next := by
    rw [consoleStep, hread]
    rfl
  have hkeeps : ConsoleOp.KeepsLines console (.read nbytes) := by
    have hle : console.pending.length ≤ nbytes := by
      have hmax := htracks.counted.bounded.2
      rw [console.length_pending]
      omega
    rw [ConsoleOp.KeepsLines, List.take_of_length_le hle]
    exact hmem
  have hdrop : lines.submitted.drop (lines.taken + 1) = rest := by
    rw [← List.drop_drop]
    change List.drop 1 lines.unread = rest
    rw [hunread]
    rfl
  have hget : lines.submitted[lines.taken]? = some bytes := by
    have hhead : lines.unread[0]? = some (text ++ [newline]) := by
      rw [hunread]
      rfl
    rw [Lines.unread, List.getElem?_drop, Nat.add_zero] at hhead
    rw [hhead, hbytes]
  refine ⟨⟨htracks.counted.step hkeeps trivial hstep, ?_, ?_, htracks.current_plain,
    htracks.line_end⟩, hget⟩
  · rw [hbytes, hwaiting] at hpending
    change next.pending = (lines.submitted.drop (lines.taken + 1)).flatten ++ lines.current
    rw [hdrop]
    simpa using hpending.symm
  · exact (List.getElem?_eq_some_iff.mp hget).1

end Tracks

/-! ## Keys and reads on the kernel -/

/-- A key on the displayed terminal or a read of its process. -/
inductive LineOp where
  | key (scancode : ℕ) (cpu : Cpu) (frame : StackFrame)
  | read (nbytes : ℕ)

def lineStep (img : Image) (s : Kernel) : LineOp → Option (Kernel × Option (List UInt8))
  | .key scancode cpu frame =>
      (keyboardHandler img s scancode cpu frame).map fun next => (next, none)
  | .read nbytes => (terminalRead s nbytes).map fun result => (result.1, some result.2)

def lineNext (img : Image) (s : Kernel) (op : LineOp) : Option Kernel :=
  (lineStep img s op).map Prod.fst

/-- The operations of the line discipline that an operation stands for. -/
def lineOps (s : Kernel) : LineOp → List ConsoleOp
  | .key scancode _ _ => (keyOps s scancode).2
  | .read nbytes => [.read nbytes]

/-- The lines typed and taken in a run, according to the specification. -/
def typedLines (img : Image) (s : Kernel) (ops : List LineOp) : Lines :=
  (translate (lineNext img) lineOps s ops).foldl linesStep ⟨[], 0, []⟩

/-- Neither Tab nor Ctrl+L nor a switch to another terminal, and reads of at least
128 bytes. -/
def LineOp.Ordinary (s : Kernel) : LineOp → Prop
  | .key scancode _ _ =>
      scancode ≠ 0x0F ∧ ¬ (s.ctrlPress ∧ keyOf keyboardOriginal scancode = 0x6C) ∧
        (scancode = 0x3B ∨ scancode = 0x3C ∨ scancode = 0x3D → s.altPress = false)
  | .read nbytes => 128 ≤ nbytes

/-- A backspace is not typed on an empty line while a submitted line waits. -/
def LineOp.SparesLines (s : Kernel) : LineOp → Prop
  | .key scancode _ _ =>
      scancode = 0x0E →
        (s.consoles s.terminalDisplayed).pending.getLast? ≠ some newline
  | .read _ => True

/-- What a step of the kernel does to the console of the displayed terminal. -/
inductive LineEffect (s next : Kernel) (op : LineOp) : Option (List UInt8) → Prop where
  | idle (hops : lineOps s op = []) (hconsoles : next.consoles = s.consoles) :
      LineEffect s next op none
  | typed (c : UInt8) (hops : lineOps s op = [.type c]) (hplain : c ≠ newline)
      (hstep : consoleStep (s.consoles s.terminalDisplayed) (.type c) =
        some (next.consoles s.terminalDisplayed)) : LineEffect s next op none
  | erased (cpu : Cpu) (frame : StackFrame) (hop : op = .key 0x0E cpu frame)
      (hops : lineOps s op = [.erase])
      (hstep : consoleStep (s.consoles s.terminalDisplayed) .erase =
        some (next.consoles s.terminalDisplayed)) : LineEffect s next op none
  | entered (hops : lineOps s op = [.enter])
      (hstep : consoleStep (s.consoles s.terminalDisplayed) .enter =
        some (next.consoles s.terminalDisplayed)) : LineEffect s next op none
  | taken (nbytes : ℕ) (bytes : List UInt8) (hop : op = .read nbytes)
      (hread : (s.consoles s.terminalDisplayed).read nbytes =
        some (next.consoles s.terminalDisplayed, bytes)) : LineEffect s next op (some bytes)

theorem keyOps_ordinary {s : Kernel} {scancode : ℕ} {cpu : Cpu} {frame : StackFrame}
    (hordinary : (LineOp.key scancode cpu frame).Ordinary s) :
    (keyOps s scancode).2 = [] ∨
      ((keyOps s scancode).1 = s.terminalDisplayed ∧
        ((∃ c, c ≠ newline ∧ (keyOps s scancode).2 = [.type c]) ∨
          (scancode = 0x0E ∧ (keyOps s scancode).2 = [.erase]) ∨
          (keyOps s scancode).2 = [.enter])) := by
  obtain ⟨htab, hctrl, halt⟩ := hordinary
  unfold keyOps
  split
  case h_10 | h_11 | h_12 => simp [altOps, halt]
  case h_13 => exact absurd rfl htab
  case h_14 => exact .inr ⟨rfl, .inr (.inl ⟨rfl, rfl⟩)⟩
  case h_15 => exact .inr ⟨rfl, .inr (.inr rfl)⟩
  case h_16 henter =>
    unfold printedKeys
    split_ifs with hbeyond hkey
    · exact .inl rfl
    · exact .inr ⟨rfl, .inl ⟨_, keyOf_ne_newline (not_le.mp hbeyond) henter, rfl⟩⟩
    · exact .inl rfl
  all_goals exact .inl rfl

theorem sameOutside_keyboardPrint {s next : Kernel} {scancode : ℕ}
    (hctrl : ¬ (s.ctrlPress ∧ keyOf keyboardOriginal scancode = 0x6C))
    (hkey : keyboardPrint s scancode = some next) : s.SameOutside next := by
  unfold keyboardPrint at hkey
  split_ifs at hkey
  · obtain rfl := Option.some.inj hkey
    exact .refl s
  · obtain rfl := Option.some.inj hkey
    exact .refl s
  · obtain ⟨echoed, hput, hpush⟩ := Option.bind_eq_some_iff.mp hkey
    exact (sameOutside_putc2screen hput).trans (sameOutside_pushKey hpush)
  · obtain rfl := Option.some.inj hkey
    exact .refl s

theorem sameOutside_keyboardBackspace {s next : Kernel}
    (hkey : keyboardBackspace s = some next) : s.SameOutside next := by
  unfold keyboardBackspace at hkey
  split_ifs at hkey
  · obtain ⟨echoed, hput, rfl⟩ := Option.map_eq_some_iff.mp hkey
    exact (sameOutside_putc2screen hput).trans (sameOutside_modifyTerminal _ _ _)
  · obtain rfl := Option.some.inj hkey
    exact .refl s

theorem sameOutside_keyboardEnter {s next : Kernel}
    (hkey : keyboardEnter s = some next) : s.SameOutside next := by
  unfold keyboardEnter at hkey
  split_ifs at hkey
  · obtain rfl := Option.some.inj hkey
    exact .refl s
  · obtain ⟨stored, hpush, hkey⟩ := Option.bind_eq_some_iff.mp hkey
    obtain ⟨echoed, hput, rfl⟩ := Option.map_eq_some_iff.mp hkey
    exact ((sameOutside_pushKey hpush).trans (sameOutside_putc2screen hput)).trans
      (sameOutside_modifyTerminal _ _ _)

theorem sameOutside_terminalRead {s next : Kernel} {nbytes : ℕ} {bytes : List UInt8}
    (hread : terminalRead s nbytes = some (next, bytes)) : s.SameOutside next := by
  unfold terminalRead at hread
  split_ifs at hread
  obtain ⟨line, _, heq⟩ := Option.map_eq_some_iff.mp hread
  obtain ⟨rfl, -⟩ := Prod.mk.inj heq
  exact sameOutside_modifyTerminal s _ _

theorem keyboardHandler_stays {img : Image} {s next : Kernel} {scancode : ℕ} {cpu : Cpu}
    {frame : StackFrame} (hordinary : (LineOp.key scancode cpu frame).Ordinary s)
    (hkey : keyboardHandler img s scancode cpu frame = some next) :
    next.terminalNum = s.terminalNum ∧ next.terminalDisplayed = s.terminalDisplayed := by
  have hsame : s.SameOutside next →
      next.terminalNum = s.terminalNum ∧ next.terminalDisplayed = s.terminalDisplayed := by
    rintro ⟨terminalT, videoMem, cursorPos, rfl⟩
    exact ⟨rfl, rfl⟩
  obtain ⟨htab, hctrl, halt⟩ := hordinary
  unfold keyboardHandler at hkey
  split at hkey
  case h_10 | h_11 | h_12 =>
    simp only [altSwitch, halt, Bool.false_eq_true, false_and, if_false, Option.some.injEq,
      true_or, or_true] at hkey
    exact hkey ▸ ⟨rfl, rfl⟩
  case h_13 => exact absurd rfl htab
  case h_14 => exact hsame (sameOutside_keyboardBackspace hkey)
  case h_15 => exact hsame (sameOutside_keyboardEnter hkey)
  case h_16 => exact hsame (sameOutside_keyboardPrint hctrl hkey)
  all_goals
    obtain rfl := Option.some.inj hkey
    exact ⟨rfl, rfl⟩

theorem consoleStep_of_feed {s next : Kernel} {t : Fin 3} {op : ConsoleOp}
    (hfeed : feed s.consoles t [op] = some next.consoles) :
    consoleStep (s.consoles t) op = some (next.consoles t) := by
  rw [feed_singleton, act] at hfeed
  obtain ⟨console, hstep, hupdate⟩ := Option.map_eq_some_iff.mp hfeed
  rw [← hupdate, Function.update_self]
  exact hstep

theorem lineStep_effect {img : Image} {s next : Kernel} {op : LineOp}
    {output : Option (List UInt8)} (hshown : s.terminalNum = s.terminalDisplayed)
    (hordinary : op.Ordinary s) (hstep : lineStep img s op = some (next, output)) :
    next.terminalNum = s.terminalNum ∧ next.terminalDisplayed = s.terminalDisplayed ∧
      LineEffect s next op output := by
  cases op with
  | key scancode cpu frame =>
      obtain ⟨next', hkey, heq⟩ := Option.map_eq_some_iff.mp hstep
      obtain ⟨rfl, rfl⟩ := Prod.mk.inj heq
      have hfeed := keyboardHandler_consoles hkey
      obtain ⟨hnum, hdisplayed⟩ := keyboardHandler_stays hordinary hkey
      refine ⟨hnum, hdisplayed, ?_⟩
      rcases keyOps_ordinary hordinary with hnone | ⟨hfst, hops⟩
      · rw [hnone, feed_nil, Option.some.injEq] at hfeed
        exact .idle hnone hfeed.symm
      · rw [hfst] at hfeed
        rcases hops with ⟨c, hplain, hops⟩ | ⟨rfl, hops⟩ | hops
        · rw [hops] at hfeed
          exact .typed c hops hplain (consoleStep_of_feed hfeed)
        · rw [hops] at hfeed
          exact .erased cpu frame rfl hops (consoleStep_of_feed hfeed)
        · rw [hops] at hfeed
          exact .entered hops (consoleStep_of_feed hfeed)
  | read nbytes =>
      obtain ⟨⟨next', bytes⟩, hread, heq⟩ := Option.map_eq_some_iff.mp hstep
      obtain ⟨rfl, rfl⟩ := Prod.mk.inj heq
      have hconsoles := consoles_terminalRead s nbytes
      rw [hread, hshown] at hconsoles
      obtain ⟨⟨console, bytes'⟩, hcread, heq⟩ := Option.map_eq_some_iff.mp hconsoles.symm
      obtain ⟨hupdate, rfl⟩ := Prod.mk.inj heq
      dsimp only at hupdate
      have heffect : (s.consoles s.terminalDisplayed).read nbytes =
          some (next'.consoles s.terminalDisplayed, bytes') := by
        rw [← hupdate, Function.update_self]
        exact hcread
      obtain ⟨terminalT, videoMem, cursorPos, rfl⟩ := sameOutside_terminalRead hread
      exact ⟨rfl, rfl, .taken nbytes bytes' rfl heffect⟩

/-! ## Runs -/

theorem linesStep_extends (lines : Lines) (op : ConsoleOp) :
    lines.submitted <+: (linesStep lines op).submitted ∧
      lines.taken ≤ (linesStep lines op).taken := by
  cases op with
  | type c =>
      rw [linesStep_type]
      split
      · exact ⟨List.prefix_rfl, le_rfl⟩
      · exact ⟨List.prefix_rfl, le_rfl⟩
  | enter =>
      rw [linesStep_enter]
      split
      · exact ⟨List.prefix_rfl, le_rfl⟩
      · exact ⟨List.prefix_append _ _, le_rfl⟩
  | read nbytes => exact ⟨List.prefix_rfl, Nat.le_succ _⟩
  | _ => exact ⟨List.prefix_rfl, le_rfl⟩

theorem foldl_linesStep_extends (lines : Lines) (ops : List ConsoleOp) :
    lines.submitted <+: (ops.foldl linesStep lines).submitted ∧
      lines.taken ≤ (ops.foldl linesStep lines).taken := by
  induction ops generalizing lines with
  | nil => exact ⟨List.prefix_rfl, le_rfl⟩
  | cons op rest ih =>
      obtain ⟨hstarts, hle⟩ := linesStep_extends lines op
      obtain ⟨hstarts', hle'⟩ := ih (linesStep lines op)
      exact ⟨hstarts.trans hstarts', hle.trans hle'⟩

theorem Tracks.step {img : Image} {s next : Kernel} {op : LineOp}
    {output : Option (List UInt8)} {lines : Lines}
    (hshown : s.terminalNum = s.terminalDisplayed)
    (htracks : Tracks (s.consoles s.terminalDisplayed) lines)
    (hordinary : op.Ordinary s) (hspares : op.SparesLines s)
    (hstep : lineStep img s op = some (next, output)) :
    Tracks (next.consoles s.terminalDisplayed) ((lineOps s op).foldl linesStep lines) ∧
      ((output = none ∧ ((lineOps s op).foldl linesStep lines).taken = lines.taken) ∨
        ∃ bytes, output = some bytes ∧ lines.submitted[lines.taken]? = some bytes ∧
          ((lineOps s op).foldl linesStep lines).taken = lines.taken + 1) := by
  obtain ⟨-, -, heffect⟩ := lineStep_effect hshown hordinary hstep
  cases heffect with
  | idle hops hconsoles =>
      rw [hops, hconsoles]
      exact ⟨htracks, .inl ⟨rfl, rfl⟩⟩
  | typed c hops hplain hcstep =>
      rw [hops]
      refine ⟨htracks.type hplain hcstep, .inl ⟨rfl, ?_⟩⟩
      simp only [List.foldl_cons, List.foldl_nil, linesStep_type]
      split <;> rfl
  | erased cpu frame hop hops hcstep =>
      subst hop
      rw [hops]
      exact ⟨htracks.erase (hspares rfl) hcstep, .inl ⟨rfl, rfl⟩⟩
  | entered hops hcstep =>
      rw [hops]
      refine ⟨htracks.enter hcstep, .inl ⟨rfl, ?_⟩⟩
      simp only [List.foldl_cons, List.foldl_nil, linesStep_enter]
      split <;> rfl
  | taken nbytes bytes hop hread =>
      subst hop
      obtain ⟨htracks', hget⟩ := htracks.read hordinary hread
      exact ⟨htracks', .inr ⟨bytes, rfl, hget, rfl⟩⟩

theorem trace_tracks {img : Image} {s final : Kernel} {ops : List LineOp}
    {outputs : List (Option (List UInt8))} {lines : Lines}
    (hshown : s.terminalNum = s.terminalDisplayed)
    (htracks : Tracks (s.consoles s.terminalDisplayed) lines)
    (hmeets : Meets (lineNext img) (fun s op => op.Ordinary s ∧ op.SparesLines s) s ops)
    (htrace : trace (lineStep img) s ops = some (final, outputs)) :
    outputs.filterMap id =
      (((translate (lineNext img) lineOps s ops).foldl linesStep lines).submitted.take
        ((translate (lineNext img) lineOps s ops).foldl linesStep lines).taken).drop
          lines.taken := by
  induction ops generalizing s lines outputs with
  | nil =>
      obtain ⟨rfl, rfl⟩ := Prod.mk.inj (Option.some.inj htrace)
      simp [PartialRuns.translate]
  | cons op rest ih =>
      obtain ⟨⟨next, output⟩, hstep, htrace⟩ := Option.bind_eq_some_iff.mp htrace
      obtain ⟨⟨final', outputs'⟩, hrest, heq⟩ := Option.map_eq_some_iff.mp htrace
      obtain ⟨rfl, rfl⟩ := Prod.mk.inj heq
      have hnext : lineNext img s op = some next := by
        rw [lineNext, hstep]
        rfl
      obtain ⟨hnum, hdisplayed, -⟩ := lineStep_effect hshown hmeets.1.1 hstep
      obtain ⟨htracks', houtput⟩ := htracks.step hshown hmeets.1.1 hmeets.1.2 hstep
      rw [← hdisplayed] at htracks'
      have htail := ih (by rw [hnum, hdisplayed, hshown]) htracks' (hmeets.2 next hnext) hrest
      have hfirst := foldl_linesStep_extends lines (lineOps s op)
      have hlater := foldl_linesStep_extends ((lineOps s op).foldl linesStep lines)
        (translate (lineNext img) lineOps next rest)
      simp only [PartialRuns.translate, hnext, List.foldl_append]
      generalize (translate (lineNext img) lineOps next rest).foldl linesStep
        ((lineOps s op).foldl linesStep lines) = last at htail hlater ⊢
      rcases houtput with ⟨rfl, htaken⟩ | ⟨bytes, rfl, hget, htaken⟩
      · rw [htaken] at htail
        exact htail
      · have hkept : (last.submitted.take last.taken)[lines.taken]? = some bytes := by
          obtain ⟨later, hlast⟩ := hfirst.1.trans hlater.1
          have hlt : lines.taken < lines.submitted.length :=
            (List.getElem?_eq_some_iff.mp hget).1
          rw [List.getElem?_take_of_lt (by omega), ← hlast, List.getElem?_append_left hlt, hget]
        obtain ⟨hlt, hvalue⟩ := List.getElem?_eq_some_iff.mp hkept
        rw [htaken] at htail
        rw [List.drop_eq_getElem_cons hlt, hvalue, ← htail]
        rfl

def LineOp.Waits (s : Kernel) : LineOp → Prop
  | .key _ _ _ => False
  | .read _ => s.running.bufFlag = 0

def LineOp.InBuffer (s : Kernel) (op : LineOp) : Prop :=
  ∀ cop ∈ lineOps s op, cop.InBuffer (s.consoles s.terminalDisplayed)

theorem Tracks.inBuffer {s : Kernel} {op : LineOp} {lines : Lines}
    (hshown : s.terminalNum = s.terminalDisplayed)
    (htracks : Tracks (s.consoles s.terminalDisplayed) lines) (hordinary : op.Ordinary s) :
    op.Waits s ∨ op.InBuffer s := by
  cases op with
  | key scancode cpu frame =>
      right
      intro cop hmem
      have hfits : cop.Fits (s.consoles s.terminalDisplayed) := by
        change cop ∈ (keyOps s scancode).2 at hmem
        rcases keyOps_ordinary hordinary with hops | ⟨-, ⟨c, -, hops⟩ | ⟨-, hops⟩ | hops⟩
        · rw [hops] at hmem
          exact absurd hmem List.not_mem_nil
        all_goals
          rw [hops] at hmem
          rw [List.mem_singleton.mp hmem]
          trivial
      exact hfits.inBuffer htracks.counted.bounded
  | read nbytes =>
      by_cases hwaits : s.running.bufFlag = 0
      · exact .inl hwaits
      · right
        intro cop hmem
        rw [List.mem_singleton.mp hmem]
        have hflag : (s.consoles s.terminalDisplayed).bufFlag ≠ 0 := by
          rw [← hshown]
          exact hwaits
        have hline : newline ∈ (s.consoles s.terminalDisplayed).pending := by
          by_contra hnone
          exact hflag (htracks.counted.flag_eq_zero_iff.mpr hnone)
        have hfits : ConsoleOp.Fits (s.consoles s.terminalDisplayed) (.read nbytes) := .inr hline
        exact hfits.inBuffer htracks.counted.bounded

theorem meets_inBuffer {img : Image} {s : Kernel} {ops : List LineOp} {lines : Lines}
    (hshown : s.terminalNum = s.terminalDisplayed)
    (htracks : Tracks (s.consoles s.terminalDisplayed) lines)
    (hmeets : Meets (lineNext img) (fun s op => op.Ordinary s ∧ op.SparesLines s) s ops) :
    Meets (lineNext img) (fun s op => op.Waits s ∨ op.InBuffer s) s ops := by
  apply hmeets.imp_of_invariant (fun s => s.terminalNum = s.terminalDisplayed ∧
    ∃ lines, Tracks (s.consoles s.terminalDisplayed) lines) _ _ ⟨hshown, lines, htracks⟩
  · rintro s op next ⟨hshown, lines, htracks⟩ ⟨hordinary, hspares⟩ hnext
    obtain ⟨⟨next', output⟩, hstep, rfl⟩ := Option.map_eq_some_iff.mp hnext
    obtain ⟨hnum, hdisplayed, -⟩ := lineStep_effect hshown hordinary hstep
    dsimp only at hnum hdisplayed ⊢
    rw [hnum, hdisplayed]
    exact ⟨hshown, _, (htracks.step hshown hordinary hspares hstep).1⟩
  · rintro s op ⟨hshown, lines, htracks⟩ ⟨hordinary, -⟩
    exact htracks.inBuffer hshown hordinary

/-- For an empty buffer on the displayed terminal, in every run without a
backspace over the end of a submitted line, the reads return the submitted lines
in their order, and neither a key nor a read that does not wait uses an index
outside the buffer. -/
theorem lines_delivered_of_run {img : Image} {s final : Kernel} {ops : List LineOp}
    {outputs : List (Option (List UInt8))}
    (hshown : s.terminalNum = s.terminalDisplayed)
    (hempty : s.running.numBuf = 0 ∧ s.running.bufFlag = 0)
    (hmeets : Meets (lineNext img) (fun s op => op.Ordinary s ∧ op.SparesLines s) s ops)
    (htrace : trace (lineStep img) s ops = some (final, outputs)) :
    outputs.filterMap id <+: (typedLines img s ops).submitted ∧
      Meets (lineNext img) (fun s op => op.Waits s ∨ op.InBuffer s) s ops := by
  have htracks : Tracks (s.consoles s.terminalDisplayed) ⟨[], 0, []⟩ := by
    rw [← hshown]
    have hpending : (s.consoles s.terminalNum).pending = [] := by
      apply List.eq_nil_of_length_eq_zero
      rw [Console.length_pending]
      exact congrArg Int.toNat hempty.1
    refine ⟨⟨?_, ?_⟩, hpending, le_rfl, List.not_mem_nil, by simp⟩
    · have hnum : (s.consoles s.terminalNum).numBuf = 0 := hempty.1
      unfold Console.Bounded
      omega
    · rw [hpending]
      exact hempty.2
  refine ⟨?_, meets_inBuffer hshown htracks hmeets⟩
  rw [trace_tracks hshown htracks hmeets htrace, List.drop_zero]
  exact List.take_prefix _ _

instance (s : Kernel) : (op : LineOp) → Decidable (op.Ordinary s)
  | .key scancode _ _ =>
      inferInstanceAs (Decidable (scancode ≠ 0x0F ∧
        ¬ (s.ctrlPress ∧ keyOf keyboardOriginal scancode = 0x6C) ∧
        (scancode = 0x3B ∨ scancode = 0x3C ∨ scancode = 0x3D → s.altPress = false)))
  | .read nbytes => inferInstanceAs (Decidable (128 ≤ nbytes))

instance (s : Kernel) : (op : LineOp) → Decidable (op.SparesLines s)
  | .key scancode _ _ =>
      inferInstanceAs (Decidable (scancode = 0x0E →
        (s.consoles s.terminalDisplayed).pending.getLast? ≠ some newline))
  | .read _ => isTrue trivial

def lineKey (scancode : ℕ) : LineOp := .key scancode ⟨0, 0⟩ zeroFrame

/-- Two lines are typed, one of them corrected, and read. -/
theorem lines_delivered_of_typeAhead : ∃ final,
    trace (lineStep smallImage) shellKernel
      [lineKey 0x1E, lineKey 0x30, lineKey 0x0E, lineKey 0x1C, lineKey 0x2E, lineKey 0x1C,
        .read 128, .read 128] =
      some (final, [none, none, none, none, none, none, some [0x61, newline],
        some [0x63, newline]]) ∧
    [[0x61, newline], [0x63, newline]] <+: (typedLines smallImage shellKernel
      [lineKey 0x1E, lineKey 0x30, lineKey 0x0E, lineKey 0x1C, lineKey 0x2E, lineKey 0x1C,
        .read 128, .read 128]).submitted := by
  have hout : (trace (lineStep smallImage) shellKernel
      [lineKey 0x1E, lineKey 0x30, lineKey 0x0E, lineKey 0x1C, lineKey 0x2E, lineKey 0x1C,
        .read 128, .read 128]).map Prod.snd =
      some [none, none, none, none, none, none, some [0x61, newline], some [0x63, newline]] := by
    decide +kernel
  obtain ⟨⟨final, outputs⟩, htrace, rfl⟩ := Option.map_eq_some_iff.mp hout
  exact ⟨final, htrace, (lines_delivered_of_run rfl ⟨rfl, rfl⟩ (by decide +kernel) htrace).1⟩

/-- After a line, a backspace and a second line, the read returns a line that was
never submitted. -/
theorem backspace_joins_lines :
    (trace (lineStep smallImage) shellKernel
      [lineKey 0x1E, lineKey 0x1C, lineKey 0x0E, lineKey 0x30, lineKey 0x1C,
        .read 128]).map Prod.snd =
      some [none, none, none, none, none, some [0x61, 0x62, newline]] ∧
    (typedLines smallImage shellKernel
      [lineKey 0x1E, lineKey 0x1C, lineKey 0x0E, lineKey 0x30, lineKey 0x1C,
        .read 128]).submitted = [[0x61, newline], [0x62, newline]] := by
  constructor <;> decide +kernel

end VirtualOS
