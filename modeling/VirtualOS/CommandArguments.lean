import VirtualOS.CommandParser
import VirtualOS.ProcessInvariants
import Mathlib.Tactic

/-!
# Passing arguments to a program

The user programs also run on a host, where `ece391_execute` and
`ece391_getargs` of `ece391emulate.c` take the place of the kernel.  There the
words behind the program name become an argument vector, which `ece391_getargs`
joins with blanks.  The kernel keeps the first of these words only.
-/

namespace VirtualOS

/-! ## The emulation -/

/-- The loop of `ece391_execute` that cuts the arguments. -/
def emulatedArguments (scan : List UInt8) : List (List UInt8) :=
  match _hrest : scan.dropWhile fun byte => byte = space with
  | [] => []
  | byte :: rest =>
      if byte = newline then []
      else
        (byte :: rest).takeWhile wordByte ::
          emulatedArguments (((byte :: rest).dropWhile wordByte).drop 1)
termination_by scan.length
decreasing_by
  have hscan : (scan.dropWhile fun byte => byte = space).length ≤ scan.length :=
    (List.dropWhile_suffix _).length_le
  have hword : ((byte :: rest).dropWhile wordByte).length ≤ (byte :: rest).length :=
    (List.dropWhile_suffix _).length_le
  rw [_hrest] at hscan
  simp only [List.length_cons, List.length_drop] at hscan hword ⊢
  omega

/-- `ece391_execute`: the vector it passes to `execv`, whose first entry is the path. -/
def emulatedExecute (command : List UInt8) : Option (List (List UInt8)) :=
  if 1023 < strlen command then none
  else
    let rest := (cString command).dropWhile wordByte
    some ((ascii "./" ++ (cString command).takeWhile wordByte) ::
      if rest = [] then [] else emulatedArguments (rest.drop 1))

/-- `ece391_getargs` on the arguments behind the path.  `none` is the value `-1`. -/
def emulatedGetargs : List (List UInt8) → ℤ → Option (List UInt8)
  | [], nbytes => if nbytes < 1 then none else some [0]
  | [arg], nbytes =>
      if arg.length > nbytes then none
      else if nbytes - arg.length < 1 then none
      else some (arg ++ [0])
  | arg :: next :: rest, nbytes =>
      if arg.length > nbytes then none
      else if nbytes - arg.length < 1 then none
      else
        (emulatedGetargs (next :: rest) (nbytes - arg.length - 1)).map fun bytes =>
          arg ++ space :: bytes

/-! ## Command lines -/

def IsWord (word : List UInt8) : Prop := word ≠ [] ∧ ∀ byte ∈ word, wordByte byte = true

instance (word : List UInt8) : Decidable (IsWord word) :=
  decidable_of_iff (word ≠ [] ∧ word.all wordByte = true) (by simp [IsWord])

/-- Words behind the first one, each after a blank, and the newline of the line. -/
def furtherWords (ended : Bool) : List (List UInt8) → List UInt8
  | [] => if ended then [newline] else []
  | word :: rest => space :: (word ++ furtherWords ended rest)

/-- A line of words separated by single blanks. -/
def commandLine (leading : ℕ) (first : List UInt8) (rest : List (List UInt8)) (ended : Bool) :
    List UInt8 :=
  List.replicate leading space ++ (first ++ furtherWords ended rest)

def joinWords : List (List UInt8) → List UInt8
  | [] => []
  | [word] => word
  | word :: next :: rest => word ++ space :: joinWords (next :: rest)

section Words

variable {word : List UInt8} {rest : List (List UInt8)} {ended : Bool}

theorem IsWord.head (hword : IsWord word) : ∃ byte tail, word = byte :: tail ∧
    wordByte byte = true := by
  obtain ⟨hne, hbytes⟩ := hword
  obtain ⟨byte, tail, rfl⟩ := List.exists_cons_of_ne_nil hne
  exact ⟨byte, tail, rfl, hbytes byte (by simp)⟩

theorem ne_space_of_wordByte {byte : UInt8} (hbyte : wordByte byte = true) : byte ≠ space := by
  rintro rfl
  exact absurd hbyte (by decide)

theorem ne_newline_of_wordByte {byte : UInt8} (hbyte : wordByte byte = true) :
    byte ≠ newline := by
  rintro rfl
  exact absurd hbyte (by decide)

theorem ne_zero_of_wordByte {byte : UInt8} (hbyte : wordByte byte = true) : byte ≠ 0 := by
  rintro rfl
  exact absurd hbyte (by decide)

theorem takeWhile_furtherWords :
    (furtherWords ended rest).takeWhile wordByte = [] ∧
      (furtherWords ended rest).dropWhile wordByte = furtherWords ended rest := by
  cases rest with
  | nil => cases ended <;> decide
  | cons word rest =>
      have hspace : wordByte space = false := by decide
      simp [furtherWords, hspace]

theorem takeWhile_word (hword : IsWord word) :
    (word ++ furtherWords ended rest).takeWhile wordByte = word := by
  rw [List.takeWhile_append_of_pos hword.2, takeWhile_furtherWords.1, List.append_nil]

theorem dropWhile_word (hword : IsWord word) :
    (word ++ furtherWords ended rest).dropWhile wordByte = furtherWords ended rest := by
  rw [List.dropWhile_append_of_pos hword.2, takeWhile_furtherWords.2]

theorem dropWhile_spaces (hword : IsWord word) (leading : ℕ) (tail : List UInt8) :
    (List.replicate leading space ++ (word ++ tail)).dropWhile (fun byte => byte = space) =
      word ++ tail := by
  obtain ⟨byte, bytes, rfl, hbyte⟩ := hword.head
  rw [List.dropWhile_append_of_pos (by simp)]
  simp [ne_space_of_wordByte hbyte]

theorem nextWord_spaces (hword : IsWord word) (leading : ℕ) :
    nextWord (List.replicate leading space ++ (word ++ furtherWords ended rest)) =
      (word, furtherWords ended rest) := by
  unfold nextWord
  rw [dropWhile_spaces hword]
  dsimp only
  rw [takeWhile_word hword, dropWhile_word hword]

theorem parseCommand_commandLine {first : List UInt8} (leading : ℕ) (hfirst : IsWord first)
    (hrest : ∀ word ∈ rest, IsWord word) :
    parseCommand (commandLine leading first rest ended) = (first, rest.headD []) := by
  unfold parseCommand commandLine
  rw [nextWord_spaces hfirst]
  cases rest with
  | nil => cases ended <;> rfl
  | cons word rest =>
      have hword : nextWord (List.replicate 1 space ++ (word ++ furtherWords ended rest)) =
          (word, furtherWords ended rest) := nextWord_spaces (hrest word (by simp)) 1
      simp only [furtherWords]
      rw [show space :: (word ++ furtherWords ended rest) =
        List.replicate 1 space ++ (word ++ furtherWords ended rest) from rfl, hword]
      rfl

end Words

section Emulation

variable {word first : List UInt8} {rest : List (List UInt8)} {ended : Bool}

theorem emulatedArguments_word (hword : IsWord word) :
    emulatedArguments (word ++ furtherWords ended rest) =
      word :: emulatedArguments ((furtherWords ended rest).drop 1) := by
  have htake : (word ++ furtherWords ended rest).takeWhile wordByte = word :=
    takeWhile_word hword
  have hdrop : (word ++ furtherWords ended rest).dropWhile wordByte = furtherWords ended rest :=
    dropWhile_word hword
  obtain ⟨byte, tail, rfl, hbyte⟩ := hword.head
  rw [emulatedArguments]
  rw [List.cons_append] at htake hdrop ⊢
  have hspaces : ((byte :: (tail ++ furtherWords ended rest)).dropWhile fun byte =>
      byte = space) = byte :: (tail ++ furtherWords ended rest) := by
    simp [ne_space_of_wordByte hbyte]
  split
  · rename_i hnil
    rw [hspaces] at hnil
    contradiction
  · rename_i other others hcons
    rw [hspaces, List.cons.injEq] at hcons
    obtain ⟨rfl, rfl⟩ := hcons
    rw [if_neg (ne_newline_of_wordByte hbyte), htake, hdrop]

theorem emulatedArguments_nil : emulatedArguments [] = [] := by
  rw [emulatedArguments]
  rfl

theorem emulatedArguments_furtherWords (hrest : ∀ word ∈ rest, IsWord word) :
    emulatedArguments ((furtherWords ended rest).drop 1) = rest := by
  induction rest with
  | nil => cases ended <;> exact emulatedArguments_nil
  | cons word rest ih =>
      obtain ⟨hword, hothers⟩ := List.forall_mem_cons.mp hrest
      simp only [furtherWords, List.drop_succ_cons, List.drop_zero]
      rw [emulatedArguments_word hword, ih hothers]

theorem commandLine_ne_zero {leading : ℕ} (hfirst : IsWord first)
    (hrest : ∀ word ∈ rest, IsWord word) :
    ∀ byte ∈ commandLine leading first rest ended, byte ≠ 0 := by
  have hfurther : ∀ byte ∈ furtherWords ended rest, byte ≠ 0 := by
    clear hfirst
    induction rest with
    | nil => cases ended <;> simp [furtherWords, newline]
    | cons word rest ih =>
        obtain ⟨hword, hothers⟩ := List.forall_mem_cons.mp hrest
        intro byte hbyte
        simp only [furtherWords, List.mem_cons, List.mem_append] at hbyte
        rcases hbyte with rfl | hin | hlater
        · decide
        · exact ne_zero_of_wordByte (hword.2 byte hin)
        · exact ih hothers byte hlater
  intro byte hbyte
  simp only [commandLine, List.mem_append, List.mem_replicate] at hbyte
  rcases hbyte with ⟨_, rfl⟩ | hin | hlater
  · decide
  · exact ne_zero_of_wordByte (hfirst.2 byte hin)
  · exact hfurther byte hlater

theorem furtherWords_length : (furtherWords ended rest).length ≤ (joinWords rest).length + 2 := by
  induction rest with
  | nil => cases ended <;> decide
  | cons word rest ih =>
      cases rest with
      | nil => cases ended <;> simp [furtherWords, joinWords]
      | cons next rest =>
          simp only [furtherWords, joinWords, List.length_cons, List.length_append] at ih ⊢
          omega

theorem emulatedExecute_commandLine (hfirst : IsWord first) (hrest : ∀ word ∈ rest, IsWord word)
    (hshort : first.length < 128) (hremainder : (joinWords rest).length < 128) :
    emulatedExecute (commandLine 0 first rest ended) = some ((ascii "./" ++ first) :: rest) := by
  have hstring : cString (commandLine 0 first rest ended) = commandLine 0 first rest ended :=
    cString_of_ne_zero (commandLine_ne_zero hfirst hrest)
  have hline : commandLine 0 first rest ended = first ++ furtherWords ended rest := rfl
  have hfurther : (furtherWords ended rest).length ≤ (joinWords rest).length + 2 :=
    furtherWords_length
  have hlength : ¬ 1023 < strlen (commandLine 0 first rest ended) := by
    rw [strlen_eq_cString_length, hstring, hline, List.length_append]
    omega
  unfold emulatedExecute
  rw [if_neg hlength]
  dsimp only
  rw [hstring, hline, takeWhile_word hfirst, dropWhile_word hfirst]
  split
  · rename_i hnil
    cases rest with
    | nil => rfl
    | cons word rest => simp [furtherWords] at hnil
  · rw [emulatedArguments_furtherWords hrest]

theorem emulatedGetargs_eq {nbytes : ℤ} (hnbytes : (joinWords rest).length < nbytes) :
    emulatedGetargs rest nbytes = some (joinWords rest ++ [0]) := by
  induction rest generalizing nbytes with
  | nil =>
      simp only [joinWords, List.length_nil] at hnbytes
      rw [emulatedGetargs, if_neg (by omega)]
      rfl
  | cons word rest ih =>
      cases rest with
      | nil =>
          simp only [joinWords] at hnbytes ⊢
          rw [emulatedGetargs, if_neg (by omega), if_neg (by omega)]
      | cons next rest =>
          simp only [joinWords, List.length_append, List.length_cons, Nat.cast_add,
            Nat.cast_one] at hnbytes
          have hothers : emulatedGetargs (next :: rest) (nbytes - word.length - 1) =
              some (joinWords (next :: rest) ++ [0]) := ih (by omega)
          rw [emulatedGetargs, if_neg (by omega), if_neg (by omega), hothers]
          simp [joinWords]

end Emulation

/-! ## The kernel -/

/-- The string that a program obtains from `getargs`.  `none` is the value `-1`. -/
def argumentString (result : ℤ × List UInt8) : Option (List UInt8) :=
  if result.1 = 0 then some (cString result.2) else none

theorem cString_append_zero {bytes rest : List UInt8} (hbytes : ∀ byte ∈ bytes, byte ≠ 0) :
    cString (bytes ++ 0 :: rest) = bytes := by
  rw [cString_append_of_forall_ne hbytes]
  simp [cString]

theorem cString_storeArgument {argument : List UInt8} (old : LineBuffer)
    (hbytes : ∀ byte ∈ argument, byte ≠ 0) (hshort : argument.length < 128) :
    cString (List.ofFn (storeArgument old argument)) = argument := by
  have htake : (List.ofFn (storeArgument old argument)).take argument.length = argument := by
    apply List.ext_getElem
    · simp only [List.length_take, List.length_ofFn]
      omega
    · intro i hi hlt
      simp only [List.getElem_take, List.getElem_ofFn, storeArgument, hlt, if_true]
      exact List.getD_eq_getElem _ _ hlt
  have hdrop : ∃ rest, (List.ofFn (storeArgument old argument)).drop argument.length =
      0 :: rest := by
    have hlt : argument.length < (List.ofFn (storeArgument old argument)).length := by
      rw [List.length_ofFn]
      exact hshort
    rw [List.drop_eq_getElem_cons hlt]
    refine ⟨_, congrArg (· :: _) ?_⟩
    simp only [List.getElem_ofFn, storeArgument, lt_irrefl, if_true, if_false]
  obtain ⟨rest, hrest⟩ := hdrop
  rw [← List.take_append_drop argument.length (List.ofFn (storeArgument old argument)), htake,
    hrest, cString_append_zero hbytes]

theorem cString_strncpyBytes {bytes : List UInt8} {count : ℕ}
    (hcount : (cString bytes).length < count) : cString (strncpyBytes bytes count) =
      cString bytes := by
  unfold strncpyBytes
  dsimp only
  rw [List.take_of_length_le (by omega)]
  obtain ⟨padding, hpadding⟩ : ∃ padding, count - (cString bytes).length = padding + 1 :=
    ⟨count - (cString bytes).length - 1, by omega⟩
  rw [hpadding, List.replicate_succ]
  exact cString_append_zero fun byte hbyte => ne_zero_of_mem_cString hbyte

theorem argument_startProcess {s : Kernel} {num : ℕ} (argument : List UInt8)
    (frame : StackFrame) (hnum : num ≤ processNumMax) :
    ∃ old, ((startProcess s num argument frame).pcb
      (startProcess s num argument frame).pcbPtr).argument = storeArgument old argument := by
  have hptr : (startProcess s num argument frame).pcbPtr = pcbAddress num :=
    kernelStack_and_pcbMask hnum
  rw [hptr]
  refine ⟨(s.pcb (pcbAddress num)).argument, ?_⟩
  simp [startProcess, newPcb, Kernel.modifyPcb, Kernel.modifyTerminal, Kernel.setPageDirectory]

theorem getargs_of_started {img : Image} {s next : Kernel} {line : List UInt8}
    {frame : StackFrame} {entry image : List UInt8}
    (hstart : execute img s (some line) frame = some (.started next entry image))
    (buf : UserBuffer) {nbytes : ℤ} (hnbytes : (parseCommand line).2.length < nbytes) :
    argumentString (getargs next (some buf) nbytes) =
      if (parseCommand line).2 = [] then none else some (parseCommand line).2 := by
  have hbytes : ∀ byte ∈ (parseCommand line).2, byte ≠ 0 :=
    fun byte hmem => ne_zero_of_mem_nextWord hmem
  obtain ⟨_, num, dentry, hline, hfind, _, hshort, _, _, rfl, _, _⟩ := execute_eq_started hstart
  obtain rfl := Option.some.inj hline
  obtain ⟨_, hmax, _⟩ := freeSlot_eq_some hfind
  obtain ⟨old, hargument⟩ := argument_startProcess (s := loadCurrentProcess s)
    (parseCommand line).2 frame hmax
  have hstring := cString_storeArgument old hbytes hshort
  have hget : getargs (startProcess (loadCurrentProcess s) num (parseCommand line).2 frame)
      (some buf) nbytes =
      if storeArgument old (parseCommand line).2 0 = 0 then (-1, [])
      else (0, strncpyBytes (List.ofFn (storeArgument old (parseCommand line).2))
        nbytes.toNat) := by
    have hvalid : ¬ (some buf = none ∨ nbytes < 0) := by
      simp only [reduceCtorEq, false_or]
      omega
    unfold getargs
    dsimp only
    rw [hargument, if_neg hvalid]
  rw [hget]
  by_cases hempty : (parseCommand line).2 = []
  · rw [hempty]
    rfl
  · have hfirst : storeArgument old (parseCommand line).2 0 ≠ 0 := by
      have hpos := List.length_pos_of_ne_nil hempty
      have hzero : storeArgument old (parseCommand line).2 0 = (parseCommand line).2[0] := by
        simp only [storeArgument, Fin.val_zero, hpos, if_true]
        exact List.getD_eq_getElem _ _ hpos
      rw [hzero]
      exact hbytes _ (List.getElem_mem hpos)
    rw [if_neg hfirst, if_neg hempty, argumentString, if_pos rfl, cString_strncpyBytes, hstring]
    rw [hstring]
    omega

/-! ## Agreement -/

/-- A line looks up its first word and the program obtains the other words joined by blanks,
and the emulation runs the same program and delivers the same string. -/
structure PassesArguments (next : Kernel) (leading : ℕ) (first : List UInt8)
    (rest : List (List UInt8)) (ended : Bool) : Prop where
  lookedUp : (parseCommand (commandLine leading first rest ended)).1 = first
  obtained : ∀ (buf : UserBuffer) (nbytes : ℤ), (joinWords rest).length < nbytes →
    argumentString (getargs next (some buf) nbytes) = some (joinWords rest)
  delivered : ∃ args,
    emulatedExecute (commandLine leading first rest ended) = some ((ascii "./" ++ first) :: args) ∧
      ∀ nbytes : ℤ, (joinWords rest).length < nbytes →
        (emulatedGetargs args nbytes).map cString = some (joinWords rest)

section Agreement

variable {img : Image} {s next : Kernel} {frame : StackFrame} {entry image : List UInt8}
  {leading : ℕ} {first : List UInt8} {rest : List (List UInt8)} {ended : Bool}

theorem joinWords_ne_zero (hrest : ∀ word ∈ rest, IsWord word) :
    ∀ byte ∈ joinWords rest, byte ≠ 0 := by
  induction rest with
  | nil => simp [joinWords]
  | cons word rest ih =>
      obtain ⟨hword, hothers⟩ := List.forall_mem_cons.mp hrest
      cases rest with
      | nil => exact fun byte hbyte => ne_zero_of_wordByte (hword.2 byte hbyte)
      | cons next rest =>
          intro byte hbyte
          simp only [joinWords, List.mem_append, List.mem_cons] at hbyte
          rcases hbyte with hin | rfl | hlater
          · exact ne_zero_of_wordByte (hword.2 byte hin)
          · decide
          · exact ih hothers byte hlater

/-- The first word behind the name is all of them, and there is one. -/
theorem firstArgument_iff (hrest : ∀ word ∈ rest, IsWord word) :
    (if rest.headD [] = [] then none else some (rest.headD [])) = some (joinWords rest) ↔
      rest.length = 1 := by
  cases rest with
  | nil => simp
  | cons word rest =>
      rw [List.headD_cons, if_neg (hrest word (by simp)).1]
      cases rest with
      | nil => simp [joinWords]
      | cons next rest =>
          simp only [joinWords, List.length_cons, Option.some.injEq]
          constructor
          · intro heq
            have hlength := congrArg List.length heq
            simp at hlength
          · omega

/-- The emulation takes a line with a blank in front for the command `./`. -/
theorem leading_eq_zero (hfirst : IsWord first) {args : List (List UInt8)}
    (hrun : emulatedExecute (commandLine leading first rest ended) =
      some ((ascii "./" ++ first) :: args)) : leading = 0 := by
  cases leading with
  | zero => rfl
  | succ leading =>
      have hblank : (cString (commandLine (leading + 1) first rest ended)).takeWhile wordByte =
          [] := by
        have hline : commandLine (leading + 1) first rest ended =
            space :: commandLine leading first rest ended := by
          simp [commandLine, List.replicate_succ]
        have hspace : wordByte space = false := by decide
        have hzero : space ≠ 0 := by decide
        rw [hline, cString, List.takeWhile_cons_of_pos (by simpa using hzero),
          List.takeWhile_cons_of_neg (by simp [hspace])]
      unfold emulatedExecute at hrun
      split at hrun
      · contradiction
      · rw [hblank] at hrun
        have hpath := (List.cons.inj (Option.some.inj hrun)).1
        exact absurd (List.append_cancel_left hpath).symm hfirst.1

/-- The kernel and the emulation pass the same argument exactly if there is one and no blank
in front of the line. -/
theorem passesArguments_iff (hfirst : IsWord first) (hrest : ∀ word ∈ rest, IsWord word)
    (hshort : first.length < 128) (hremainder : (joinWords rest).length < 128)
    (hstart : execute img s (some (commandLine leading first rest ended)) frame =
      some (.started next entry image)) :
    PassesArguments next leading first rest ended ↔ leading = 0 ∧ rest.length = 1 := by
  have hparse : parseCommand (commandLine leading first rest ended) = (first, rest.headD []) :=
    parseCommand_commandLine leading hfirst hrest
  rw [← firstArgument_iff hrest]
  constructor
  · intro hpasses
    obtain ⟨args, hrun, -⟩ := hpasses.delivered
    refine ⟨leading_eq_zero hfirst hrun, ?_⟩
    have hobtained := hpasses.obtained zeroBuffer ((joinWords rest).length + 128) (by omega)
    rw [getargs_of_started hstart, hparse] at hobtained
    · exact hobtained
    · obtain ⟨_, _, _, hline, _, _, hargument, _⟩ := execute_eq_started hstart
      obtain rfl := Option.some.inj hline
      unfold keyboardBufSize at hargument
      omega
  · rintro ⟨rfl, hsingle⟩
    have hall : rest.headD [] = joinWords rest := by
      split_ifs at hsingle
      exact Option.some.inj hsingle
    refine ⟨congrArg Prod.fst hparse, fun buf nbytes hnbytes => ?_, ?_⟩
    · rw [getargs_of_started hstart, hparse]
      · exact hsingle
      · rw [hparse, hall]
        exact hnbytes
    · refine ⟨rest, emulatedExecute_commandLine hfirst hrest hshort hremainder, ?_⟩
      intro nbytes hnbytes
      rw [emulatedGetargs_eq hnbytes, Option.map_some, cString_append_zero]
      exact joinWords_ne_zero hrest

end Agreement

def shellLine (rest : List (List UInt8)) : List UInt8 := commandLine 0 shellName rest true

theorem execute_shellLine {rest : List (List UInt8)} (hrest : ∀ word ∈ rest, IsWord word)
    (hshort : (rest.headD []).length < 128) : ∃ next entry image,
    execute smallImage shellKernel (some (shellLine rest)) zeroFrame =
      some (.started next entry image) := by
  obtain ⟨dentry, haccepted, hroom⟩ := smallImage_loadable.acceptedFile zeroFrame
  have hfound : freeSlot (loadCurrentProcess shellKernel) = some 2 := by decide +kernel
  have hparse : parseCommand (shellLine rest) = (shellName, rest.headD []) :=
    parseCommand_commandLine 0 (by decide) hrest
  have hname : acceptedFile smallImage (shellLine rest) zeroFrame =
      acceptedFile smallImage shellName zeroFrame := by
    unfold acceptedFile
    rw [hparse, show parseCommand shellName = (shellName, []) by decide]
  refine ⟨_, _, _, execute_of_accepted hfound ?_ ?_ (hname.trans haccepted) hroom⟩
  · rw [hparse]
    exact (by decide : shellName.length < 128)
  · rw [hparse]
    exact hshort

def oneArgument : List (List UInt8) := [ascii "frame0.txt"]

theorem oneArgument_isWord : ∀ word ∈ oneArgument, IsWord word := by
  intro word hmem
  obtain rfl := List.mem_singleton.mp hmem
  decide

theorem passesArguments_single : ∃ next entry image,
    execute smallImage shellKernel (some (shellLine oneArgument)) zeroFrame =
        some (.started next entry image) ∧
      PassesArguments next 0 shellName oneArgument true := by
  obtain ⟨next, entry, image, hstart⟩ := execute_shellLine oneArgument_isWord (by decide)
  exact ⟨next, entry, image, hstart, (passesArguments_iff (by decide) oneArgument_isWord (by decide)
    (by decide) hstart).mpr ⟨rfl, rfl⟩⟩

/-- `shell a b`: the program obtains `a`. -/
theorem secondArgument_lost : ∃ next entry image,
    execute smallImage shellKernel (some (shellLine [ascii "a", ascii "b"])) zeroFrame =
        some (.started next entry image) ∧
      argumentString (getargs next (some zeroBuffer) 128) = some (ascii "a") ∧
      emulatedGetargs [ascii "a", ascii "b"] 128 = some (ascii "a b" ++ [0]) ∧
      ¬ PassesArguments next 0 shellName [ascii "a", ascii "b"] true := by
  have hword : ∀ word ∈ [ascii "a", ascii "b"], IsWord word := by
    intro word hmem
    simp only [List.mem_cons, List.not_mem_nil, or_false] at hmem
    rcases hmem with rfl | rfl <;> decide
  obtain ⟨next, entry, image, hstart⟩ := execute_shellLine hword (by decide)
  have hparse : (parseCommand (shellLine [ascii "a", ascii "b"])).2 = ascii "a" := by decide
  have hobtained : argumentString (getargs next (some zeroBuffer) 128) = some (ascii "a") := by
    rw [getargs_of_started hstart, hparse]
    · decide
    · rw [hparse]
      decide
  refine ⟨next, entry, image, hstart, hobtained, by decide, fun hpasses => ?_⟩
  have hjoined := hpasses.obtained zeroBuffer 128 (by decide)
  rw [hobtained] at hjoined
  exact absurd hjoined (by decide)

end VirtualOS
