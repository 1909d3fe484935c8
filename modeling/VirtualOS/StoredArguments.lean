import VirtualOS.CommandArguments
import Mathlib.Tactic

/-!
# The buffer of `getargs`

A program asks for its argument with a buffer and the size of the buffer.  The
kernel copies with `strncpy`, which stops at the size without a terminating NUL
and is never asked whether the string was finished.  The programs use the buffer
as a string, and the emulation refuses a buffer that the string does not fit in.
-/

namespace VirtualOS

/-- The control block of the running process holds an argument as `execute`
stored it. -/
def Kernel.HoldsArgument (s : Kernel) (argument : List UInt8) : Prop :=
  ∃ old, (s.pcb s.pcbPtr).argument = storeArgument old argument

/-- The buffer of the caller after the bytes stored by a call. -/
def storedBuffer (buf : ℕ → UInt8) (bytes : List UInt8) (i : ℕ) : UInt8 :=
  if h : i < bytes.length then bytes[i] else buf i

/-- A call of `getargs` delivers the whole string with its NUL, or it fails and
leaves the buffer; it never stores behind the size it was given. -/
structure DeliversArgument (s : Kernel) (argument : List UInt8) (buf : UserBuffer)
    (nbytes : ℤ) : Prop where
  delivered : argument.length + 1 ≤ nbytes →
    (getargs s (some buf) nbytes).1 = 0 ∧
      ∀ i (hi : i < (argument ++ [0]).length),
        storedBuffer buf.memory (getargs s (some buf) nbytes).2 i = (argument ++ [0])[i]
  refused : ¬ argument.length + 1 ≤ nbytes →
    (getargs s (some buf) nbytes).1 = -1 ∧
    storedBuffer buf.memory (getargs s (some buf) nbytes).2 =
      buf.memory
  bounded : (getargs s (some buf) nbytes).2.length ≤ nbytes

theorem holdsArgument_of_started {img : Image} {s next : Kernel} {command : List UInt8}
    {frame : StackFrame} {entry image : List UInt8}
    (hstart : execute img s (some command) frame = some (.started next entry image)) :
    next.HoldsArgument (parseCommand command).2 := by
  obtain ⟨_, num, dentry, hline, hfind, _, _, _, _, rfl, _, _⟩ := execute_eq_started hstart
  obtain rfl := Option.some.inj hline
  obtain ⟨_, hmax, _⟩ := freeSlot_eq_some hfind
  exact argument_startProcess (parseCommand command).2 frame hmax

theorem length_strncpyBytes (source : List UInt8) (count : ℕ) :
    (strncpyBytes source count).length = count := by
  simp only [strncpyBytes, List.length_append, List.length_take, List.length_replicate]
  omega

theorem getargs_of_holds {s : Kernel} {argument : List UInt8} (hholds : s.HoldsArgument argument)
    (hne : argument ≠ []) (hbytes : ∀ byte ∈ argument, byte ≠ 0) (hshort : argument.length < 128)
    (buf : UserBuffer) {nbytes : ℤ} (hnbytes : 0 ≤ nbytes) :
    getargs s (some buf) nbytes =
      (0, argument.take nbytes.toNat ++
        List.replicate (nbytes.toNat - argument.length) 0) := by
  obtain ⟨old, hargument⟩ := hholds
  have hpos := List.length_pos_of_ne_nil hne
  have hfirst : storeArgument old argument 0 ≠ 0 := by
    have hzero : storeArgument old argument 0 = argument[0] := by
      simp only [storeArgument, Fin.val_zero, hpos, if_true]
      exact List.getD_eq_getElem _ _ hpos
    rw [hzero]
    exact hbytes _ (List.getElem_mem hpos)
  have hvalid : ¬ (some buf = none ∨ nbytes < 0) := by
    simp only [reduceCtorEq, false_or]
    omega
  unfold getargs
  dsimp only
  rw [hargument, if_neg hvalid, if_neg hfirst, strncpyBytes,
    cString_storeArgument old hbytes hshort, List.length_take]
  congr 3
  omega

theorem getargs_bounded (s : Kernel) (buf : UserBuffer) {nbytes : ℤ} (hnbytes : 0 ≤ nbytes) :
    (getargs s (some buf) nbytes).2.length ≤ nbytes := by
  unfold getargs
  dsimp only
  split
  · exact hnbytes
  · split
    · exact hnbytes
    · rw [length_strncpyBytes]
      omega

/-- `getargs` keeps to this exactly if the string and its NUL fit: if they do
not, it stores the first bytes of the string and reports success. -/
theorem deliversArgument_iff {s : Kernel} {argument : List UInt8}
    (hholds : s.HoldsArgument argument) (hne : argument ≠ [])
    (hbytes : ∀ byte ∈ argument, byte ≠ 0) (hshort : argument.length < 128)
    (buf : UserBuffer) {nbytes : ℤ} (hnbytes : 0 ≤ nbytes) :
    DeliversArgument s argument buf nbytes ↔ argument.length + 1 ≤ nbytes := by
  have hcall := getargs_of_holds hholds hne hbytes hshort buf hnbytes
  constructor
  · intro hdelivers
    by_contra hlong
    have hvalue := (hdelivers.refused hlong).1
    rw [hcall] at hvalue
    contradiction
  · intro hfits
    refine ⟨fun _ => ⟨by rw [hcall], ?_⟩, fun hno => absurd hfits hno,
      getargs_bounded s buf hnbytes⟩
    intro i hi
    rw [hcall]
    obtain ⟨padding, hpadding⟩ :
        ∃ padding, nbytes.toNat - argument.length = padding + 1 :=
      ⟨nbytes.toNat - argument.length - 1, by omega⟩
    have hwhole : argument.take nbytes.toNat ++
        List.replicate (nbytes.toNat - argument.length) 0 =
          (argument ++ [0]) ++ List.replicate padding 0 := by
      rw [List.take_of_length_le (by omega), hpadding, List.replicate_succ, List.append_assoc]
      rfl
    have hstored : i < ((argument ++ [0]) ++ List.replicate padding 0).length := by
      rw [List.length_append]
      omega
    dsimp only
    rw [hwhole, storedBuffer, dif_pos hstored, List.getElem_append_left hi]

theorem fileArgument_ne_zero : ∀ byte ∈ ascii "frame0.txt", byte ≠ 0 :=
  List.forall_mem_ne'.mpr (by decide)

theorem started_oneArgument : ∃ next entry image,
    execute smallImage shellKernel (some (shellLine oneArgument)) zeroFrame =
        some (.started next entry image) ∧ next.HoldsArgument (ascii "frame0.txt") := by
  obtain ⟨next, entry, image, hstart⟩ := execute_shellLine oneArgument_isWord (by decide)
  have hholds := holdsArgument_of_started hstart
  rw [show (parseCommand (shellLine oneArgument)).2 = ascii "frame0.txt" by decide] at hholds
  exact ⟨next, entry, image, hstart, hholds⟩

def fullBuffer : UserBuffer := ⟨0x8001000, fun _ => 0xFF⟩

theorem deliversArgument_file : ∃ next entry image,
    execute smallImage shellKernel (some (shellLine oneArgument)) zeroFrame =
        some (.started next entry image) ∧
      DeliversArgument next (ascii "frame0.txt") fullBuffer 1024 := by
  obtain ⟨next, entry, image, hstart, hholds⟩ := started_oneArgument
  exact ⟨next, entry, image, hstart,
    (deliversArgument_iff hholds (by decide) fileArgument_ne_zero (by decide) _
      (by decide)).mpr (by decide)⟩

/-- A program started with the argument `frame0.txt` that asks with a buffer of
ten bytes is told that it has its argument, without a NUL in the buffer; the
emulation refuses the call. -/
theorem exactBuffer_unterminated : ∃ next entry image,
    execute smallImage shellKernel (some (shellLine oneArgument)) zeroFrame =
        some (.started next entry image) ∧
      getargs next (some fullBuffer) 10 = (0, ascii "frame0.txt") ∧
      emulatedGetargs oneArgument 10 = none ∧
      ¬ DeliversArgument next (ascii "frame0.txt") fullBuffer 10 := by
  obtain ⟨next, entry, image, hstart, hholds⟩ := started_oneArgument
  have hcall : getargs next (some fullBuffer) 10 = (0, ascii "frame0.txt") := by
    rw [getargs_of_holds hholds (by decide) fileArgument_ne_zero (by decide) _ (by decide)]
    decide
  refine ⟨next, entry, image, hstart, hcall, by decide, fun hdelivers => ?_⟩
  have hvalue := (hdelivers.refused (by decide)).1
  rw [hcall] at hvalue
  exact absurd hvalue (by decide)

end VirtualOS
