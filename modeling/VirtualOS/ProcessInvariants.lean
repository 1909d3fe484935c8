import VirtualOS.ProcessForest
import Mathlib.Tactic

/-!
# The process table and the running context

Two laws of every run of completed operations after the first shell.  The
chains of control blocks, the table and the counters describe one forest; and
`tss.esp0`, the control block found through it and the user page all belong to
the process of the running terminal.
-/

namespace VirtualOS

open PartialRuns LinkedStacks

/-! ## The statements -/

namespace Kernel

def processNumPrev (s : Kernel) (num : ℕ) : ℕ := (s.pcb (pcbAddress num)).processNumPrev

/-- The process met after `k` steps from the top of terminal `t`. -/
def ancestor (s : Kernel) (t : Fin 3) (k : ℕ) : ℕ :=
  s.processNumPrev^[k] (s.terminalT t).processNum

/-- The table, the counters and the chains describe one forest. -/
structure ProcessForest (s : Kernel) : Prop where
  total_nonneg : ∀ t, 0 ≤ (s.terminalT t).totalProcess
  ends : ∀ t (k : ℕ), (k : ℤ) = (s.terminalT t).totalProcess → s.ancestor t k = 0
  goes_on : ∀ t (k : ℕ), (k : ℤ) < (s.terminalT t).totalProcess → s.ancestor t k ≠ 0
  no_repetition : ∀ t (k l : ℕ), k < l → (l : ℤ) < (s.terminalT t).totalProcess →
    s.ancestor t k ≠ s.ancestor t l
  disjoint : ∀ t u, t ≠ u → ∀ k l : ℕ, (k : ℤ) < (s.terminalT t).totalProcess →
    (l : ℤ) < (s.terminalT u).totalProcess → s.ancestor t k ≠ s.ancestor u l
  process_iff : ∀ num, 1 ≤ num → num ≤ 6 →
    (s.process num = 1 ↔
      ∃! t, ∃ k : ℕ, (k : ℤ) < (s.terminalT t).totalProcess ∧ s.ancestor t k = num)
  flag_iff : ∀ t, (s.terminalT t).flag = 1 ↔ 1 ≤ (s.terminalT t).totalProcess

/-- The processor works for the process of the running terminal. -/
structure RunningContext (s : Kernel) (num : ℕ) : Prop where
  running : s.running.processNum = num
  pos : 1 ≤ num
  le_max : num ≤ 6
  esp0 : s.esp0 = 0x800000 - 0x2000 * (BitVec.ofNat 32 num - 1) - 4
  pcb : s.esp0 &&& 0xFFFFE000 = 0x800000 - 0x2000 * BitVec.ofNat 32 num
  own : (s.pcb (s.esp0 &&& 0xFFFFE000)).processNum = num
  page : s.pageDirectory 32 = (0x800000 + (BitVec.ofNat 32 num - 1) * 0x400000) ||| 0x87

end Kernel

/-! ## Reading the invariant -/

section Reading

variable {s : Kernel} {family : Fin 3 → List ℕ}

theorem Scheduled.ancestor_eq (hsched : Scheduled s.view family) {t : Fin 3} {k : ℕ}
    (hk : k < (family t).length) : s.ancestor t k = (family t)[k] :=
  (hsched.linked t).iterate_eq_getElem hk

theorem Scheduled.lt_total_iff (hsched : Scheduled s.view family) {t : Fin 3} {k : ℕ} :
    (k : ℤ) < (s.terminalT t).totalProcess ↔ k < (family t).length := by
  have hcount : (s.terminalT t).totalProcess = (family t).length := hsched.count t
  omega

theorem Scheduled.mem_iff_ancestor (hsched : Scheduled s.view family) {t : Fin 3} {num : ℕ} :
    num ∈ family t ↔
      ∃ k : ℕ, (k : ℤ) < (s.terminalT t).totalProcess ∧ s.ancestor t k = num := by
  rw [(hsched.linked t).mem_iff_iterate]
  constructor
  · rintro ⟨k, hk, heq⟩
    exact ⟨k, hsched.lt_total_iff.mpr hk, heq⟩
  · rintro ⟨k, hk, heq⟩
    exact ⟨k, hsched.lt_total_iff.mp hk, heq⟩

theorem Scheduled.processForest (hsched : Scheduled s.view family) : s.ProcessForest where
  total_nonneg t := by
    have hcount : (s.terminalT t).totalProcess = (family t).length := hsched.count t
    omega
  ends t k hk := by
    have hcount : (s.terminalT t).totalProcess = (family t).length := hsched.count t
    have hlength : k = (family t).length := by omega
    subst hlength
    exact (hsched.linked t).iterate_length
  goes_on t k hk := by
    have hlt := hsched.lt_total_iff.mp hk
    rw [hsched.ancestor_eq hlt]
    exact ne_of_mem_of_not_mem (List.getElem_mem hlt) (hsched.linked t).bottom_notMem
  no_repetition t k l hkl hl := by
    have hlt := hsched.lt_total_iff.mp hl
    rw [hsched.ancestor_eq (hkl.trans hlt), hsched.ancestor_eq hlt]
    intro heq
    have hsame := (hsched.separate.nodup t).getElem_inj_iff.mp heq
    omega
  disjoint t u htu k l hk hl heq := by
    have hkt := hsched.lt_total_iff.mp hk
    have hlu := hsched.lt_total_iff.mp hl
    rw [hsched.ancestor_eq hkt, hsched.ancestor_eq hlu] at heq
    exact hsched.separate.disjoint t u htu (List.getElem_mem hkt) (heq ▸ List.getElem_mem hlu)
  process_iff num hpos hmax := by
    simp only [← hsched.mem_iff_ancestor, hsched.separate.existsUnique_iff]
    constructor
    · intro hone
      rcases hsched.taken num hpos hmax with ⟨_, hmem⟩ | ⟨hzero, _⟩
      · exact hmem
      · exact absurd (hone.symm.trans hzero) one_ne_zero
    · rintro ⟨t, hmem⟩
      exact hsched.process_eq_one hmem
  flag_iff t := by
    have hcount : (s.terminalT t).totalProcess = (family t).length := hsched.count t
    have hflag : (s.terminalT t).flag = if family t = [] then 0 else 1 := hsched.flag t
    rw [hflag, hcount]
    cases family t with
    | nil => simp
    | cons num rest => simp

theorem kernelStack_eq {num : ℕ} (hpos : 1 ≤ num) (hmax : num ≤ processNumMax) :
    kernelStack num = 0x800000 - 0x2000 * (BitVec.ofNat 32 num - 1) - 4 := by
  unfold processNumMax at hmax
  interval_cases num <;> decide

theorem pcbAddress_eq {num : ℕ} (hmax : num ≤ processNumMax) :
    pcbAddress num = 0x800000 - 0x2000 * BitVec.ofNat 32 num := by
  unfold processNumMax at hmax
  interval_cases num <;> decide

theorem userPage_eq {num : ℕ} (hpos : 1 ≤ num) (hmax : num ≤ processNumMax) :
    userPage num = (0x800000 + (BitVec.ofNat 32 num - 1) * 0x400000) ||| 0x87 := by
  unfold processNumMax at hmax
  interval_cases num <;> decide

theorem Scheduled.runningContext (hsched : Scheduled s.view family) :
    s.RunningContext s.running.processNum := by
  have hpos : 1 ≤ s.running.processNum := hsched.sound.pos
  have hmax : s.running.processNum ≤ processNumMax := hsched.current_le
  have hpcb : s.esp0 &&& 0xFFFFE000 = pcbAddress s.running.processNum := hsched.pcbPtr_eq
  refine ⟨rfl, hpos, hmax, ?_, ?_, ?_, ?_⟩
  · rw [← kernelStack_eq hpos hmax]
    exact hsched.esp0
  · rw [hpcb, pcbAddress_eq hmax]
  · rw [hpcb]
    exact hsched.own _ _ hsched.current_mem
  · rw [← userPage_eq hpos hmax]
    exact hsched.page

end Reading

/-! ## A small system -/

/-- A directory entry: the name padded to 32 bytes, the type and the inode. -/
def dentryBytes (name : List UInt8) (fileType inode : UInt8) : List UInt8 :=
  name ++ List.replicate (32 - name.length) 0 ++ [fileType, 0, 0, 0, inode, 0, 0, 0] ++
    List.replicate 24 0

/-- An image of four entries, two inodes and two data blocks. -/
def smallImage : Image where
  filesystemStart := 0
  memory address :=
    if address < 4096 then
      ([4, 0, 0, 0, 2, 0, 0, 0, 2, 0, 0, 0] ++ List.replicate 52 0 ++
        dentryBytes (ascii ".") 1 0 ++ dentryBytes (ascii "shell") 2 0 ++
        dentryBytes (ascii "rtc") 0 0 ++ dentryBytes (ascii "frame0.txt") 2 1).getD address 0
    else if address < 8192 then [28, 0, 0, 0, 0].getD (address - 4096) 0
    else if address < 12288 then [5, 0, 0, 0, 1].getD (address - 8192) 0
    else if address < 16384 then
      (exeMagicNumber ++ List.replicate 20 0 ++ [0x18, 0x80, 0x04, 0x08]).getD
        (address - 12288) 0
    else (ascii "hello").getD (address - 16384) 0

theorem smallImage_loadable : smallImage.Loadable shellName := by
  refine ⟨smallImage.direntry 1, by decide +kernel, fun stale => ?_, by decide +kernel⟩
  have hdata : (readData smallImage (smallImage.direntry 1).inodeNum 0 4).2 =
      exeMagicNumber := by decide +kernel
  rw [readWord, hdata]
  rfl

def zeroTerminal : Terminal where
  videoMemory _ := 0
  keyBuf _ := 0
  numBuf := 0
  bufFlag := 0
  screenX := 0
  screenY := 0
  startLinePtr := 0
  processNum := 0
  flag := 0
  totalProcess := 0

def zeroPcb : Pcb where
  fileDescArray _ := ⟨none, 0, 0, 0⟩
  espPrev := 0
  ebpPrev := 0
  processNumPrev := 0
  esp := 0
  ebp := 0
  processNum := 0
  argument _ := 0

/-- The kernel before its first shell, with the timer, the keyboard and the
clock unmasked. -/
def bootKernel : Kernel where
  terminalT _ := zeroTerminal
  terminalNum := 0
  terminalDisplayed := 0
  videoMem _ := 0
  cursorPos := 0
  ctrlPress := false
  capslockPress := false
  shiftPress := false
  altPress := false
  process num := if num = 0 then 1 else 0
  currentProcessNum := 0
  pcb _ := zeroPcb
  esp0 := 0
  pageDirectory _ := 0
  userPageTable _ := 0
  videoPageTable _ := 0
  dirIndex := 0
  rtcFlag _ := 0
  rtcRegisterA := 0x26
  masterMask := 0xF8
  slaveMask := 0xFE
  masterData := 0xF8
  slaveData := 0xFE

theorem bootKernel_booted : Booted bootKernel where
  terminalNum := rfl
  process num hpos _ := if_neg (by omega)
  processNum _ := rfl
  flag _ := rfl
  totalProcess _ := rfl
  flags _ _ := rfl
  fops _ _ := rfl

def zeroFrame : StackFrame := ⟨0, 0, fun _ => 0, fun _ => 0⟩
def zeroBuffer : UserBuffer := ⟨0x8001000, fun _ => 0⟩
def zeroLink : Link := ⟨0, 0, fun _ => 0⟩

def shellKernel : Kernel := startProcess (loadCurrentProcess bootKernel) 1 [] zeroFrame

theorem execute_bootKernel : ∃ entry image,
    execute smallImage bootKernel (some shellName) zeroFrame =
      some (.started shellKernel entry image) := by
  have hfound : freeSlot (loadCurrentProcess bootKernel) = some 1 := by decide
  exact execute_shell_eq zeroFrame smallImage_loadable hfound

/-! ## The laws -/

section Laws

variable {img : Image} {link : Link} {boot first final : Kernel} {frame : StackFrame}
  {entry image : List UInt8} {ops : List Op}

/-- After the first shell, every run of completed operations keeps the forest. -/
theorem processForest_of_run
    (hshell : img.Loadable shellName) (hboot : Booted boot)
    (hfirst : execute img boot (some shellName) frame = some (.started first entry image))
    (htyped : Meets (step img link) (NoUntypedOpen img) first ops)
    (hrun : run (step img link) first ops = some final) :
    final.ProcessForest := by
  obtain ⟨family, hstart⟩ := hboot.scheduled hfirst
  obtain ⟨family', hfinal⟩ := run_scheduled hshell hstart htyped hrun
  exact hfinal.processForest

/-- After the first shell, every run of completed operations keeps the stack
pointer, the control block and the user page on the running process. -/
theorem runningContext_of_run
    (hshell : img.Loadable shellName) (hboot : Booted boot)
    (hfirst : execute img boot (some shellName) frame = some (.started first entry image))
    (htyped : Meets (step img link) (NoUntypedOpen img) first ops)
    (hrun : run (step img link) first ops = some final) :
    final.RunningContext final.running.processNum := by
  obtain ⟨family, hstart⟩ := hboot.scheduled hfirst
  obtain ⟨family', hfinal⟩ := run_scheduled hshell hstart htyped hrun
  exact hfinal.runningContext

end Laws

end VirtualOS
