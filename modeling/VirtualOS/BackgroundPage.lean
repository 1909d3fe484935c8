import VirtualOS.StructLayouts
import VirtualOS.VidmapDisplay
import Mathlib.Tactic

/-!
# The page of a terminal in the background

For a terminal that is not shown the timer maps 132MB to the buffer of the
terminal by adding flags to the address of the buffer.  The buffers are members
of an array of structures which is not put on a page boundary and whose
elements are not a number of pages long.
-/

namespace VirtualOS

open PartialRuns PageWalk StructLayouts

/-! ## The array `terminal_t` -/

/-- The members of `struct terminal`. -/
inductive TerminalMember where
  | videoMemory
  | keyBuf
  | numBuf
  | bufFlag
  | screenX
  | screenY
  | startLinePtr
  | processNum
  | flag
  | totalProcess
  deriving DecidableEq

def terminalStruct : List TerminalMember :=
  [.videoMemory, .keyBuf, .numBuf, .bufFlag, .screenX, .screenY, .startLinePtr, .processNum,
    .flag, .totalProcess]

def TerminalMember.layout : TerminalMember → Member
  | .videoMemory => ⟨2 * 25 * 80, 1⟩
  | .keyBuf => ⟨0x80, 1⟩
  | .bufFlag => ⟨1, 1⟩
  | _ => ⟨4, 4⟩

def terminalMembers : List Member := terminalStruct.map TerminalMember.layout

/-- The address of byte `o` of a member of terminal `t`, when `terminal_t` is
linked at `base`. -/
def terminalByte (base : BitVec 32) (t : Fin 3) (m : TerminalMember) (o : ℕ) : BitVec 32 :=
  base + BitVec.ofNat 32 (arrayOffset terminalMembers t (terminalStruct.idxOf m) o)

theorem terminal_size : structSize terminalMembers = 4160 := by decide

theorem terminalMembers_layout (m : TerminalMember) :
    ∃ h : terminalStruct.idxOf m < terminalMembers.length,
      terminalMembers[terminalStruct.idxOf m] = m.layout := by
  cases m <;> exact ⟨by decide, rfl⟩

theorem terminalOffset_lt {t : Fin 3} {m : TerminalMember} {o : ℕ} (ho : o < m.layout.size) :
    arrayOffset terminalMembers t (terminalStruct.idxOf m) o < 12480 := by
  obtain ⟨hm, hlayout⟩ := terminalMembers_layout m
  have hlt := arrayOffset_lt t.isLt hm (by rw [hlayout]; exact ho)
  rw [terminal_size] at hlt
  exact hlt

theorem terminalByte_inj {base : BitVec 32} {t u : Fin 3} {m m' : TerminalMember} {o p : ℕ}
    (ho : o < m.layout.size) (hp : p < m'.layout.size)
    (heq : terminalByte base t m o = terminalByte base u m' p) : t = u ∧ m = m' ∧ o = p := by
  obtain ⟨hm, hlayout⟩ := terminalMembers_layout m
  obtain ⟨hm', hlayout'⟩ := terminalMembers_layout m'
  have hoffset := congrArg BitVec.toNat ((BitVec.add_right_inj base).mp heq)
  have hlt := terminalOffset_lt (t := t) ho
  have hlt' := terminalOffset_lt (t := u) hp
  rw [BitVec.toNat_ofNat, BitVec.toNat_ofNat, Nat.mod_eq_of_lt (by omega),
    Nat.mod_eq_of_lt (by omega)] at hoffset
  obtain ⟨htu, hmember, hbyte⟩ :=
    arrayOffset_inj hm hm' (by rw [hlayout]; exact ho) (by rw [hlayout']; exact hp) hoffset
  refine ⟨Fin.ext htu, ?_, hbyte⟩
  exact List.idxOf_inj (by cases m <;> decide) |>.mp hmember

/-! ## The page at 132MB -/

/-- What a process in the background should find at 132MB: the flags of the entry
are the three that were added, the page shows the buffer of the terminal, and no
other byte of the terminals lies in the frame. -/
structure OwnPage (base : BitVec 32) (frame : BitVec 32 → ℕ → BitVec 32) (s : Kernel)
    (t : Fin 3) : Prop where
  flags : s.videoPageTable 0 &&& 0xFFF = 0x01 ||| 0x02 ||| 0x04
  translates : ∀ o < 4000, walk s.pageDirectory frame (0x8400000 + BitVec.ofNat 32 o) =
    some ⟨terminalByte base t .videoMemory o, true⟩
  alone : ∀ u m o, o < m.layout.size →
    frameOf (terminalByte base u m o) = frameOf (s.videoPageTable 0) →
      ∃ p < 4000, terminalByte base u m o = terminalByte base t .videoMemory p

theorem pitHandler_madeFor {link : Link} {s next : Kernel} {cpu : Cpu}
    (hsome : ¬ ((s.terminalT 1).flag = 0 ∧ (s.terminalT 2).flag = 0))
    (hpit : (pitHandler link s cpu).1 = next)
    (hhidden : next.terminalNum ≠ next.terminalDisplayed) :
    next.mapping.MadeFor link next.terminalNum false := by
  obtain ⟨hshown, entry, hmapping⟩ := pitHandler_mapping link hsome cpu
  rw [hpit] at hshown hmapping
  rw [hshown] at hhidden
  rw [if_neg hhidden] at hmapping
  rw [hmapping]
  exact Mapping.madeFor_showBuffer link _ _

theorem and_or_self_left (address flags : BitVec 32) :
    address &&& (address ||| flags) = address := by
  ext i
  simp only [BitVec.getElem_and, BitVec.getElem_or]
  cases address[i] <;> rfl

theorem userEntry_flags_iff (address : BitVec 32) :
    userEntry address &&& 0xFFF = 0x07 ↔ address.toNat % 2 ^ 12 < 8 := by
  have hpage : (address &&& 0xFFF).toNat = address.toNat % 2 ^ 12 := and_mask_toNat 0xFFF rfl
  have hlow : (address &&& 0x07).toNat = address.toNat % 2 ^ 3 := and_mask_toNat 0x07 rfl
  rw [userEntry_eq]
  constructor
  · intro hflags
    have hmasked : address &&& 0xFFF = address &&& 0x07 := by
      conv_lhs => rw [← and_or_self_left address 0x07, BitVec.and_assoc, hflags]
    rw [hmasked, hlow] at hpage
    omega
  · intro hlt
    have hmasked : address &&& 0xFFF = address &&& 0x07 := by
      apply BitVec.eq_of_toNat_eq
      omega
    have habsorbed : (address &&& 0x07) ||| 0x07 = 0x07 := by
      ext i
      simp only [BitVec.getElem_and, BitVec.getElem_or]
      cases address[i] <;> simp
    rw [BitVec.and_or_distrib_right, hmasked]
    exact habsorbed

theorem frameOf_userEntry (address : BitVec 32) :
    frameOf (userEntry address) = frameOf address := by
  rw [userEntry_eq, frameOf_or]
  exact BitVec.or_zero

theorem terminalByte_videoMemory (base : BitVec 32) (t : Fin 3) (o : ℕ) :
    terminalByte base t .videoMemory o =
      terminalByte base t .videoMemory 0 + BitVec.ofNat 32 o := by
  unfold terminalByte
  rw [BitVec.add_assoc, ← BitVec.ofNat_add]
  rfl

theorem terminalByte_keyBuf (base : BitVec 32) (t : Fin 3) :
    terminalByte base t .keyBuf 0 = terminalByte base t .videoMemory 0 + 4000 := by
  have hoffset : arrayOffset terminalMembers t (terminalStruct.idxOf .keyBuf) 0 =
      arrayOffset terminalMembers t (terminalStruct.idxOf .videoMemory) 0 + 4000 := rfl
  unfold terminalByte
  rw [hoffset, BitVec.ofNat_add, ← BitVec.add_assoc]
  rfl

theorem background_walk {link : Link} {s : Kernel} {t : Fin 3}
    {frame : BitVec 32 → ℕ → BitVec 32} (hmade : s.mapping.MadeFor link t false)
    (haligned : frameOf link.videoPageTable = link.videoPageTable)
    (hframe : frame link.videoPageTable = s.videoPageTable) {o : ℕ} (ho : o < 4096) :
    walk s.pageDirectory frame (0x8400000 + BitVec.ofNat 32 o) =
      some ⟨frameOf (link.videoMemory t) + BitVec.ofNat 32 o, true⟩ := by
  have haddress : (0x8400000 + BitVec.ofNat 32 o : BitVec 32).toNat = 0x8400000 + o := by
    have hbase : (0x8400000 : BitVec 32).toNat = 0x8400000 := rfl
    rw [BitVec.toNat_add, BitVec.toNat_ofNat, hbase]
    omega
  have hindex : (0x8400000 + BitVec.ofNat 32 o : BitVec 32).toNat / 2 ^ 22 = vidmapIndex := by
    rw [haddress, vidmapIndex]
    omega
  have hpage : (0x8400000 + BitVec.ofNat 32 o : BitVec 32).toNat / 2 ^ 12 % 2 ^ 10 = 0 := by
    rw [haddress]
    omega
  have hoffset : (0x8400000 + BitVec.ofNat 32 o) &&& 0xFFF = BitVec.ofNat 32 o := by
    apply BitVec.eq_of_toNat_eq
    rw [and_mask_toNat (k := 12) 0xFFF rfl, haddress, BitVec.toNat_ofNat]
    omega
  obtain ⟨hdirectory, htable⟩ := hmade
  obtain ⟨hpresent, hsmall, hbase, huser⟩ := tableEntry_spec 0x07 haligned rfl rfl rfl
  have hpde : s.pageDirectory ((0x8400000 + BitVec.ofNat 32 o : BitVec 32).toNat / 2 ^ 22) =
      link.videoPageTable ||| 0x07 := by
    rw [hindex, ← userEntry_eq]
    exact hdirectory
  have hpte : frame (frameOf (link.videoPageTable ||| 0x07))
      ((0x8400000 + BitVec.ofNat 32 o : BitVec 32).toNat / 2 ^ 12 % 2 ^ 10) =
        userEntry (link.videoMemory t) := by
    rw [hbase, hframe, hpage]
    exact htable
  have hword : Present (userEntry (link.videoMemory t)) ∧
      (userEntry (link.videoMemory t)).getLsbD 2 = true := by
    rw [userEntry_eq]
    refine ⟨?_, ?_⟩
    · rw [Present, BitVec.getLsbD_or]
      exact Bool.or_true _
    · rw [BitVec.getLsbD_or]
      exact Bool.or_true _
  rw [walk_of_table hpde hpresent hsmall hpte, if_neg (not_not.mpr hword.1), huser, hword.2,
    frameOf_userEntry, hoffset]
  rfl

/-- The page shows the buffer exactly when the buffer begins a frame. -/
theorem background_translates_iff {link : Link} {base : BitVec 32} {s : Kernel} {t : Fin 3}
    {frame : BitVec 32 → ℕ → BitVec 32}
    (hlinked : link.videoMemory t = terminalByte base t .videoMemory 0)
    (hmade : s.mapping.MadeFor link t false)
    (haligned : frameOf link.videoPageTable = link.videoPageTable)
    (hframe : frame link.videoPageTable = s.videoPageTable) :
    (∀ o < 4000, walk s.pageDirectory frame (0x8400000 + BitVec.ofNat 32 o) =
        some ⟨terminalByte base t .videoMemory o, true⟩) ↔
      2 ^ 12 ∣ (terminalByte base t .videoMemory 0).toNat := by
  have hwalk := fun o (ho : o < 4000) =>
    background_walk hmade haligned hframe (o := o) (by omega)
  rw [hlinked] at hwalk
  have hbegin := frameOf_toNat (terminalByte base t .videoMemory 0)
  constructor
  · intro htranslates
    have hfirst := (hwalk 0 (by omega)).symm.trans (htranslates 0 (by omega))
    have hphysical := congrArg Translation.physical (Option.some.inj hfirst)
    have hsame : frameOf (terminalByte base t .videoMemory 0) =
        terminalByte base t .videoMemory 0 := (BitVec.add_zero _).symm.trans hphysical
    rw [hsame] at hbegin
    exact Dvd.intro_left _ hbegin.symm
  · intro hdvd o ho
    have hsame : frameOf (terminalByte base t .videoMemory 0) =
        terminalByte base t .videoMemory 0 := by
      apply BitVec.eq_of_toNat_eq
      rw [hbegin, Nat.div_mul_cancel hdvd]
    rw [hwalk o ho, hsame, ← terminalByte_videoMemory]

/-- Of the three buffers at most one begins a frame. -/
theorem buffer_begins_frame_unique {base : BitVec 32} {t u : Fin 3}
    (ht : 2 ^ 12 ∣ (terminalByte base t .videoMemory 0).toNat)
    (hu : 2 ^ 12 ∣ (terminalByte base u .videoMemory 0).toNat) : t = u := by
  have hoffset : ∀ v : Fin 3,
      arrayOffset terminalMembers v (terminalStruct.idxOf .videoMemory) 0 = 4160 * v := by decide
  have htoNat : ∀ v : Fin 3, (terminalByte base v .videoMemory 0).toNat =
      (base.toNat + 4160 * v) % 2 ^ 32 := by
    intro v
    have hlt := v.isLt
    rw [terminalByte, hoffset, BitVec.toNat_add, BitVec.toNat_ofNat,
      Nat.mod_eq_of_lt (a := 4160 * v) (by omega)]
  rw [htoNat] at ht hu
  have htlt := t.isLt
  have hult := u.isLt
  apply Fin.ext
  omega

/-- Whatever the address of the array, the page at 132MB of a terminal that the
timer dispatches in the background is not its own. -/
theorem background_not_ownPage {link : Link} {base : BitVec 32} {s next : Kernel} {cpu : Cpu}
    (hlinked : ∀ t, link.videoMemory t = terminalByte base t .videoMemory 0)
    (hsome : ¬ ((s.terminalT 1).flag = 0 ∧ (s.terminalT 2).flag = 0))
    (hpit : (pitHandler link s cpu).1 = next)
    (hhidden : next.terminalNum ≠ next.terminalDisplayed)
    (frame : BitVec 32 → ℕ → BitVec 32) :
    ¬ OwnPage base frame next next.terminalNum := by
  rintro ⟨hflags, -, halone⟩
  have hentry : next.videoPageTable 0 =
      userEntry (terminalByte base next.terminalNum .videoMemory 0) := by
    rw [← hlinked]
    exact (pitHandler_madeFor hsome hpit hhidden).2
  rw [hentry] at hflags halone
  have hoffset := (userEntry_flags_iff _).mp hflags
  have hkeys : (terminalByte base next.terminalNum .keyBuf 0).toNat =
      (terminalByte base next.terminalNum .videoMemory 0).toNat + 4000 := by
    have hlt := (terminalByte base next.terminalNum .videoMemory 0).isLt
    rw [terminalByte_keyBuf, BitVec.toNat_add]
    exact Nat.mod_eq_of_lt (by change _ + 4000 < _; omega)
  have hframe : frameOf (terminalByte base next.terminalNum .keyBuf 0) =
      frameOf (userEntry (terminalByte base next.terminalNum .videoMemory 0)) := by
    apply BitVec.eq_of_toNat_eq
    rw [frameOf_userEntry, frameOf_toNat, frameOf_toNat, hkeys]
    omega
  obtain ⟨p, hp, heq⟩ := halone next.terminalNum .keyBuf 0 (by decide) hframe
  have hmember := (terminalByte_inj (by decide) hp heq).2.1
  exact absurd hmember (by decide)

/-! ## The array on a page boundary -/

/-- A second shell is started and left in the background, and the first one runs. -/
def backgroundRun : List Op :=
  [.switchTerminal 1 ⟨0, 0⟩ zeroFrame, .switchTerminal 0 ⟨0, 0⟩ zeroFrame, .pit ⟨0, 0⟩]

/-- Physical memory after the tick that follows, as the walk reads it. -/
def dispatchedFrames (s : Kernel) : BitVec 32 → ℕ → BitVec 32 :=
  (pitHandler smallLayout.toLink s ⟨0, 0⟩).1.frames smallLayout
    (pageInit smallLayout.pageTable zeroTables).pageTable fun _ _ => 0

theorem background_not_ownPage_secondShell :
    ∃ s, run (step smallImage smallLayout.toLink) pagedShell backgroundRun = some s ∧
      (pitHandler smallLayout.toLink s ⟨0, 0⟩).1.terminalNum = 1 ∧
      ¬ OwnPage 0x40B000 (dispatchedFrames s) (pitHandler smallLayout.toLink s ⟨0, 0⟩).1
        (pitHandler smallLayout.toLink s ⟨0, 0⟩).1.terminalNum := by
  have hany : ((run (step smallImage smallLayout.toLink) pagedShell backgroundRun).any fun s =>
      ¬ ((s.terminalT 1).flag = 0 ∧ (s.terminalT 2).flag = 0) ∧
        (pitHandler smallLayout.toLink s ⟨0, 0⟩).1.terminalNum = 1 ∧
        (pitHandler smallLayout.toLink s ⟨0, 0⟩).1.terminalDisplayed = 0) = true := by
    decide +kernel
  obtain ⟨s, hrun, hs⟩ := (Option.any_eq_true _ _).mp hany
  obtain ⟨hsome, hnum, hshown⟩ := of_decide_eq_true hs
  refine ⟨s, hrun, hnum, background_not_ownPage ?_ hsome rfl ?_ _⟩
  · intro t
    fin_cases t <;> rfl
  · rw [hnum, hshown]
    decide

/-- The array begins a frame.  The dirty bit of the second terminal's entry is set
from the address, and 132MB is the key buffer of the first terminal. -/
theorem background_of_pageAligned :
    ∃ s, run (step smallImage smallLayout.toLink) pagedShell backgroundRun = some s ∧
      (pitHandler smallLayout.toLink s ⟨0, 0⟩).1.videoPageTable 0 &&& 0xFFF = 0x47 ∧
      frameOf ((pitHandler smallLayout.toLink s ⟨0, 0⟩).1.videoPageTable 0) =
        terminalByte 0x40B000 0 .keyBuf 96 ∧
      ¬ OwnPage 0x40B000 (dispatchedFrames s) (pitHandler smallLayout.toLink s ⟨0, 0⟩).1 1 := by
  have hany : ((run (step smallImage smallLayout.toLink) pagedShell backgroundRun).any fun s =>
      (pitHandler smallLayout.toLink s ⟨0, 0⟩).1.videoPageTable 0 &&& 0xFFF = 0x47 ∧
        frameOf ((pitHandler smallLayout.toLink s ⟨0, 0⟩).1.videoPageTable 0) =
          terminalByte 0x40B000 0 .keyBuf 96) = true := by
    decide +kernel
  obtain ⟨s, hrun, hs⟩ := (Option.any_eq_true _ _).mp hany
  obtain ⟨hflags, hkeys⟩ := of_decide_eq_true hs
  refine ⟨s, hrun, hflags, hkeys, fun hown => ?_⟩
  have hexact := hown.flags
  rw [hflags] at hexact
  exact absurd hexact (by decide)

end VirtualOS
