import VirtualOS.FilesystemImage
import Mathlib.Tactic

/-!
# The names that `read_dentry_by_name` accepts

The test of `read_dentry_by_name` compares as many bytes as the string has and
then the two lengths, where the length of a stored name of 32 bytes is counted
past its end.  It comes down to equality of the string with the stored name: the
function returns the first entry with exactly that name, or nothing.
-/

namespace VirtualOS

/-- The first entry in index order with this name. -/
def Image.FirstNamed (img : Image) (name : List UInt8) (dentry : Dentry) : Prop :=
  ∃ index < img.dirCount, dentry = img.direntry index ∧ (img.direntry index).name = name ∧
    ∀ earlier < index, (img.direntry earlier).name ≠ name

/-- The return value of `read_dentry_by_name` and `*dentry` after it. -/
def lookUp (img : Image) (fname : List UInt8) (dentry : Dentry) : ℤ × Dentry :=
  match readDentryByName img fname with
  | some found => (0, found)
  | none => (-1, dentry)

variable {img : Image} {fname name : List UInt8} {dentry : Dentry}

theorem Image.FirstNamed.unique {other : Dentry} (hfirst : img.FirstNamed name dentry)
    (hother : img.FirstNamed name other) : dentry = other := by
  obtain ⟨index, _, rfl, hname, hbefore⟩ := hfirst
  obtain ⟨index', _, rfl, hname', hbefore'⟩ := hother
  rcases lt_trichotomy index index' with hlt | rfl | hlt
  · exact absurd hname (hbefore' index hlt)
  · rfl
  · exact absurd hname' (hbefore index' hlt)

theorem firstNamed_of_readDentryByName (hfound : readDentryByName img fname = some dentry) :
    img.FirstNamed (cString fname) dentry := by
  obtain ⟨index, hindex, rfl, hname, hbefore⟩ := readDentryByName_eq_some hfound
  exact ⟨index, hindex, rfl, hname, hbefore⟩

theorem strlen_of_readDentryByName (hfound : readDentryByName img fname = some dentry) :
    1 ≤ strlen fname ∧ strlen fname ≤ filenameLen := by
  unfold readDentryByName at hfound
  split at hfound
  · contradiction
  · omega

/-- A lookup succeeds exactly for the strings of 1 to 32 bytes that some entry stores as
its name. -/
theorem readDentryByName_isSome_iff :
    (readDentryByName img fname).isSome ↔
      (1 ≤ (cString fname).length ∧ (cString fname).length ≤ 32) ∧
        ∃ index < img.dirCount, (img.direntry index).name = cString fname := by
  rw [← strlen_eq_cString_length]
  constructor
  · intro hsome
    obtain ⟨dentry, hfound⟩ := Option.isSome_iff_exists.mp hsome
    obtain ⟨index, hindex, _, hname, _⟩ := firstNamed_of_readDentryByName hfound
    exact ⟨strlen_of_readDentryByName hfound, index, hindex, hname⟩
  · rintro ⟨⟨hpos, hlen⟩, index, hindex, hname⟩
    exact Option.isSome_iff_exists.mpr (readDentryByName_isSome hpos hlen hindex hname)

/-- The first entry with a name of 1 to 32 bytes is the one that is found. -/
theorem readDentryByName_iff_firstNamed (hname : ∀ byte ∈ name, byte ≠ 0) :
    readDentryByName img name = some dentry ↔
      (1 ≤ name.length ∧ name.length ≤ 32) ∧ img.FirstNamed name dentry := by
  have hstring : cString name = name := cString_of_ne_zero hname
  constructor
  · intro hfound
    have hfirst := firstNamed_of_readDentryByName hfound
    have hsome := readDentryByName_isSome_iff.mp (Option.isSome_of_eq_some hfound)
    rw [hstring] at hfirst hsome
    exact ⟨hsome.1, hfirst⟩
  · rintro ⟨hlength, hfirst⟩
    obtain ⟨index, hindex, hentry⟩ := id hfirst
    have hsome : (readDentryByName img name).isSome := by
      rw [readDentryByName_isSome_iff, hstring]
      exact ⟨hlength, index, hindex, hentry.2.1⟩
    obtain ⟨found, hfound⟩ := Option.isSome_iff_exists.mp hsome
    have hother := firstNamed_of_readDentryByName hfound
    rw [hstring] at hother
    rw [hfound, hother.unique hfirst]

/-- `read_dentry_by_name` returns 0 exactly for a string of 1 to 32 bytes that is the name
of an entry, and then hands out the first such entry; otherwise it returns `-1` and
leaves `*dentry` alone. -/
theorem lookUp_accepts (img : Image) (fname : List UInt8) (dentry : Dentry) :
    ((lookUp img fname dentry).1 = 0 ↔
      (1 ≤ (cString fname).length ∧ (cString fname).length ≤ 32) ∧
        ∃ index < img.dirCount, (img.direntry index).name = cString fname) ∧
      ((lookUp img fname dentry).1 = 0 →
        img.FirstNamed (cString fname) (lookUp img fname dentry).2) ∧
      ((lookUp img fname dentry).1 ≠ 0 → lookUp img fname dentry = (-1, dentry)) := by
  rw [← readDentryByName_isSome_iff]
  unfold lookUp
  cases hfound : readDentryByName img fname with
  | none => simp
  | some found => simpa using firstNamed_of_readDentryByName hfound

end VirtualOS
