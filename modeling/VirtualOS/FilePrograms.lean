import VirtualOS.CommandRuns
import VirtualOS.GrepProgram
import Mathlib.Tactic

/-!
# The programs `cat` and `ls`

Both read a descriptor until it is at its end and write what they read to the
terminal.  On the private service of their process this is a loop over the pieces that
the descriptor yields; on the kernel it is the same loop, whatever else runs.
-/

namespace VirtualOS

open PartialRuns CallingPrograms MemorySlices

/-! ## The sources -/

/-- `main` of `cat`, at its calls. -/
inductive CatPoint where
  | main (buf : ℕ → UInt8)
  | opening (buf : ℕ → UInt8)
  | reading (fd : ℤ) (buf : ℕ → UInt8)
  | writing (fd cnt : ℤ) (buf : ℕ → UInt8)
  | failing (text : List UInt8) (status : ℤ)
  | leaving (status : ℤ)

def cat (address : BitVec 32) : CatPoint → Doing Request Answer ℤ CatPoint
  | .main buf => .calls (.getargs (some ⟨address, buf⟩) 1024) fun answer =>
      if 0 ≠ answer.result then .failing (ascii "could not read arguments\n") 3
      else .opening (store buf 0 answer.bytes)
  | .opening buf => .calls (.openFile (some (cString (slice buf 0 1024)))) fun answer =>
      if -1 = answer.result then .failing (ascii "file not found\n") 2
      else .reading answer.result buf
  | .reading fd buf => .calls (.read fd (some ⟨address, buf⟩) 1024) fun answer =>
      if 0 ≠ answer.result then
        if -1 = answer.result then .failing (ascii "file read failed\n") 3
        else .writing fd answer.result (store buf 0 answer.bytes)
      else .leaving 0
  | .writing fd cnt buf => .calls (.write 1 (some ⟨address, buf⟩) cnt) fun answer =>
      if -1 = answer.result then .leaving 3 else .reading fd buf
  | .failing text status => .calls (fdputs 1 text) fun _ => .leaving status
  | .leaving status => .returns status

/-- `main` of `ls`, at its calls. -/
inductive LsPoint where
  | main (buf : ℕ → UInt8)
  | reading (fd : ℤ) (buf : ℕ → UInt8)
  | writing (fd cnt : ℤ) (buf : ℕ → UInt8)
  | failing (text : List UInt8) (status : ℤ)
  | leaving (status : ℤ)

/-- `SBUFSIZE`. -/
def sbufSize : ℤ := 33

def ls (address : BitVec 32) : LsPoint → Doing Request Answer ℤ LsPoint
  | .main buf => .calls (.openFile (some (ascii "."))) fun answer =>
      if -1 = answer.result then .failing (ascii "directory open failed\n") 2
      else .reading answer.result buf
  | .reading fd buf => .calls (.read fd (some ⟨address, buf⟩) (sbufSize - 1)) fun answer =>
      if 0 ≠ answer.result then
        if -1 = answer.result then .failing (ascii "directory entry read failed\n") 3
        else .writing fd answer.result
          (Function.update (store buf 0 answer.bytes) answer.result.toNat newline)
      else .leaving 0
  | .writing fd cnt buf => .calls (.write 1 (some ⟨address, buf⟩) (cnt + 1)) fun answer =>
      if -1 = answer.result then .leaving 3 else .reading fd buf
  | .failing text status => .calls (fdputs 1 text) fun _ => .leaving status
  | .leaving status => .returns status

/-! ## What they print -/

def Request.printed : Request → List UInt8
  | .write fd (some buffer) nbytes => if fd = 1 then slice buffer.memory 0 nbytes.toNat else []
  | _ => []

/-- The bytes written to the terminal by a list of calls. -/
def printed (calls : List (Request × Answer)) : List UInt8 :=
  calls.flatMap fun call => call.1.printed

theorem printed_cons (request : Request) (answer : Answer) (rest : List (Request × Answer)) :
    printed ((request, answer) :: rest) = request.printed ++ printed rest := rfl

theorem printed_mono {calls whole : List (Request × Answer)} (hcalls : calls <+: whole) :
    printed calls <+: printed whole := by
  obtain ⟨left, rfl⟩ := hcalls
  exact ⟨printed left, by simp [printed]⟩

theorem printed_fdputs (text : List UInt8) : (fdputs 1 text).printed = text := by
  have hslice : slice (stringBytes text) 0 text.length = text := by
    apply List.ext_getElem
    · simp
    · intro i hi hlt
      simp [slice, stringBytes, hlt]
  simpa [fdputs, Request.printed] using hslice

/-! ## The pieces of a descriptor -/

/-- Reads of `count` bytes on descriptor `fd` yield these pieces and then the end. -/
inductive Yields (fd : Fin 8) (count : ℕ) : Private → List (List UInt8) → Prop where
  | ended {v after : Private} {handle : Handle} (hopen : v.table fd = some handle)
      (hread : v.serveRead fd count handle = some (after, .ofBytes [])) : Yields fd count v []
  | piece {v after : Private} {handle : Handle} {bytes : List UInt8} {rest : List (List UInt8)}
      (hopen : v.table fd = some handle)
      (hread : v.serveRead fd count handle = some (after, .ofBytes bytes))
      (hbytes : bytes ≠ []) (hshort : bytes.length ≤ count)
      (hprints : after.table 1 = some .term) (hrest : Yields fd count after rest) :
      Yields fd count v (bytes :: rest)

section Reading

variable {img : Image} {v after : Private} {fd : Fin 8} {count : ℕ} {handle : Handle}
  {address : BitVec 32}
  {bytes : List UInt8} {pieces : List (List UInt8)}

/-- An array of `size` bytes in the page at 128MB. -/
structure UserArray (address : BitVec 32) (size : ℕ) : Prop where
  low : 0x8000000 ≤ address.toNat
  high : address.toNat + size ≤ 0x8400000

theorem UserArray.inUserPage {size : ℕ} (harray : UserArray address size) (hcount : count ≤ size)
    (buf : ℕ → UInt8) :
    ∀ buffer ∈ some (UserBuffer.mk address buf), buffer.InUserPage (count : ℤ) := by
  intro buffer hbuffer
  obtain rfl := Option.some.inj hbuffer
  have hhigh := harray.high
  exact ⟨harray.low, by rw [Int.toNat_natCast]; dsimp only; omega⟩

theorem serve_read {size : ℕ} (harray : UserArray address size) (hcount : count ≤ size)
    (buf : ℕ → UInt8) (hfd : 1 < fd.val) (hopen : v.table fd = some handle) :
    v.serve img (.read fd.val (some ⟨address, buf⟩) count) = v.serveRead fd count handle := by
  have hpage : Request.InUserPage (.read fd.val (some ⟨address, buf⟩) count) :=
    harray.inUserPage hcount buf
  have hproper : ¬ ((count : ℤ) < 0 ∨ (fd.val : ℤ) = 1) := by omega
  rw [Private.serve, if_pos hpage]
  simp only [Private.respond, fdIndex_val, if_neg hproper, hopen, Int.toNat_natCast]

theorem serve_write {size : ℕ} (harray : UserArray address size) (hcount : count ≤ size)
    (buf : ℕ → UInt8) (hterm : v.table 1 = some .term) :
    v.serve img (.write 1 (some ⟨address, buf⟩) count) = some (v, ⟨some count, []⟩) := by
  have hpage : Request.InUserPage (.write 1 (some ⟨address, buf⟩) count) :=
    harray.inUserPage hcount buf
  have hproper : ¬ ((count : ℤ) < 0 ∨ (1 : ℤ) = 0) := by omega
  have hindex : fdIndex 1 = some 1 := fdIndex_val 1
  rw [Private.serve, if_pos hpage]
  simp only [Private.respond, hindex, if_neg hproper, hterm, Option.map_some]
  rfl

theorem result_ofBytes_ne_zero (hbytes : bytes ≠ []) : 0 ≠ (Answer.ofBytes bytes).result := by
  have hlength := List.length_pos_of_ne_nil hbytes
  simp only [Answer.ofBytes, Answer.result, Option.getD_some]
  omega

theorem result_count_ne (bytes : List UInt8) {stored : List UInt8} :
    ¬ -1 = (Answer.mk (some (bytes.length : ℤ)) stored).result := by
  simp only [Answer.result, Option.getD_some]
  omega

/-- The loop of `cat` writes the pieces one after the other. -/
theorem cat_loop (img : Image) (harray : UserArray address 1024) (hfd : 1 < fd.val)
    (hyields : Yields fd 1024 v pieces) (buf : ℕ → UInt8) :
    ∃ calls, Completes (cat address) (Private.serve img) v (.reading fd.val buf) calls 0 ∧
      printed calls = pieces.flatten ∧ calls.length = 2 * pieces.length + 1 := by
  induction hyields generalizing buf with
  | @ended v after handle hopen hread =>
      have hserve : v.serve img (.read fd.val (some ⟨address, buf⟩) 1024) =
          some (after, .ofBytes []) := (serve_read harray le_rfl buf hfd hopen).trans hread
      exact ⟨_, .calls rfl hserve (.returns rfl), rfl, rfl⟩
  | @piece v after handle bytes rest hopen hread hbytes hshort hprints hrest ih =>
      obtain ⟨calls, hcalls, hprinted, hlength⟩ := ih (store buf 0 bytes)
      have hserve : v.serve img (.read fd.val (some ⟨address, buf⟩) 1024) =
          some (after, .ofBytes bytes) := (serve_read harray le_rfl buf hfd hopen).trans hread
      have hwrite : after.serve img (.write 1 (some ⟨address, store buf 0 bytes⟩) bytes.length) =
          some (after, ⟨some bytes.length, []⟩) := serve_write harray hshort _ hprints
      have hwriting : Completes (cat address) (Private.serve img) after
          (.writing fd.val bytes.length (store buf 0 bytes)) (_ :: calls) 0 :=
        hcalls.call rfl hwrite (if_neg (result_count_ne bytes))
      refine ⟨_ :: _ :: calls, hwriting.call rfl hserve ?_, ?_, ?_⟩
      · exact (if_pos (result_ofBytes_ne_zero hbytes)).trans (if_neg (result_count_ne bytes))
      · rw [printed_cons, printed_cons, hprinted]
        simp [Request.printed, slice_store]
      · simp only [List.length_cons, hlength]
        omega

theorem slice_update_store (buf : ℕ → UInt8) (bytes : List UInt8) (c : UInt8) :
    slice (Function.update (store buf 0 bytes) bytes.length c) 0 (bytes.length + 1) =
      bytes ++ [c] := by
  rw [slice_add, zero_add]
  congr 1
  · have hkept : ∀ k, 0 ≤ k → k < 0 + bytes.length →
        Function.update (store buf 0 bytes) bytes.length c k = store buf 0 bytes k :=
      fun k _ hk => Function.update_of_ne (by omega) _ _
    exact (slice_congr hkept).trans (slice_store buf 0 bytes)
  · simp [slice]

/-- The loop of `ls` writes every piece on a line of its own. -/
theorem ls_loop (img : Image) (harray : UserArray address 33) (hfd : 1 < fd.val)
    (hyields : Yields fd 32 v pieces) (buf : ℕ → UInt8) :
    ∃ calls, Completes (ls address) (Private.serve img) v (.reading fd.val buf) calls 0 ∧
      printed calls = joinLines pieces ∧ calls.length = 2 * pieces.length + 1 := by
  induction hyields generalizing buf with
  | @ended v after handle hopen hread =>
      have hserve : v.serve img (.read fd.val (some ⟨address, buf⟩) (sbufSize - 1)) =
          some (after, .ofBytes []) := (serve_read harray (by decide) buf hfd hopen).trans hread
      exact ⟨_, .calls rfl hserve (.returns rfl), rfl, rfl⟩
  | @piece v after handle bytes rest hopen hread hbytes hshort hprints hrest ih =>
      let line := Function.update (store buf 0 bytes) bytes.length newline
      obtain ⟨calls, hcalls, hprinted, hlength⟩ := ih line
      have hserve : v.serve img (.read fd.val (some ⟨address, buf⟩) (sbufSize - 1)) =
          some (after, .ofBytes bytes) :=
        (serve_read harray (by decide) buf hfd hopen).trans hread
      have hwrite : after.serve img (.write 1 (some ⟨address, line⟩) (bytes.length + 1)) =
          some (after, ⟨some (bytes.length + 1), []⟩) :=
        serve_write harray (Nat.add_le_add_right hshort 1) line hprints
      have hwriting : Completes (ls address) (Private.serve img) after
          (.writing fd.val bytes.length line) (_ :: calls) 0 :=
        hcalls.call rfl hwrite (if_neg (by simp only [Answer.result, Option.getD_some]; omega))
      refine ⟨_ :: _ :: calls, hwriting.call rfl hserve ?_, ?_, ?_⟩
      · exact (if_pos (result_ofBytes_ne_zero hbytes)).trans (if_neg (result_count_ne bytes))
      · have hcount : ((bytes.length : ℤ) + 1).toNat = bytes.length + 1 := by omega
        rw [printed_cons, printed_cons, hprinted, joinLines_cons]
        simp [Request.printed, hcount, line, slice_update_store]
      · simp only [List.length_cons, hlength]
        omega

end Reading

/-! ## What descriptors yield -/

section Pieces

variable {img : Image} {v : Private} {fd : Fin 8} {count : ℕ} {pieces : List (List UInt8)}
  {address : BitVec 32}

theorem Yields.length_le (hyields : Yields fd count v pieces) :
    pieces.length ≤ pieces.flatten.length := by
  induction hyields with
  | ended _ _ => exact le_rfl
  | piece _ _ hbytes _ _ _ ih =>
      have hlength := List.length_pos_of_ne_nil hbytes
      simp only [List.length_cons, List.flatten_cons, List.length_append]
      omega

theorem yields_rtc (hopen : v.table fd = some .rtc) : Yields fd count v [] :=
  .ended hopen rfl

theorem yields_file (hfd : 1 < fd.val) (hcount : 0 < count) (hprints : v.table 1 = some .term)
    {rest : List UInt8} (hopen : v.table fd = some (.file rest)) :
    ∃ pieces, Yields fd count v pieces ∧ pieces.flatten = rest := by
  induction hlength : rest.length using Nat.strong_induction_on generalizing v rest with
  | _ length ih =>
      by_cases hrest : rest = []
      · subst hrest
        have hread : v.serveRead fd count (.file []) =
            some (v.setHandle fd (some (.file [])), .ofBytes []) := by
          simp [Private.serveRead]
        exact ⟨[], .ended hopen hread, rfl⟩
      · have hpos := List.length_pos_of_ne_nil hrest
        have hother : (1 : Fin 8) ≠ fd := by
          rintro rfl
          exact absurd hfd (by decide)
        have hshorter : (rest.drop count).length < length := by
          rw [List.length_drop]
          omega
        obtain ⟨pieces, hyields, hflatten⟩ := ih _ hshorter
          (v := v.setHandle fd (some (.file (rest.drop count))))
          (by simpa [Private.setHandle, hother] using hprints) (by simp [Private.setHandle]) rfl
        refine ⟨rest.take count :: pieces, .piece hopen rfl ?_ (by simp) ?_ hyields, ?_⟩
        · simp [hrest]
          omega
        · simpa [Private.setHandle, hother] using hprints
        · rw [List.flatten_cons, hflatten, List.take_append_drop]

theorem yields_dir {names : List (List UInt8)} (hprints : v.table 1 = some .term)
    (hopen : v.table fd = some .dir) (hnames : v.names = some names)
    (hshort : ∀ name ∈ names, name.length ≤ count) :
    Yields fd count v (names.takeWhile (· ≠ [])) := by
  induction names generalizing v with
  | nil =>
      have hread : v.serveRead fd count .dir =
          some ({ v with names := some [] }, .ofBytes []) := by
        simp [Private.serveRead, hnames]
      exact .ended hopen hread
  | cons name names ih =>
      obtain ⟨hname, hlater⟩ := List.forall_mem_cons.mp hshort
      have hread : v.serveRead fd count .dir =
          some ({ v with names := some names }, .ofBytes name) := by
        simp [Private.serveRead, hnames, List.take_of_length_le hname]
      by_cases hempty : name = []
      · subst hempty
        exact .ended hopen hread
      · have hrest : Yields fd count { v with names := some names } (names.takeWhile (· ≠ [])) :=
          ih hprints hopen rfl hlater
        rw [List.takeWhile_cons_of_pos (by simpa using hempty)]
        exact .piece hopen hread hempty hname hprints hrest

theorem Dentry.length_name_le (dentry : Dentry) : dentry.name.length ≤ 32 := by
  rw [dentry.name_eq_take, List.length_take]
  exact min_le_left _ _

theorem length_le_of_mem_names {name : List UInt8} (hmem : name ∈ img.names) :
    name.length ≤ 32 := by
  obtain ⟨k, _, rfl⟩ := List.mem_map.mp hmem
  exact Dentry.length_name_le _

end Pieces

/-! ## The whole programs on the service -/

/-- The bytes of an entry, as far as they are promised. -/
def Dentry.text (img : Image) (alone : Bool) (dentry : Dentry) : Option (List UInt8) :=
  if dentry.fileType = 0 then some []
  else if dentry.fileType = 1 then
    if alone then some (img.names.takeWhile (· ≠ [])).flatten else none
  else some (img.fileContents dentry.inodeNum)

/-- What `cat` prints for its argument, and its status. -/
def catOutcome (img : Image) (alone : Bool) (argument : List UInt8) :
    Option (List UInt8 × ℤ) :=
  if argument = [] then some (ascii "could not read arguments\n", 3)
  else
    match readDentryByName img argument with
    | none => some (ascii "file not found\n", 2)
    | some dentry => (dentry.text img alone).map fun text => (text, 0)

section Programs

variable {img : Image} {v : Private} {s : Kernel} {line argument text : List UInt8}
  {address : BitVec 32}
  {status : ℤ} {alone : Bool} {dentry : Dentry} {names : Option (List (List UInt8))}

/-- A program that prints a message and returns. -/
theorem fdputs_completes {π : Type} {program : π → Doing Request Answer ℤ π} {failing leaving : π}
    {text : List UInt8} {status : ℤ} (img : Image) (hprints : v.table 1 = some .term)
    (hshort : text.length ≤ 1024)
    (hfailing : program failing = .calls (fdputs 1 text) fun _ => leaving)
    (hleaving : program leaving = .returns status) :
    ∃ call, Completes program (Private.serve img) v failing [call] status ∧
      printed [call] = text := by
  have hwrite : v.serve img (fdputs 1 text) = some (v, ⟨some text.length, []⟩) :=
    serve_write ⟨by decide, by decide⟩ hshort _ hprints
  refine ⟨(fdputs 1 text, ⟨some text.length, []⟩), .calls hfailing hwrite (.returns hleaving), ?_⟩
  rw [printed_cons, printed_fdputs]
  exact List.append_nil text

theorem cat_fails (img : Image) (hprints : v.table 1 = some .term) (text : List UInt8)
    (hshort : text.length ≤ 1024) (status : ℤ) :
    ∃ call, Completes (cat address) (Private.serve img) v (.failing text status) [call] status ∧
      printed [call] = text :=
  fdputs_completes img hprints hshort rfl rfl

theorem openEntry_yields (htext : dentry.text img alone = some text)
    (halone : alone = true → v.names.isSome) (hprints : v.table 1 = some .term) :
    ∃ pieces, Yields 2 1024 (v.openEntry img 2 dentry) pieces ∧ pieces.flatten = text := by
  have hterm : (v.openEntry img 2 dentry).table 1 = some .term := by
    simpa [Private.openEntry, Private.setHandle] using hprints
  have hopen : (v.openEntry img 2 dentry).table 2 = some (dentry.handle img) := by
    simp [Private.openEntry, Private.setHandle]
  unfold Dentry.text at htext
  unfold Dentry.handle at hopen
  split at htext
  · rename_i hzero
    obtain rfl := Option.some.inj htext
    rw [if_pos hzero] at hopen
    exact ⟨[], yields_rtc hopen, rfl⟩
  · rename_i hzero
    rw [if_neg hzero] at hopen
    split at htext
    · rename_i hone
      rw [if_pos hone] at hopen
      split at htext
      · rename_i hset
        obtain rfl := Option.some.inj htext
        obtain ⟨names, hnames⟩ := Option.isSome_iff_exists.mp (halone hset)
        have hlisted : (v.openEntry img 2 dentry).names = some img.names := by
          simp [Private.openEntry, hone, hnames]
        refine ⟨_, yields_dir hterm hopen hlisted fun name hmem => ?_, rfl⟩
        exact (length_le_of_mem_names hmem).trans (by decide)
      · contradiction
    · rename_i hone
      obtain rfl := Option.some.inj htext
      rw [if_neg hone] at hopen
      exact yields_file (by decide) (by decide) hterm hopen

theorem initial_serveOpen (filename : List UInt8) :
    (Private.initial argument names).serveOpen img (some filename) =
      match readDentryByName img filename with
      | none => (.initial argument names, .refusal)
      | some dentry => ((Private.initial argument names).openEntry img 2 dentry, ⟨some 2, []⟩) := by
  have hfind : (openSlots.find? fun fd => ((Private.initial argument names).table fd).isNone) =
      some 2 := rfl
  simp only [Private.serveOpen, Option.bind_some, hfind]
  rfl

theorem cat_completes (harray : UserArray address 1024)
    (houtcome : catOutcome img alone argument = some (text, status))
    (hargument : ∀ byte ∈ argument, byte ≠ 0) (hshort : argument.length < 128)
    (halone : alone = true → names.isSome) (buf : ℕ → UInt8) :
    ∃ calls, Completes (cat address) (Private.serve img) (.initial argument names) (.main buf) calls
      status ∧ printed calls = text ∧ calls.length ≤ 2 * text.length + 3 := by
  have hpage : Request.InUserPage (.getargs (some ⟨address, buf⟩) 1024) :=
    harray.inUserPage le_rfl buf
  unfold catOutcome at houtcome
  split at houtcome
  · rename_i hnone
    obtain ⟨rfl, rfl⟩ := Prod.mk.inj (Option.some.inj houtcome)
    have hget : (Private.initial argument names).serve img (.getargs (some ⟨address, buf⟩) 1024) =
        some (.initial argument names, .refusal) := by
      rw [Private.serve, if_pos hpage]
      simp [Private.respond, Private.initial, hnone]
    obtain ⟨call, hfails, hprinted⟩ := cat_fails img
      (v := .initial argument names) rfl (ascii "could not read arguments\n") (by decide) 3
    exact ⟨_, hfails.call rfl hget rfl, hprinted, by simp⟩
  · rename_i hsome
    have hstring : cString argument = argument := cString_of_ne_zero hargument
    have hget : (Private.initial argument names).serve img (.getargs (some ⟨address, buf⟩) 1024) =
        some (.initial argument names, ⟨some 0, strncpyBytes argument 1024⟩) := by
      rw [Private.serve, if_pos hpage]
      simp [Private.respond, Private.initial, hsome]
    have hbuffer : cString (slice (store buf 0 (strncpyBytes argument 1024)) 0 1024) =
        argument := by
      have hslice := slice_store buf 0 (strncpyBytes argument 1024)
      rw [length_strncpyBytes] at hslice
      rw [hslice, cString_strncpyBytes (by rw [hstring]; omega), hstring]
    have hopen : (Private.initial argument names).serve img
        (.openFile (some (cString (slice (store buf 0 (strncpyBytes argument 1024)) 0 1024)))) =
          some ((Private.initial argument names).serveOpen img (some argument)) := by
      rw [hbuffer]
      rfl
    rw [initial_serveOpen] at hopen
    cases hfound : readDentryByName img argument with
    | none =>
        simp only [hfound] at houtcome hopen
        obtain ⟨rfl, rfl⟩ := Prod.mk.inj (Option.some.inj houtcome)
        obtain ⟨call, hfails, hprinted⟩ := cat_fails img
          (v := .initial argument names) rfl (ascii "file not found\n") (by decide) 2
        exact ⟨_, (hfails.call rfl hopen rfl).call rfl hget rfl, hprinted, by simp⟩
    | some dentry =>
        simp only [hfound] at houtcome hopen
        obtain ⟨_, htext, heq⟩ := Option.map_eq_some_iff.mp houtcome
        obtain ⟨rfl, rfl⟩ := Prod.mk.inj heq
        obtain ⟨pieces, hyields, hflatten⟩ := openEntry_yields htext
          (v := .initial argument names) halone rfl
        obtain ⟨calls, hcalls, hprinted, hlength⟩ := cat_loop img harray (by decide) hyields
          (store buf 0 (strncpyBytes argument 1024))
        have hpieces := hyields.length_le
        refine ⟨_, (hcalls.call rfl hopen rfl).call rfl hget rfl, ?_, ?_⟩
        · rw [← hflatten]
          exact hprinted
        · rw [← hflatten]
          simp only [List.length_cons]
          omega

theorem ls_fails (img : Image) (hprints : v.table 1 = some .term) (text : List UInt8)
    (hshort : text.length ≤ 1024) (status : ℤ) :
    ∃ call, Completes (ls address) (Private.serve img) v (.failing text status) [call] status ∧
      printed [call] = text :=
  fdputs_completes img hprints hshort rfl rfl

/-- What `ls` prints, and its status, if the entry `.` is missing or a directory. -/
def lsOutcome (img : Image) : Option (List UInt8 × ℤ) :=
  match readDentryByName img (ascii ".") with
  | none => some (ascii "directory open failed\n", 2)
  | some dentry =>
      if dentry.fileType = 1 then some (joinLines (img.names.takeWhile (· ≠ [])), 0) else none

theorem ls_completes (harray : UserArray address 33)
    (houtcome : lsOutcome img = some (text, status)) (hnames : names.isSome) (buf : ℕ → UInt8) :
    ∃ calls, Completes (ls address) (Private.serve img) (.initial argument names) (.main buf) calls
      status ∧ printed calls = text ∧ calls.length ≤ 2 * img.dirCount + 2 := by
  have hopen : (Private.initial argument names).serve img (.openFile (some (ascii "."))) =
      some ((Private.initial argument names).serveOpen img (some (ascii "."))) := rfl
  rw [initial_serveOpen] at hopen
  unfold lsOutcome at houtcome
  cases hfound : readDentryByName img (ascii ".") with
  | none =>
      simp only [hfound] at houtcome hopen
      obtain ⟨rfl, rfl⟩ := Prod.mk.inj (Option.some.inj houtcome)
      obtain ⟨call, hfails, hprinted⟩ := ls_fails img (v := .initial argument names) rfl
        (ascii "directory open failed\n") (by decide) 2
      exact ⟨_, hfails.call rfl hopen rfl, hprinted, by simp⟩
  | some dentry =>
      simp only [hfound] at houtcome hopen
      split at houtcome
      · rename_i hdir
        obtain ⟨rfl, rfl⟩ := Prod.mk.inj (Option.some.inj houtcome)
        obtain ⟨list, rfl⟩ := Option.isSome_iff_exists.mp hnames
        have hhandle : dentry.handle img = .dir := by simp [Dentry.handle, hdir]
        have hyields : Yields 2 32 ((Private.initial argument (some list)).openEntry img 2 dentry)
            (img.names.takeWhile (· ≠ [])) :=
          yields_dir rfl (congrArg some hhandle)
            (by simp [Private.openEntry, hdir, Private.initial])
            fun name hmem => length_le_of_mem_names hmem
        obtain ⟨calls, hcalls, hprinted, hlength⟩ := ls_loop img harray (by decide) hyields buf
        have hfew : (img.names.takeWhile (· ≠ [])).length ≤ img.dirCount := by
          have hall := (List.takeWhile_prefix (· ≠ []) : _ <+: img.names).length_le
          simpa [Image.names] using hall
        refine ⟨_, hcalls.call rfl hopen rfl, hprinted, ?_⟩
        rw [List.length_cons, hlength]
        omega
      · contradiction

end Programs

/-! ## On the kernel -/

section Kernel

variable {img : Image} {map : MemoryMap} {s child : Kernel} {line text : List UInt8} {alone : Bool}
  {address : BitVec 32}
  {status : ℤ} {events : List (SessionEvent Op StackFrame)} {buf : ℕ → UInt8}

theorem CommandStarts.argument_short (hstarts : CommandStarts img map s line child) :
    (parseCommand line).2.length < 128 := by
  obtain ⟨frame, entry, image, hexecute⟩ := hstarts.execute_eq
  obtain ⟨_, _, _, hline, _, _, hshort, _⟩ := execute_eq_started hexecute
  obtain rfl := Option.some.inj hline
  exact hshort

/-- `cat` prints `hello` while a shell on another terminal is started and opens the file. -/
def catEvents : List (SessionEvent Op StackFrame) :=
  .own zeroFrame :: smallEvents ++
    [.own zeroFrame, .other .rtcInterrupt, .own zeroFrame, .own zeroFrame]

/-- As long as no other process opens or reads the directory, `ls` prints the names of the
directory up to an empty one, each on a line. -/
theorem ls_lists (hformed : img.WellFormed) (hshell : img.Loadable shellName)
    (harray : UserArray address 33) (hstarts : CommandStarts img map s line child)
    (houtcome : lsOutcome img = some (text, status))
    {x : Session Kernel LsPoint Request Answer}
    (hspares : Meets ((processHost img map child.running.processNum).sessionStep (ls address))
      (fun x event => event.Observes (Tolerated img map True) x) ⟨child, .main buf, []⟩ events)
    (hrun : run ((processHost img map child.running.processNum).sessionStep (ls address))
      ⟨child, .main buf, []⟩ events = some x) :
    printed x.calls <+: text ∧ events.countP SessionEvent.isOwn ≤ 2 * img.dirCount + 2 ∧
      ∀ ending, ls address x.point = .returns ending → printed x.calls = text ∧ ending = status ∧
        AnswersCaller img map s child status x.state := by
  obtain ⟨whole, hcompletes, hprinted, hlength⟩ :=
    ls_completes harray houtcome (rfl : (some (img.names.drop s.dirIndex)).isSome = true) buf
  have hwhole : Completes (ls address) (Private.serve img) (.ofCommand img s line true)
      (.main buf) whole status := hcompletes
  obtain ⟨hbegins, hreturned⟩ :=
    command_course hformed hshell hstarts hwhole (hspares.imp fun x event => by simp) hrun
  have hcount := calls_length hrun
  have hfew := hbegins.length_le
  refine ⟨hprinted ▸ printed_mono hbegins, ?_, fun ending hending => ?_⟩
  · simp only [List.length_nil, Nat.zero_add] at hcount
    omega
  · obtain ⟨hcalls, hstatus, hanswers⟩ := hreturned ending hending
    exact ⟨by rw [hcalls, hprinted], hstatus, hanswers⟩

end Kernel

def lsEvents : List (SessionEvent Op StackFrame) :=
  [.own zeroFrame, .other (.switchTerminal 1 ⟨0, 0⟩ zeroFrame), .other (.pit ⟨0, 0⟩),
    .own zeroFrame, .own zeroFrame, .other .rtcInterrupt, .own zeroFrame, .own zeroFrame]

theorem ls_lists_witness : ∃ x,
    run ((processHost smallImage smallMap argumentKernel.running.processNum).sessionStep
      (ls 0x83FF000)) ⟨argumentKernel, .main fun _ => 0, []⟩ lsEvents = some x ∧
      printed x.calls <+: ascii ".\nshell\nrtc\nframe0.txt\n" ∧
      lsEvents.countP SessionEvent.isOwn ≤ 2 * smallImage.dirCount + 2 ∧
      ∀ ending, ls 0x83FF000 x.point = .returns ending →
        printed x.calls = ascii ".\nshell\nrtc\nframe0.txt\n" ∧ ending = 0 ∧
          AnswersCaller smallImage smallMap pagedShell argumentKernel 0 x.state := by
  have hsome : (run ((processHost smallImage smallMap
      argumentKernel.running.processNum).sessionStep (ls 0x83FF000))
      ⟨argumentKernel, .main fun _ => 0, []⟩ lsEvents).isSome = true := by decide +kernel
  have houtcome : lsOutcome smallImage =
      some (ascii ".\nshell\nrtc\nframe0.txt\n", 0) := by decide +kernel
  have hall : ∀ op, SessionEvent.other op ∈ lsEvents → op.isInterrupt = true := by
    simp [lsEvents, Op.isInterrupt]
  obtain ⟨x, hrun⟩ := Option.isSome_iff_exists.mp hsome
  exact ⟨x, hrun, ls_lists smallImage_wellFormed smallImage_loadable
    ⟨by decide, by decide⟩ argumentKernel_starts houtcome (meets_tolerated _ fun op hop _ =>
      .of_isInterrupt (hall op hop)) hrun⟩

end VirtualOS
