import Dionnex.RamfsNames
import Dionnex.ShellCommands

/-!
# Writing files with `echo`

Whether a line is an `echo` is decided by its first word, and the text is
taken from a copy of the line, four bytes from its beginning. The two agree
on lines that begin with the word.
-/

set_option autoImplicit false

namespace Dionnex.ShellRedirects
open StringBuffers Dionnex.KernelString Dionnex.Ramfs Dionnex.VfsFiles Dionnex.RamfsNames Dionnex.StringAppends
open Dionnex.ShellCommands

/-! ## What is meant -/

def notArrow (c : UInt8) : Bool := c ≠ 62

def afterWord (line : List UInt8) : List UInt8 := (afterBlanks line).dropWhile isWord

/-- The text between the first word and the first `>`, without the blanks in front of it. -/
def message (line : List UInt8) : List UInt8 := afterBlanks ((afterWord line).takeWhile notArrow)

/-- What is behind the first `>`, without the blanks on both sides. -/
def fileName (line : List UInt8) : List UInt8 :=
  (afterBlanks ((afterWord line).dropWhile notArrow).tail).rdropWhile isBlank

/-- The file of this name, an old one or one in a free slot, has the text, and the other slots are as they were. -/
def Redirected (fs t : Slots) (name s : List UInt8) : Prop :=
  ∃ i, ramfsFind t (some name) = some i ∧ contents (t i) = s ∧ (∀ j ≠ i, t j = fs j) ∧
    (ramfsFind fs (some name) = some i ∨ (fs i).used = false)

/-! ## The copy of the line -/

section Copies

variable {line l r s zs : List UInt8} {n : ℕ}

theorem strncpy_set (n : ℕ) (dest src : List UInt8) (c : UInt8) :
    (strncpy n dest src).set n c = strncpy n (dest.set n c) src := by
  induction n generalizing dest src with
  | zero => rfl
  | succ n ih =>
    cases dest with
    | nil => rfl
    | cons d dest =>
      cases src with
      | nil => simp [strncpy, ih]
      | cons a src => by_cases ha : a = 0 <;> simp [strncpy, ha, ih]

/-- A string that ends within its array is followed by a NUL. -/
theorem cstr_split (h : (cstr l).length < l.length) : ∃ zs, l = cstr l ++ 0::zs := by
  induction l with
  | nil => exact absurd h (Nat.lt_irrefl 0)
  | cons c l ih =>
    by_cases hc : c = 0
    · subst hc
      exact ⟨l, by rw [cstr_zero, List.nil_append]⟩
    · rw [cstr_cons c l hc, List.length_cons, List.length_cons] at h
      obtain ⟨zs, hzs⟩ := ih (by omega)
      refine ⟨zs, ?_⟩
      rw [cstr_cons c l hc, List.cons_append, ← hzs]

theorem copy_split {origCopy : List UInt8} (horig : origCopy.length = 256) (h0 : (0 : UInt8) ∉ line)
    (hlen : line.length ≤ 255) : ∃ zs, (strncpy 255 origCopy line).set 255 0 = line ++ 0::zs := by
  have hend : (origCopy.set 255 0)[255]? = some 0 := by
    rw [List.getElem?_set_self (by omega)]
  have hcstr : cstr ((strncpy 255 origCopy line).set 255 0) = line := by
    rw [strncpy_set, strncpy_cstr _ _ _ hend, cstr_of_nulFree line h0, List.take_of_length_le hlen]
  have hsize : ((strncpy 255 origCopy line).set 255 0).length = 256 := by
    rw [List.length_set, strncpy_length, horig]
  obtain ⟨zs, hzs⟩ := @cstr_split ((strncpy 255 origCopy line).set 255 0) (by rw [hcstr, hsize]; omega)
  rw [hcstr] at hzs
  exact ⟨zs, hzs⟩

theorem cstr_append (h0 : (0 : UInt8) ∉ s) : cstr (s ++ 0::zs) = s := by
  induction s with
  | nil => exact cstr_zero zs
  | cons c s ih =>
    have hc : c ≠ 0 := fun hc => h0 (hc ▸ List.mem_cons_self)
    rw [List.cons_append, cstr_cons c _ hc, ih (fun h => h0 (List.mem_cons_of_mem c h))]

/-- Skipping blanks stops at the NUL. -/
theorem cstr_afterBlanks (h0 : (0 : UInt8) ∉ s) : cstr ((s ++ 0::zs).dropWhile isBlank) = afterBlanks s := by
  have hall := List.takeWhile_append_dropWhile (p := isBlank) (l := s)
  have hrest : (0 : UInt8) ∉ afterBlanks s := fun h => h0 ((List.dropWhile_suffix isBlank).mem h)
  rw [List.dropWhile_append]
  split
  · next hnil =>
    have hempty : afterBlanks s = [] := List.isEmpty_iff.mp hnil
    rw [hempty]
    exact cstr_zero zs
  · exact cstr_append hrest

theorem redirectPos_first (h0 : (0 : UInt8) ∉ l ++ 62::r) (harrow : (62 : UInt8) ∉ l) :
    redirectPos ((l ++ 62::r) ++ 0::zs) = some l.length := by
  rw [redirectPos, cstr_append h0, List.findIdx?_append, List.findIdx?_eq_none_iff.mpr, List.findIdx?_cons]
  · simp
  · intro c hc
    have hne : c ≠ 62 := fun he => harrow (he ▸ hc)
    simp [hne]

/-- The text is looked for from the fifth byte on. -/
theorem redirection_parts (hl : (0 : UInt8) ∉ l) (hr : (0 : UInt8) ∉ r) (hlen : 4 ≤ l.length) :
    redirection ((l ++ 62::r) ++ 0::zs) l.length = ((afterBlanks r).rdropWhile isBlank, afterBlanks (l.drop 4)) := by
  have hset : ((l ++ 62::r) ++ 0::zs).set l.length 0 = l ++ 0::(r ++ 0::zs) := by simp
  have hname : (l ++ 0::(r ++ 0::zs)).drop (l.length+1) = r ++ 0::zs := by
    rw [List.drop_append, List.drop_of_length_le (Nat.le_succ _), Nat.add_sub_cancel_left]
    rfl
  have hmsg : (l ++ 0::(r ++ 0::zs)).drop 4 = l.drop 4 ++ 0::(r ++ 0::zs) := List.drop_append_of_le_length hlen
  unfold redirection
  dsimp only
  rw [hset, hname, hmsg, cstr_afterBlanks hr, cstr_afterBlanks (fun h => hl (List.mem_of_mem_drop h))]

end Copies

/-! ## Two views of a line -/

section Views

variable {line x w l r : List UInt8} {copy : List UInt8}

/-- The text of an `echo` with blanks `x` before the word, `l` up to the first `>` and `r` behind it. -/
structure EchoLine (line x l r : List UInt8) : Prop where
  split : line = x ++ (chars "echo" ++ (l ++ 62::r))
  blanks : ∀ c ∈ x, isBlank c = true
  noArrow : (62 : UInt8) ∉ x ++ (chars "echo" ++ l)
  message : message line = afterBlanks l
  fileName : fileName line = (afterBlanks r).rdropWhile isBlank

theorem echo_line (hecho : firstWord line = chars "echo") (harrow : (62 : UInt8) ∈ line) :
    ∃ x l r, EchoLine line x l r := by
  have hline := List.takeWhile_append_dropWhile (p := isBlank) (l := line)
  have hword := List.takeWhile_append_dropWhile (p := isWord) (l := afterBlanks line)
  have hsplit := List.takeWhile_append_dropWhile (p := notArrow) (l := afterWord line)
  have hblanks : ∀ c ∈ line.takeWhile isBlank, isBlank c = true := fun c hc => List.mem_takeWhile_imp hc
  have hx : (62 : UInt8) ∉ line.takeWhile isBlank := fun h => absurd (hblanks 62 h) (by decide)
  have hechoArrow : (62 : UInt8) ∉ chars "echo" := by decide
  have hl : (62 : UInt8) ∉ (afterWord line).takeWhile notArrow :=
    fun h => absurd (List.mem_takeWhile_imp h : notArrow 62 = true) (by decide)
  change firstWord line ++ afterWord line = afterBlanks line at hword
  rw [hecho] at hword
  have hall : line = line.takeWhile isBlank ++ (chars "echo" ++ afterWord line) := by
    rw [hword]
    exact hline.symm
  have hw : (62 : UInt8) ∈ afterWord line := by
    rw [hall] at harrow
    rcases List.mem_append.mp harrow with h | h
    · exact absurd h hx
    · exact (List.mem_append.mp h).resolve_left hechoArrow
  -- What follows the text begins with the arrow.
  obtain ⟨r, hr⟩ : ∃ r, (afterWord line).dropWhile notArrow = 62::r := by
    cases hrest : (afterWord line).dropWhile notArrow with
    | nil =>
      rw [hrest, List.append_nil] at hsplit
      rw [hsplit] at hl
      exact absurd hw hl
    | cons c r =>
      have hc := List.head?_dropWhile_not notArrow (afterWord line)
      rw [hrest] at hc
      have hc62 : c = 62 := by simpa [notArrow] using hc
      exact ⟨r, by rw [hc62]⟩
  refine ⟨_, (afterWord line).takeWhile notArrow, r, ?_, hblanks, ?_, rfl, ?_⟩
  · rw [← hr, hsplit]
    exact hall
  · intro h
    rcases List.mem_append.mp h with h | h
    · exact hx h
    · exact (List.mem_append.mp h).elim hechoArrow hl
  · rw [ShellRedirects.fileName, hr, List.tail_cons]

/-- Without blanks in front of it the word is what is skipped; with some, a part of the word is left. -/
theorem offset_message (hx : ∀ c ∈ x, isBlank c = true) :
    afterBlanks ((x ++ (chars "echo" ++ l)).drop 4) = afterBlanks l ↔ x = [] := by
  have hchars : chars "echo" = [101, 99, 104] ++ [111] := by decide
  constructor
  · intro he
    by_contra hne
    have hpos : 0 < x.length := List.length_pos_iff.mpr hne
    -- The last letter of the word stays, and with it more than the text.
    have hsplit : (x ++ (chars "echo" ++ l)).drop 4 = (x ++ [101, 99, 104]).drop 4 ++ 111::l := by
      rw [hchars, List.append_assoc, ← List.append_assoc x, List.drop_append_of_le_length (by simp; omega)]
      rfl
    have hstay : afterBlanks (111::l) = 111::l := rfl
    have hlong : l.length < (afterBlanks ((x ++ (chars "echo" ++ l)).drop 4)).length := by
      rw [hsplit, afterBlanks, List.dropWhile_append]
      split
      · change l.length < (afterBlanks (111::l)).length
        rw [hstay, List.length_cons]
        omega
      · rw [List.length_append, List.length_cons]
        omega
    have hshort := blanks_length l
    rw [he] at hlong
    omega
  · rintro rfl
    rw [hchars]
    rfl

/-- What the shell reads from its copy, and whether it is what is meant. -/
theorem redirection_line {zs : List UInt8} (h0 : (0 : UInt8) ∉ line) (he : EchoLine line x l r)
    (hcopy : copy = line ++ 0::zs) : ∃ pos s, redirectPos copy = some pos ∧ redirection copy pos = (fileName line, s) ∧
      (s = message line ↔ x = []) ∧ (0 : UInt8) ∉ s ∧ s.length ≤ line.length := by
  have hline : line = (x ++ (chars "echo" ++ l)) ++ 62::r := by rw [he.split, List.append_assoc, List.append_assoc]
  have h0' := h0
  rw [hline] at h0'
  have hl0 : (0 : UInt8) ∉ x ++ (chars "echo" ++ l) := fun h => h0' (List.mem_append_left _ h)
  have hr0 : (0 : UInt8) ∉ r := fun h => h0' (List.mem_append_right _ (List.mem_cons_of_mem _ h))
  have hlen : 4 ≤ (x ++ (chars "echo" ++ l)).length := by
    have hchars : (chars "echo").length = 4 := by decide
    rw [List.length_append, List.length_append, hchars]
    omega
  refine ⟨(x ++ (chars "echo" ++ l)).length, afterBlanks ((x ++ (chars "echo" ++ l)).drop 4), ?_, ?_, ?_, ?_, ?_⟩
  · rw [hcopy, hline]
    exact redirectPos_first h0' he.noArrow
  · rw [hcopy, he.fileName]
    nth_rewrite 1 [hline]
    exact redirection_parts hl0 hr0 hlen
  · rw [he.message]
    exact offset_message he.blanks
  · exact fun h => hl0 (List.mem_of_mem_drop ((List.dropWhile_suffix isBlank).mem h))
  · have hblanks := blanks_length ((x ++ (chars "echo" ++ l)).drop 4)
    have hsum := congrArg List.length hline
    rw [List.length_append] at hsum
    rw [List.length_drop] at hblanks
    omega

end Views

/-! ## The file -/

section Files

variable {fs t : Slots} {name : CString} {s line : List UInt8} {buf pathBuf : Buffer} {origCopy : List UInt8}
variable {inInitrd : List UInt8 → Bool}

theorem map_getD (s : List UInt8) : (List.range s.length).map (fun k => s.getD k 0) = s := by
  apply List.ext_getElem
  · simp
  · intro i hi hi'
    rw [List.getElem_map, List.getElem_range, List.getD_eq_getElem _ _ hi']

/-- After `ramfs_create` the name is found, in its old slot or in one that was free. -/
theorem create_found (hfs : ∀ i, Plain (fs i)) (hlen : name.1.length < ramfsMaxName)
    (hroom : (ramfsFind fs (some name.1)).isSome ∨ ¬ ∀ i, (fs i).used = true) :
    ∃ i, ramfsFind (ramfsCreate fs (some name.1)).2 (some name.1) = some i ∧
      (∀ j ≠ i, (ramfsCreate fs (some name.1)).2 j = fs j) ∧
      (ramfsFind fs (some name.1) = some i ∨ (fs i).used = false) := by
  cases hfind : ramfsFind fs (some name.1) with
  | some i =>
    have hsame : ramfsCreate fs (some name.1) = (-1, fs) := by rw [ramfsCreate, if_pos (by rw [hfind]; rfl)]
    refine ⟨i, ?_, fun j _ => ?_, Or.inl rfl⟩
    · rw [hsame]
      exact hfind
    · rw [hsame]
  | none =>
    have hfree : ¬ ∀ i, (fs i).used = true := hroom.resolve_left (by rw [hfind]; decide)
    obtain ⟨i, hused, hcreate⟩ := create_fresh hfind hfree
    have hkey := @short_key name.1 i (fs i) (hfs i) name.2 hlen
    have hcstr := cstr_of_nulFree name.1 name.2
    rw [hcreate]
    refine ⟨i, ?_, fun j hj => Function.update_of_ne hj _ _, Or.inr hused⟩
    cases hnew : ramfsFind (Function.update fs i (freshFile (fs i) i name.1)) (some name.1) with
    | none =>
      refine absurd ?_ (find_none _ _ hnew i (by rw [Function.update_self]; rfl))
      rw [Function.update_self, hkey, hcstr]
    | some j =>
      have hj := find_some _ _ _ hnew
      by_cases hij : j = i
      · rw [hij]
      · rw [Function.update_of_ne hij] at hj
        exact absurd hj.2 (find_none fs name.1 hfind j hj.1)

theorem write_redirected {i : Slot} (hfind : ramfsFind fs (some name.1) = some i) (hs : s.length ≤ ramfsMaxData) :
    ∃ t, (ramfsWrite fs (some name.1) (some fun k => s.getD k 0) s.length).2 = t ∧
      ramfsFind t (some name.1) = some i ∧ contents (t i) = s ∧ ∀ j ≠ i, t j = fs j := by
  unfold ramfsWrite
  rw [hfind]
  dsimp only
  rw [if_neg (by omega)]
  refine ⟨_, rfl, ?_, ?_, fun j hj => Function.update_of_ne hj _ _⟩
  · rw [← hfind]
    apply find_congr
    intro j
    by_cases hj : j = i
    · subst hj
      rw [Function.update_self]
      exact Iff.rfl
    · rw [Function.update_of_ne hj]
  · rw [Function.update_self, contents]
    dsimp only
    rw [write_contents, map_getD]

theorem redirected_written (hfs : ∀ i, Plain (fs i)) (hlen : name.1.length < ramfsMaxName)
    (hroom : (ramfsFind fs (some name.1)).isSome ∨ ¬ ∀ i, (fs i).used = true) (hs : s.length ≤ ramfsMaxData) :
    Redirected fs (ramfsWrite (ramfsCreate fs (some name.1)).2 (some name.1) (some fun k => s.getD k 0) s.length).2
      name.1 s := by
  obtain ⟨i, hfind, hothers, hold⟩ := create_found hfs hlen hroom
  obtain ⟨t, ht, hfound, hcontents, hsame⟩ := write_redirected hfind hs
  rw [ht]
  exact ⟨i, hfound, hcontents, fun j hj => (hsame j hj).trans (hothers j hj), hold⟩

theorem redirected_unique {n s' : List UInt8} (h : Redirected fs t n s) (h' : Redirected fs t n s') : s = s' := by
  obtain ⟨i, hfind, hs, -⟩ := h
  obtain ⟨j, hfind', hs', -⟩ := h'
  rw [hfind, Option.some_inj] at hfind'
  rw [← hs, ← hs', hfind']

theorem shellExec_echo (h : Holds buf 0 line) (hlen : line.length ≤ 255) (hecho : firstWord line = chars "echo") :
    shellExec inInitrd fs buf origCopy pathBuf =
      some ⟨(shellParse buf).buf, none, echoTo fs ((strncpy 255 origCopy line).set 255 0)⟩ := by
  obtain ⟨hcmd, -⟩ := shellParse_words h hlen
  have hshort : (firstWord line).length ≤ 256 := by
    rw [hecho]
    decide
  have hline : text buf 0 256 = line := text_holds h (by omega)
  have hcom : commandOf (chars "echo") = some .echo := by decide
  rcases points_text hcmd hshort with ⟨hnil, -⟩ | ⟨p, hc, -, hp⟩
  · rw [hecho] at hnil
    exact absurd hnil (by decide)
  · rw [hecho] at hp
    unfold shellExec
    dsimp only
    rw [hc]
    dsimp only
    rw [hp, hcom, hline]

/-- What an `echo` with a redirection leaves in the files: the text of the line, or one that is longer. -/
theorem echo_slots (h : Holds buf 0 line) (hlen : line.length ≤ 255) (hecho : firstWord line = chars "echo")
    (harrow : (62 : UInt8) ∈ line) (hfs : ∀ i, Plain (fs i)) (hname : (fileName line).length ≤ 63)
    (hroom : (ramfsFind fs (some (fileName line))).isSome ∨ ¬ ∀ i, (fs i).used = true) (horig : origCopy.length = 256) :
    ∃ r s, shellExec inInitrd fs buf origCopy pathBuf = some r ∧ Redirected fs r.slots (fileName line) s ∧
      (s = message line ↔ line.head? ≠ some 32) := by
  obtain ⟨zs, hcopy⟩ := copy_split horig h.1 hlen
  obtain ⟨x, l, r, he⟩ := echo_line hecho harrow
  obtain ⟨pos, s, hpos, hparts, hsame, -, hs⟩ := redirection_line h.1 he hcopy
  have hname0 : (0 : UInt8) ∉ fileName line := by
    rw [he.fileName]
    intro h0
    have hr : (0 : UInt8) ∈ r := (List.dropWhile_suffix isBlank).mem ((List.rdropWhile_prefix isBlank _).mem h0)
    exact h.1 (he.split ▸ by simp [hr])
  refine ⟨_, s, shellExec_echo h hlen hecho, ?_, ?_⟩
  · dsimp only
    rw [echoTo, hpos]
    dsimp only
    rw [hparts]
    have hsize : s.length ≤ ramfsMaxData := (hs.trans hlen).trans (by decide)
    exact @redirected_written fs ⟨fileName line, hname0⟩ s hfs (Nat.lt_succ_of_le hname) hroom hsize
  · rw [hsame, he.split]
    cases x with
    | nil =>
      rw [show chars "echo" = [101, 99, 104, 111] by decide]
      exact iff_of_true rfl (by simp)
    | cons c x =>
      have hc : c = 32 := by simpa [isBlank] using he.blanks c List.mem_cons_self
      exact iff_of_false (List.cons_ne_nil c x) (by simp [hc])

theorem head_of_redirected {r : Executed} (h : Holds buf 0 line) (hlen : line.length ≤ 255)
    (hecho : firstWord line = chars "echo") (harrow : (62 : UInt8) ∈ line) (hfs : ∀ i, Plain (fs i))
    (hname : (fileName line).length ≤ 63)
    (hroom : (ramfsFind fs (some (fileName line))).isSome ∨ ¬ ∀ i, (fs i).used = true) (horig : origCopy.length = 256)
    (hr : shellExec inInitrd fs buf origCopy pathBuf = some r)
    (hred : Redirected fs r.slots (fileName line) (message line)) : line.head? ≠ some 32 := by
  obtain ⟨r', s, hr', hred', hsame⟩ := @echo_slots fs line buf pathBuf origCopy inInitrd h hlen hecho harrow hfs hname
    hroom horig
  have heq : r' = r := Option.some.inj (hr'.symm.trans hr)
  subst heq
  exact hsame.mp (redirected_unique hred' hred)

/-- The file gets the text of the line exactly if the line does not begin with a blank. -/
theorem echo_redirect_iff (h : Holds buf 0 line) (hlen : line.length ≤ 255) (hecho : firstWord line = chars "echo")
    (harrow : (62 : UInt8) ∈ line) (hfs : ∀ i, Plain (fs i)) (hname : (fileName line).length ≤ 63)
    (hroom : (ramfsFind fs (some (fileName line))).isSome ∨ ¬ ∀ i, (fs i).used = true) (horig : origCopy.length = 256)
    (inInitrd : List UInt8 → Bool) (pathBuf : Buffer) :
    (∃ r, shellExec inInitrd fs buf origCopy pathBuf = some r ∧
      Redirected fs r.slots (fileName line) (message line)) ↔ line.head? ≠ some 32 := by
  constructor
  · rintro ⟨r, hr, hred⟩
    exact head_of_redirected h hlen hecho harrow hfs hname hroom horig hr hred
  · intro hhead
    obtain ⟨r, s, hr, hred, hsame⟩ := @echo_slots fs line buf pathBuf origCopy inInitrd h hlen hecho harrow hfs hname
      hroom horig
    exact ⟨r, hr, hsame.mpr hhead ▸ hred⟩

theorem cleared_room : ¬ ∀ i, (ramfsCleared i).used = true := fun h => absurd (h ⟨0, by decide⟩) (by decide)

theorem echo_redirect_iff_sample :
    (∃ r, shellExec (fun _ => false) ramfsCleared (lineAt (chars "echo  a > b > c ")) (List.replicate 256 255)
        (fun _ => 255) = some r ∧
      Redirected ramfsCleared r.slots (fileName (chars "echo  a > b > c ")) (message (chars "echo  a > b > c "))) ↔
      (chars "echo  a > b > c ").head? ≠ some 32 :=
  echo_redirect_iff (holds_put (by decide)) (by decide) (by decide) (by decide) cleared_plain (by decide)
    (Or.inr cleared_room) List.length_replicate _ _

/-- With a blank in front of the word its last letter becomes part of the text. -/
theorem echo_blank_shifts : ¬ ∃ r,
    shellExec (fun _ => false) ramfsCleared (lineAt (chars " echo hi > f")) (List.replicate 256 255)
        (fun _ => 255) = some r ∧
      Redirected ramfsCleared r.slots (fileName (chars " echo hi > f")) (message (chars " echo hi > f")) := by
  rintro ⟨r, hr, hred⟩
  exact head_of_redirected (holds_put (by decide)) (by decide) (by decide) (by decide) cleared_plain (by decide)
    (Or.inr cleared_room) List.length_replicate hr hred (by decide)

end Files

end Dionnex.ShellRedirects
