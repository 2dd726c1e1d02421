import Dionnex.Ramfs
import Dionnex.StringAppends

/-!
# The shell's command lines

`shell_exec` takes a copy of the line, has `shell_parse` cut the line into
words where it is, and looks at the first one. `cat` and `insmod` put a path
together from the second word. `echo` goes back to the copy when there is a
`>` in it.
-/

set_option autoImplicit false

namespace Dionnex.ShellCommands
open StringBuffers Dionnex.KernelString Dionnex.Ramfs Dionnex.StringAppends

/-! ## The code -/

def isBlank (c : UInt8) : Bool := c = 32

/-- `*buf && *buf != ' '`. -/
def isWord (c : UInt8) : Bool := c ≠ 0 && c ≠ 32

/-- The line afterwards and the three pointers. -/
structure Parsed where
  buf : Buffer
  cmd : Option ℕ
  arg1 : Option ℕ
  arg2 : Option ℕ

/-- No loop leaves the 256 bytes of the line. -/
def shellParse (buf : Buffer) : Parsed :=
  let p := skip isBlank buf 0 256
  if buf p = 0 then ⟨buf, none, none, none⟩
  else
    let q := skip isWord buf p 256
    if buf q = 0 then ⟨buf, some p, none, none⟩
    else
      let buf := Function.update buf q 0
      let r := skip isBlank buf (q+1) 256
      if buf r = 0 then ⟨buf, some p, none, none⟩
      else
        let t := skip isWord buf r 256
        if buf t = 0 then ⟨buf, some p, some r, none⟩
        else
          let buf := Function.update buf t 0
          let u := skip isBlank buf (t+1) 256
          ⟨buf, some p, some r, if buf u = 0 then none else some u⟩

/-- The branches of `shell_exec`. -/
inductive Command where
  | help
  | clear
  | cpuid
  | pci
  | disk
  | date
  | dmesg
  | lsmod
  | insmod
  | rmmod
  | modinfo
  | smp
  | vesa
  | memstat
  | backtrace
  | hexdump
  | ps
  | kill
  | exec
  | initrd
  | ls
  | cat
  | echo
  | uptime
  | reboot
  | shutdown
  | panic
  deriving DecidableEq, Repr

/-- The words that are compared with the first one, in their order. -/
def commandNames : List (String × Command) :=
  [("help", .help), ("clear", .clear), ("cpuid", .cpuid), ("cpuinfo", .cpuid), ("pci", .pci), ("disk", .disk),
    ("date", .date), ("dmesg", .dmesg), ("klog", .dmesg), ("lsmod", .lsmod), ("insmod", .insmod), ("rmmod", .rmmod),
    ("modinfo", .modinfo), ("smp", .smp), ("vesa", .vesa), ("memstat", .memstat), ("backtrace", .backtrace),
    ("hexdump", .hexdump), ("ps", .ps), ("procs", .ps), ("kill", .kill), ("exec", .exec), ("initrd", .initrd),
    ("ls", .ls), ("cat", .cat), ("echo", .echo), ("uptime", .uptime), ("reboot", .reboot), ("shutdown", .shutdown),
    ("panic", .panic)]

def commandOf (cmd : List UInt8) : Option Command :=
  (commandNames.find? (fun c => decide (strcmp cmd (chars c.1) = 0))).map Prod.snd

/-- The path of `cat` and `insmod`. -/
def assemblePath (arg1 : List UInt8) (pathBuf : Buffer) : Option Buffer :=
  if arg1.head? = some 47 then some (strcpy pathBuf arg1) else strcat (strcpy pathBuf (chars "/ram/")) arg1

/-- The first index of a `>` in the copy. -/
def redirectPos (copy : List UInt8) : Option ℕ := (cstr copy).findIdx? (fun c => c = 62)

/-- The file and the text of `echo`; `orig_copy` is a list of 256 bytes. -/
def redirection (copy : List UInt8) (pos : ℕ) : List UInt8 × List UInt8 :=
  let copy := copy.set pos 0
  let msg := (copy.drop 4).dropWhile isBlank
  let filename := (copy.drop (pos+1)).dropWhile isBlank
  ((cstr filename).rdropWhile isBlank, cstr msg)

def echoTo (fs : Slots) (copy : List UInt8) : Slots :=
  match redirectPos copy with
  | some pos =>
    let r := redirection copy pos
    let fs := (ramfsCreate fs (some r.1)).2
    (ramfsWrite fs (some r.1) (some fun k => r.2.getD k 0) r.2.length).2
  | none => fs

/-- What `shell_exec` leaves in the line, the array for the path where there is one, and the files. What the other
commands do is not followed. -/
structure Executed where
  buf : Buffer
  pathBuf : Option Buffer
  slots : Slots

/-- `origCopy` and `pathBuf` are the arrays before; `inInitrd` tells what `initrd_get_file` finds. There is no result
where a string has no end. -/
def shellExec (inInitrd : List UInt8 → Bool) (fs : Slots) (buf : Buffer) (origCopy : List UInt8) (pathBuf : Buffer) :
    Option Executed :=
  let copy := (strncpy 255 origCopy (text buf 0 256)).set 255 0
  let parsed := shellParse buf
  let path := fun (arg1 : List UInt8) =>
    (assemblePath arg1 pathBuf).map (fun path => (⟨parsed.buf, some path, fs⟩ : Executed))
  let word := fun (p : ℕ) => text parsed.buf p 256
  match parsed.cmd with
  | none => some ⟨parsed.buf, none, fs⟩
  | some cmd =>
    match commandOf (word cmd), parsed.arg1 with
    | some .insmod, some arg1 =>
      if inInitrd (word arg1) then some ⟨parsed.buf, none, fs⟩ else path (word arg1)
    | some .cat, some arg1 => path (word arg1)
    | some .echo, _ => some ⟨parsed.buf, none, echoTo fs copy⟩
    | _, _ => some ⟨parsed.buf, none, fs⟩

/-! ## Words -/

def afterBlanks (s : List UInt8) : List UInt8 := s.dropWhile isBlank

/-- What is behind the first word and the blanks after it. -/
def behindWord (s : List UInt8) : List UInt8 := afterBlanks (s.dropWhile isWord).tail

def firstWord (line : List UInt8) : List UInt8 := (afterBlanks line).takeWhile isWord

def secondWord (line : List UInt8) : List UInt8 := (behindWord (afterBlanks line)).takeWhile isWord

/-- The rest of the line behind two words. -/
def remainder (line : List UInt8) : List UInt8 := behindWord (behindWord (afterBlanks line))

/-- The pointer leads to the word; it is null for the empty one. -/
def PointsTo (buf : Buffer) (p : Option ℕ) (s : List UInt8) : Prop :=
  match p with
  | none => s = []
  | some p => s ≠ [] ∧ Holds buf p s

section Words

variable {buf : Buffer} {p : ℕ} {s line : List UInt8}

theorem blank_stage (h : Holds buf p s) (hs : s.length ≤ 256) :
    Holds buf (skip isBlank buf p 256) (afterBlanks s) ∧ p ≤ skip isBlank buf p 256 := by
  rw [skip_holds h rfl hs]
  exact ⟨skip_rest h, Nat.le_add_right p _⟩

/-- A word stops at a blank or at the end. -/
theorem behind_word (h0 : (0 : UInt8) ∉ s) : s.dropWhile isWord = [] ∨ ∃ t, s.dropWhile isWord = 32::t := by
  induction s with
  | nil => exact Or.inl rfl
  | cons c s ih =>
    have hc : c ≠ 0 := fun hc => h0 (hc ▸ List.mem_cons_self)
    by_cases hblank : c = 32
    · subst hblank
      exact Or.inr ⟨s, rfl⟩
    · rw [List.dropWhile_cons_of_pos (by simp [isWord, hc, hblank])]
      exact ih (fun hs => h0 (List.mem_cons_of_mem c hs))

/-- Behind blanks a word begins, unless the line ends. -/
theorem word_nonempty (h0 : (0 : UInt8) ∉ s) (hs : afterBlanks s ≠ []) : (afterBlanks s).takeWhile isWord ≠ [] := by
  induction s with
  | nil => exact absurd rfl hs
  | cons c s ih =>
    by_cases hblank : c = 32
    · have hskip : afterBlanks (c::s) = afterBlanks s := List.dropWhile_cons_of_pos (by simp [isBlank, hblank])
      rw [hskip] at hs ⊢
      exact ih (fun h => h0 (List.mem_cons_of_mem c h)) hs
    · have hstay : afterBlanks (c::s) = c::s := List.dropWhile_cons_of_neg (by simp [isBlank, hblank])
      have hc : c ≠ 0 := fun hc => h0 (hc ▸ List.mem_cons_self)
      rw [hstay, List.takeWhile_cons_of_pos (by simp [isWord, hc, hblank])]
      exact List.cons_ne_nil _ _

/-- At the end of a word either the line ends, or the word is cut off and the blanks behind it are skipped. -/
theorem word_stage (h : Holds buf p s) (hs : s.length ≤ 256) :
    (buf (skip isWord buf p 256) = 0 ∧ s.takeWhile isWord = s ∧ behindWord s = []) ∨
      ∃ q, skip isWord buf p 256 = q ∧ buf q ≠ 0 ∧ p + (s.takeWhile isWord).length = q ∧
        Holds (Function.update buf q 0) p (s.takeWhile isWord) ∧
        Holds (Function.update buf q 0) (skip isBlank (Function.update buf q 0) (q+1) 256) (behindWord s) ∧
        q < skip isBlank (Function.update buf q 0) (q+1) 256 := by
  have hq := skip_holds h (show isWord 0 = false from rfl) hs
  have hsplit := List.takeWhile_append_dropWhile (p := isWord) (l := s)
  have hrest := @skip_rest buf p s isWord h
  rw [← hq] at hrest
  rcases behind_word h.1 with hnil | ⟨t, ht⟩
  · refine Or.inl ⟨(holds_empty hrest).mpr hnil, ?_, ?_⟩
    · rwa [hnil, List.append_nil] at hsplit
    · rw [behindWord, hnil]
      rfl
  · have hcut := h
    rw [← hsplit, ht] at hcut
    obtain ⟨hword, htail⟩ := holds_cut hcut
    have htlen : t.length ≤ 256 := by
      have hlen := congrArg List.length hsplit
      rw [ht, List.length_append, List.length_cons] at hlen
      omega
    rw [← hq] at hword htail
    obtain ⟨hblank, hle⟩ := blank_stage htail htlen
    refine Or.inr ⟨_, rfl, fun h0 => ?_, hq.symm, hword, ?_, hle⟩
    · rw [(holds_empty hrest).mp h0] at ht
      exact absurd ht.symm (List.cons_ne_nil _ _)
    · rw [behindWord, ht]
      exact hblank

theorem points_word {t : List UInt8} (h : Holds buf p t) (hne : t ≠ []) : PointsTo buf (some p) t := ⟨hne, h⟩

theorem behind_nonempty (h0 : (0 : UInt8) ∉ s) (hs : behindWord s ≠ []) : (behindWord s).takeWhile isWord ≠ [] :=
  word_nonempty (fun h => h0 ((List.dropWhile_suffix isWord).mem (List.mem_of_mem_tail h))) hs

theorem blanks_length (s : List UInt8) : (afterBlanks s).length ≤ s.length := List.length_dropWhile_le isBlank s

theorem behind_length (s : List UInt8) : (behindWord s).length ≤ s.length := by
  have hblanks := blanks_length (s.dropWhile isWord).tail
  have hword := List.length_dropWhile_le isWord s
  rw [List.length_tail] at hblanks
  unfold behindWord
  omega

/-- The pointers lead to the words of the line. -/
theorem shellParse_words (h : Holds buf 0 line) (hlen : line.length ≤ 255) :
    PointsTo (shellParse buf).buf (shellParse buf).cmd (firstWord line) ∧
      PointsTo (shellParse buf).buf (shellParse buf).arg1 (secondWord line) ∧
      PointsTo (shellParse buf).buf (shellParse buf).arg2 (remainder line) := by
  obtain ⟨ha, -⟩ := blank_stage h (by omega)
  have halen := blanks_length line
  unfold shellParse firstWord secondWord remainder
  dsimp only
  generalize skip isBlank buf 0 256 = p at ha
  by_cases hp : buf p = 0
  · rw [if_pos hp, (holds_empty ha).mp hp]
    exact ⟨rfl, rfl, rfl⟩
  have hfirst := word_nonempty h.1 (fun he => hp ((holds_empty ha).mpr he))
  rw [if_neg hp]
  rcases word_stage ha (by omega) with ⟨hq, hword, hbehind⟩ | ⟨q, hq, hq0, hword, hcmd, hb, hqr⟩
  · rw [if_pos hq, hbehind]
    exact ⟨points_word (hword.symm ▸ ha) hfirst, rfl, rfl⟩
  rw [hq, if_neg hq0]
  have hblen := behind_length (afterBlanks line)
  generalize Function.update buf q 0 = buf' at hcmd hb hqr ⊢
  generalize skip isBlank buf' (q+1) 256 = r at hb hqr ⊢
  by_cases hr : buf' r = 0
  · rw [if_pos hr, (holds_empty hb).mp hr]
    exact ⟨points_word hcmd hfirst, rfl, rfl⟩
  have hsecond := behind_nonempty ha.1 (fun he => hr ((holds_empty hb).mpr he))
  rw [if_neg hr]
  rcases word_stage hb (by omega) with ⟨ht, hword', hbehind⟩ | ⟨t, ht, ht0, hword', harg, hc, -⟩
  · rw [if_pos ht, hbehind]
    exact ⟨points_word hcmd hfirst, points_word (hword'.symm ▸ hb) hsecond, rfl⟩
  rw [ht, if_neg ht0]
  -- The second NUL is behind the first word.
  have hkeep : Holds (Function.update buf' t 0) p ((afterBlanks line).takeWhile isWord) :=
    holds_congr hcmd (fun i hi => Function.update_of_ne (by omega) _ _)
  refine ⟨points_word hkeep hfirst, points_word harg hsecond, ?_⟩
  by_cases hu : Function.update buf' t 0 (skip isBlank (Function.update buf' t 0) (t+1) 256) = 0
  · rw [if_pos hu]
    exact (holds_empty hc).mp hu
  · rw [if_neg hu]
    exact points_word hc (fun he => hu ((holds_empty hc).mpr he))

/-- The line around its first two words. -/
theorem words_split (h0 : (0 : UInt8) ∉ line) (hsecond : secondWord line ≠ []) :
    ∃ x y z, line = x ++ (firstWord line ++ 32 :: (y ++ (secondWord line ++ z))) := by
  have hline := List.takeWhile_append_dropWhile (p := isBlank) (l := line)
  have hword := List.takeWhile_append_dropWhile (p := isWord) (l := afterBlanks line)
  have ha0 : (0 : UInt8) ∉ afterBlanks line := fun h => h0 ((List.dropWhile_suffix isBlank).mem h)
  rcases behind_word ha0 with hnil | ⟨t, ht⟩
  · refine absurd ?_ hsecond
    rw [secondWord, behindWord, hnil]
    rfl
  · have hbehind : behindWord (afterBlanks line) = afterBlanks t := by rw [behindWord, ht, List.tail_cons]
    have hrest := List.takeWhile_append_dropWhile (p := isBlank) (l := t)
    have hlast := List.takeWhile_append_dropWhile (p := isWord) (l := behindWord (afterBlanks line))
    refine ⟨line.takeWhile isBlank, t.takeWhile isBlank, (behindWord (afterBlanks line)).dropWhile isWord, ?_⟩
    rw [secondWord, hlast, hbehind, afterBlanks, hrest, ← ht, firstWord, hword]
    exact hline.symm

theorem points_text {c : Option ℕ} {t : List UInt8} (h : PointsTo buf c t) (ht : t.length ≤ 256) :
    (t = [] ∧ c = none) ∨ ∃ p, c = some p ∧ t ≠ [] ∧ text buf p 256 = t := by
  cases c with
  | none => exact Or.inl ⟨h, rfl⟩
  | some p => exact Or.inr ⟨p, rfl, h.1, text_holds h.2 ht⟩

end Words

/-! ## Paths -/

section Paths

variable {buf pathBuf old : Buffer} {line arg1 word : List UInt8} {inInitrd : List UInt8 → Bool} {fs : Slots}
variable {origCopy : List UInt8}

/-- The path that is meant. -/
def fullPath (arg1 : List UInt8) : List UInt8 := if arg1.head? = some 47 then arg1 else chars "/ram/" ++ arg1

/-- The array holds the path, and nothing has been stored behind its 256 bytes. -/
def PathFits (old path : Buffer) (arg1 : List UInt8) : Prop :=
  Filled old path (fullPath arg1) ∧ (fullPath arg1).length ≤ 255

theorem assemblePath_filled (h0 : (0 : UInt8) ∉ arg1) (pathBuf : Buffer) :
    ∃ path, assemblePath arg1 pathBuf = some path ∧ Filled pathBuf path (fullPath arg1) := by
  have hself := cstr_of_nulFree arg1 h0
  unfold assemblePath fullPath
  by_cases hroot : arg1.head? = some 47
  · rw [if_pos hroot, if_pos hroot]
    refine ⟨_, rfl, ?_⟩
    have hfill := @strcpy_filled pathBuf arg1
    rwa [hself] at hfill
  · have hram := @strcpy_filled pathBuf (chars "/ram/")
    obtain ⟨path, hcat, hfill⟩ := @strcat_filled pathBuf _ _ arg1 hram (by decide)
    rw [hself, show cstr (chars "/ram/") = chars "/ram/" by decide] at hfill
    rw [if_neg hroot, if_neg hroot]
    exact ⟨path, hcat, hfill⟩

/-- A branch with a name of its own is only taken for that word. -/
theorem command_word {c : Command} {n : String} (hall : ∀ e ∈ commandNames, e.2 = c → e.1 = n)
    (h0 : (0 : UInt8) ∉ word) (h : commandOf word = some c) : word = chars n := by
  obtain ⟨e, he, hc⟩ := Option.map_eq_some_iff.mp h
  have hin := List.mem_of_find?_eq_some he
  have hfound := List.find?_some he
  have heq := of_decide_eq_true hfound
  have hplain : ∀ e ∈ commandNames, cstr (chars e.1) = chars e.1 := by decide +kernel
  rw [strcmp_eq_zero, cstr_of_nulFree word h0, hplain e hin, hall e hin hc] at heq
  exact heq

/-- `cat`, one blank, and 251 characters without a blank that do not begin with a slash. -/
def Overlong (line : List UInt8) : Prop :=
  ∃ w, line = chars "cat " ++ w ∧ w.length = 251 ∧ (32 : UInt8) ∉ w ∧ w.head? ≠ some 47

/-- A path that does not fit takes a second word of 251 characters. -/
theorem long_word (h : ¬ (fullPath arg1).length ≤ 255) (harg : arg1.length ≤ 255) :
    251 ≤ arg1.length ∧ arg1.head? ≠ some 47 := by
  have hram : (chars "/ram/").length = 5 := by decide
  unfold fullPath at h
  split at h
  · exact absurd harg h
  · next hroot =>
    rw [List.length_append, hram] at h
    exact ⟨by omega, hroot⟩

theorem secondWord_length : (secondWord line).length ≤ line.length := by
  have htake := (List.takeWhile_sublist isWord (l := behindWord (afterBlanks line))).length_le
  have hbehind := behind_length (afterBlanks line)
  have hblanks := blanks_length line
  unfold secondWord
  omega

theorem words_nulFree : (0 : UInt8) ∉ firstWord line ∧ (0 : UInt8) ∉ secondWord line := by
  have hword : ∀ c ∈ (firstWord line ++ secondWord line), isWord c = true := by
    intro c hc
    rcases List.mem_append.mp hc with hc | hc
    · exact List.mem_takeWhile_imp hc
    · exact List.mem_takeWhile_imp hc
  refine ⟨fun h => ?_, fun h => ?_⟩
  · exact absurd (hword 0 (List.mem_append_left _ h)) (by decide)
  · exact absurd (hword 0 (List.mem_append_right _ h)) (by decide)

/-- In 255 characters there is room for such a word only behind the three letters of `cat`, and nothing else. -/
theorem overlong_line (h0 : (0 : UInt8) ∉ line) (hlen : line.length ≤ 255)
    (hfirst : firstWord line = chars "cat" ∨ firstWord line = chars "insmod")
    (hfit : ¬ (fullPath (secondWord line)).length ≤ 255) : firstWord line = chars "cat" ∧ Overlong line := by
  have hcat : (chars "cat").length = 3 := by decide
  have hinsmod : (chars "insmod").length = 6 := by decide
  obtain ⟨hlong, hroot⟩ := long_word hfit (secondWord_length.trans hlen)
  have hne : secondWord line ≠ [] := by
    intro hnil
    rw [hnil, List.length_nil] at hlong
    omega
  obtain ⟨x, y, z, hline⟩ := words_split h0 hne
  have hsum := congrArg List.length hline
  simp only [List.length_append, List.length_cons] at hsum
  rcases hfirst with hfirst | hfirst
  · rw [hfirst, hcat] at hsum
    have hx : x = [] := List.length_eq_zero_iff.mp (by omega)
    have hy : y = [] := List.length_eq_zero_iff.mp (by omega)
    have hz : z = [] := List.length_eq_zero_iff.mp (by omega)
    refine ⟨hfirst, secondWord line, ?_, by omega, fun h => ?_, hroot⟩
    · rw [hx, hy, hz, hfirst, List.nil_append, List.nil_append, List.append_nil] at hline
      exact hline
    · exact absurd (List.mem_takeWhile_imp h : isWord 32 = true) (by decide)
  · rw [hfirst, hinsmod] at hsum
    omega

theorem overlong_words (h0 : (0 : UInt8) ∉ line) {w : List UInt8} (hline : line = chars "cat " ++ w)
    (hblank : (32 : UInt8) ∉ w) : firstWord line = chars "cat" ∧ secondWord line = w := by
  have hword : ∀ c ∈ w, isWord c = true := by
    intro c hc
    have hc0 : c ≠ 0 := fun he => h0 (hline ▸ List.mem_append_right _ (he ▸ hc))
    have hc32 : c ≠ 32 := fun he => hblank (he ▸ hc)
    simp [isWord, hc0, hc32]
  have hchars : chars "cat " = [99, 97, 116, 32] := by decide
  have hskip : afterBlanks w = w := by
    unfold afterBlanks
    cases w with
    | nil => rfl
    | cons c w =>
      have hc : c ≠ 32 := fun he => hblank (he ▸ List.mem_cons_self)
      exact List.dropWhile_cons_of_neg (by simp [isBlank, hc])
  have hall : w.takeWhile isWord = w := List.takeWhile_eq_self_iff.mpr hword
  subst hline
  rw [hchars]
  constructor
  · rfl
  · change (afterBlanks w).takeWhile isWord = w
    rw [hskip, hall]

/-- A path is only assembled for the two commands, and always for a `cat` with an argument. -/
structure PathOf (line : List UInt8) (old : Buffer) (r : Executed) : Prop where
  filled : ∀ path, r.pathBuf = some path → Filled old path (fullPath (secondWord line))
  command : r.pathBuf ≠ none → firstWord line = chars "cat" ∨ firstWord line = chars "insmod"
  cat : firstWord line = chars "cat" → secondWord line ≠ [] → r.pathBuf ≠ none

theorem no_path {r : Executed} (h : r.pathBuf = none)
    (hcat : ¬ (firstWord line = chars "cat" ∧ secondWord line ≠ [])) : PathOf line old r where
  filled path hpath := by
    rw [h] at hpath
    cases hpath
  command hne := absurd h hne
  cat hfirst hsecond := absurd ⟨hfirst, hsecond⟩ hcat

theorem some_path {path : Buffer} {b : Buffer} (h : Filled old path (fullPath (secondWord line)))
    (hfirst : firstWord line = chars "cat" ∨ firstWord line = chars "insmod") :
    PathOf line old ⟨b, some path, fs⟩ where
  filled p hp := by
    cases hp
    exact h
  command _ := hfirst
  cat _ _ := by simp

theorem shellExec_path (h : Holds buf 0 line) (hlen : line.length ≤ 255) :
    ∃ r, shellExec inInitrd fs buf origCopy pathBuf = some r ∧ PathOf line pathBuf r := by
  obtain ⟨hcmd, harg, -⟩ := shellParse_words h hlen
  obtain ⟨hfirst0, hsecond0⟩ := @words_nulFree line
  have hsecond := @secondWord_length line
  have hfirst : (firstWord line).length ≤ 256 :=
    ((List.takeWhile_sublist isWord).length_le.trans (blanks_length line)).trans (by omega)
  have hcatWord : firstWord line = chars "cat" → commandOf (firstWord line) = some .cat := by
    intro he
    rw [he]
    decide
  obtain ⟨path, hpath, hfill⟩ := assemblePath_filled hsecond0 pathBuf
  unfold shellExec
  dsimp only
  rcases points_text hcmd hfirst with ⟨hnil, hc⟩ | ⟨p, hc, -, hp⟩
  · rw [hc]
    refine ⟨_, rfl, no_path rfl (fun hboth => ?_)⟩
    rw [hboth.1] at hnil
    exact absurd hnil (by decide)
  rw [hc]
  dsimp only
  rw [hp]
  rcases points_text harg (by omega) with ⟨hnil, ha⟩ | ⟨a, ha, -, hword⟩
  · rw [ha]
    have hnone : ¬ (firstWord line = chars "cat" ∧ secondWord line ≠ []) := fun hboth => hboth.2 hnil
    split
    · next hb => cases hb
    · next hb => cases hb
    · exact ⟨_, rfl, no_path rfl hnone⟩
    · exact ⟨_, rfl, no_path rfl hnone⟩
  rw [ha]
  split
  · next hcom hb =>
    cases hb
    have hins : firstWord line = chars "insmod" := command_word (by decide) hfirst0 hcom
    have hnone : ¬ (firstWord line = chars "cat" ∧ secondWord line ≠ []) := by
      rintro ⟨hcat, -⟩
      rw [hins] at hcat
      exact absurd hcat (by decide)
    split
    · exact ⟨_, rfl, no_path rfl hnone⟩
    · rw [hword]
      exact ⟨_, by rw [hpath, Option.map_some], some_path hfill (Or.inr hins)⟩
  · next hcom hb =>
    cases hb
    rw [hword]
    exact ⟨_, by rw [hpath, Option.map_some], some_path hfill (Or.inl (command_word (by decide) hfirst0 hcom))⟩
  · next hcom =>
    refine ⟨_, rfl, no_path rfl (fun hboth => ?_)⟩
    rw [hcatWord hboth.1] at hcom
    cases hcom
  · next hother =>
    exact ⟨_, rfl, no_path rfl (fun hboth => hother a (hcatWord hboth.1) rfl)⟩

theorem overlong_path {w : List UInt8} (hlen : w.length = 251) (hroot : w.head? ≠ some 47) :
    (fullPath w).length = 256 := by
  have hram : (chars "/ram/").length = 5 := by decide
  rw [fullPath, if_neg hroot, List.length_append, hram, hlen]

theorem path_of_short (h : Holds buf 0 line) (hlen : line.length ≤ 255) (hshort : ¬ Overlong line) :
    ∃ r, shellExec inInitrd fs buf origCopy pathBuf = some r ∧
      ∀ path, r.pathBuf = some path → PathFits pathBuf path (secondWord line) := by
  obtain ⟨r, hr, hpath⟩ := @shellExec_path buf pathBuf line inInitrd fs origCopy h hlen
  refine ⟨r, hr, fun path hp => ⟨hpath.filled path hp, ?_⟩⟩
  by_contra hfit
  have hcommand := hpath.command (by simp [hp])
  exact hshort (overlong_line h.1 hlen hcommand hfit).2

theorem short_of_path {r : Executed} (h : Holds buf 0 line) (hlen : line.length ≤ 255)
    (hr : shellExec inInitrd fs buf origCopy pathBuf = some r)
    (hfits : ∀ path, r.pathBuf = some path → PathFits pathBuf path (secondWord line)) : ¬ Overlong line := by
  rintro ⟨w, hline, hw, hblank, hroot⟩
  obtain ⟨hcat, hsecond⟩ := overlong_words h.1 hline hblank
  obtain ⟨r', hr', hpath⟩ := @shellExec_path buf pathBuf line inInitrd fs origCopy h hlen
  have hsame : r' = r := Option.some.inj (hr'.symm.trans hr)
  subst hsame
  have hne : secondWord line ≠ [] := by
    rw [hsecond]
    rintro rfl
    cases hw
  obtain ⟨path, hp⟩ := Option.ne_none_iff_exists'.mp (hpath.cat hcat hne)
  have hfit := (hfits path hp).2
  rw [hsecond, overlong_path hw hroot] at hfit
  omega

/-- For every line the path that `cat` or `insmod` assembles fits, except for one kind of line. -/
theorem shell_path_iff (h : Holds buf 0 line) (hlen : line.length ≤ 255) (inInitrd : List UInt8 → Bool) (fs : Slots)
    (origCopy : List UInt8) (pathBuf : Buffer) :
    (∃ r, shellExec inInitrd fs buf origCopy pathBuf = some r ∧
      ∀ path, r.pathBuf = some path → PathFits pathBuf path (secondWord line)) ↔ ¬ Overlong line := by
  constructor
  · rintro ⟨r, hr, hfits⟩
    exact short_of_path h hlen hr hfits
  · exact path_of_short h hlen

/-- The buffer with a line in it. -/
def lineAt (line : List UInt8) : Buffer := put (fun _ => 255) 0 (line++[0])

theorem shell_path_iff_sample :
    (∃ r, shellExec (fun _ => false) ramfsCleared (lineAt (chars "  insmod  driver.ko ")) (List.replicate 256 255)
        (fun _ => 255) = some r ∧
      ∀ path, r.pathBuf = some path → PathFits (fun _ => 255) path (secondWord (chars "  insmod  driver.ko "))) ↔
      ¬ Overlong (chars "  insmod  driver.ko ") :=
  shell_path_iff (holds_put (by decide)) (by decide) _ _ _ _

/-- A file name of 251 letters. -/
theorem cat_path_overruns : ¬ ∃ r,
    shellExec (fun _ => false) ramfsCleared (lineAt (chars "cat " ++ List.replicate 251 97)) (List.replicate 256 255)
        (fun _ => 255) = some r ∧
      ∀ path, r.pathBuf = some path →
        PathFits (fun _ => 255) path (secondWord (chars "cat " ++ List.replicate 251 97)) := by
  rintro ⟨r, hr, hfits⟩
  have hplain : (0 : UInt8) ∉ chars "cat " ++ List.replicate 251 97 := by decide +kernel
  exact short_of_path (holds_put hplain) (by decide +kernel) hr hfits
    ⟨List.replicate 251 97, rfl, List.length_replicate, by decide +kernel, by decide +kernel⟩

end Paths

end Dionnex.ShellCommands
