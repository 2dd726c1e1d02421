import Dionnex.StringBuffers

/-!
# The shell in user space

The shell reads its line byte by byte into `cmd[128]` and stops at a newline
or when 127 bytes have been collected. Only the first of these two exits ends
the string with a NUL, and the second leaves the rest of the line to be read
as the next one. Below the buffer the editor is described by the texts that
it sends to the dispatch, each with the number of its line.
-/

set_option autoImplicit false

namespace Dionnex.UserShell
open StringBuffers

/-- For the record `line` counts the newlines that have been read, and `commands` lists what `cmd` held each time the
dispatch was reached, with the number of the line. -/
structure Shell where
  cmd : Buffer
  pos : ℕ
  line : ℕ
  commands : List (ℕ × Buffer)

def started (cmd : Buffer) : Shell := ⟨cmd, 0, 0, []⟩

def IsNewline (c : UInt8) : Prop := c = 13 ∨ c = 10

instance (c : UInt8) : Decidable (IsNewline c) := inferInstanceAs (Decidable (_ ∨ _))

/-- Behind the read loop: an empty command is passed over. The commands themselves leave `cmd` as it is. -/
def leaveLoop (s : Shell) : Shell :=
  if s.pos = 0 then s else { s with pos := 0, commands := s.commands ++ [(s.line, s.cmd)] }

/-- One byte in the read loop and the check of its condition. -/
def readByte (s : Shell) (c : UInt8) : Shell :=
  if IsNewline c then
    let s := leaveLoop { s with cmd := Function.update s.cmd s.pos 0 }
    { s with line := s.line+1 }
  else
    let s :=
      if c = 8 then if s.pos > 0 then { s with pos := s.pos-1 } else s
      else { s with cmd := Function.update s.cmd s.pos c, pos := s.pos+1 }
    if s.pos < 127 then s else leaveLoop s

/-- `SYS_READ` of one byte; a NUL from the keyboard is no byte, and the shell reads again. -/
def sysRead (key : UInt8) : Option UInt8 := if key = 0 then none else some key

def delivered (keys : List UInt8) : List UInt8 := keys.filterMap sysRead

def start (cmd : Buffer) (keys : List UInt8) : Shell := (delivered keys).foldl readByte (started cmd)

/-! ## The dispatch -/

/-- From position `p` on. -/
def strEquals (buf : Buffer) (p : ℕ) : List UInt8 → Bool
  | [] => buf p = 0
  | c::s => if buf p = 0 then false else if buf p ≠ c then false else strEquals buf (p+1) s

/-- From position `p` on. -/
def strStartsWith (buf : Buffer) (p : ℕ) : List UInt8 → Bool
  | [] => true
  | c::s => if buf p ≠ c then false else strStartsWith buf (p+1) s

inductive Command where
  | exit
  | getpid
  | write
  | sleep
  | unknown
  deriving DecidableEq, Repr

def exitName : List UInt8 := [101, 120, 105, 116]

def getpidName : List UInt8 := [103, 101, 116, 112, 105, 100]

def writePrefix : List UInt8 := [119, 114, 105, 116, 101, 32]

def sleepPrefix : List UInt8 := [115, 108, 101, 101, 112, 32]

def dispatch (cmd : Buffer) : Command :=
  if strEquals cmd 0 exitName then .exit
  else if strEquals cmd 0 getpidName then .getpid
  else if strStartsWith cmd 0 writePrefix then .write
  else if strStartsWith cmd 0 sleepPrefix then .sleep
  else .unknown

section Dispatch

variable {buf : Buffer} {p : ℕ} {s t : List UInt8}

theorem strEquals_holds (h : Holds buf p t) (hs : (0 : UInt8) ∉ s) : strEquals buf p s = decide (t = s) := by
  induction s generalizing p t with
  | nil =>
    rw [strEquals]
    exact decide_eq_decide.mpr (holds_empty h)
  | cons c s ih =>
    rw [strEquals]
    cases t with
    | nil =>
      rw [if_pos ((holds_empty h).mpr rfl)]
      rfl
    | cons b t =>
      obtain ⟨hbyte, hne⟩ := holds_byte h (Nat.succ_pos t.length)
      rw [Nat.add_zero, List.getD_cons_zero] at hbyte
      rw [Nat.add_zero] at hne
      rw [if_neg hne, hbyte, ih (holds_tail h) (fun h0 => hs (List.mem_cons_of_mem c h0))]
      by_cases hbc : b = c
      · rw [if_neg (not_not.mpr hbc), hbc]
        exact decide_eq_decide.mpr ⟨fun he => he ▸ rfl, fun he => (List.cons.inj he).2⟩
      · rw [if_pos hbc]
        exact (decide_eq_false (fun he => hbc (List.cons.inj he).1)).symm

theorem strStartsWith_holds (h : Holds buf p t) (hs : (0 : UInt8) ∉ s) : strStartsWith buf p s = decide (s <+: t) := by
  induction s generalizing p t with
  | nil => exact (decide_eq_true List.nil_prefix).symm
  | cons c s ih =>
    rw [strStartsWith]
    cases t with
    | nil =>
      have hend := (holds_empty h).mpr rfl
      rw [hend, if_pos (fun h0 : (0 : UInt8) = c => hs (h0 ▸ List.mem_cons_self))]
      exact (decide_eq_false (fun he => by cases List.prefix_nil.mp he)).symm
    | cons b t =>
      have hbyte := (holds_byte h (Nat.succ_pos t.length)).1
      rw [Nat.add_zero, List.getD_cons_zero] at hbyte
      rw [hbyte, ih (holds_tail h) (fun h0 => hs (List.mem_cons_of_mem c h0))]
      by_cases hbc : b = c
      · rw [if_neg (not_not.mpr hbc), hbc]
        exact decide_eq_decide.mpr (List.prefix_cons_inj c).symm
      · rw [if_pos hbc]
        exact (decide_eq_false (fun he => hbc (List.cons_prefix_cons.mp he).1.symm)).symm

/-- A command that is a string is taken for what it says. -/
theorem dispatch_holds (h : Holds buf 0 t) : dispatch buf =
    if t = exitName then .exit else if t = getpidName then .getpid
    else if writePrefix <+: t then .write else if sleepPrefix <+: t then .sleep else .unknown := by
  unfold dispatch
  rw [strEquals_holds h (by decide), strEquals_holds h (by decide), strStartsWith_holds h (by decide),
    strStartsWith_holds h (by decide)]
  simp only [decide_eq_true_eq]

end Dispatch

/-! ## Lines -/

def edit (text : List UInt8) (c : UInt8) : List UInt8 := if c = 8 then text.dropLast else text ++ [c]

/-- A line with its backspaces applied. -/
def edited (w : List UInt8) : List UInt8 := w.foldl edit []

/-- The lines without their newlines; the last one has not been ended. -/
def lines (bytes : List UInt8) : List (List UInt8) := bytes.splitOnP (fun c => decide (IsNewline c))

/-- The 128 bytes of `cmd` hold the text with its NUL. -/
def Terminated (cmd : Buffer) (text : List UInt8) : Prop := Holds cmd 0 text ∧ text.length ≤ 127

/-- Every command is the text of its line, and no line makes two. -/
structure LinesRight (s : Shell) (bytes : List UInt8) : Prop where
  texts : ∀ i cmd, (i, cmd) ∈ s.commands → ∃ w, (lines bytes)[i]? = some w ∧ Terminated cmd (edited w)
  once : (s.commands.map Prod.fst).Nodup

/-- The text never has 127 bytes. -/
def Short (w : List UInt8) : Prop := ∀ u, u <+: w → (edited u).length < 127

/-- The text has 127 bytes at the end of `u` and not before. -/
def Fills (u : List UInt8) : Prop := (edited u).length = 127 ∧ ∀ v, v <+: u → v ≠ u → (edited v).length < 127

/-- What is typed behind the 127 bytes leaves the text as it is and makes nothing by itself. -/
def SentOnce (ended : Prop) (w : List UInt8) : Prop :=
  ∃ u v, w = u ++ v ∧ Fills u ∧ edited w = edited u ∧ Short v ∧ (ended → edited v = [])

def LineFits (cmd : Buffer) (ended : Prop) (w : List UInt8) : Prop := Short w ∨ (cmd 127 = 0 ∧ SentOnce ended w)

/-! ## The texts that are sent -/

/-- A text that is sent, and whether it was sent because it filled the buffer. -/
structure Sent where
  text : List UInt8
  full : Bool
  deriving DecidableEq

/-- The texts that fill the buffer within a line that begins with `cur`, and the text at its end. -/
def fulls (cur : List UInt8) : List UInt8 → List (List UInt8) × List UInt8
  | [] => ([], cur)
  | c::w =>
    if (edit cur c).length < 127 then fulls (edit cur c) w
    else (edit cur c :: (fulls [] w).1, (fulls [] w).2)

def sentFrom (cur : List UInt8) (ended : Prop) [Decidable ended] (w : List UInt8) : List Sent :=
  (fulls cur w).1.map (fun t => ⟨t, true⟩) ++ if ended ∧ (fulls cur w).2 ≠ [] then [⟨(fulls cur w).2, false⟩] else []

def sentLines : ℕ → List (List UInt8) → List (ℕ × Sent)
  | _, [] => []
  | i, w::ws => (sentFrom [] (ws ≠ []) w).map (Prod.mk i) ++ sentLines (i+1) ws

/-- The shell with the text instead of the buffer. -/
structure Editor where
  line : ℕ
  cur : List UInt8
  sent : List (ℕ × Sent)

def Editor.step (e : Editor) (c : UInt8) : Editor :=
  if IsNewline c then ⟨e.line+1, [], if e.cur = [] then e.sent else e.sent ++ [(e.line, ⟨e.cur, false⟩)]⟩
  else if (edit e.cur c).length < 127 then { e with cur := edit e.cur c }
  else { e with cur := [], sent := e.sent ++ [(e.line, ⟨edit e.cur c, true⟩)] }

/-- What the buffer held when a text was sent. -/
structure Carries (spare : UInt8) (cmd : Buffer) (t : Sent) : Prop where
  plain : (0 : UInt8) ∉ t.text
  short : t.text.length ≤ 127
  bytes : ∀ i < t.text.length, cmd i = t.text.getD i 0
  stop : cmd t.text.length = if t.full then spare else 0
  full : t.full = true → t.text.length = 127

/-- The buffer begins with the text, and its last byte is what it was at the start. -/
structure Follows (spare : UInt8) (s : Shell) (e : Editor) : Prop where
  line : s.line = e.line
  pos : s.pos = e.cur.length
  short : e.cur.length < 127
  plain : (0 : UInt8) ∉ e.cur
  bytes : ∀ i < e.cur.length, s.cmd i = e.cur.getD i 0
  lastByte : s.cmd 127 = spare
  sent : List.Forall₂ (fun c t => c.1 = t.1 ∧ Carries spare c.2 t.2) s.commands e.sent

section Steps

variable {spare : UInt8} {s : Shell} {e : Editor} {c : UInt8} {cmd : Buffer} {t : Sent} {text cur w : List UInt8}

theorem carries_nonzero (h : Carries spare cmd t) {i : ℕ} (hi : i < t.text.length) : cmd i ≠ 0 := by
  intro h0
  have hget := h.bytes i hi
  rw [h0, List.getD_eq_getElem _ _ hi] at hget
  exact h.plain (hget ▸ List.getElem_mem hi)

/-- A string in the buffer ends where the text does: at its NUL, or at the last byte when the text has filled the buffer. -/
theorem carries_length (h : Carries spare cmd t) (hterm : Terminated cmd text) : text.length = t.text.length := by
  obtain ⟨hholds, hlen⟩ := hterm
  have hend := holds_end hholds
  rw [Nat.zero_add] at hend
  have hle : t.text.length ≤ text.length := by
    by_contra hlt
    exact carries_nonzero h (Nat.not_le.mp hlt) hend
  by_contra hne
  have hlast := (holds_byte hholds (show t.text.length < text.length by omega)).2
  rw [Nat.zero_add, h.stop] at hlast
  cases hfull : t.full with
  | true =>
    have h127 := h.full hfull
    omega
  | false =>
    rw [hfull] at hlast
    exact hlast rfl

/-- A text is in the buffer as a string unless it filled it and the byte behind it is no NUL. -/
theorem carries_terminated (h : Carries spare cmd t) :
    Terminated cmd text ↔ text = t.text ∧ (t.full = true → spare = 0) := by
  constructor
  · intro hterm
    have hsame := carries_length h hterm
    have hholds := hterm.1
    refine ⟨List.ext_getElem hsame (fun i hi hi' => ?_), fun hfull => ?_⟩
    · have h1 := (holds_byte hholds hi).1
      have h2 := h.bytes i hi'
      rw [Nat.zero_add, List.getD_eq_getElem _ _ hi] at h1
      rw [List.getD_eq_getElem _ _ hi'] at h2
      exact h1.symm.trans h2
    · have hstop := h.stop
      have hend := holds_end hholds
      rw [Nat.zero_add] at hend
      rw [← hsame, hend, if_pos hfull] at hstop
      exact hstop.symm
  · rintro ⟨rfl, hspare⟩
    refine ⟨⟨h.plain, fun i hi => ?_⟩, h.short⟩
    rw [Nat.zero_add]
    rcases Nat.eq_or_lt_of_le hi with rfl | hlt
    · rw [h.stop, List.getD_eq_default _ _ le_rfl]
      cases hfull : t.full with
      | true => exact hspare hfull
      | false => rfl
    · exact h.bytes i hlt

theorem edit_backspace : edit cur 8 = cur.dropLast := if_pos rfl

theorem edit_char (h : c ≠ 8) : edit cur c = cur ++ [c] := if_neg h

theorem edit_length_le : (edit cur c).length ≤ cur.length + 1 := by
  unfold edit
  split_ifs
  · rw [List.length_dropLast]
    omega
  · rw [List.length_append, List.length_singleton]

theorem edit_plain (h : (0 : UInt8) ∉ cur) (hc : c ≠ 0) : (0 : UInt8) ∉ edit cur c := by
  unfold edit
  split_ifs with hb
  · exact fun h0 => h (List.mem_of_mem_dropLast h0)
  · intro h0
    rcases List.mem_append.mp h0 with h0 | h0
    · exact h h0
    · exact hc (List.mem_singleton.mp h0).symm

/-- The byte is taken into the text. -/
theorem char_bytes (h : Follows spare s e) (c : UInt8) {i : ℕ} (hi : i < (e.cur ++ [c]).length) :
    Function.update s.cmd s.pos c i = (e.cur ++ [c]).getD i 0 := by
  rw [List.length_append, List.length_singleton] at hi
  rcases Nat.eq_or_lt_of_le (Nat.lt_succ_iff.mp hi) with rfl | hlt
  · rw [h.pos, Function.update_self, List.getD_append_right _ _ _ _ le_rfl, Nat.sub_self]
    rfl
  · rw [h.pos, Function.update_of_ne hlt.ne, List.getD_append _ _ _ _ hlt]
    exact h.bytes i hlt

theorem sent_snoc (h : Follows spare s e) (hcarry : Carries spare cmd t) :
    List.Forall₂ (fun a b => a.1 = b.1 ∧ Carries spare a.2 b.2) (s.commands ++ [(s.line, cmd)]) (e.sent ++ [(e.line, t)]) :=
  List.rel_append h.sent (.cons ⟨h.line, hcarry⟩ .nil)

theorem newline_follows (h : Follows spare s e) (hc : IsNewline c) : Follows spare (readByte s c) (e.step c) := by
  have hlast : Function.update s.cmd s.pos 0 127 = spare := by
    have hshort := h.short
    rw [Function.update_of_ne (by rw [h.pos]; omega)]
    exact h.lastByte
  unfold readByte Editor.step leaveLoop
  rw [if_pos hc, if_pos hc]
  have hempty : s.pos = 0 ↔ e.cur = [] := by rw [h.pos, List.length_eq_zero_iff]
  by_cases hpos : s.pos = 0
  · simp only [if_pos hpos, if_pos (hempty.mp hpos)]
    exact ⟨congrArg (· + 1) h.line, hpos, Nat.succ_pos _, List.not_mem_nil, fun i hi => absurd hi (Nat.not_lt_zero i), hlast,
      h.sent⟩
  · simp only [if_neg hpos, if_neg (fun he => hpos (hempty.mpr he))]
    have hcarry : Carries spare (Function.update s.cmd s.pos 0) ⟨e.cur, false⟩ :=
      { plain := h.plain
        short := h.short.le
        bytes := fun i hi => by
          rw [h.pos, Function.update_of_ne (Nat.ne_of_lt hi)]
          exact h.bytes i hi
        stop := by
          rw [h.pos, Function.update_self]
          rfl
        full := fun hfull => by cases hfull }
    exact ⟨congrArg (· + 1) h.line, rfl, Nat.succ_pos _, List.not_mem_nil, fun i hi => absurd hi (Nat.not_lt_zero i), hlast,
      sent_snoc h hcarry⟩

theorem backspace_follows (h : Follows spare s e) : Follows spare (readByte s 8) (e.step 8) := by
  have hdrop : e.cur.dropLast.length = e.cur.length - 1 := List.length_dropLast
  have hshort := h.short
  have hnew : ¬ IsNewline 8 := by decide
  have hkeep : (readByte s 8) = { s with pos := s.pos-1 } := by
    unfold readByte
    rw [if_neg hnew, if_pos rfl]
    have hlt : s.pos - 1 < 127 := by
      rw [h.pos]
      omega
    by_cases hpos : s.pos > 0
    · simp only [if_pos hpos, if_pos hlt]
    · have hzero : s.pos = 0 := by omega
      cases s
      obtain rfl : _ = 0 := hzero
      rfl
  rw [hkeep]
  unfold Editor.step
  rw [if_neg hnew, edit_backspace, if_pos (by omega)]
  refine ⟨h.line, ?_, by simp only; omega, fun h0 => h.plain (List.mem_of_mem_dropLast h0), fun i hi => ?_, h.lastByte, h.sent⟩
  · simp only [h.pos, hdrop]
  · simp only at hi
    have hlt : i < e.cur.length := by omega
    rw [List.getD_eq_getElem _ _ hi, List.getElem_dropLast, ← List.getD_eq_getElem _ 0 hlt]
    exact h.bytes i hlt

theorem char_follows (h : Follows spare s e) (hnew : ¬ IsNewline c) (hc : c ≠ 8) (h0 : c ≠ 0) :
    Follows spare (readByte s c) (e.step c) := by
  have hlen : (e.cur ++ [c]).length = e.cur.length + 1 := by rw [List.length_append, List.length_singleton]
  have hlast : Function.update s.cmd s.pos c 127 = spare := by
    have hshort := h.short
    rw [Function.update_of_ne (by rw [h.pos]; omega)]
    exact h.lastByte
  have hplain : (0 : UInt8) ∉ e.cur ++ [c] := edit_char hc ▸ edit_plain h.plain h0
  unfold readByte Editor.step
  rw [if_neg hnew, if_neg hnew, if_neg hc, edit_char hc]
  by_cases hlt : e.cur.length + 1 < 127
  · have hpos : s.pos + 1 < 127 := h.pos.symm ▸ hlt
    simp only [if_pos hpos, if_pos (hlen.symm ▸ hlt : (e.cur ++ [c]).length < 127)]
    exact ⟨h.line, by rw [h.pos, hlen], by rw [hlen]; exact hlt, hplain, fun i hi => char_bytes h c hi, hlast, h.sent⟩
  · have hpos : ¬ s.pos + 1 < 127 := h.pos.symm ▸ hlt
    have h127 : e.cur.length + 1 = 127 := by
      have hshort := h.short
      omega
    simp only [if_neg hpos, if_neg (hlen.symm ▸ hlt : ¬ (e.cur ++ [c]).length < 127), leaveLoop, if_neg (Nat.succ_ne_zero _)]
    have hcarry : Carries spare (Function.update s.cmd s.pos c) ⟨e.cur ++ [c], true⟩ :=
      { plain := hplain
        short := by
          rw [hlen]
          exact h127.le
        bytes := fun i hi => char_bytes h c hi
        stop := by
          rw [hlen, h127]
          exact hlast
        full := fun _ => hlen.trans h127 }
    exact ⟨h.line, rfl, Nat.succ_pos _, List.not_mem_nil, fun i hi => absurd hi (Nat.not_lt_zero i), hlast, sent_snoc h hcarry⟩

/-- One byte in the shell is one byte in the editor. -/
theorem step_follows (h : Follows spare s e) (h0 : c ≠ 0) : Follows spare (readByte s c) (e.step c) := by
  by_cases hnew : IsNewline c
  · exact newline_follows h hnew
  · by_cases hc : c = 8
    · exact hc ▸ backspace_follows h
    · exact char_follows h hnew hc h0

theorem run_follows {bytes : List UInt8} (h : Follows spare s e) (h0 : (0 : UInt8) ∉ bytes) :
    Follows spare (bytes.foldl readByte s) (bytes.foldl Editor.step e) := by
  induction bytes generalizing s e with
  | nil => exact h
  | cons c bytes ih =>
    obtain ⟨hc, hrest⟩ := List.ne_and_not_mem_of_not_mem_cons h0
    exact ih (step_follows h hc.symm) hrest

end Steps

/-! ## Where the buffer is full -/

section Fullness

variable {cur u v w : List UInt8} {c : UInt8}

/-- `Short` for a line that begins with `cur`. -/
def ShortFrom (cur w : List UInt8) : Prop := ∀ u, u <+: w → (u.foldl edit cur).length < 127

/-- `Fills` for a line that begins with `cur`. -/
def FillsFrom (cur u : List UInt8) : Prop :=
  (u.foldl edit cur).length = 127 ∧ ∀ v, v <+: u → v ≠ u → (v.foldl edit cur).length < 127

theorem shortFrom_cons : ShortFrom cur (c::w) ↔ cur.length < 127 ∧ ShortFrom (edit cur c) w := by
  constructor
  · exact fun h => ⟨h [] List.nil_prefix, fun u hu => h (c::u) ((List.prefix_cons_inj c).mpr hu)⟩
  · rintro ⟨h0, h⟩ u hu
    rcases List.prefix_cons_iff.mp hu with rfl | ⟨t, rfl, ht⟩
    · exact h0
    · exact h t ht

theorem fillsFrom_cons : FillsFrom cur (c::w) ↔ cur.length < 127 ∧ FillsFrom (edit cur c) w := by
  constructor
  · rintro ⟨h127, h⟩
    refine ⟨h [] List.nil_prefix (List.cons_ne_nil c w).symm, h127, fun u hu hne => ?_⟩
    exact h (c::u) ((List.prefix_cons_inj c).mpr hu) (fun he => hne (List.cons.inj he).2)
  · rintro ⟨h0, h127, h⟩
    refine ⟨h127, fun u hu hne => ?_⟩
    rcases List.prefix_cons_iff.mp hu with rfl | ⟨t, rfl, ht⟩
    · exact h0
    · exact h t ht (fun he => hne (congrArg (c :: ·) he))

theorem fulls_next (h : (edit cur c).length < 127) : fulls cur (c::w) = fulls (edit cur c) w := by rw [fulls, if_pos h]

theorem fulls_full (h : ¬ (edit cur c).length < 127) :
    fulls cur (c::w) = (edit cur c :: (fulls [] w).1, (fulls [] w).2) := by rw [fulls, if_neg h]

theorem fulls_short (h : ShortFrom cur w) : fulls cur w = ([], w.foldl edit cur) := by
  induction w generalizing cur with
  | nil => rfl
  | cons c w ih =>
    obtain ⟨-, hrest⟩ := shortFrom_cons.mp h
    rw [fulls_next (hrest [] List.nil_prefix), ih hrest]
    rfl

theorem fulls_fills (h : FillsFrom cur u) (hcur : cur.length < 127) :
    fulls cur (u++v) = (u.foldl edit cur :: (fulls [] v).1, (fulls [] v).2) := by
  induction u generalizing cur with
  | nil => exact absurd h.1 hcur.ne
  | cons c u ih =>
    obtain ⟨-, hrest⟩ := fillsFrom_cons.mp h
    rw [List.cons_append]
    by_cases hlt : (edit cur c).length < 127
    · rw [fulls_next hlt, ih hrest hlt]
      rfl
    · have hnil : u = [] := by
        by_contra hne
        exact hlt (hrest.2 [] List.nil_prefix (Ne.symm hne))
      rw [fulls_full hlt, hnil]
      rfl

/-- A line stays short or has a first place where its text fills the buffer. -/
theorem short_or_fills (hcur : cur.length < 127) : ShortFrom cur w ∨ ∃ u v, w = u ++ v ∧ FillsFrom cur u := by
  induction w generalizing cur with
  | nil => exact .inl (fun u hu => List.prefix_nil.mp hu ▸ hcur)
  | cons c w ih =>
    by_cases hlt : (edit cur c).length < 127
    · rcases ih hlt with h | ⟨u, v, rfl, h⟩
      · exact .inl (shortFrom_cons.mpr ⟨hcur, h⟩)
      · exact .inr ⟨c::u, v, rfl, fillsFrom_cons.mpr ⟨hcur, h⟩⟩
    · have h127 : (edit cur c).length = 127 := by
        have hle := @edit_length_le c cur
        omega
      refine .inr ⟨[c], w, rfl, fillsFrom_cons.mpr ⟨hcur, h127, fun v hv hne => ?_⟩⟩
      exact absurd (List.prefix_nil.mp hv) hne

theorem fills_not_short (h : Fills u) : ¬ Short (u++v) := fun hs => (hs u (List.prefix_append u v)).ne h.1

/-- The place is the only one. -/
theorem fills_unique {u' v' : List UInt8} (h : Fills u) (h' : Fills u') (he : u ++ v = u' ++ v') : u = u' ∧ v = v' := by
  have hu : u = u' := by
    by_contra hne
    rcases List.prefix_or_prefix_of_prefix (List.prefix_append u v) (he ▸ List.prefix_append u' v') with hp | hp
    · exact (h'.2 u hp hne).ne h.1
    · exact (h.2 u' hp (Ne.symm hne)).ne h'.1
  subst hu
  exact ⟨rfl, List.append_cancel_left he⟩

end Fullness

/-! ## One line -/

section OneLine

variable {spare : UInt8} {ended : Prop} [Decidable ended] {u v w : List UInt8}

/-- What is sent for a line is its text, terminated, and at most once. -/
structure LineRight (spare : UInt8) (ended : Prop) [Decidable ended] (w : List UInt8) : Prop where
  texts : ∀ t ∈ sentFrom [] ended w, t.text = edited w ∧ (t.full = true → spare = 0)
  once : (sentFrom [] ended w).length ≤ 1

theorem sentFrom_short (h : Short w) :
    sentFrom [] ended w = if ended ∧ edited w ≠ [] then [⟨edited w, false⟩] else [] := by
  unfold sentFrom
  rw [fulls_short h]
  rfl

theorem sentFrom_fills (h : Fills u) : sentFrom [] ended (u++v) = ⟨edited u, true⟩ :: sentFrom [] ended v := by
  unfold sentFrom
  rw [fulls_fills h (Nat.succ_pos _)]
  rfl

theorem sentFrom_empty : sentFrom [] ended v = [] ↔ Short v ∧ (ended → edited v = []) := by
  constructor
  · intro h
    rcases @short_or_fills [] v (Nat.succ_pos _) with hs | ⟨u, v', rfl, hf⟩
    · rw [sentFrom_short hs] at h
      refine ⟨hs, fun he => ?_⟩
      by_contra hne
      rw [if_pos ⟨he, hne⟩] at h
      cases h
    · rw [sentFrom_fills hf] at h
      cases h
  · rintro ⟨hs, he⟩
    rw [sentFrom_short hs, if_neg (fun hne => hne.2 (he hne.1))]

theorem lineRight_short (h : Short w) : LineRight spare ended w := by
  have hsent := @sentFrom_short ended _ w h
  by_cases he : ended ∧ edited w ≠ []
  · rw [if_pos he] at hsent
    refine ⟨fun t ht => ?_, ?_⟩
    · rw [hsent] at ht
      obtain rfl := List.mem_singleton.mp ht
      exact ⟨rfl, fun hfull => by cases hfull⟩
    · rw [hsent]
      exact le_rfl
  · rw [if_neg he] at hsent
    refine ⟨fun t ht => ?_, ?_⟩
    · rw [hsent] at ht
      cases ht
    · rw [hsent]
      exact Nat.zero_le 1

theorem lineRight_fills (h : Fills u) :
    LineRight spare ended (u++v) ↔ spare = 0 ∧ edited (u++v) = edited u ∧ Short v ∧ (ended → edited v = []) := by
  have hsent := @sentFrom_fills ended _ u v h
  rw [← @sentFrom_empty ended]
  constructor
  · rintro ⟨htexts, honce⟩
    obtain ⟨htext, hspare⟩ := htexts ⟨edited u, true⟩ (hsent ▸ List.mem_cons_self)
    rw [hsent, List.length_cons] at honce
    exact ⟨hspare rfl, htext.symm, List.length_eq_zero_iff.mp (Nat.le_zero.mp (Nat.le_of_succ_le_succ honce))⟩
  · rintro ⟨hspare, htext, hrest⟩
    rw [hrest] at hsent
    refine ⟨fun t ht => ?_, ?_⟩
    · rw [hsent] at ht
      obtain rfl := List.mem_singleton.mp ht
      exact ⟨htext.symm, fun _ => hspare⟩
    · rw [hsent]
      exact le_rfl

theorem line_fits_iff {cmd : Buffer} : LineRight (cmd 127) ended w ↔ LineFits cmd ended w := by
  rcases @short_or_fills [] w (Nat.succ_pos _) with hs | ⟨u, v, rfl, hf⟩
  · exact iff_of_true (lineRight_short hs) (.inl hs)
  · rw [lineRight_fills hf]
    constructor
    · rintro ⟨hspare, htext, hv, he⟩
      exact .inr ⟨hspare, u, v, rfl, hf, htext, hv, he⟩
    · rintro (hs | ⟨hspare, u', v', heq, hf', htext, hv, he⟩)
      · exact absurd hs (fills_not_short hf)
      · obtain ⟨rfl, rfl⟩ := fills_unique hf hf' heq
        exact ⟨hspare, htext, hv, he⟩

end OneLine

/-! ## All lines -/

section AllLines

variable {spare : UInt8} {w : List UInt8} {ws : List (List UInt8)} {bytes : List UInt8} {i j k : ℕ} {t : Sent} {e : Editor}

/-- What the editor sends from a state in which the first line has begun. -/
def sentRun (e : Editor) : List (List UInt8) → List (ℕ × Sent)
  | [] => []
  | w::ws => (sentFrom e.cur (ws ≠ []) w).map (Prod.mk e.line) ++ sentLines (e.line+1) ws

theorem lines_newline {c : UInt8} (h : IsNewline c) : lines (c::bytes) = [] :: lines bytes := by
  unfold lines
  rw [List.splitOnP_cons_eq_if_modifyHead, if_pos (decide_eq_true h)]

theorem lines_char {c : UInt8} (h : ¬ IsNewline c) (hlines : lines bytes = w::ws) : lines (c::bytes) = (c::w)::ws := by
  unfold lines at hlines ⊢
  rw [List.splitOnP_cons_eq_if_modifyHead, if_neg (by rw [decide_eq_true_eq]; exact h), hlines]
  rfl

theorem lines_cons (bytes : List UInt8) : ∃ w ws, lines bytes = w::ws :=
  List.exists_cons_of_ne_nil (List.splitOnP_ne_nil _ bytes)

theorem sentLines_run (h : e.cur = []) : sentRun e ws = sentLines e.line ws := by
  cases ws with
  | nil => rfl
  | cons w ws =>
    rw [sentRun, h]
    rfl

theorem run_sent (e : Editor) (bytes : List UInt8) :
    (bytes.foldl Editor.step e).sent = e.sent ++ sentRun e (lines bytes) := by
  induction bytes generalizing e with
  | nil => exact (List.append_nil e.sent).symm
  | cons c bytes ih =>
    rw [List.foldl_cons, ih]
    obtain ⟨w, ws, hlines⟩ := lines_cons bytes
    unfold Editor.step
    by_cases hnew : IsNewline c
    · have hne : lines bytes ≠ [] := hlines ▸ List.cons_ne_nil w ws
      rw [if_pos hnew, sentLines_run rfl, lines_newline hnew, sentRun, sentFrom, fulls]
      by_cases hcur : e.cur = []
      · have hnot : ¬ (lines bytes ≠ [] ∧ e.cur ≠ []) := fun h => h.2 hcur
        simp only [if_pos hcur, if_neg hnot, List.map_nil, List.nil_append]
      · have hboth : lines bytes ≠ [] ∧ e.cur ≠ [] := ⟨hne, hcur⟩
        simp only [if_neg hcur, if_pos hboth, List.map_nil, List.nil_append, List.append_assoc, List.map_cons]
    · rw [if_neg hnew, hlines, lines_char hnew hlines]
      simp only [sentRun, sentFrom]
      by_cases hlt : (edit e.cur c).length < 127
      · rw [if_pos hlt, fulls_next hlt]
      · rw [if_neg hlt, fulls_full hlt]
        simp only [List.append_assoc, List.map_cons, List.cons_append, List.nil_append]

theorem sentFrom_ended : sentFrom [] (ws ≠ []) w = sentFrom [] (0+1 < (w::ws).length) w := by
  have hiff : ws ≠ [] ↔ 0+1 < (w::ws).length := by
    rw [List.length_cons, Nat.add_lt_add_iff_right, List.length_pos_iff]
  simp only [sentFrom, hiff]

theorem mem_sentLines :
    (k, t) ∈ sentLines i ws ↔ ∃ j w, ws[j]? = some w ∧ k = i + j ∧ t ∈ sentFrom [] (j+1 < ws.length) w := by
  induction ws generalizing i with
  | nil =>
    constructor
    · intro h
      cases h
    · rintro ⟨j, w, hw, -⟩
      cases hw
  | cons w ws ih =>
    rw [sentLines, List.mem_append, sentFrom_ended, ih]
    constructor
    · rintro (h | ⟨j, w', hw, rfl, ht⟩)
      · obtain ⟨t', ht, he⟩ := List.mem_map.mp h
        obtain ⟨rfl, rfl⟩ := Prod.mk.inj he
        exact ⟨0, w, rfl, rfl, ht⟩
      · refine ⟨j+1, w', hw, by omega, ?_⟩
        simpa only [List.length_cons, Nat.add_lt_add_iff_right] using ht
    · rintro ⟨j, w', hw, rfl, ht⟩
      cases j with
      | zero =>
        obtain rfl := Option.some.inj hw
        exact .inl (List.mem_map.mpr ⟨t, ht, rfl⟩)
      | succ j =>
        refine .inr ⟨j, w', hw, by omega, ?_⟩
        simpa only [List.length_cons, Nat.add_lt_add_iff_right] using ht

/-- No number stands twice when no line sends twice. -/
theorem sentLines_nodup : ((sentLines i ws).map Prod.fst).Nodup ↔
    ∀ j w, ws[j]? = some w → (sentFrom [] (j+1 < ws.length) w).length ≤ 1 := by
  induction ws generalizing i with
  | nil => exact iff_of_true List.nodup_nil (fun j w hw => by cases hw)
  | cons w ws ih =>
    have hhead : ((sentFrom [] (0+1 < (w::ws).length) w).map (Prod.mk i)).map Prod.fst =
        List.replicate (sentFrom [] (0+1 < (w::ws).length) w).length i := by
      rw [List.map_map]
      exact List.map_const'
    have happart : ∀ a ∈ List.replicate (sentFrom [] (0+1 < (w::ws).length) w).length i,
        ∀ b ∈ (sentLines (i+1) ws).map Prod.fst, a ≠ b := by
      rintro a ha b hb rfl
      obtain ⟨⟨k, t⟩, hmem, hk⟩ := List.mem_map.mp hb
      obtain ⟨j, w', -, hkj, -⟩ := mem_sentLines.mp hmem
      have hai := List.eq_of_mem_replicate ha
      simp only at hk
      omega
    rw [sentLines, sentFrom_ended, List.map_append, hhead, List.nodup_append, List.nodup_replicate, ih]
    constructor
    · rintro ⟨hw, hws, -⟩ j w' hj
      cases j with
      | zero =>
        obtain rfl := Option.some.inj hj
        exact hw
      | succ j => simpa only [List.length_cons, Nat.add_lt_add_iff_right] using hws j w' hj
    · intro h
      refine ⟨h 0 w rfl, fun j w' hj => ?_, happart⟩
      simpa only [List.length_cons, Nat.add_lt_add_iff_right] using h (j+1) w' hj

end AllLines

section Shells

variable {cmd : Buffer} {keys bytes : List UInt8} {s : Shell} {e : Editor} {spare : UInt8}

theorem commands_numbers (h : Follows spare s e) : s.commands.map Prod.fst = e.sent.map Prod.fst := by
  rw [← List.forall₂_eq_eq_eq, List.forall₂_map_left_iff, List.forall₂_map_right_iff]
  exact h.sent.imp (fun _ _ hab => hab.1)

theorem commands_iff {A : ℕ × Buffer → Prop} {B : ℕ × Sent → Prop} (h : Follows spare s e)
    (hiff : ∀ c t, c.1 = t.1 ∧ Carries spare c.2 t.2 → (A c ↔ B t)) : (∀ c ∈ s.commands, A c) ↔ ∀ t ∈ e.sent, B t := by
  have hsent := h.sent
  generalize s.commands = commands at hsent ⊢
  generalize e.sent = sent at hsent ⊢
  induction hsent with
  | nil => exact iff_of_true (fun c hc => by cases hc) (fun t ht => by cases ht)
  | cons hab _ ih =>
    rw [List.forall_mem_cons, List.forall_mem_cons]
    exact and_congr (hiff _ _ hab) ih

theorem started_follows (cmd : Buffer) : Follows (cmd 127) (started cmd) ⟨0, [], []⟩ :=
  ⟨rfl, rfl, Nat.succ_pos _, List.not_mem_nil, fun i hi => absurd hi (Nat.not_lt_zero i), rfl, .nil⟩

theorem zero_not_delivered (keys : List UInt8) : (0 : UInt8) ∉ delivered keys := by
  intro h
  obtain ⟨key, -, hkey⟩ := List.mem_filterMap.mp h
  unfold sysRead at hkey
  split_ifs at hkey with h0
  exact h0 (Option.some.inj hkey)

/-- What the shell has sent after some bytes is right exactly when each of its lines is. -/
theorem linesRight_iff (h : Follows spare s e) (hsent : e.sent = sentLines 0 (lines bytes)) :
    LinesRight s bytes ↔ ∀ i w, (lines bytes)[i]? = some w → LineRight spare (i+1 < (lines bytes).length) w := by
  have htexts : (∀ c ∈ s.commands, ∃ w, (lines bytes)[c.1]? = some w ∧ Terminated c.2 (edited w)) ↔
      ∀ t ∈ e.sent, ∃ w, (lines bytes)[t.1]? = some w ∧ edited w = t.2.text ∧ (t.2.full = true → spare = 0) :=
    commands_iff h (fun c t hct => by
      rw [hct.1]
      exact exists_congr (fun w => and_congr_right (fun _ => carries_terminated hct.2)))
  have honce : (s.commands.map Prod.fst).Nodup ↔
      ∀ j w, (lines bytes)[j]? = some w → (sentFrom [] (j+1 < (lines bytes).length) w).length ≤ 1 := by
    rw [commands_numbers h, hsent]
    exact sentLines_nodup
  constructor
  · rintro ⟨htext, hnodup⟩ i w hw
    refine ⟨fun t ht => ?_, honce.mp hnodup i w hw⟩
    have hmem : (i, t) ∈ e.sent := hsent ▸ mem_sentLines.mpr ⟨i, w, hw, (Nat.zero_add i).symm, ht⟩
    obtain ⟨w', hw', heq, hspare⟩ := htexts.mp (fun c hc => htext c.1 c.2 hc) (i, t) hmem
    obtain rfl := Option.some.inj (hw'.symm.trans hw)
    exact ⟨heq.symm, hspare⟩
  · intro hright
    refine ⟨fun i cmd hmem => ?_, honce.mpr (fun j w hw => (hright j w hw).once)⟩
    refine htexts.mpr (fun t ht => ?_) (i, cmd) hmem
    obtain ⟨j, w, hw, hj, hin⟩ := mem_sentLines.mp (show (t.1, t.2) ∈ sentLines 0 (lines bytes) from hsent ▸ ht)
    obtain ⟨heq, hspare⟩ := (hright j w hw).texts t.2 hin
    rw [Nat.zero_add] at hj
    exact ⟨w, hj ▸ hw, heq.symm, hspare⟩

theorem linesRight_start (cmd : Buffer) (keys : List UInt8) : LinesRight (start cmd keys) (delivered keys) ↔
    ∀ i w, (lines (delivered keys))[i]? = some w → LineRight (cmd 127) (i+1 < (lines (delivered keys)).length) w := by
  have hsent := run_sent ⟨0, [], []⟩ (delivered keys)
  rw [sentLines_run rfl, List.nil_append] at hsent
  exact linesRight_iff (run_follows (started_follows cmd) (zero_not_delivered keys)) hsent

/-- The commands are the lines exactly when every line stays under 127 bytes, or fills the buffer once with all
of its text while the byte behind it is a NUL already. -/
theorem commands_lines_iff (cmd : Buffer) (keys : List UInt8) : LinesRight (start cmd keys) (delivered keys) ↔
    ∀ i w, (lines (delivered keys))[i]? = some w → LineFits cmd (i+1 < (lines (delivered keys)).length) w := by
  rw [linesRight_start]
  exact forall_congr' (fun i => forall_congr' (fun w => imp_congr_right (fun _ => line_fits_iff)))

/-- A stack without a NUL behind the buffer and 127 letters. -/
theorem full_line_unterminated :
    ¬ LinesRight (start (fun _ => 1) (List.replicate 127 97)) (delivered (List.replicate 127 97)) := by
  rw [linesRight_start]
  intro h
  have hline : (lines (delivered (List.replicate 127 97)))[0]? = some (List.replicate 127 97) := by decide +kernel
  have hsent : ⟨List.replicate 127 97, true⟩ ∈ sentFrom [] (0+1 < (lines (delivered (List.replicate 127 97))).length)
      (List.replicate 127 97) := by decide +kernel
  have hzero := ((h 0 _ hline).texts _ hsent).2 rfl
  cases hzero

end Shells

end Dionnex.UserShell
