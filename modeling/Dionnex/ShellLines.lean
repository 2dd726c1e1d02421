import Dionnex.StringBuffers

/-!
# The shell's line editor

`shell_run` collects the bytes from the keyboard in a buffer of 256 bytes
that it shares with the executor. Only the first `cmd_pos` bytes count, so
the executor may leave anything in it.
-/

set_option autoImplicit false

namespace Dionnex.ShellLines
open StringBuffers

/-- For the record `calls` lists the buffers that `shell_exec` was called with, and `screen` the characters that the
editor has put on the screen itself. -/
structure Shell where
  cmdBuf : Buffer
  cmdPos : ℕ
  calls : List Buffer
  screen : List UInt8

/-- `shell_run` before its loop. -/
def started (buf : Buffer) : Shell := ⟨buf, 0, [], []⟩

/-- One round of the loop. What the executor does to the buffer may be anything at each call. -/
def round (exec : ℕ → Buffer → Buffer) (s : Shell) (c : UInt8) : Shell :=
  if c = 10 then
    let buf := Function.update s.cmdBuf s.cmdPos 0
    ⟨exec s.calls.length buf, 0, s.calls ++ [buf], s.screen ++ [10]⟩
  else if c = 8 then
    if s.cmdPos > 0 then { s with cmdPos := s.cmdPos-1, screen := s.screen ++ [8] } else s
  else if 32 ≤ c ∧ c < 127 then
    if s.cmdPos < 255 then
      { s with
        cmdBuf := Function.update s.cmdBuf s.cmdPos c
        cmdPos := s.cmdPos+1
        screen := s.screen ++ [c] }
    else s
  else s

def shellRun (exec : ℕ → Buffer → Buffer) (buf : Buffer) (bytes : List UInt8) : Shell :=
  bytes.foldl (round exec) (started buf)

/-! ## Lines -/

/-- A line after one more byte that does not end it. -/
def edited (line : List UInt8) (c : UInt8) : List UInt8 :=
  if c = 8 then line.dropLast
  else if 32 ≤ c ∧ c ≤ 126 ∧ line.length < 255 then line ++ [c]
  else line

/-- The lines that have been ended, and the one that has not. -/
def typed (ls : List (List UInt8) × List UInt8) (c : UInt8) : List (List UInt8) × List UInt8 :=
  if c = 10 then (ls.1 ++ [ls.2], []) else (ls.1, edited ls.2 c)

def lines (bytes : List UInt8) : List (List UInt8) × List UInt8 := bytes.foldl typed ([], [])

/-- The buffer begins with the current line, and each call was given the string of its line. -/
structure Editing (s : Shell) (ls : List (List UInt8) × List UInt8) : Prop where
  calls : List.Forall₂ (fun buf line => Holds buf 0 line) s.calls ls.1
  pos : s.cmdPos = ls.2.length
  short : ls.2.length ≤ 255
  bytes : ∀ i < ls.2.length, s.cmdBuf i = ls.2.getD i 0
  plain : (0 : UInt8) ∉ ls.2

section Runs

variable {exec : ℕ → Buffer → Buffer} {s : Shell} {ls : List (List UInt8) × List UInt8}

theorem editing_holds (h : Editing s ls) : Holds (Function.update s.cmdBuf s.cmdPos 0) 0 ls.2 := by
  refine ⟨h.plain, fun i hi => ?_⟩
  rw [Nat.zero_add, h.pos]
  rcases Nat.eq_or_lt_of_le hi with rfl | hlt
  · rw [Function.update_self, List.getD_eq_default _ _ le_rfl]
  · rw [Function.update_of_ne (Nat.ne_of_lt hlt), h.bytes i hlt]

/-- The line without its last byte is still there. -/
theorem bytes_dropLast {buf : Buffer} {l : List UInt8} (h : ∀ i < l.length, buf i = l.getD i 0) :
    ∀ i < l.dropLast.length, buf i = l.dropLast.getD i 0 := by
  intro i hi
  rw [List.length_dropLast] at hi
  have hbyte := h i (by omega)
  rw [List.getD_eq_getElem _ _ (by omega)] at hbyte
  rw [List.getD_eq_getElem _ _ (by rw [List.length_dropLast]; omega), List.getElem_dropLast]
  exact hbyte

/-- A byte stored behind the line makes it longer. -/
theorem bytes_append {buf : Buffer} {l : List UInt8} (h : ∀ i < l.length, buf i = l.getD i 0) (c : UInt8) :
    ∀ i < (l++[c]).length, Function.update buf l.length c i = (l++[c]).getD i 0 := by
  intro i hi
  rw [List.length_append, List.length_singleton] at hi
  by_cases hlast : i = l.length
  · rw [hlast, Function.update_self]
    simp
  · rw [Function.update_of_ne hlast, h i (by omega), List.getD_append _ _ _ _ (by omega)]

theorem round_editing (h : Editing s ls) (c : UInt8) : Editing (round exec s c) (typed ls c) := by
  have hpos := h.pos
  have hshort := h.short
  unfold round typed
  by_cases hnl : c = 10
  · rw [if_pos hnl, if_pos hnl]
    have hcalls : List.Forall₂ (fun buf line => Holds buf 0 line)
        (s.calls ++ [Function.update s.cmdBuf s.cmdPos 0]) (ls.1 ++ [ls.2]) :=
      List.rel_append h.calls (List.Forall₂.cons (editing_holds h) List.Forall₂.nil)
    exact ⟨hcalls, rfl, Nat.zero_le 255, fun i hi => absurd hi (Nat.not_lt_zero i), List.not_mem_nil⟩
  rw [if_neg hnl, if_neg hnl, edited]
  by_cases hbs : c = 8
  · rw [if_pos hbs, if_pos hbs]
    by_cases hany : s.cmdPos > 0
    · rw [if_pos hany]
      refine ⟨h.calls, ?_, ?_, bytes_dropLast h.bytes, fun h0 => h.plain (List.mem_of_mem_dropLast h0)⟩
      · rw [List.length_dropLast, hpos]
      · rw [List.length_dropLast]
        omega
    · have hempty : ls.2 = [] := List.length_eq_zero_iff.mp (by omega)
      rw [if_neg hany, hempty]
      exact ⟨h.calls, by rw [hpos, hempty]; rfl, Nat.zero_le 255, fun i hi => absurd hi (Nat.not_lt_zero i),
        List.not_mem_nil⟩
  rw [if_neg hbs, if_neg hbs]
  by_cases hchar : 32 ≤ c ∧ c < 127
  · have hchar' : 32 ≤ c ∧ c ≤ 126 := by
      rw [UInt8.le_iff_toNat_le, UInt8.le_iff_toNat_le]
      rw [UInt8.le_iff_toNat_le, UInt8.lt_iff_toNat_lt] at hchar
      exact ⟨hchar.1, Nat.lt_succ_iff.mp hchar.2⟩
    rw [if_pos hchar]
    by_cases hroom : s.cmdPos < 255
    · rw [if_pos hroom, if_pos ⟨hchar'.1, hchar'.2, by omega⟩]
      have hbytes := bytes_append h.bytes c
      rw [← hpos] at hbytes
      refine ⟨h.calls, ?_, ?_, hbytes, ?_⟩
      · rw [List.length_append, List.length_singleton, hpos]
      · rw [List.length_append, List.length_singleton]
        omega
      · intro h0
        rcases List.mem_append.mp h0 with h0 | h0
        · exact h.plain h0
        · rw [← List.mem_singleton.mp h0] at hchar
          exact absurd hchar.1 (by decide)
    · rw [if_neg hroom, if_neg (fun hr => hroom (by omega))]
      exact h
  · rw [if_neg hchar]
    rw [if_neg (fun hr => hchar ⟨hr.1, by
      rw [UInt8.lt_iff_toNat_lt]
      exact Nat.lt_succ_iff.mpr (UInt8.le_iff_toNat_le.mp hr.2.1)⟩)]
    exact h

/-- The executor is called with the lines as they were edited, whatever it does to the buffer, and the editor never
gets past the end of the buffer. -/
theorem shell_lines (exec : ℕ → Buffer → Buffer) (buf : Buffer) (bytes : List UInt8) :
    List.Forall₂ (fun b line => Holds b 0 line) (shellRun exec buf bytes).calls (lines bytes).1 ∧
      (shellRun exec buf bytes).cmdPos ≤ 255 := by
  have hrun : ∀ s ls, Editing s ls → Editing (bytes.foldl (round exec) s) (bytes.foldl typed ls) := by
    induction bytes with
    | nil => exact fun _ _ h => h
    | cons c bytes ih => exact fun s ls h => ih _ _ (round_editing h c)
  have hstart : Editing (started buf) ([], []) :=
    ⟨List.Forall₂.nil, rfl, Nat.zero_le 255, fun i hi => absurd hi (Nat.not_lt_zero i), List.not_mem_nil⟩
  have hend := hrun _ _ hstart
  exact ⟨hend.calls, hend.pos ▸ hend.short⟩

/-- The second line does not see what the first has left. -/
example : lines [97, 98, 8, 10, 99, 200, 10] = ([[97], [99]], []) := by decide

end Runs

end Dionnex.ShellLines
