import Dionnex.CircularBuffer
import Dionnex.LabelledRuns

/-!
# The keyboard driver

The interrupt handler translates scancodes and appends to a ring of 256
slots of which one stays empty; `keyboard_read` takes from the other end.
Beside the driver's variables a run records what the handler has accepted
and what the readers have got.
-/

set_option autoImplicit false

namespace Dionnex.Keyboard
open CircularBuffer LabelledRuns

/-- The characters of the keys in ASCII; the rest of the table is zero. -/
def scancodeSet1 : List UInt8 :=
  [0, 27, 49, 50, 51, 52, 53, 54, 55, 56, 57, 48, 45, 61, 8,
    9, 113, 119, 101, 114, 116, 121, 117, 105, 111, 112, 91, 93, 10,
    0, 97, 115, 100, 102, 103, 104, 106, 107, 108, 59, 39, 96,
    0, 92, 122, 120, 99, 118, 98, 110, 109, 44, 46, 47, 0,
    42, 0, 32]

def scancodeSet1Shift : List UInt8 :=
  [0, 27, 33, 64, 35, 36, 37, 94, 38, 42, 40, 41, 95, 43, 8,
    9, 81, 87, 69, 82, 84, 89, 85, 73, 79, 80, 123, 125, 10,
    0, 65, 83, 68, 70, 71, 72, 74, 75, 76, 58, 34, 126,
    0, 124, 90, 88, 67, 86, 66, 78, 77, 60, 62, 63, 0,
    42, 0, 32]

structure Driver where
  buffer : ℕ → UInt8
  head : ℕ
  tail : ℕ
  shiftPressed : Bool
  capsLock : Bool

/-- The static variables before any code runs. -/
def Driver.zero : Driver := ⟨fun _ => 0, 0, 0, false, false⟩

/-- Caps Lock turns letters into those of the other case. -/
def swapCase (c : UInt8) : UInt8 :=
  if 97 ≤ c ∧ c ≤ 122 then c - 97 + 65 else if 65 ≤ c ∧ c ≤ 90 then c - 65 + 97 else c

def keyCharacter (k : Driver) (scancode : UInt8) : UInt8 :=
  if scancode < 128 then
    let c := (if k.shiftPressed then scancodeSet1Shift else scancodeSet1).getD scancode.toNat 0
    if k.capsLock then swapCase c else c
  else 0

def keyboardHandler (k : Driver) (scancode : UInt8) : Driver :=
  if scancode = 0x2A ∨ scancode = 0x36 then { k with shiftPressed := true }
  else if scancode = 0xAA ∨ scancode = 0xB6 then { k with shiftPressed := false }
  else if scancode = 0x3A then { k with capsLock := !k.capsLock }
  else if scancode &&& 0x80 ≠ 0 then k
  else
    let c := keyCharacter k scancode
    if c ≠ 0 then
      let nextHead := (k.head+1) % 256
      if nextHead ≠ k.tail then { k with buffer := Function.update k.buffer k.head c, head := nextHead } else k
    else k

def keyboardHasInput (k : Driver) : Bool := k.head ≠ k.tail

/-- `none` while the reader waits. -/
def keyboardRead (k : Driver) : Option (UInt8 × Driver) :=
  if k.head = k.tail then none
  else some (k.buffer k.tail, { k with tail := (k.tail+1) % 256 })

/-! ## Runs -/

/-- The character that a scancode stands for; the scancodes of modifiers and of releases stand for none. -/
def typed (k : Driver) (scancode : UInt8) : Option UInt8 :=
  if scancode = 0x2A ∨ scancode = 0x36 ∨ scancode = 0xAA ∨ scancode = 0xB6 ∨ scancode = 0x3A ∨
      scancode &&& 0x80 ≠ 0 ∨ keyCharacter k scancode = 0 then none
  else some (keyCharacter k scancode)

/-- The handler has accepted a character when it has moved the head. -/
def accepted (k : Driver) (scancode : UInt8) : Option UInt8 :=
  if (keyboardHandler k scancode).head = k.head then none
  else some ((keyboardHandler k scancode).buffer k.head)

inductive Event where
  | interrupt (scancode : UInt8)
  | read
  | hasInput

structure System where
  keyboard : Driver
  accepted : List UInt8
  got : List UInt8

/-- Reads are made when input is present. -/
def Step (s : System) (e : Event) (t : System) : Prop :=
  match e with
  | .interrupt scancode =>
    t = ⟨keyboardHandler s.keyboard scancode, s.accepted ++ (accepted s.keyboard scancode).toList, s.got⟩
  | .read => ∃ c k, keyboardRead s.keyboard = some (c, k) ∧ t = ⟨k, s.accepted, s.got ++ [c]⟩
  | .hasInput => t = s

def booted : System := ⟨Driver.zero, [], []⟩

def pending (k : Driver) : ℕ := (k.head+256-k.tail) % 256

structure Inv (s : System) : Prop where
  head : s.keyboard.head < 256
  tail : s.keyboard.tail < 256
  waiting : s.accepted = s.got ++ contents s.keyboard.buffer 256 s.keyboard.tail (pending s.keyboard)

/-- The readers have got a prefix of what was accepted, and input is present exactly when something is left. -/
def Faithful (s : System) : Prop :=
  s.got <+: s.accepted ∧ (keyboardHasInput s.keyboard = true ↔ s.got.length < s.accepted.length)

/-- Each character typed is accepted, or 255 accepted ones are still unread. -/
def DropsWhenFull (s : System) (e : Event) (t : System) : Prop :=
  ∀ scancode, e = .interrupt scancode →
    t.accepted = s.accepted ++ (typed s.keyboard scancode).toList ∨
      t.accepted = s.accepted ∧ s.accepted.length = s.got.length + 255

theorem handler_untyped {k : Driver} {scancode : UInt8} (h : typed k scancode = none) :
    (keyboardHandler k scancode).buffer = k.buffer ∧ (keyboardHandler k scancode).head = k.head ∧
      (keyboardHandler k scancode).tail = k.tail := by
  unfold typed at h
  unfold keyboardHandler
  by_cases h1 : scancode = 0x2A ∨ scancode = 0x36
  · simp [h1]
  by_cases h2 : scancode = 0xAA ∨ scancode = 0xB6
  · simp [h1, h2]
  by_cases h3 : scancode = 0x3A
  · simp [h3]
  by_cases h4 : scancode &&& 0x80 ≠ 0
  · simp [h1, h2, h3, h4]
  · have h5 : keyCharacter k scancode = 0 := by
      by_contra h5
      rw [if_neg (by tauto)] at h
      cases h
    simp [h1, h2, h3, h5]

theorem handler_typed {k : Driver} {scancode c : UInt8} (h : typed k scancode = some c) :
    keyboardHandler k scancode =
      if (k.head+1) % 256 ≠ k.tail then
        { k with buffer := Function.update k.buffer k.head c, head := (k.head+1) % 256 }
      else k := by
  unfold typed at h
  split at h
  · cases h
  · rename_i hnone
    obtain rfl := Option.some.inj h
    simp only [not_or] at hnone
    obtain ⟨h1, h2, h3, h4, h5, h6, h7⟩ := hnone
    unfold keyboardHandler
    rw [if_neg (by tauto), if_neg (by tauto), if_neg h5, if_neg h6]
    exact if_pos h7

theorem pending_head {k : Driver} (hh : k.head < 256) (ht : k.tail < 256) :
    k.head = (k.tail + pending k) % 256 := by
  unfold pending
  omega

theorem pending_push {k : Driver} (hh : k.head < 256) (ht : k.tail < 256) (hroom : (k.head+1) % 256 ≠ k.tail) :
    ((k.head+1) % 256 + 256 - k.tail) % 256 = pending k + 1 ∧ pending k < 255 := by
  unfold pending
  omega

theorem pending_full {k : Driver} (hh : k.head < 256) (ht : k.tail < 256) (hfull : (k.head+1) % 256 = k.tail) :
    pending k = 255 := by
  unfold pending
  omega

theorem pending_pop {k : Driver} (hh : k.head < 256) (ht : k.tail < 256) (h : k.head ≠ k.tail) :
    pending k = (k.head + 256 - (k.tail+1) % 256) % 256 + 1 := by
  unfold pending
  omega

theorem Inv.length {s : System} (h : Inv s) : s.accepted.length = s.got.length + pending s.keyboard := by
  rw [h.waiting]
  simp

theorem Inv.faithful {s : System} (h : Inv s) : Faithful s := by
  constructor
  · rw [h.waiting]
    exact List.prefix_append _ _
  · have hlen := h.length
    have hh := h.head
    have ht := h.tail
    unfold pending at hlen
    simp only [keyboardHasInput, decide_eq_true_eq]
    omega

theorem interrupt_inv {s : System} (h : Inv s) (scancode : UInt8) :
    Inv ⟨keyboardHandler s.keyboard scancode, s.accepted ++ (accepted s.keyboard scancode).toList, s.got⟩ ∧
      (s.accepted ++ (accepted s.keyboard scancode).toList =
          s.accepted ++ (typed s.keyboard scancode).toList ∨
        s.accepted ++ (accepted s.keyboard scancode).toList = s.accepted ∧
          s.accepted.length = s.got.length + 255) := by
  obtain ⟨k, taken, got⟩ := s
  have hh : k.head < 256 := h.head
  have ht : k.tail < 256 := h.tail
  have hwait : taken = got ++ contents k.buffer 256 k.tail (pending k) := h.waiting
  dsimp only
  cases hc : typed k scancode with
  | none =>
    obtain ⟨hbuffer, hhead, htail⟩ := handler_untyped hc
    have hacc : accepted k scancode = none := if_pos hhead
    rw [hacc]
    refine ⟨⟨?_, ?_, ?_⟩, Or.inl rfl⟩
    · exact hhead ▸ hh
    · exact htail ▸ ht
    · simpa [pending, hbuffer, hhead, htail] using hwait
  | some c =>
    have hstep := handler_typed hc
    by_cases hroom : (k.head+1) % 256 ≠ k.tail
    · rw [if_pos hroom] at hstep
      obtain ⟨hpush, hlt⟩ := pending_push hh ht hroom
      have hmoved : (k.head+1) % 256 ≠ k.head := by omega
      have hacc : accepted k scancode = some c := by
        rw [accepted, hstep]
        simp [hmoved]
      rw [hacc, hstep]
      refine ⟨⟨?_, ht, ?_⟩, Or.inl rfl⟩
      · exact Nat.mod_lt _ (by decide)
      · have hcontents := @contents_push _ 256 k.tail (pending k) k.buffer c ht (by omega)
        rw [← pending_head hh ht] at hcontents
        change taken ++ [c] = got ++ contents (Function.update k.buffer k.head c) 256 k.tail
          (((k.head+1) % 256 + 256 - k.tail) % 256)
        rw [hpush, hcontents, hwait, List.append_assoc]
    · rw [if_neg hroom] at hstep
      have hacc : accepted k scancode = none := by
        rw [accepted, hstep]
        exact if_pos rfl
      rw [hacc, hstep]
      have hfull := pending_full hh ht (not_not.mp hroom)
      have hlen : taken.length = got.length + pending k := h.length
      refine ⟨?_, Or.inr ⟨List.append_nil _, by omega⟩⟩
      rw [Option.toList_none, List.append_nil]
      exact h

theorem read_inv {s : System} (h : Inv s) {c : UInt8} {k : Driver} (hr : keyboardRead s.keyboard = some (c, k)) :
    Inv ⟨k, s.accepted, s.got ++ [c]⟩ := by
  unfold keyboardRead at hr
  by_cases hempty : s.keyboard.head = s.keyboard.tail
  · rw [if_pos hempty] at hr
    cases hr
  · rw [if_neg hempty] at hr
    obtain ⟨rfl, rfl⟩ := Prod.mk.inj (Option.some.inj hr)
    refine ⟨h.head, Nat.mod_lt _ (by decide), ?_⟩
    have hpop := pending_pop h.head h.tail hempty
    have hwait := h.waiting
    rw [hpop, contents] at hwait
    rw [List.append_assoc]
    exact hwait

theorem step_inv {s t : System} {e : Event} (h : Inv s) (hs : Step s e t) : Inv t ∧ DropsWhenFull s e t := by
  cases e with
  | interrupt scancode =>
    have ht : t = ⟨keyboardHandler s.keyboard scancode,
      s.accepted ++ (accepted s.keyboard scancode).toList, s.got⟩ := hs
    obtain ⟨hinv, hdrop⟩ := interrupt_inv h scancode
    rw [ht]
    refine ⟨hinv, fun code hcode => ?_⟩
    obtain rfl := Event.interrupt.inj hcode
    exact hdrop
  | read =>
    obtain ⟨c, k, hr, ht⟩ := hs
    rw [ht]
    exact ⟨read_inv h hr, nofun⟩
  | hasInput =>
    have ht : t = s := hs
    rw [ht]
    exact ⟨h, nofun⟩

theorem booted_inv : Inv booted := ⟨by decide, by decide, rfl⟩

/-- Along every interleaving the readers get what was accepted, in order, and
a character is lost only when 255 are waiting. -/
theorem keyboard_faithful (tr : List (Event × System)) (hr : Run Step booted tr) :
    Faithful (last booted tr) ∧ Along DropsWhenFull booted tr := by
  constructor
  · have hlast : Inv (last booted tr) :=
      run_last (I := Inv) (fun s e t h hs => (step_inv h hs).1) booted tr booted_inv hr
    exact hlast.faithful
  · have hrun := run_invariant (fun s e t (h : Inv s) hs => step_inv h hs) booted tr booted_inv hr
    exact along_mono (fun s e t h => h.2) booted tr hrun

def advance (s : System) (scancode : UInt8) : System :=
  ⟨keyboardHandler s.keyboard scancode, s.accepted ++ (accepted s.keyboard scancode).toList, s.got⟩

/-- A shifted letter is typed and read. -/
def sampleRun : List (Event × System) :=
  [(.interrupt 0x2A, advance booted 0x2A), (.interrupt 0x1E, advance (advance booted 0x2A) 0x1E),
    (.read, ⟨⟨Function.update (fun _ => 0) 0 65, 1, 1, true, false⟩, [65], [65]⟩)]

theorem keyboard_faithful_sample :
    Faithful (last booted sampleRun) ∧ Along DropsWhenFull booted sampleRun :=
  keyboard_faithful sampleRun ⟨rfl, rfl, ⟨65, _, rfl, rfl⟩, trivial⟩

end Dionnex.Keyboard
