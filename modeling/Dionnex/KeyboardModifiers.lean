import Dionnex.Keyboard
import Mathlib.Data.List.GetD

/-!
# Shift and Caps Lock

The driver looks at single bytes. What they say is told by a decoder of the
scancode set, which knows the prefixed keys from the others and remembers which of the
three keys are down. Every run of the driver carries the decoder beside it.
-/

set_option autoImplicit false

namespace Dionnex.KeyboardModifiers
open Keyboard LabelledRuns

/-! ## The bytes of a keyboard -/

/-- The bytes of a prefixed key that are still to come: one behind `0xE0`, two behind `0xE1`. -/
inductive Prefix where
  | none
  | one
  | two
  deriving DecidableEq

/-- What a keyboard knows of its keys: the three that are watched, and how often Caps Lock has been pressed. -/
structure Keys where
  behind : Prefix
  leftShift : Bool
  rightShift : Bool
  capsKey : Bool
  presses : ℕ
  deriving DecidableEq

def Keys.shift (keys : Keys) : Bool := keys.leftShift || keys.rightShift

/-- A key that is held repeats its make code, which presses nothing. -/
def decode (keys : Keys) (b : UInt8) : Keys :=
  match keys.behind with
  | .two => { keys with behind := .one }
  | .one => { keys with behind := .none }
  | .none =>
    if b = 0xE0 then { keys with behind := .one }
    else if b = 0xE1 then { keys with behind := .two }
    else if b = 0x2A then { keys with leftShift := true }
    else if b = 0xAA then { keys with leftShift := false }
    else if b = 0x36 then { keys with rightShift := true }
    else if b = 0xB6 then { keys with rightShift := false }
    else if b = 0x3A then { keys with capsKey := true, presses := if keys.capsKey then keys.presses else keys.presses+1 }
    else if b = 0xBA then { keys with capsKey := false }
    else keys

inductive Key where
  /-- The codes `0x60` and `0x61` are taken: their release would look like a prefix. -/
  | plain (code : UInt8) (h : code < 0x60)
  | extended (code : UInt8) (h : code < 0x80)
  | pause

/-- A key goes down, or goes on being down, or comes up. -/
structure Action where
  key : Key
  down : Bool

def Action.codes (a : Action) : List UInt8 :=
  match a.key with
  | .plain code _ => [if a.down then code else code + 0x80]
  | .extended code _ => [0xE0, if a.down then code else code + 0x80]
  | .pause => if a.down then [0xE1, 0x1D, 0x45, 0xE1, 0x9D, 0xC5] else []

/-- The three keys after an action. -/
def act (keys : Keys) (a : Action) : Keys :=
  match a.key with
  | .plain code _ =>
    if code = 0x2A then { keys with leftShift := a.down }
    else if code = 0x36 then { keys with rightShift := a.down }
    else if code = 0x3A then
      { keys with
        capsKey := a.down
        presses := if a.down ∧ ¬ keys.capsKey then keys.presses+1 else keys.presses }
    else keys
  | _ => keys

section Codes

variable {keys : Keys}

theorem act_behind (a : Action) : (act keys a).behind = keys.behind := by
  unfold act
  split
  · split_ifs <;> rfl
  · rfl

theorem plain_decode (h : keys.behind = .none) (code : UInt8) (hcode : code < 0x60) (down : Bool) :
    decode keys (if down then code else code + 0x80) = act keys ⟨.plain code hcode, down⟩ := by
  have hup : code + 0x80 ≠ 0xE0 ∧ code + 0x80 ≠ 0xE1 ∧ code + 0x80 ≠ 0x2A ∧ code + 0x80 ≠ 0x36 ∧ code + 0x80 ≠ 0x3A ∧
      (code + 0x80 = 0xAA ↔ code = 0x2A) ∧ (code + 0x80 = 0xB6 ↔ code = 0x36) ∧ (code + 0x80 = 0xBA ↔ code = 0x3A) := by
    simp only [ne_eq, UInt8.lt_iff_toNat_lt, ← UInt8.toNat_inj, UInt8.toNat_add, UInt8.reduceToNat] at hcode ⊢
    omega
  have hdown : code ≠ 0xE0 ∧ code ≠ 0xE1 ∧ code ≠ 0xAA ∧ code ≠ 0xB6 ∧ code ≠ 0xBA := by
    simp only [ne_eq, UInt8.lt_iff_toNat_lt, ← UInt8.toNat_inj, UInt8.reduceToNat] at hcode ⊢
    omega
  obtain ⟨u0, u1, u2, u3, u4, u5, u6, u7⟩ := hup
  obtain ⟨d0, d1, d2, d3, d4⟩ := hdown
  unfold decode act
  cases down with
  | true =>
    simp only [h, if_true, if_neg d0, if_neg d1, if_neg d2, if_neg d3, if_neg d4]
    by_cases hcaps : keys.capsKey <;> simp [hcaps]
  | false =>
    simp only [h, Bool.false_eq_true, if_false, if_neg u0, if_neg u1, if_neg u2, if_neg u3, if_neg u4, u5, u6, u7,
      false_and]

theorem decode_one (h : keys.behind = .one) (b : UInt8) : decode keys b = { keys with behind := .none } := by
  unfold decode
  rw [h]

theorem decode_two (h : keys.behind = .two) (b : UInt8) : decode keys b = { keys with behind := .one } := by
  unfold decode
  rw [h]

theorem decode_extended (h : keys.behind = .none) : decode keys 0xE0 = { keys with behind := .one } := by
  unfold decode
  rw [h]
  rfl

theorem behind_none (h : keys.behind = .none) : { keys with behind := .none } = keys := by
  cases keys
  obtain rfl : _ = Prefix.none := h
  rfl

theorem decode_pause (h : keys.behind = .none) (b c : UInt8) : decode (decode (decode keys 0xE1) b) c = keys := by
  have htwo : decode keys 0xE1 = { keys with behind := .two } := by
    unfold decode
    rw [h]
    rfl
  have hone := @decode_two { keys with behind := .two } rfl b
  rw [htwo, hone, decode_one rfl]
  exact behind_none h

/-- The decoder reads an action off its bytes. -/
theorem action_decode (h : keys.behind = .none) (a : Action) : a.codes.foldl decode keys = act keys a := by
  obtain ⟨key, down⟩ := a
  cases key with
  | plain code hcode => exact plain_decode h code hcode down
  | extended code hcode =>
    change decode (decode keys 0xE0) _ = keys
    rw [decode_extended h, decode_one rfl]
    exact behind_none h
  | pause =>
    cases down with
    | false => rfl
    | true =>
      change decode (decode (decode (decode (decode (decode keys 0xE1) 0x1D) 0x45) 0xE1) 0x9D) 0xC5 = keys
      rw [decode_pause h, decode_pause h]

theorem actions_decode (h : keys.behind = .none) (as : List Action) :
    (as.flatMap Action.codes).foldl decode keys = as.foldl act keys := by
  induction as generalizing keys with
  | nil => rfl
  | cons a as ih =>
    rw [List.flatMap_cons, List.foldl_append, action_decode h, List.foldl_cons]
    exact ih ((act_behind a).trans h)

end Codes

/-! ## The driver beside the decoder -/

structure Machine where
  system : System
  keys : Keys

def Step (m : Machine) (e : Event) (m' : Machine) : Prop :=
  Keyboard.Step m.system e m'.system ∧
    m'.keys = match e with
      | .interrupt scancode => decode m.keys scancode
      | _ => m.keys

def booted : Machine := ⟨Keyboard.booted, ⟨.none, false, false, false, 0⟩⟩

def Upper (c : UInt8) : Prop := 65 ≤ c ∧ c ≤ 90

def Letter (c : UInt8) : Prop := Upper c ∨ (97 ≤ c ∧ c ≤ 122)

instance (c : UInt8) : Decidable (Upper c) := inferInstanceAs (Decidable (_ ∧ _))

instance (c : UInt8) : Decidable (Letter c) := inferInstanceAs (Decidable (_ ∨ _))

/-- The two flags say what the keys say. -/
structure FlagsRight (k : Driver) (keys : Keys) : Prop where
  shift : k.shiftPressed = keys.shift
  caps : k.capsLock = keys.presses.bodd

/-- After a byte the flags are right, and a letter has its case from them. -/
def ByteRight (m : Machine) (e : Event) (m' : Machine) : Prop :=
  ∀ scancode, e = .interrupt scancode → FlagsRight m'.system.keyboard m'.keys ∧
    ∀ c, accepted m.system.keyboard scancode = some c → Letter c →
      (Upper c ↔ xor m'.keys.shift (m'.keys.presses.bodd) = true)

/-- A shift key comes up while the other is up too, Caps Lock goes down and does not repeat, and the byte of a prefixed
key is not one of theirs unless it changes nothing. -/
def ByteFits (keys : Keys) (b : UInt8) : Prop :=
  (keys.behind = .none →
    (b = 0xAA → keys.rightShift = false) ∧ (b = 0xB6 → keys.leftShift = false) ∧ (b = 0x3A → keys.capsKey = false)) ∧
  (keys.behind ≠ .none →
    (b = 0x2A ∨ b = 0x36 → keys.shift = true) ∧ (b = 0xAA ∨ b = 0xB6 → keys.shift = false) ∧ b ≠ 0x3A)

instance (keys : Keys) (b : UInt8) : Decidable (ByteFits keys b) := inferInstanceAs (Decidable (_ ∧ _))

def Fits (m : Machine) (e : Event) (_ : Machine) : Prop := ∀ scancode, e = .interrupt scancode → ByteFits m.keys scancode

section Flags

variable {k : Driver} {keys : Keys} {b c : UInt8}

theorem handler_shift : (keyboardHandler k b).shiftPressed =
    if b = 0x2A ∨ b = 0x36 then true else if b = 0xAA ∨ b = 0xB6 then false else k.shiftPressed := by
  unfold keyboardHandler
  dsimp only
  split_ifs <;> rfl

theorem handler_caps : (keyboardHandler k b).capsLock = if b = 0x3A then !k.capsLock else k.capsLock := by
  unfold keyboardHandler
  by_cases h : b = 0x3A
  · subst h
    rfl
  · rw [if_neg h, if_neg h]
    dsimp only
    split_ifs <;> rfl

/-- A byte that belongs to no key that is watched. -/
theorem decode_other (h1 : b ≠ 0x2A) (h2 : b ≠ 0xAA) (h3 : b ≠ 0x36) (h4 : b ≠ 0xB6) (h5 : b ≠ 0x3A) :
    (decode keys b).shift = keys.shift ∧ (decode keys b).presses = keys.presses := by
  unfold decode
  split
  · exact ⟨rfl, rfl⟩
  · exact ⟨rfl, rfl⟩
  · rw [if_neg h1, if_neg h2, if_neg h3, if_neg h4, if_neg h5]
    split_ifs <;> exact ⟨rfl, rfl⟩

theorem handler_other (h1 : b ≠ 0x2A) (h2 : b ≠ 0xAA) (h3 : b ≠ 0x36) (h4 : b ≠ 0xB6) (h5 : b ≠ 0x3A) :
    (keyboardHandler k b).shiftPressed = k.shiftPressed ∧ (keyboardHandler k b).capsLock = k.capsLock := by
  rw [handler_shift, handler_caps, if_neg (not_or.mpr ⟨h1, h3⟩), if_neg (not_or.mpr ⟨h2, h4⟩), if_neg h5]
  exact ⟨rfl, rfl⟩

theorem fits_other (h1 : b ≠ 0x2A) (h2 : b ≠ 0xAA) (h3 : b ≠ 0x36) (h4 : b ≠ 0xB6) (h5 : b ≠ 0x3A) : ByteFits keys b := by
  constructor
  · exact fun _ => ⟨fun h => absurd h h2, fun h => absurd h h4, fun h => absurd h h5⟩
  · exact fun _ => ⟨fun h => absurd h (not_or.mpr ⟨h1, h3⟩), fun h => absurd h (not_or.mpr ⟨h2, h4⟩), h5⟩

theorem flagsRight_iff : FlagsRight k keys ↔ k.shiftPressed = keys.shift ∧ k.capsLock = keys.presses.bodd :=
  ⟨fun h => ⟨h.shift, h.caps⟩, fun h => ⟨h.1, h.2⟩⟩

theorem shift_iff (h : FlagsRight k keys) (hb : b = 0x2A ∨ b = 0x36 ∨ b = 0xAA ∨ b = 0xB6) :
    FlagsRight (keyboardHandler k b) (decode keys b) ↔ ByteFits keys b := by
  have hcaps := h.caps
  obtain ⟨behind, l, r, capsKey, n⟩ := keys
  rcases hb with rfl | rfl | rfl | rfl
  all_goals
    rw [flagsRight_iff, handler_shift, handler_caps]
    cases behind with
    | none => simp [decode, ByteFits, Keys.shift, hcaps]
    | one => simp [decode, ByteFits, Keys.shift, hcaps]
    | two => simp [decode, ByteFits, Keys.shift, hcaps]

theorem caps_down_iff (h : FlagsRight k keys) : FlagsRight (keyboardHandler k 0x3A) (decode keys 0x3A) ↔ ByteFits keys 0x3A := by
  have hshift := h.shift
  have hcaps := h.caps
  obtain ⟨behind, l, r, capsKey, n⟩ := keys
  rw [flagsRight_iff, handler_shift, handler_caps]
  cases behind with
  | none => cases capsKey <;> simp [decode, ByteFits, Keys.shift, hcaps, hshift]
  | one => simp [decode, ByteFits, Keys.shift, hcaps]
  | two => simp [decode, ByteFits, Keys.shift, hcaps]

/-- Flags that were right stay so exactly when the byte fits. -/
theorem flags_iff (h : FlagsRight k keys) : FlagsRight (keyboardHandler k b) (decode keys b) ↔ ByteFits keys b := by
  by_cases hshift : b = 0x2A ∨ b = 0x36 ∨ b = 0xAA ∨ b = 0xB6
  · exact shift_iff h hshift
  by_cases hcaps : b = 0x3A
  · exact hcaps ▸ caps_down_iff h
  simp only [not_or] at hshift
  obtain ⟨h1, h3, h2, h4⟩ := hshift
  obtain ⟨hs, hc⟩ := @handler_other k b h1 h2 h3 h4 hcaps
  obtain ⟨ks, kc⟩ := @decode_other keys b h1 h2 h3 h4 hcaps
  refine iff_of_true ⟨?_, ?_⟩ (fits_other h1 h2 h3 h4 hcaps)
  · rw [hs, ks, h.shift]
  · rw [hc, kc, h.caps]

/-! ### Letters -/

theorem plain_letters : ∀ c ∈ scancodeSet1, Letter c → ¬ Upper c := by decide +kernel

theorem shifted_letters : ∀ c ∈ scancodeSet1Shift, Letter c → Upper c := by decide +kernel

theorem swapCase_letter : Letter (swapCase c) ↔ Letter c := by
  unfold swapCase Letter Upper
  split_ifs <;> simp only [UInt8.le_iff_toNat_le, UInt8.toNat_add, UInt8.toNat_sub, UInt8.reduceToNat] at * <;> omega

theorem swapCase_upper (h : Letter c) : Upper (swapCase c) ↔ ¬ Upper c := by
  unfold Letter at h
  unfold swapCase
  unfold Upper at *
  split_ifs <;> simp only [UInt8.le_iff_toNat_le, UInt8.toNat_add, UInt8.toNat_sub, UInt8.reduceToNat] at * <;> omega

theorem table_letters {n : ℕ} (shift : Bool) (h : Letter ((if shift then scancodeSet1Shift else scancodeSet1).getD n 0)) :
    Upper ((if shift then scancodeSet1Shift else scancodeSet1).getD n 0) ↔ shift = true := by
  have hmem : ∀ t : List UInt8, Letter (t.getD n 0) → t.getD n 0 ∈ t := by
    intro t hl
    by_cases hn : n < t.length
    · rw [List.getD_eq_getElem _ _ hn]
      exact List.getElem_mem hn
    · rw [List.getD_eq_default _ _ (Nat.not_lt.mp hn)] at hl
      exact absurd hl (by decide)
  cases shift with
  | true => exact iff_of_true (shifted_letters _ (hmem _ h) h) rfl
  | false => exact iff_of_false (plain_letters _ (hmem _ h) h) Bool.false_ne_true

theorem keyCharacter_letter (hl : Letter (keyCharacter k b)) :
    Upper (keyCharacter k b) ↔ xor k.shiftPressed k.capsLock = true := by
  unfold keyCharacter at hl ⊢
  by_cases hb : b < 128
  · rw [if_pos hb] at hl ⊢
    cases hcaps : k.capsLock with
    | true =>
      simp only [hcaps, if_true] at hl ⊢
      rw [swapCase_letter] at hl
      rw [swapCase_upper hl, table_letters _ hl]
      cases k.shiftPressed <;> decide
    | false =>
      simp only [hcaps, Bool.false_eq_true, if_false] at hl ⊢
      rw [table_letters _ hl, Bool.xor_false]
  · rw [if_neg hb] at hl
    exact absurd hl (by decide)

/-- What is accepted is the character of the byte. -/
theorem accepted_character (h : accepted k b = some c) :
    c = keyCharacter k b ∧ (keyboardHandler k b).shiftPressed = k.shiftPressed ∧ (keyboardHandler k b).capsLock = k.capsLock := by
  cases htyped : typed k b with
  | none =>
    obtain ⟨-, hhead, -⟩ := handler_untyped htyped
    rw [accepted, if_pos hhead] at h
    cases h
  | some c' =>
    have hchar : c' = keyCharacter k b := by
      unfold typed at htyped
      split_ifs at htyped
      exact (Option.some.inj htyped).symm
    have hstep := handler_typed htyped
    unfold accepted at h
    by_cases hroom : (k.head+1) % 256 ≠ k.tail
    · rw [if_pos hroom] at hstep
      rw [hstep] at h ⊢
      dsimp only at h
      rw [Function.update_self] at h
      split_ifs at h
      exact ⟨(Option.some.inj h).symm.trans hchar, rfl, rfl⟩
    · rw [if_neg hroom] at hstep
      rw [hstep, if_pos rfl] at h
      cases h

end Flags

section Runs

variable {m m' : Machine} {e : Event} {scancode : UInt8}

def Agrees (m : Machine) : Prop := FlagsRight m.system.keyboard m.keys

theorem interrupt_machine (h : Step m (.interrupt scancode) m') :
    m'.system.keyboard = keyboardHandler m.system.keyboard scancode ∧ m'.keys = decode m.keys scancode := by
  obtain ⟨hsystem, hkeys⟩ := h
  have ht : m'.system = ⟨keyboardHandler m.system.keyboard scancode,
    m.system.accepted ++ (accepted m.system.keyboard scancode).toList, m.system.got⟩ := hsystem
  exact ⟨congrArg System.keyboard ht, hkeys⟩

theorem quiet_machine (h : Step m e m') (he : ∀ scancode, e ≠ .interrupt scancode) (hm : Agrees m) : Agrees m' := by
  obtain ⟨hsystem, hkeys⟩ := h
  cases e with
  | interrupt scancode => exact absurd rfl (he scancode)
  | read =>
    obtain ⟨c, k, hr, ht⟩ := hsystem
    have hk : k.shiftPressed = m.system.keyboard.shiftPressed ∧ k.capsLock = m.system.keyboard.capsLock := by
      unfold keyboardRead at hr
      split_ifs at hr
      obtain ⟨-, rfl⟩ := Prod.mk.inj (Option.some.inj hr)
      exact ⟨rfl, rfl⟩
    have hkeys' : m'.keys = m.keys := hkeys
    unfold Agrees
    rw [ht, hkeys']
    exact ⟨hk.1.trans hm.shift, hk.2.trans hm.caps⟩
  | hasInput =>
    have ht : m'.system = m.system := hsystem
    have hkeys' : m'.keys = m.keys := hkeys
    unfold Agrees
    rw [ht, hkeys']
    exact hm

theorem byte_right_iff (h : Step m (.interrupt scancode) m') (hm : Agrees m) :
    ByteRight m (.interrupt scancode) m' ↔ ByteFits m.keys scancode := by
  obtain ⟨hk, hkeys⟩ := interrupt_machine h
  constructor
  · intro hr
    have hflags := (hr scancode rfl).1
    rw [hk, hkeys] at hflags
    exact (flags_iff hm).mp hflags
  · intro hfits b hb
    obtain rfl := Event.interrupt.inj hb
    have hflags := (flags_iff hm).mpr hfits
    rw [hk, hkeys]
    refine ⟨hflags, fun c hc hl => ?_⟩
    obtain ⟨rfl, hs, hl'⟩ := accepted_character hc
    rw [keyCharacter_letter hl, ← hs, ← hl', hflags.shift, hflags.caps]

theorem fits_interrupt : Fits m (.interrupt scancode) m' ↔ ByteFits m.keys scancode :=
  ⟨fun h => h scancode rfl, fun h _ hb => Event.interrupt.inj hb ▸ h⟩

theorem step_keeps (hm : Agrees m) (h : Step m e m') (hfits : Fits m e m') : Agrees m' ∧ ByteRight m e m' := by
  by_cases he : ∃ scancode, e = .interrupt scancode
  · obtain ⟨scancode, rfl⟩ := he
    have hright := (byte_right_iff h hm).mpr (fits_interrupt.mp hfits)
    exact ⟨(hright scancode rfl).1, hright⟩
  · exact ⟨quiet_machine h (fun b hb => he ⟨b, hb⟩) hm, fun b hb => absurd ⟨b, hb⟩ he⟩

theorem step_spoils (hm : Agrees m) (h : Step m e m') (hright : ByteRight m e m') : Fits m e m' := by
  rintro scancode rfl
  exact (byte_right_iff h hm).mp hright

end Runs

/-- In every run the flags and the letters are right after each byte exactly when each byte fits. -/
theorem modifiers_right_iff (tr : List (Event × Machine)) (hr : Run Step booted tr) :
    Along ByteRight booted tr ↔ Along Fits booted tr :=
  run_guard_exact (fun _ _ _ hm h hfits => step_keeps hm h hfits) (fun _ _ _ hm h hright => step_spoils hm h hright)
    booted tr ⟨rfl, rfl⟩ hr

def advance (m : Machine) (scancode : UInt8) : Machine := ⟨Keyboard.advance m.system scancode, decode m.keys scancode⟩

def press (m : Machine) : List UInt8 → List (Event × Machine)
  | [] => []
  | b::bs => (.interrupt b, advance m b) :: press (advance m b) bs

theorem press_run (m : Machine) (bs : List UInt8) : Run Step m (press m bs) := by
  induction bs generalizing m with
  | nil => trivial
  | cons b bs ih => exact ⟨⟨rfl, rfl⟩, ih (advance m b)⟩

/-- Left shift, a letter, and the left shift comes up. -/
theorem modifiers_right_sample : Along ByteRight booted (press booted [0x2A, 0x1E, 0xAA]) :=
  (modifiers_right_iff _ (press_run booted _)).mpr
    ⟨fun _ h => by cases h; decide, fun _ h => by cases h; decide, fun _ h => by cases h; decide, trivial⟩

/-- Both shift keys go down and the left one comes up. -/
def bothShifts : List Action :=
  [⟨.plain 0x2A (by decide), true⟩, ⟨.plain 0x36 (by decide), true⟩, ⟨.plain 0x2A (by decide), false⟩]

theorem other_shift_lost : Run Step booted (press booted (bothShifts.flatMap Action.codes)) ∧
    ¬ Along ByteRight booted (press booted (bothShifts.flatMap Action.codes)) := by
  refine ⟨press_run booted _, fun h => ?_⟩
  have hflag := (h.2.2.1 0xAA rfl).1.shift
  revert hflag
  decide

end Dionnex.KeyboardModifiers
