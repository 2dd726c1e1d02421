import Dionnex.PortDevices
import Dionnex.PriorityChip
import Dionnex.Interrupts

/-!
# The 16 lines of the two 8259s

Two chips, the second one behind line 2 of the first, with the driver that
initialises them, masks their lines and ends their interrupts, and with
`irq_handler` on the interrupts they deliver. Seen from outside they are a
set of waiting lines from which the first enabled one is delivered, as long
as every handler comes to its end.
-/

set_option autoImplicit false

namespace Dionnex.PicLines
open PortDevices PriorityChip Dionnex.Interrupts
open X86Stack (Cpu)
open Dionnex.TaskLists (sampleCpu)

/-! ## The driver -/

section Driver

variable {σ : Type*} (io : Bus σ)

def ioWait (s : σ) : σ := io.out 8 0x80 0 s

def picRemap (s : σ) : σ :=
  let a1 := io.inp 8 0x21 s
  let a2 := io.inp 8 0xA1 a1.2
  let s := ioWait io (io.out 8 0x20 0x11 a2.2)
  let s := ioWait io (io.out 8 0xA0 0x11 s)
  let s := ioWait io (io.out 8 0x21 0x20 s)
  let s := ioWait io (io.out 8 0xA1 0x28 s)
  let s := ioWait io (io.out 8 0x21 0x04 s)
  let s := ioWait io (io.out 8 0xA1 0x02 s)
  let s := ioWait io (io.out 8 0x21 0x01 s)
  let s := ioWait io (io.out 8 0xA1 0x01 s)
  io.out 8 0xA1 a2.1 (io.out 8 0x21 a1.1 s)

def picSendEoi (irq : ℕ) (s : σ) : σ := io.out 8 0x20 0x20 (if 8 ≤ irq then io.out 8 0xA0 0x20 s else s)

def picDisable (s : σ) : σ := io.out 8 0xA1 0xFF (io.out 8 0x21 0xFF s)

/-- The data port and the bit of a line. -/
def picBit (irq : ℕ) : ℕ × BitVec 8 :=
  if irq < 8 then (0x21, ((1#32) <<< irq).setWidth 8) else (0xA1, ((1#32) <<< (irq-8)).setWidth 8)

def picEnableIrq (irq : ℕ) (s : σ) : σ :=
  let r := io.inp 8 (picBit irq).1 s
  io.out 8 (picBit irq).1 (r.1 &&& ~~~(picBit irq).2) r.2

def picDisableIrq (irq : ℕ) (s : σ) : σ :=
  let r := io.inp 8 (picBit irq).1 s
  io.out 8 (picBit irq).1 (r.1 ||| (picBit irq).2) r.2

end Driver

/-! ## The two chips -/

structure Pair where
  master : Chip
  slave : Chip

def pairBus : Bus Pair where
  inp := fun w port s =>
    if port = 0x21 then (s.master.mask.setWidth w, s)
    else if port = 0xA1 then (s.slave.mask.setWidth w, s)
    else (0, s)
  out := fun _ port v s =>
    if port = 0x20 then { s with master := s.master.command (v.setWidth 8) }
    else if port = 0x21 then { s with master := s.master.data (v.setWidth 8) }
    else if port = 0xA0 then { s with slave := s.slave.command (v.setWidth 8) }
    else if port = 0xA1 then { s with slave := s.slave.data (v.setWidth 8) }
    else s

/-- Line 2 of the first chip is what the second one offers. -/
def Pair.lines (s : Pair) : ℕ → Bool :=
  Function.update s.master.request 2 (s.slave.offer s.slave.request).isSome

def Pair.raise (s : Pair) (irq : ℕ) : Pair :=
  if irq < 8 then { s with master := s.master.raise irq } else { s with slave := s.slave.raise (irq-8) }

/-- The processor asks for the vector: the second chip gives it when the first one says that it is its turn. -/
def Pair.acknowledge (s : Pair) : Option (BitVec 8 × Pair) :=
  (s.master.offer s.lines).map (fun n =>
    if s.master.wiring.getLsbD n ∧ s.slave.wiring.toNat % 8 = n then
      match s.slave.offer s.slave.request with
      | some k => (s.slave.base + BitVec.ofNat 8 k, { s with master := s.master.take n, slave := s.slave.take k })
      | none => (s.slave.base + 7, { s with master := s.master.take n })
    else (s.master.base + BitVec.ofNat 8 n, { s with master := s.master.take n }))

/-- As `pic_remap` leaves them. -/
structure Wired (s : Pair) : Prop where
  operating : s.master.expected = [] ∧ s.slave.expected = []
  bases : s.master.base = 0x20 ∧ s.slave.base = 0x28
  wiring : s.master.wiring = 0x04 ∧ s.slave.wiring = 0x02

/-- Outside of handlers, when all of them have ended. -/
structure Settled (s : Pair) : Prop where
  wired : Wired s
  idle : s.master.Idle ∧ s.slave.Idle
  unused : s.master.request 2 = false

theorem remapped (s : Pair) : picRemap pairBus s =
    ⟨⟨s.master.mask, fun _ => false, fun _ => false, 0x20, 0x04, []⟩,
      ⟨s.slave.mask, fun _ => false, fun _ => false, 0x28, 0x02, []⟩⟩ := by
  have h := initialised s.master 0x20 0x04 0x01 s.master.mask
  have h' := initialised s.slave 0x28 0x02 0x01 s.slave.mask
  simp only [picRemap, ioWait, pairBus, Nat.reduceEqDiff, if_true, if_false, BitVec.setWidth_eq, h, h']
  rfl

theorem remapped_settled (s : Pair) : Settled (picRemap pairBus s) := by
  rw [remapped]
  exact ⟨⟨⟨rfl, rfl⟩, ⟨rfl, rfl⟩, rfl, rfl⟩, ⟨fun _ => rfl, fun _ => rfl⟩, rfl⟩

/-! ## The lines from outside -/

structure Lines where
  waiting : ℕ → Bool
  masked : ℕ → Bool

/-- The lines of the second chip come in the place of line 2. -/
def order : List ℕ := [0, 1] ++ ((List.range 8).map (8 + ·) ++ [3, 4, 5, 6, 7])

def Lines.enabled (l : Lines) (n : ℕ) : Bool := l.waiting n && !l.masked n && (decide (n < 8) || !l.masked 2)

def Lines.deliver (l : Lines) : Option ℕ := order.find? l.enabled

def Pair.view (s : Pair) : Lines where
  waiting := fun n => if n < 8 then s.master.request n else s.slave.request (n-8)
  masked := fun n => if n < 8 then s.master.mask.getLsbD n else s.slave.mask.getLsbD (n-8)

/-- The first line of the order is the one that the first chip offers, or the one that the second chip offers through it. -/
theorem deliver_offer {s : Pair} (h : Settled s) : s.view.deliver =
    (s.master.offer s.lines).bind (fun n => if n = 2 then (s.slave.offer s.slave.request).map (8 + ·) else some n) := by
  have hrange : List.range 8 = [0, 1] ++ ([2] ++ [3, 4, 5, 6, 7]) := rfl
  have hlow : ∀ n, n < 8 → n ≠ 2 → s.view.enabled n = (s.lines n && !s.master.mask.getLsbD n) := by
    intro n hn hne
    simp only [Lines.enabled, Pair.view, hn, if_true, decide_true, Bool.true_or, Bool.and_true, Pair.lines,
      Function.update_of_ne hne]
  have hfirst : [0, 1].find? s.view.enabled = [0, 1].find? (fun n => s.lines n && !s.master.mask.getLsbD n) :=
    List.find?_congr (fun n hn => hlow n (by simp at hn; omega) (by simp at hn; omega))
  have hlast : [3, 4, 5, 6, 7].find? s.view.enabled =
      [3, 4, 5, 6, 7].find? (fun n => s.lines n && !s.master.mask.getLsbD n) :=
    List.find?_congr (fun n hn => hlow n (by simp at hn; omega) (by simp at hn; omega))
  have hmiddle : ((List.range 8).map (8 + ·)).find? s.view.enabled =
      if s.master.mask.getLsbD 2 then none else (s.slave.offer s.slave.request).map (8 + ·) := by
    rw [List.find?_map, idle_offer h.idle.2]
    cases hm : s.master.mask.getLsbD 2 with
    | true =>
      have hnone : (List.range 8).find? (s.view.enabled ∘ (8 + ·)) = none := by
        rw [List.find?_eq_none]
        intro n _
        simp [Lines.enabled, Pair.view, hm]
      rw [hnone]
      rfl
    | false =>
      refine congrArg _ (List.find?_congr (fun n _ => ?_))
      simp only [Function.comp_apply, Lines.enabled, Pair.view, if_neg (show ¬ 8+n < 8 by omega), Nat.add_sub_cancel_left,
        if_pos (show 2 < 8 by decide), hm, Bool.not_false, Bool.or_true, Bool.and_true]
  have hline : [2].find? (fun n => s.lines n && !s.master.mask.getLsbD n) =
      if s.master.mask.getLsbD 2 then none else (s.slave.offer s.slave.request).map (fun _ => 2) := by
    have hself : s.lines 2 = (s.slave.offer s.slave.request).isSome := Function.update_self 2 _ _
    rw [List.find?_singleton, hself]
    cases s.master.mask.getLsbD 2 <;> cases s.slave.offer s.slave.request <;> rfl
  have hother : ∀ (n : ℕ) (l : List ℕ), l.find? (fun n => s.lines n && !s.master.mask.getLsbD n) = some n → 2 ∉ l → n ≠ 2 := by
    rintro n l hn hl rfl
    exact hl (List.mem_of_find?_eq_some hn)
  rw [idle_offer h.idle.1, Lines.deliver, order, List.find?_append, List.find?_append, hmiddle, hfirst, hlast, hrange,
    List.find?_append, List.find?_append, hline]
  cases h01 : [0, 1].find? (fun n => s.lines n && !s.master.mask.getLsbD n) with
  | some n => exact (if_neg (hother n _ h01 (by decide))).symm
  | none =>
    have htail : [3, 4, 5, 6, 7].find? (fun n => s.lines n && !s.master.mask.getLsbD n) =
        ([3, 4, 5, 6, 7].find? (fun n => s.lines n && !s.master.mask.getLsbD n)).bind (fun n =>
          if n = 2 then (s.slave.offer s.slave.request).map (8 + ·) else some n) := by
      cases ht : [3, 4, 5, 6, 7].find? (fun n => s.lines n && !s.master.mask.getLsbD n) with
      | none => rfl
      | some n => exact (if_neg (hother n _ ht (by decide))).symm
    -- masked or silent, the second chip leaves the turn to the last lines
    cases hm : s.master.mask.getLsbD 2 with
    | true => exact htail
    | false =>
      cases hk : s.slave.offer s.slave.request with
      | none =>
        rw [hk] at htail
        exact htail
      | some k => rfl

def Lines.serve (l : Lines) (n : ℕ) : Lines := { l with waiting := Function.update l.waiting n false }

theorem eoi_pair (irq : ℕ) (s : Pair) :
    picSendEoi pairBus irq s = ⟨s.master.endFirst, if 8 ≤ irq then s.slave.endFirst else s.slave⟩ := by
  unfold picSendEoi
  by_cases h : 8 ≤ irq
  · rw [if_pos h, if_pos h]
    rfl
  · rw [if_neg h, if_neg h]
    rfl

theorem offer_some {c : Chip} {lines : ℕ → Bool} {n : ℕ} (h : c.offer lines = some n) : n < 8 ∧ lines n = true := by
  have hmem := List.mem_of_find?_eq_some h
  have hn := List.find?_some h
  simp only [Bool.and_eq_true] at hn
  exact ⟨List.mem_range.mp hmem, hn.1.1⟩

/-- A line of the first chip was taken and ended. -/
theorem master_served {s : Pair} (h : Settled s) {n : ℕ} (hn : n < 8) (hne : n ≠ 2) :
    Settled (picSendEoi pairBus n { s with master := s.master.take n }) ∧
    (picSendEoi pairBus n { s with master := s.master.take n }).view = s.view.serve n := by
  rw [eoi_pair, if_neg (Nat.not_le_of_lt hn), take_end h.idle.1 hn]
  refine ⟨⟨⟨h.wired.operating, h.wired.bases, h.wired.wiring⟩, h.idle, ?_⟩, ?_⟩
  · exact (Function.update_of_ne hne.symm _ _).trans h.unused
  · unfold Pair.view Lines.serve
    congr 1
    funext k
    show (if k < 8 then Function.update s.master.request n false k else s.slave.request (k-8)) =
      Function.update (fun n => if n < 8 then s.master.request n else s.slave.request (n-8)) n false k
    by_cases hk : k = n
    · rw [hk, Function.update_self, if_pos hn, Function.update_self]
    · rw [Function.update_of_ne hk, Function.update_of_ne hk]

/-- A line of the second chip was taken and ended on both. -/
theorem slave_served {s : Pair} (h : Settled s) {k : ℕ} (hk : k < 8) :
    Settled (picSendEoi pairBus (8+k) ⟨s.master.take 2, s.slave.take k⟩) ∧
    (picSendEoi pairBus (8+k) ⟨s.master.take 2, s.slave.take k⟩).view = s.view.serve (8+k) := by
  have hmaster : ({ s.master with request := Function.update s.master.request 2 false } : Chip) = s.master := by
    have hsame : Function.update s.master.request 2 false = s.master.request := by
      rw [← h.unused]
      exact Function.update_eq_self 2 _
    rw [hsame]
  rw [eoi_pair, if_pos (Nat.le_add_right 8 k), take_end h.idle.1 (show 2 < 8 by decide), take_end h.idle.2 hk, hmaster]
  refine ⟨⟨⟨h.wired.operating, h.wired.bases, h.wired.wiring⟩, h.idle, h.unused⟩, ?_⟩
  unfold Pair.view Lines.serve
  congr 1
  funext i
  show (if i < 8 then s.master.request i else Function.update s.slave.request k false (i-8)) =
    Function.update (fun n => if n < 8 then s.master.request n else s.slave.request (n-8)) (8+k) false i
  by_cases hi : i < 8
  · rw [if_pos hi, Function.update_of_ne (by omega), if_pos hi]
  · rw [if_neg hi]
    by_cases he : i = 8+k
    · rw [he, Function.update_self, Nat.add_sub_cancel_left, Function.update_self]
    · rw [Function.update_of_ne he, if_neg hi, Function.update_of_ne (by omega)]

/-- What is delivered to the processor, and what is left once the handler has ended it. -/
theorem acknowledged {s : Pair} (h : Settled s) :
    (s.acknowledge = none ∧ s.view.deliver = none) ∨ ∃ n v t, s.acknowledge = some (v, t) ∧ s.view.deliver = some n ∧
      n < 16 ∧ v.toNat = 32+n ∧ Settled (picSendEoi pairBus n t) ∧ (picSendEoi pairBus n t).view = s.view.serve n := by
  rw [deliver_offer h]
  unfold Pair.acknowledge
  cases ho : s.master.offer s.lines with
  | none => exact Or.inl ⟨rfl, rfl⟩
  | some n =>
    refine Or.inr ?_
    obtain ⟨hn, hline⟩ := offer_some ho
    by_cases h2 : n = 2
    · subst h2
      have hself : s.lines 2 = (s.slave.offer s.slave.request).isSome := Function.update_self 2 _ _
      have hsome : (s.slave.offer s.slave.request).isSome = true := hself.symm.trans hline
      obtain ⟨k, hk⟩ := Option.isSome_iff_exists.mp hsome
      have hk8 := (offer_some hk).1
      have hwired : s.master.wiring.getLsbD 2 = true ∧ s.slave.wiring.toNat % 8 = 2 := by
        rw [h.wired.wiring.1, h.wired.wiring.2]
        exact ⟨rfl, rfl⟩
      refine ⟨8+k, s.slave.base + BitVec.ofNat 8 k, ⟨s.master.take 2, s.slave.take k⟩, ?_, ?_, by omega, ?_, slave_served h hk8⟩
      · rw [Option.map_some, if_pos hwired, hk]
      · rw [hk]
        rfl
      · rw [h.wired.bases.2, BitVec.toNat_add, BitVec.toNat_ofNat]
        show (40 + k % 256) % 256 = 32+(8+k)
        omega
    · have hwired : ¬ (s.master.wiring.getLsbD n = true ∧ s.slave.wiring.toNat % 8 = n) := by
        rw [h.wired.wiring.2]
        exact fun hc => h2 hc.2.symm
      refine ⟨n, s.master.base + BitVec.ofNat 8 n, { s with master := s.master.take n }, ?_, ?_, by omega, ?_,
        master_served h hn h2⟩
      · rw [Option.map_some, if_neg hwired]
      · exact if_neg h2
      · rw [h.wired.bases.1, BitVec.toNat_add, BitVec.toNat_ofNat]
        show (32 + n % 256) % 256 = 32+n
        omega

/-! ## Masks -/

/-- Beyond the eighth line the byte has no bit. -/
theorem bit_of {irq n : ℕ} (hn : n < 8) : (((1#32) <<< irq).setWidth 8).getLsbD n = decide (n = irq) := by
  rw [BitVec.getLsbD_setWidth, BitVec.getLsbD_shiftLeft, BitVec.getLsbD_one, decide_eq_true hn,
    decide_eq_true (show n < 32 by omega), Bool.true_and, Bool.true_and]
  by_cases hlt : n < irq
  · rw [decide_eq_true hlt, decide_eq_false (Nat.ne_of_lt hlt)]
    rfl
  · rw [decide_eq_false hlt]
    by_cases he : n = irq
    · rw [he, Nat.sub_self, decide_eq_true (Eq.refl irq)]
      rfl
    · rw [decide_eq_false he, decide_eq_false (show ¬ n-irq = 0 by omega)]
      rfl

def Lines.setMask (l : Lines) (irq : ℕ) (b : Bool) : Lines :=
  if irq < 16 then { l with masked := Function.update l.masked irq b } else l

def Pair.withMasks (s : Pair) (m m' : BitVec 8) : Pair := ⟨{ s.master with mask := m }, { s.slave with mask := m' }⟩

/-- The masks after one of the two calls, by the byte that the driver writes back. -/
theorem masks_written {s : Pair} (h : Wired s) (irq : ℕ) (f : BitVec 8 → BitVec 8 → BitVec 8) :
    pairBus.out 8 (picBit irq).1 (f (pairBus.inp 8 (picBit irq).1 s).1 (picBit irq).2) (pairBus.inp 8 (picBit irq).1 s).2 =
      if irq < 8 then s.withMasks (f s.master.mask (((1#32) <<< irq).setWidth 8)) s.slave.mask
      else s.withMasks s.master.mask (f s.slave.mask (((1#32) <<< (irq-8)).setWidth 8)) := by
  obtain ⟨hm, hs⟩ := h.operating
  unfold picBit
  by_cases hirq : irq < 8
  · rw [if_pos hirq, if_pos hirq]
    simp only [pairBus, Nat.reduceEqDiff, if_true, if_false, BitVec.setWidth_eq, data_mask hm]
    rfl
  · rw [if_neg hirq, if_neg hirq]
    simp only [pairBus, Nat.reduceEqDiff, if_true, if_false, BitVec.setWidth_eq, data_mask hs]
    rfl

theorem withMasks_settled {s : Pair} (h : Settled s) (m m' : BitVec 8) : Settled (s.withMasks m m') :=
  ⟨⟨h.wired.operating, h.wired.bases, h.wired.wiring⟩, h.idle, h.unused⟩

theorem masks_view (s : Pair) (irq : ℕ) (b : Bool) (f : BitVec 8 → BitVec 8 → BitVec 8)
    (hf : ∀ x y n, n < 8 → (f x y).getLsbD n = if y.getLsbD n then b else x.getLsbD n) :
    (if irq < 8 then s.withMasks (f s.master.mask (((1#32) <<< irq).setWidth 8)) s.slave.mask
      else s.withMasks s.master.mask (f s.slave.mask (((1#32) <<< (irq-8)).setWidth 8))).view = s.view.setMask irq b := by
  have hbit : ∀ (x : BitVec 8) (k n : ℕ),
      (f x (((1#32) <<< k).setWidth 8)).getLsbD n = if n < 8 ∧ n = k then b else x.getLsbD n := by
    intro x k n
    by_cases hn : n < 8
    · rw [hf _ _ _ hn, bit_of hn]
      simp only [hn, true_and, decide_eq_true_eq]
    · rw [if_neg (fun h => hn h.1), BitVec.getLsbD_of_ge _ _ (by omega), BitVec.getLsbD_of_ge _ _ (by omega)]
  unfold Lines.setMask
  by_cases h8 : irq < 8
  · rw [if_pos h8, if_pos (show irq < 16 by omega)]
    unfold Pair.view
    congr 1
    funext n
    show (if n < 8 then (f s.master.mask _).getLsbD n else s.slave.mask.getLsbD (n-8)) =
      Function.update (fun n => if n < 8 then s.master.mask.getLsbD n else s.slave.mask.getLsbD (n-8)) irq b n
    rw [hbit]
    by_cases he : n = irq
    · rw [he, if_pos h8, if_pos ⟨h8, rfl⟩, Function.update_self]
    · rw [Function.update_of_ne he, if_neg (show ¬ (n < 8 ∧ n = irq) from fun h => he h.2)]
  · rw [if_neg h8]
    have hmasked : ∀ n, (if n < 8 then s.master.mask.getLsbD n else
        (f s.slave.mask (((1#32) <<< (irq-8)).setWidth 8)).getLsbD (n-8)) =
          if irq < 16 ∧ n = irq then b else s.view.masked n := by
      intro n
      rw [hbit]
      show _ = if irq < 16 ∧ n = irq then b else if n < 8 then s.master.mask.getLsbD n else s.slave.mask.getLsbD (n-8)
      by_cases hn : n < 8
      · rw [if_pos hn, if_pos hn, if_neg (by omega)]
      · rw [if_neg hn, if_neg hn, if_congr (show n-8 < 8 ∧ n-8 = irq-8 ↔ irq < 16 ∧ n = irq by omega) rfl rfl]
    by_cases h16 : irq < 16
    · rw [if_pos h16]
      unfold Pair.view
      congr 1
      funext n
      refine (hmasked n).trans ?_
      by_cases he : n = irq
      · rw [he, if_pos ⟨h16, rfl⟩, Function.update_self]
      · rw [if_neg (fun h => he h.2), Function.update_of_ne he]
        rfl
    · rw [if_neg h16]
      unfold Pair.view
      congr 1
      funext n
      exact (hmasked n).trans (if_neg (fun h => h16 h.1))

theorem enable_view {s : Pair} (h : Wired s) (irq : ℕ) : (picEnableIrq pairBus irq s).view = s.view.setMask irq false := by
  unfold picEnableIrq
  rw [masks_written h irq (fun x y => x &&& ~~~y), masks_view s irq false (fun x y => x &&& ~~~y)]
  intro x y n hn
  rw [BitVec.getLsbD_and, BitVec.getLsbD_not, decide_eq_true hn]
  cases y.getLsbD n <;> simp

theorem disable_view {s : Pair} (h : Wired s) (irq : ℕ) : (picDisableIrq pairBus irq s).view = s.view.setMask irq true := by
  unfold picDisableIrq
  rw [masks_written h irq (fun x y => x ||| y), masks_view s irq true (fun x y => x ||| y)]
  intro x y n hn
  rw [BitVec.getLsbD_or]
  cases y.getLsbD n <;> simp

theorem disabled {s : Pair} (h : Wired s) : picDisable pairBus s = s.withMasks 0xFF 0xFF := by
  obtain ⟨hm, hs⟩ := h.operating
  unfold picDisable
  simp only [pairBus, Nat.reduceEqDiff, if_true, if_false, BitVec.setWidth_eq, data_mask hm, data_mask hs]
  rfl

theorem disabled_view (s : Pair) : (s.withMasks 0xFF 0xFF).view = { s.view with masked := fun n => decide (n < 16) } := by
  have hall : ∀ n, n < 8 → (0xFF#8).getLsbD n = true := by
    intro n hn
    interval_cases n <;> rfl
  unfold Pair.view
  congr 1
  funext n
  show (if n < 8 then (0xFF#8).getLsbD n else (0xFF#8).getLsbD (n-8)) = decide (n < 16)
  by_cases hn : n < 8
  · rw [if_pos hn, hall n hn, decide_eq_true (show n < 16 by omega)]
  · rw [if_neg hn]
    by_cases h16 : n < 16
    · rw [hall (n-8) (by omega), decide_eq_true h16]
    · rw [BitVec.getLsbD_of_ge _ _ (by omega), decide_eq_false h16]

/-! ## Runs -/

structure System where
  pics : Pair
  machine : Machine

/-- A device raises its line, the kernel changes a mask, or the processor looks for an interrupt, with the rest of what
the handler will find. -/
inductive Event where
  | raise (irq : ℕ)
  | enable (irq : ℕ)
  | disable (irq : ℕ)
  | disableAll
  | interrupt (c : Cpu) (scancode : UInt8) (eax ebx eip cs : ℕ)

/-- Line 2 has no device, and larger shifts are not defined. -/
def Event.Defined : Event → Prop
  | .raise irq => irq < 16 ∧ irq ≠ 2
  | .enable irq => irq < 40
  | .disable irq => irq < 40
  | _ => True

/-- What an end-of-interrupt signal does to the two chips. -/
def signal (s : Pair) : Signal → Pair
  | .apicEoi => s
  | .picSendEoi irq => picSendEoi pairBus irq s

/-- The vector and how control left the handler, if there was an interrupt. -/
def System.perform (s : System) : Event → Option (Option (ℕ × Control) × System)
  | .raise irq => some (none, { s with pics := s.pics.raise irq })
  | .enable irq => some (none, { s with pics := picEnableIrq pairBus irq s.pics })
  | .disable irq => some (none, { s with pics := picDisableIrq pairBus irq s.pics })
  | .disableAll => some (none, { s with pics := picDisable pairBus s.pics })
  | .interrupt c scancode eax ebx eip cs =>
    match s.pics.acknowledge with
    | none => some (none, s)
    | some (v, pics) => (irqHandler s.machine c scancode ⟨eax, ebx, v.toNat, eip, cs⟩).map (fun o =>
      (some (v.toNat, o.control), ⟨o.signals.foldl signal pics, o.machine⟩))

def performEvents : List Event → System → Option (List (Option (ℕ × Control)) × System)
  | [], s => some ([], s)
  | e::es, s => (s.perform e).bind (fun r => (performEvents es r.2).map (fun t => (r.1::t.1, t.2)))

def Lines.perform : Event → Lines → Option ℕ × Lines
  | .raise irq, l => (none, { l with waiting := Function.update l.waiting irq true })
  | .enable irq, l => (none, l.setMask irq false)
  | .disable irq, l => (none, l.setMask irq true)
  | .disableAll, l => (none, { l with masked := fun n => decide (n < 16) })
  | .interrupt .., l =>
    match l.deliver with
    | none => (none, l)
    | some n => (some n, l.serve n)

/-- The handler came back to where it was called. -/
def Returned (a : Option (ℕ × Control)) : Prop := ∀ r, a = some r → ∃ f, r.2 = .returns f

section Steps

variable {s t : System} {e : Event} {a : Option (ℕ × Control)}

theorem masks_settled {s : Pair} (h : Settled s) (irq : ℕ) :
    Settled (picEnableIrq pairBus irq s) ∧ Settled (picDisableIrq pairBus irq s) := by
  unfold picEnableIrq picDisableIrq
  rw [masks_written h.wired irq (fun x y => x &&& ~~~y), masks_written h.wired irq (fun x y => x ||| y)]
  split <;> exact ⟨withMasks_settled h _ _, withMasks_settled h _ _⟩

theorem raise_settled {s : Pair} (h : Settled s) {irq : ℕ} (hirq : irq ≠ 2) : Settled (s.raise irq) := by
  unfold Pair.raise
  split
  · exact ⟨⟨h.wired.operating, h.wired.bases, h.wired.wiring⟩, h.idle,
      (Function.update_of_ne hirq.symm _ _).trans h.unused⟩
  · exact ⟨⟨h.wired.operating, h.wired.bases, h.wired.wiring⟩, h.idle, h.unused⟩

theorem raise_view (s : Pair) (irq : ℕ) :
    (s.raise irq).view = { s.view with waiting := Function.update s.view.waiting irq true } := by
  unfold Pair.raise
  by_cases h : irq < 8
  · rw [if_pos h]
    unfold Pair.view
    congr 1
    funext n
    show (if n < 8 then Function.update s.master.request irq true n else s.slave.request (n-8)) =
      Function.update (fun n => if n < 8 then s.master.request n else s.slave.request (n-8)) irq true n
    by_cases hn : n = irq
    · rw [hn, Function.update_self, if_pos h, Function.update_self]
    · rw [Function.update_of_ne hn, Function.update_of_ne hn]
  · rw [if_neg h]
    unfold Pair.view
    congr 1
    funext n
    show (if n < 8 then s.master.request n else Function.update s.slave.request (irq-8) true (n-8)) =
      Function.update (fun n => if n < 8 then s.master.request n else s.slave.request (n-8)) irq true n
    by_cases hn : n < 8
    · rw [if_pos hn, Function.update_of_ne (by omega), if_pos hn]
    · rw [if_neg hn]
      by_cases he : n = irq
      · rw [he, Function.update_self, Function.update_self]
      · rw [Function.update_of_ne he, if_neg hn, Function.update_of_ne (by omega)]

/-- A handler that comes back has ended its interrupt on both controllers. -/
theorem returned_signals {m : Machine} {c : Cpu} {scancode : UInt8} {f g : Frame} {o : Outcome}
    (h : irqHandler m c scancode f = some o) (hg : o.control = .returns g) (hirq : 32 ≤ f.intNo ∧ f.intNo < 48) :
    o.signals = [.apicEoi, .picSendEoi (f.intNo-32)] := by
  unfold irqHandler at h
  obtain ⟨⟨m', left⟩, -, h⟩ := Option.bind_eq_some_iff.mp h
  cases left with
  | true =>
    cases h
    cases hg
  | false =>
    obtain ⟨⟨k, entry⟩, -, rfl⟩ := Option.map_eq_some_iff.mp h
    cases entry with
    | none => exact if_pos hirq
    | some e => cases hg

/-- One event on the chips is one on the lines. -/
theorem step_lines (hs : Settled s.pics) (he : e.Defined) (hr : s.perform e = some (a, t)) (ha : Returned a) :
    a.map Prod.fst = (Lines.perform e s.pics.view).1.map (32 + ·) ∧ t.pics.view = (Lines.perform e s.pics.view).2 ∧
      Settled t.pics := by
  cases e with
  | raise irq =>
    cases hr
    exact ⟨rfl, raise_view s.pics irq, raise_settled hs he.2⟩
  | enable irq =>
    cases hr
    exact ⟨rfl, enable_view hs.wired irq, (masks_settled hs irq).1⟩
  | disable irq =>
    cases hr
    exact ⟨rfl, disable_view hs.wired irq, (masks_settled hs irq).2⟩
  | disableAll =>
    cases hr
    rw [disabled hs.wired]
    exact ⟨rfl, disabled_view s.pics, withMasks_settled hs _ _⟩
  | interrupt c scancode eax ebx eip cs =>
    rcases acknowledged hs with ⟨hnone, hdeliver⟩ | ⟨n, v, p, hsome, hdeliver, hn, hv, hsettled, hview⟩
    · simp only [System.perform, hnone] at hr
      cases hr
      have hline : Lines.perform (.interrupt c scancode eax ebx eip cs) s.pics.view = (none, s.pics.view) := by
        simp only [Lines.perform, hdeliver]
      rw [hline]
      exact ⟨rfl, rfl, hs⟩
    · simp only [System.perform, hsome] at hr
      obtain ⟨o, ho, heq⟩ := Option.map_eq_some_iff.mp hr
      cases heq
      obtain ⟨g, hg⟩ := ha _ rfl
      have hsignals := returned_signals ho hg (show 32 ≤ v.toNat ∧ v.toNat < 48 by omega)
      have hpics : o.signals.foldl signal p = picSendEoi pairBus n p := by
        rw [hsignals]
        show picSendEoi pairBus (v.toNat-32) p = _
        rw [hv, Nat.add_sub_cancel_left]
      have hline : Lines.perform (.interrupt c scancode eax ebx eip cs) s.pics.view = (some n, s.pics.view.serve n) := by
        simp only [Lines.perform, hdeliver]
      rw [hline, hpics]
      exact ⟨congrArg some hv, hview, hsettled⟩

theorem run_lines {es : List Event} (hes : ∀ e ∈ es, e.Defined) {as : List (Option (ℕ × Control))} (hs : Settled s.pics)
    (hr : performEvents es s = some (as, t)) (has : ∀ a ∈ as, Returned a) :
    as.map (Option.map Prod.fst) = (performAll Lines.perform es s.pics.view).1.map (Option.map (32 + ·)) ∧
      t.pics.view = (performAll Lines.perform es s.pics.view).2 ∧ Settled t.pics := by
  induction es generalizing s as with
  | nil =>
    cases hr
    exact ⟨rfl, rfl, hs⟩
  | cons e es ih =>
    obtain ⟨⟨a, u⟩, hfirst, hr⟩ := Option.bind_eq_some_iff.mp hr
    obtain ⟨⟨bs, t'⟩, hrest, heq⟩ := Option.map_eq_some_iff.mp hr
    cases heq
    obtain ⟨hanswer, hview, hsettled⟩ := step_lines hs (hes e List.mem_cons_self) hfirst (has a List.mem_cons_self)
    obtain ⟨hanswers, hlast, hend⟩ := ih (fun e he => hes e (List.mem_cons_of_mem _ he)) hsettled hrest
      (fun a ha => has a (List.mem_cons_of_mem _ ha))
    rw [hview] at hanswers hlast
    exact ⟨congrArg₂ List.cons hanswer hanswers, hlast, hend⟩

end Steps

/-- After `pic_remap`, and as long as every handler comes back, the chips are a set of waiting lines: the first enabled
one is delivered with its vector, none is lost or delivered twice, and the masks from before are still in force. -/
theorem lines_delivered (p : Pair) (m : Machine) (es : List Event) (hes : ∀ e ∈ es, e.Defined)
    (as : List (Option (ℕ × Control))) (t : System) (hr : performEvents es ⟨picRemap pairBus p, m⟩ = some (as, t))
    (has : ∀ a ∈ as, Returned a) :
    as.map (Option.map Prod.fst) =
      (performAll Lines.perform es ⟨fun _ => false, p.view.masked⟩).1.map (Option.map (32 + ·)) ∧
    t.pics.view = (performAll Lines.perform es ⟨fun _ => false, p.view.masked⟩).2 ∧
    t.pics.master.Idle ∧ t.pics.slave.Idle := by
  have hstart : (picRemap pairBus p).view = ⟨fun _ => false, p.view.masked⟩ := by
    rw [remapped]
    unfold Pair.view
    congr 1
    funext n
    exact ite_self _
  obtain ⟨hanswers, hview, hsettled⟩ := run_lines hes (remapped_settled p) hr has
  rw [hstart] at hanswers hview
  exact ⟨hanswers, hview, hsettled.idle⟩

/-- Two chips with all lines open. -/
def sampleChips : Pair :=
  ⟨⟨0, fun _ => false, fun _ => true, 0, 0, []⟩, ⟨0, fun _ => true, fun _ => false, 0, 0, [.mode]⟩⟩

/-- The keyboard line comes first, the clock line through the second chip next, and the masked printer line not at all. -/
theorem lines_delivered_sample : ∃ t, performEvents [.raise 7, .raise 8, .raise 1, .disable 7, .interrupt sampleCpu 0 0 0 0 8,
      .interrupt sampleCpu 0 0 0 0 8, .interrupt sampleCpu 0 0 0 0 8] ⟨picRemap pairBus sampleChips, sampleLone⟩ =
        some ([none, none, none, none, some (33, .returns ⟨0, 0, 33, 0, 8⟩), some (40, .returns ⟨0, 0, 40, 0, 8⟩), none], t) ∧
    t.pics.view.waiting 7 = true ∧ t.pics.master.Idle ∧ t.pics.slave.Idle := by
  refine ⟨_, rfl, ?_⟩
  obtain ⟨-, hview, hidle⟩ := lines_delivered sampleChips sampleLone
    [.raise 7, .raise 8, .raise 1, .disable 7, .interrupt sampleCpu 0 0 0 0 8, .interrupt sampleCpu 0 0 0 0 8,
      .interrupt sampleCpu 0 0 0 0 8] (by simp [Event.Defined])
    [none, none, none, none, some (33, .returns ⟨0, 0, 33, 0, 8⟩), some (40, .returns ⟨0, 0, 40, 0, 8⟩), none] _ rfl
    (by simp [Returned])
  rw [hview]
  exact ⟨rfl, hidle⟩

/-! ## An interrupt that is not ended -/

/-- Line 0 is in service. -/
def Stuck (s : Pair) : Prop := s.master.service 0 = true

section Stuck

variable {s t : System} {e : Event} {a : Option (ℕ × Control)}

theorem endFirst_fields (c : Chip) :
    c.endFirst.expected = c.expected ∧ c.endFirst.base = c.base ∧ c.endFirst.wiring = c.wiring := by
  unfold Chip.endFirst
  split <;> exact ⟨rfl, rfl, rfl⟩

theorem signal_wired {s : Pair} (h : Wired s) (g : Signal) : Wired (signal s g) := by
  cases g with
  | apicEoi => exact h
  | picSendEoi irq =>
    obtain ⟨hm, hmb, hmw⟩ := endFirst_fields s.master
    obtain ⟨hs, hsb, hsw⟩ := endFirst_fields s.slave
    show Wired (picSendEoi pairBus irq s)
    rw [eoi_pair]
    split
    · exact ⟨⟨hm.trans h.operating.1, hs.trans h.operating.2⟩, ⟨hmb.trans h.bases.1, hsb.trans h.bases.2⟩,
        hmw.trans h.wiring.1, hsw.trans h.wiring.2⟩
    · exact ⟨⟨hm.trans h.operating.1, h.operating.2⟩, ⟨hmb.trans h.bases.1, h.bases.2⟩, hmw.trans h.wiring.1, h.wiring.2⟩

theorem signals_wired {s : Pair} (h : Wired s) (gs : List Signal) : Wired (gs.foldl signal s) := by
  induction gs generalizing s with
  | nil => exact h
  | cons g gs ih => exact ih (signal_wired h g)

/-- What an acknowledged interrupt has taken; only line 0 gives the vector 32. -/
theorem acknowledge_takes {s p : Pair} {v : BitVec 8} (h : Wired s) (ha : s.acknowledge = some (v, p)) :
    Wired p ∧ (v.toNat = 32 → Stuck p) := by
  unfold Pair.acknowledge at ha
  obtain ⟨n, hn, heq⟩ := Option.map_eq_some_iff.mp ha
  have hn8 := (offer_some hn).1
  split at heq
  · cases hk : s.slave.offer s.slave.request with
    | some k =>
      rw [hk] at heq
      cases heq
      have hk8 := (offer_some hk).1
      refine ⟨⟨h.operating, h.bases, h.wiring⟩, fun hv => ?_⟩
      rw [h.bases.2, BitVec.toNat_add, BitVec.toNat_ofNat] at hv
      have hv : (40 + k % 256) % 256 = 32 := hv
      omega
    | none =>
      rw [hk] at heq
      cases heq
      refine ⟨⟨h.operating, h.bases, h.wiring⟩, fun hv => ?_⟩
      rw [h.bases.2] at hv
      exact absurd hv (by decide)
  · cases heq
    refine ⟨⟨h.operating, h.bases, h.wiring⟩, fun hv => ?_⟩
    rw [h.bases.1, BitVec.toNat_add, BitVec.toNat_ofNat] at hv
    have hv : (32 + n % 256) % 256 = 32 := hv
    have h0 : n = 0 := by omega
    subst h0
    exact Function.update_self 0 true s.master.service

theorem masks_wired {s : Pair} (h : Wired s) (irq : ℕ) :
    Wired (picEnableIrq pairBus irq s) ∧ Wired (picDisableIrq pairBus irq s) ∧ Wired (picDisable pairBus s) := by
  rw [disabled h]
  unfold picEnableIrq picDisableIrq
  rw [masks_written h irq (fun x y => x &&& ~~~y), masks_written h irq (fun x y => x ||| y)]
  split <;> exact ⟨⟨h.operating, h.bases, h.wiring⟩, ⟨h.operating, h.bases, h.wiring⟩, h.operating, h.bases, h.wiring⟩

theorem masks_stuck {s : Pair} (h : Wired s) (hs : Stuck s) (irq : ℕ) :
    Stuck (picEnableIrq pairBus irq s) ∧ Stuck (picDisableIrq pairBus irq s) ∧ Stuck (picDisable pairBus s) := by
  rw [disabled h]
  unfold picEnableIrq picDisableIrq
  rw [masks_written h irq (fun x y => x &&& ~~~y), masks_written h irq (fun x y => x ||| y)]
  split <;> exact ⟨hs, hs, hs⟩

theorem raise_kept (s : Pair) (irq : ℕ) : (Wired s → Wired (s.raise irq)) ∧ (Stuck s → Stuck (s.raise irq)) := by
  unfold Pair.raise
  split <;> exact ⟨fun h => ⟨h.operating, h.bases, h.wiring⟩, fun h => h⟩

theorem step_wired (hs : Wired s.pics) (hr : s.perform e = some (a, t)) : Wired t.pics := by
  cases e with
  | raise irq =>
    cases hr
    exact (raise_kept s.pics irq).1 hs
  | enable irq =>
    cases hr
    exact (masks_wired hs irq).1
  | disable irq =>
    cases hr
    exact (masks_wired hs irq).2.1
  | disableAll =>
    cases hr
    exact (masks_wired hs 0).2.2
  | interrupt c scancode eax ebx eip cs =>
    cases hack : s.pics.acknowledge with
    | none =>
      simp only [System.perform, hack] at hr
      cases hr
      exact hs
    | some r =>
      obtain ⟨v, p⟩ := r
      simp only [System.perform, hack] at hr
      obtain ⟨o, -, heq⟩ := Option.map_eq_some_iff.mp hr
      cases heq
      exact signals_wired (acknowledge_takes hs hack).1 _

theorem step_stuck (hw : Wired s.pics) (hs : Stuck s.pics) (hr : s.perform e = some (a, t)) : a = none ∧ Stuck t.pics := by
  cases e with
  | raise irq =>
    cases hr
    exact ⟨rfl, (raise_kept s.pics irq).2 hs⟩
  | enable irq =>
    cases hr
    exact ⟨rfl, (masks_stuck hw hs irq).1⟩
  | disable irq =>
    cases hr
    exact ⟨rfl, (masks_stuck hw hs irq).2.1⟩
  | disableAll =>
    cases hr
    exact ⟨rfl, (masks_stuck hw hs 0).2.2⟩
  | interrupt c scancode eax ebx eip cs =>
    have hack : s.pics.acknowledge = none := by
      unfold Pair.acknowledge
      rw [blocked_offer hs]
      rfl
    simp only [System.perform, hack] at hr
    cases hr
    exact ⟨rfl, hs⟩

/-- The tick has entered user mode: nothing was ended. -/
theorem entered_signals {m : Machine} {c : Cpu} {scancode : UInt8} {f : Frame} {o : Outcome} {eip esp : ℕ}
    (h : irqHandler m c scancode f = some o) (ho : o.control = .enters eip esp) : o.signals = [] ∧ f.intNo = 32 := by
  unfold irqHandler at h
  obtain ⟨⟨m', left⟩, -, h⟩ := Option.bind_eq_some_iff.mp h
  cases left with
  | true =>
    cases h
    cases ho
  | false =>
    obtain ⟨⟨k, entry⟩, hk, rfl⟩ := Option.map_eq_some_iff.mp h
    cases entry with
    | none => cases ho
    | some e =>
      refine ⟨rfl, ?_⟩
      by_contra hne
      rw [if_neg hne] at hk
      cases hk

/-- Control went to user mode. -/
def Entered (a : Option (ℕ × Control)) : Prop := ∃ v eip esp, a = some (v, .enters eip esp)

theorem entered_stuck (hw : Wired s.pics) (hr : s.perform e = some (a, t)) (ha : Entered a) : Stuck t.pics := by
  obtain ⟨v, eip, esp, rfl⟩ := ha
  cases e with
  | raise irq => cases hr
  | enable irq => cases hr
  | disable irq => cases hr
  | disableAll => cases hr
  | interrupt c scancode eax ebx eip' cs =>
    cases hack : s.pics.acknowledge with
    | none =>
      simp only [System.perform, hack] at hr
      cases hr
    | some r =>
      obtain ⟨v', p⟩ := r
      simp only [System.perform, hack] at hr
      obtain ⟨o, ho, heq⟩ := Option.map_eq_some_iff.mp hr
      injection heq with hanswer hstate
      injection hanswer with hanswer
      injection hanswer with _ hcontrol
      obtain ⟨hnone, h32⟩ := entered_signals ho hcontrol
      rw [← hstate, hnone]
      exact (acknowledge_takes hw hack).2 h32

theorem run_stuck {es : List Event} {as : List (Option (ℕ × Control))} (hw : Wired s.pics) (hs : Stuck s.pics)
    (hr : performEvents es s = some (as, t)) : ∀ a ∈ as, a = none := by
  induction es generalizing s as with
  | nil =>
    cases hr
    exact fun a ha => absurd ha List.not_mem_nil
  | cons e es ih =>
    obtain ⟨⟨a, u⟩, hfirst, hr⟩ := Option.bind_eq_some_iff.mp hr
    obtain ⟨⟨bs, t'⟩, hrest, heq⟩ := Option.map_eq_some_iff.mp hr
    cases heq
    obtain ⟨hnone, hstuck⟩ := step_stuck hw hs hfirst
    intro b hb
    rcases List.mem_cons.mp hb with rfl | hb
    · exact hnone
    · exact ih (step_wired hw hfirst) hstuck hrest b hb

theorem run_pairwise {es : List Event} {as : List (Option (ℕ × Control))} (hw : Wired s.pics)
    (hr : performEvents es s = some (as, t)) : as.Pairwise (fun a b => Entered a → b = none) := by
  induction es generalizing s as with
  | nil =>
    cases hr
    exact List.Pairwise.nil
  | cons e es ih =>
    obtain ⟨⟨a, u⟩, hfirst, hr⟩ := Option.bind_eq_some_iff.mp hr
    obtain ⟨⟨bs, t'⟩, hrest, heq⟩ := Option.map_eq_some_iff.mp hr
    cases heq
    have hnext := step_wired hw hfirst
    exact List.Pairwise.cons (fun b hb ha => run_stuck hnext (entered_stuck hw hfirst ha) hrest b hb) (ih hnext hrest)

end Stuck

/-- Once a timer tick has entered a process no line is delivered any more, whatever is raised, enabled or awaited. -/
theorem entered_silences (p : Pair) (m : Machine) (es : List Event) (as : List (Option (ℕ × Control))) (t : System)
    (hr : performEvents es ⟨picRemap pairBus p, m⟩ = some (as, t)) : as.Pairwise (fun a b => Entered a → b = none) :=
  run_pairwise (remapped_settled p).wired hr

/-- The tick enters a process that was never started, and the key pressed after it is not seen. -/
theorem entered_silences_sample : ∃ eip esp t, performEvents [.raise 0, .interrupt sampleCpu 0 0 0 0x8048010 0x1B, .raise 1,
      .interrupt sampleCpu 0 0 0 0x8048010 0x1B] ⟨picRemap pairBus sampleChips, sampleBusy⟩ =
        some ([none, some (32, .enters eip esp), none, none], t) ∧
    [none, some (32, .enters eip esp), none, none].Pairwise (fun a b => Entered a → b = none) := by
  refine ⟨_, _, _, rfl, ?_⟩
  exact entered_silences sampleChips sampleBusy [.raise 0, .interrupt sampleCpu 0 0 0 0x8048010 0x1B, .raise 1,
    .interrupt sampleCpu 0 0 0 0x8048010 0x1B] _ _ rfl

end Dionnex.PicLines
