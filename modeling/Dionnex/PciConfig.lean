import Dionnex.PortDevices
import Dionnex.WordBytes

/-!
# The configuration space of PCI

The driver reaches configuration space through an address register and a
data register of 32 bits. What it reads and writes are bytes of the space,
lowest first. A narrow write stores the rest of the word as well: bytes that
can be written or are fixed stay as they are, but a status bit that is
cleared by writing a one is lost.
-/

set_option autoImplicit false

namespace Dionnex.PciConfig
open PortDevices WordBytes

/-- What a driver call is about: a function of a device in a slot on a bus. -/
structure Fn where
  bus : BitVec 8
  slot : BitVec 5
  func : BitVec 3
  deriving DecidableEq, Repr

/-! ## The driver -/

section Driver

variable {σ : Type*} (io : Bus σ) (bus slot func offset : BitVec 8)

def configAddress : BitVec 32 :=
  (bus.setWidth 32 <<< 16) ||| (slot.setWidth 32 <<< 11) ||| (func.setWidth 32 <<< 8) ||| (offset.setWidth 32 &&& 0xFC) |||
    0x80000000

def pciConfigRead32 (s : σ) : BitVec 32 × σ :=
  io.inp 32 0xCFC (io.out 32 0xCF8 (configAddress bus slot func offset) s)

def pciConfigRead16 (s : σ) : BitVec 16 × σ :=
  let r := pciConfigRead32 io bus slot func offset s
  ((r.1 >>> ((offset &&& 2).toNat*8)).setWidth 16, r.2)

def pciConfigRead8 (s : σ) : BitVec 8 × σ :=
  let r := pciConfigRead32 io bus slot func offset s
  ((r.1 >>> ((offset &&& 3).toNat*8)).setWidth 8, r.2)

def pciConfigWrite32 (val : BitVec 32) (s : σ) : σ :=
  io.out 32 0xCFC val (io.out 32 0xCF8 (configAddress bus slot func offset) s)

def pciConfigWrite16 (val : BitVec 16) (s : σ) : σ :=
  let r := pciConfigRead32 io bus slot func offset s
  let shift := (offset &&& 2).toNat*8
  let mask := ~~~(0xFFFF#32 <<< shift)
  pciConfigWrite32 io bus slot func offset ((r.1 &&& mask) ||| (val.setWidth 32 <<< shift)) r.2

def pciConfigWrite8 (val : BitVec 8) (s : σ) : σ :=
  let r := pciConfigRead32 io bus slot func offset s
  let shift := (offset &&& 3).toNat*8
  let mask := ~~~(0xFF#32 <<< shift)
  pciConfigWrite32 io bus slot func offset ((r.1 &&& mask) ||| (val.setWidth 32 <<< shift)) r.2

end Driver

/-! ## Configuration space -/

/-- A byte of a device: bits of `rw` can be written, bits of `w1c` are cleared by a one, the others are fixed. -/
structure Byte where
  value : BitVec 8
  rw : BitVec 8
  w1c : BitVec 8
  apart : rw &&& w1c = 0

def Byte.write (b : Byte) (v : BitVec 8) : Byte :=
  { b with value := (b.value &&& ~~~(b.rw ||| (b.w1c &&& v))) ||| (v &&& b.rw) }

abbrev Space := Fn → BitVec 8 → Byte

def wordAt (c : Space) (f : Fn) (o : BitVec 8) : BitVec 32 := ofBytes (fun i => (c f (o + BitVec.ofNat 8 i)).value)

def putWord (c : Space) (f : Fn) (o : BitVec 8) (v : BitVec 32) : Space := fun g p =>
  if g = f ∧ p &&& 0xFC = o then (c g p).write (byteOf v (p &&& 3).toNat) else c g p

/-- The function and the register that an address selects. -/
def target (a : BitVec 32) : Fn := ⟨(a >>> 16).setWidth 8, (a >>> 11).setWidth 5, (a >>> 8).setWidth 3⟩

def register (a : BitVec 32) : BitVec 8 := a.setWidth 8 &&& 0xFC

/-- The bridge latches an address at port 0xCF8; port 0xCFC is then the register that it selects. -/
structure HostBridge {σ : Type*} (io : Bus σ) where
  latch : σ → BitVec 32
  space : σ → Space
  select : ∀ a s, latch (io.out 32 0xCF8 a s) = a ∧ space (io.out 32 0xCF8 a s) = space s
  read : ∀ s, (latch s).getLsbD 31 = true →
    (io.inp 32 0xCFC s).1 = wordAt (space s) (target (latch s)) (register (latch s)) ∧
    latch (io.inp 32 0xCFC s).2 = latch s ∧ space (io.inp 32 0xCFC s).2 = space s
  write : ∀ v s, (latch s).getLsbD 31 = true →
    space (io.out 32 0xCFC v s) = putWord (space s) (target (latch s)) (register (latch s)) v

/-! ## Bytes of the space -/

def peek32 (c : Space) (f : Fn) (o : BitVec 8) : BitVec 32 := wordAt c f (o &&& 0xFC)

def peek16 (c : Space) (f : Fn) (o : BitVec 8) : BitVec 16 := (c f (o ||| 1)).value ++ (c f (o &&& 0xFE)).value

def peek8 (c : Space) (f : Fn) (o : BitVec 8) : BitVec 8 := (c f o).value

/-- Bytes of the word that are given a value are written with it, the others with their own. -/
def poke (c : Space) (f : Fn) (o : BitVec 8) (new : BitVec 8 → Option (BitVec 8)) : Space := fun g p =>
  if g = f ∧ p &&& 0xFC = o &&& 0xFC then (c g p).write ((new p).getD (c g p).value) else c g p

def named16 (o : BitVec 8) (v : BitVec 16) (p : BitVec 8) : Option (BitVec 8) :=
  if p = o &&& 0xFE then some (v.extractLsb' 0 8) else if p = o ||| 1 then some (v.extractLsb' 8 8) else none

def named8 (o : BitVec 8) (v : BitVec 8) (p : BitVec 8) : Option (BitVec 8) := if p = o then some v else none

theorem bit_enable (j : ℕ) : (0x80000000#32).getLsbD j = decide (j = 31) := by
  rw [BitVec.getLsbD_ofNat, show (0x80000000 : ℕ) = 2^31 from rfl, Nat.testBit_two_pow]
  by_cases h : j = 31
  · simp [h]
  · simp [h, Ne.symm h]

section Address

variable (f : Fn) (o : BitVec 8)

/-- The address of a function's register. -/
def addressOf : BitVec 32 := configAddress f.bus (f.slot.setWidth 8) (f.func.setWidth 8) o

theorem address_bit {j : ℕ} (hj : j < 32) : (addressOf f o).getLsbD j =
    if j < 8 then (o &&& 0xFC).getLsbD j else if j < 11 then f.func.getLsbD (j-8) else
      if j < 16 then f.slot.getLsbD (j-11) else if j < 24 then f.bus.getLsbD (j-16) else decide (j = 31) := by
  have hmask : (0xFC#32).getLsbD j = (if j < 8 then (0xFC#8).getLsbD j else false) := by
    rw [BitVec.getLsbD_ofNat, BitVec.getLsbD_ofNat]
    by_cases h8 : j < 8
    · simp [h8, hj]
    · have hbig : (0xFC : ℕ) < 2^j := lt_of_lt_of_le (by decide) (Nat.pow_le_pow_right (by decide) (Nat.not_lt.mp h8))
      simp [h8, Nat.testBit_lt_two_pow hbig]
  have hbus : ∀ k, 8 ≤ k → f.bus.getLsbD k = false := fun k hk => BitVec.getLsbD_of_ge _ _ hk
  have hslot : ∀ k, 5 ≤ k → f.slot.getLsbD k = false := fun k hk => BitVec.getLsbD_of_ge _ _ hk
  have hfunc : ∀ k, 3 ≤ k → f.func.getLsbD k = false := fun k hk => BitVec.getLsbD_of_ge _ _ hk
  unfold addressOf configAddress
  simp only [BitVec.getLsbD_or, BitVec.getLsbD_shiftLeft, BitVec.getLsbD_setWidth, BitVec.getLsbD_and,
    BitVec.ofNat_eq_ofNat, hmask, bit_enable]
  by_cases h8 : j < 8
  · simp [h8, hj, show j < 11 by omega, show j < 16 by omega, show j ≠ 31 by omega]
  · by_cases h11 : j < 11
    · simp [h8, h11, hj, show j < 16 by omega, show j ≠ 31 by omega, show j-8 < 32 by omega, show j-8 < 8 by omega]
    · by_cases h16 : j < 16
      · simp [h8, h11, h16, hj, show j ≠ 31 by omega, show j-11 < 32 by omega, show j-11 < 8 by omega,
          hfunc (j-8) (by omega)]
      · by_cases h24 : j < 24
        · simp [h8, h11, h16, h24, hj, show j ≠ 31 by omega, show j-16 < 32 by omega, hfunc (j-8) (by omega),
            hslot (j-11) (by omega)]
        · simp [h8, h11, h16, h24, hj, hfunc (j-8) (by omega), hslot (j-11) (by omega), hbus (j-16) (by omega)]

theorem address_enable : (addressOf f o).getLsbD 31 = true := by
  rw [address_bit f o (by decide)]
  rfl

/-- The address selects what it was made from. -/
theorem address_target : target (addressOf f o) = f := by
  have hbus : ((addressOf f o) >>> 16).setWidth 8 = f.bus := by
    apply BitVec.eq_of_getLsbD_eq
    intro j hj
    rw [BitVec.getLsbD_setWidth, BitVec.getLsbD_ushiftRight, address_bit f o (by omega)]
    simp [hj, show ¬ 16+j < 8 by omega, show ¬ 16+j < 11 by omega, show 16+j < 24 by omega]
  have hslot : ((addressOf f o) >>> 11).setWidth 5 = f.slot := by
    apply BitVec.eq_of_getLsbD_eq
    intro j hj
    rw [BitVec.getLsbD_setWidth, BitVec.getLsbD_ushiftRight, address_bit f o (by omega)]
    simp [hj, show ¬ 11+j < 8 by omega, show 11+j < 16 by omega]
  have hfunc : ((addressOf f o) >>> 8).setWidth 3 = f.func := by
    apply BitVec.eq_of_getLsbD_eq
    intro j hj
    rw [BitVec.getLsbD_setWidth, BitVec.getLsbD_ushiftRight, address_bit f o (by omega)]
    simp [hj, show 8+j < 11 by omega]
  unfold target
  rw [hbus, hslot, hfunc]

theorem address_register : register (addressOf f o) = o &&& 0xFC := by
  have hlow : (addressOf f o).setWidth 8 = o &&& 0xFC := by
    apply BitVec.eq_of_getLsbD_eq
    intro j hj
    rw [BitVec.getLsbD_setWidth, address_bit f o (by omega), if_pos hj]
    simp [hj]
  unfold register
  rw [hlow, BitVec.and_assoc]
  rfl

end Address

/-! ## Offsets -/

section Offsets

variable (c : Space) (f : Fn) (o p : BitVec 8)

theorem offset_split : (o &&& 0xFC) + BitVec.ofNat 8 (o &&& 3).toNat = o ∧ (o &&& 3).toNat < 4 := by
  revert o
  decide +kernel

theorem offset_pair : (o &&& 2).toNat+1 < 4 ∧ (o &&& 0xFC) + BitVec.ofNat 8 (o &&& 2).toNat = o &&& 0xFE ∧
    (o &&& 0xFC) + BitVec.ofNat 8 ((o &&& 2).toNat+1) = o ||| 1 := by
  revert o
  decide +kernel

theorem word_byte {i : ℕ} (hi : i < 4) : byteOf (wordAt c f o) i = (c f (o + BitVec.ofNat 8 i)).value :=
  byteOf_ofBytes _ hi

/-- In the same word the low bits tell bytes apart. -/
theorem same_word_iff (h : p &&& 0xFC = o &&& 0xFC) {k : ℕ} (hk : k < 4) :
    (p &&& 3).toNat = k ↔ p = (o &&& 0xFC) + BitVec.ofNat 8 k := by
  obtain ⟨hp, hlt⟩ := offset_split p
  constructor
  · rintro rfl
    rw [← h, hp]
  · intro heq
    have hlow : BitVec.ofNat 8 (p &&& 3).toNat = BitVec.ofNat 8 k := by
      refine (BitVec.add_right_inj (o &&& 0xFC)).mp ?_
      rw [← heq, ← h, hp]
    have hnat := congrArg BitVec.toNat hlow
    rw [BitVec.toNat_ofNat, BitVec.toNat_ofNat] at hnat
    omega

theorem read32_peek : wordAt c f (o &&& 0xFC) = peek32 c f o := rfl

theorem read16_peek : (wordAt c f (o &&& 0xFC) >>> ((o &&& 2).toNat*8)).setWidth 16 = peek16 c f o := by
  obtain ⟨hlt, hlow, hhigh⟩ := offset_pair o
  rw [Nat.mul_comm, shift_pair, word_byte c f _ hlt, word_byte c f _ (by omega), hlow, hhigh]
  rfl

theorem read8_peek : (wordAt c f (o &&& 0xFC) >>> ((o &&& 3).toNat*8)).setWidth 8 = peek8 c f o := by
  obtain ⟨heq, hlt⟩ := offset_split o
  rw [Nat.mul_comm, shift_byte, word_byte c f _ hlt, heq]
  rfl

theorem write32_poke (v : BitVec 32) :
    putWord c f (o &&& 0xFC) v = poke c f o (fun p => some (byteOf v (p &&& 3).toNat)) := rfl

/-- A merged word stores the new bytes and the old values of the others. -/
theorem putWord_poke {v : BitVec 32} {new : BitVec 8 → Option (BitVec 8)}
    (h : ∀ p, p &&& 0xFC = o &&& 0xFC → byteOf v (p &&& 3).toNat = (new p).getD (c f p).value) :
    putWord c f (o &&& 0xFC) v = poke c f o new := by
  funext g p
  unfold putWord poke
  by_cases hp : g = f ∧ p &&& 0xFC = o &&& 0xFC
  · rw [if_pos hp, if_pos hp, h p hp.2, hp.1]
  · rw [if_neg hp, if_neg hp]

theorem write16_poke (v : BitVec 16) : putWord c f (o &&& 0xFC)
      ((wordAt c f (o &&& 0xFC) &&& ~~~(0xFFFF#32 <<< ((o &&& 2).toNat*8))) ||| (v.setWidth 32 <<< ((o &&& 2).toNat*8))) =
    poke c f o (named16 o v) := by
  obtain ⟨hlt, hlow, hhigh⟩ := offset_pair o
  refine putWord_poke c f o (fun p hp => ?_)
  obtain ⟨heq, hp4⟩ := offset_split p
  have hfirst := same_word_iff o p hp (show (o &&& 2).toNat < 4 by omega)
  have hsecond := same_word_iff o p hp hlt
  rw [hlow] at hfirst
  rw [hhigh] at hsecond
  rw [Nat.mul_comm, merge_pair v hlt hp4, word_byte c f _ hp4, ← hp, heq]
  unfold named16
  by_cases h1 : p = o &&& 0xFE
  · rw [if_pos (hfirst.mpr h1), if_pos h1]
    rfl
  · rw [if_neg (fun h => h1 (hfirst.mp h)), if_neg h1]
    by_cases h2 : p = o ||| 1
    · rw [if_pos (hsecond.mpr h2), if_pos h2]
      rfl
    · rw [if_neg (fun h => h2 (hsecond.mp h)), if_neg h2]
      rfl

theorem write8_poke (v : BitVec 8) : putWord c f (o &&& 0xFC)
      ((wordAt c f (o &&& 0xFC) &&& ~~~(0xFF#32 <<< ((o &&& 3).toNat*8))) ||| (v.setWidth 32 <<< ((o &&& 3).toNat*8))) =
    poke c f o (named8 o v) := by
  obtain ⟨hsplit, hlt⟩ := offset_split o
  refine putWord_poke c f o (fun p hp => ?_)
  obtain ⟨heq, hp4⟩ := offset_split p
  have hiff := same_word_iff o p hp hlt
  rw [hsplit] at hiff
  rw [Nat.mul_comm, merge_byte v hlt hp4, word_byte c f _ hp4, ← hp, heq]
  unfold named8
  by_cases h1 : p = o
  · rw [if_pos (hiff.mpr h1), if_pos h1]
    rfl
  · rw [if_neg (fun h => h1 (hiff.mp h)), if_neg h1]
    rfl

end Offsets

/-! ## Calls of the driver -/

section Calls

variable {σ : Type*} {io : Bus σ} (h : HostBridge io) (f : Fn) (o : BitVec 8) (s : σ)

theorem read32_space : let r := pciConfigRead32 io f.bus (f.slot.setWidth 8) (f.func.setWidth 8) o s
    r.1 = peek32 (h.space s) f o ∧ h.space r.2 = h.space s := by
  intro r
  obtain ⟨hlatch, hspace⟩ := h.select (addressOf f o) s
  have hread := h.read (io.out 32 0xCF8 (addressOf f o) s) (by rw [hlatch]; exact address_enable f o)
  rw [hlatch, hspace, address_target, address_register] at hread
  exact ⟨hread.1, hread.2.2⟩

theorem write32_space (v : BitVec 32) :
    h.space (pciConfigWrite32 io f.bus (f.slot.setWidth 8) (f.func.setWidth 8) o v s) =
      putWord (h.space s) f (o &&& 0xFC) v := by
  obtain ⟨hlatch, hspace⟩ := h.select (addressOf f o) s
  have hwrite := h.write v (io.out 32 0xCF8 (addressOf f o) s) (by rw [hlatch]; exact address_enable f o)
  rw [hlatch, hspace, address_target, address_register] at hwrite
  exact hwrite

theorem read16_space : let r := pciConfigRead16 io f.bus (f.slot.setWidth 8) (f.func.setWidth 8) o s
    r.1 = peek16 (h.space s) f o ∧ h.space r.2 = h.space s := by
  obtain ⟨hval, hspace⟩ := read32_space h f o s
  refine ⟨?_, hspace⟩
  rw [← read16_peek]
  unfold pciConfigRead16
  dsimp only
  rw [hval, read32_peek]

theorem read8_space : let r := pciConfigRead8 io f.bus (f.slot.setWidth 8) (f.func.setWidth 8) o s
    r.1 = peek8 (h.space s) f o ∧ h.space r.2 = h.space s := by
  obtain ⟨hval, hspace⟩ := read32_space h f o s
  refine ⟨?_, hspace⟩
  rw [← read8_peek]
  unfold pciConfigRead8
  dsimp only
  rw [hval, read32_peek]

theorem write16_space (v : BitVec 16) :
    h.space (pciConfigWrite16 io f.bus (f.slot.setWidth 8) (f.func.setWidth 8) o v s) =
      poke (h.space s) f o (named16 o v) := by
  obtain ⟨hval, hspace⟩ := read32_space h f o s
  unfold pciConfigWrite16
  dsimp only
  rw [write32_space, hspace, hval, ← read32_peek, write16_poke]

theorem write8_space (v : BitVec 8) :
    h.space (pciConfigWrite8 io f.bus (f.slot.setWidth 8) (f.func.setWidth 8) o v s) =
      poke (h.space s) f o (named8 o v) := by
  obtain ⟨hval, hspace⟩ := read32_space h f o s
  unfold pciConfigWrite8
  dsimp only
  rw [write32_space, hspace, hval, ← read32_peek, write8_poke]

end Calls

inductive Call where
  | read32 (f : Fn) (o : BitVec 8)
  | read16 (f : Fn) (o : BitVec 8)
  | read8 (f : Fn) (o : BitVec 8)
  | write32 (f : Fn) (o : BitVec 8) (v : BitVec 32)
  | write16 (f : Fn) (o : BitVec 8) (v : BitVec 16)
  | write8 (f : Fn) (o : BitVec 8) (v : BitVec 8)
  deriving DecidableEq, Repr

/-- A call of the driver; writes answer nothing. -/
def perform {σ : Type*} (io : Bus σ) : Call → σ → BitVec 32 × σ
  | .read32 f o, s => pciConfigRead32 io f.bus (f.slot.setWidth 8) (f.func.setWidth 8) o s
  | .read16 f o, s =>
    let r := pciConfigRead16 io f.bus (f.slot.setWidth 8) (f.func.setWidth 8) o s
    (r.1.setWidth 32, r.2)
  | .read8 f o, s =>
    let r := pciConfigRead8 io f.bus (f.slot.setWidth 8) (f.func.setWidth 8) o s
    (r.1.setWidth 32, r.2)
  | .write32 f o v, s => (0, pciConfigWrite32 io f.bus (f.slot.setWidth 8) (f.func.setWidth 8) o v s)
  | .write16 f o v, s => (0, pciConfigWrite16 io f.bus (f.slot.setWidth 8) (f.func.setWidth 8) o v s)
  | .write8 f o v, s => (0, pciConfigWrite8 io f.bus (f.slot.setWidth 8) (f.func.setWidth 8) o v s)

/-- The same call on the bytes of the space. -/
def access : Call → Space → BitVec 32 × Space
  | .read32 f o, c => (peek32 c f o, c)
  | .read16 f o, c => ((peek16 c f o).setWidth 32, c)
  | .read8 f o, c => ((peek8 c f o).setWidth 32, c)
  | .write32 f o v, c => (0, poke c f o (fun p => some (byteOf v (p &&& 3).toNat)))
  | .write16 f o v, c => (0, poke c f o (named16 o v))
  | .write8 f o v, c => (0, poke c f o (named8 o v))

theorem call_simulates {σ : Type*} {io : Bus σ} (h : HostBridge io) (call : Call) :
    Simulates (fun s c => h.space s = c) (perform io call) (access call) := by
  rintro s c rfl
  cases call with
  | read32 f o => exact read32_space h f o s
  | read16 f o =>
    obtain ⟨hval, hspace⟩ := read16_space h f o s
    exact ⟨congrArg (BitVec.setWidth 32) hval, hspace⟩
  | read8 f o =>
    obtain ⟨hval, hspace⟩ := read8_space h f o s
    exact ⟨congrArg (BitVec.setWidth 32) hval, hspace⟩
  | write32 f o v => exact ⟨rfl, (write32_space h f o s v).trans (write32_poke _ f o v)⟩
  | write16 f o v => exact ⟨rfl, write16_space h f o s v⟩
  | write8 f o v => exact ⟨rfl, write8_space h f o s v⟩

/-- Behind any host bridge every sequence of configuration accesses is one on the bytes of configuration space. -/
theorem config_is_bytes {σ : Type*} {io : Bus σ} (h : HostBridge io) (calls : List Call) (s : σ) :
    (performAll (perform io) calls s).1 = (performAll access calls (h.space s)).1 ∧
    h.space (performAll (perform io) calls s).2 = (performAll access calls (h.space s)).2 :=
  simulates_all calls (fun call _ => call_simulates h call) s (h.space s) rfl

structure Bridge where
  latch : BitVec 32
  space : Space

/-- A bridge with nothing else behind its ports. -/
def bridgeBus : Bus Bridge where
  inp w port s :=
    if port = 0xCFC ∧ s.latch.getLsbD 31 = true then ((wordAt s.space (target s.latch) (register s.latch)).setWidth w, s)
    else (BitVec.allOnes w, s)
  out _ port v s :=
    if port = 0xCF8 then { s with latch := v.setWidth 32 }
    else if port = 0xCFC ∧ s.latch.getLsbD 31 = true then
      { s with space := putWord s.space (target s.latch) (register s.latch) (v.setWidth 32) }
    else s

def bridge : HostBridge bridgeBus where
  latch := Bridge.latch
  space := Bridge.space
  select a s := ⟨BitVec.setWidth_eq a, rfl⟩
  read s h := by
    have hin : bridgeBus.inp 32 0xCFC s = ((wordAt s.space (target s.latch) (register s.latch)).setWidth 32, s) :=
      if_pos ⟨rfl, h⟩
    rw [hin]
    exact ⟨BitVec.setWidth_eq _, rfl, rfl⟩
  write v s h := by
    have hout : bridgeBus.out 32 0xCFC v s =
        { s with space := putWord s.space (target s.latch) (register s.latch) (v.setWidth 32) } := by
      unfold bridgeBus
      dsimp only
      rw [if_neg (by decide), if_pos ⟨rfl, h⟩]
    rw [hout, BitVec.setWidth_eq]

/-- A status byte behind a command byte that is written. -/
theorem config_is_bytes_sample :
    let calls := [Call.write8 ⟨0, 3, 0⟩ 4 7, Call.read16 ⟨0, 3, 0⟩ 4]
    let start : Bridge := ⟨0, fun _ _ => ⟨0, 0xFF, 0, rfl⟩⟩
    (performAll (perform bridgeBus) calls start).1 = (performAll access calls (bridge.space start)).1 ∧
    bridge.space (performAll (perform bridgeBus) calls start).2 = (performAll access calls (bridge.space start)).2 :=
  config_is_bytes bridge _ _

/-! ## Narrow writes -/

/-- Written with its own value a byte loses the status bits that are set. -/
theorem rewrite_value (b : Byte) : (b.write b.value).value = b.value &&& ~~~b.w1c := by
  apply BitVec.eq_of_getLsbD_eq
  intro j hj
  have hapart : (b.rw &&& b.w1c).getLsbD j = false := by rw [b.apart, BitVec.ofNat_eq_ofNat, BitVec.getLsbD_zero]
  rw [BitVec.getLsbD_and] at hapart
  unfold Byte.write
  simp only [BitVec.getLsbD_or, BitVec.getLsbD_and, BitVec.getLsbD_not, hj, decide_true, Bool.true_and]
  cases hv : b.value.getLsbD j <;> cases hrw : b.rw.getLsbD j <;> cases hw : b.w1c.getLsbD j <;>
    simp [hrw, hw] at hapart ⊢

theorem rewrite_same_iff (b : Byte) : (b.write b.value).value = b.value ↔ b.value &&& b.w1c = 0 := by
  rw [rewrite_value]
  constructor
  · intro h
    rw [← h, BitVec.and_assoc, BitVec.and_comm (~~~b.w1c) b.w1c, BitVec.and_not_self, BitVec.ofNat_eq_ofNat,
      BitVec.and_zero]
  · intro h
    apply BitVec.eq_of_getLsbD_eq
    intro j hj
    have hbit : (b.value &&& b.w1c).getLsbD j = false := by rw [h, BitVec.ofNat_eq_ofNat, BitVec.getLsbD_zero]
    rw [BitVec.getLsbD_and] at hbit
    rw [BitVec.getLsbD_and, BitVec.getLsbD_not, decide_eq_true hj, Bool.true_and]
    cases hv : b.value.getLsbD j with
    | false => rfl
    | true =>
      rw [hv, Bool.true_and] at hbit
      rw [hbit]
      rfl

/-- The bytes that a write does not name keep their values. -/
def Spares (c d : Space) (f : Fn) (new : BitVec 8 → Option (BitVec 8)) : Prop :=
  ∀ g p, (g = f → new p = none) → (d g p).value = (c g p).value

theorem poke_spares_iff (c : Space) (f : Fn) (o : BitVec 8) (new : BitVec 8 → Option (BitVec 8)) :
    Spares c (poke c f o new) f new ↔
      ∀ p, p &&& 0xFC = o &&& 0xFC → new p = none → (c f p).value &&& (c f p).w1c = 0 := by
  constructor
  · intro h p hp hnew
    have hsame := h f p (fun _ => hnew)
    unfold poke at hsame
    rw [if_pos ⟨rfl, hp⟩, hnew] at hsame
    exact (rewrite_same_iff _).mp hsame
  · intro h g p hnew
    unfold poke
    by_cases hp : g = f ∧ p &&& 0xFC = o &&& 0xFC
    · obtain ⟨rfl, hp⟩ := hp
      rw [if_pos ⟨rfl, hp⟩, hnew rfl]
      exact (rewrite_same_iff _).mpr (h p hp (hnew rfl))
    · rw [if_neg hp]

/-- The bytes that it names are written. -/
theorem poke_named {c : Space} {f : Fn} {o p v : BitVec 8} {new : BitVec 8 → Option (BitVec 8)}
    (hp : p &&& 0xFC = o &&& 0xFC) (hnew : new p = some v) : poke c f o new f p = (c f p).write v := by
  unfold poke
  rw [if_pos ⟨rfl, hp⟩, hnew]
  rfl

theorem pair_words (o : BitVec 8) : (o &&& 0xFE) &&& 0xFC = o &&& 0xFC ∧ (o ||| 1) &&& 0xFC = o &&& 0xFC ∧
    o ||| 1 ≠ o &&& 0xFE := by
  revert o
  decide +kernel

theorem named16_none (o : BitVec 8) (v : BitVec 16) (p : BitVec 8) :
    named16 o v p = none ↔ p ≠ o &&& 0xFE ∧ p ≠ o ||| 1 := by
  unfold named16
  split
  · rename_i h1
    constructor
    · intro h
      cases h
    · exact fun h => (h.1 h1).elim
  · rename_i h1
    split
    · rename_i h2
      constructor
      · intro h
        cases h
      · exact fun h => (h.2 h2).elim
    · rename_i h2
      exact ⟨fun _ => ⟨h1, h2⟩, fun _ => rfl⟩

/-- A narrow write stores what it is given, and it spares the rest of the space exactly when no status bit is
pending in the rest of its word. -/
theorem narrow_writes_exact {σ : Type*} {io : Bus σ} (h : HostBridge io) (f : Fn) (o : BitVec 8) (s : σ) :
    (∀ v, let t := pciConfigWrite16 io f.bus (f.slot.setWidth 8) (f.func.setWidth 8) o v s
      h.space t f (o &&& 0xFE) = (h.space s f (o &&& 0xFE)).write (v.extractLsb' 0 8) ∧
      h.space t f (o ||| 1) = (h.space s f (o ||| 1)).write (v.extractLsb' 8 8) ∧
      (Spares (h.space s) (h.space t) f (named16 o v) ↔ ∀ p, p &&& 0xFC = o &&& 0xFC → p ≠ o &&& 0xFE → p ≠ o ||| 1 →
        (h.space s f p).value &&& (h.space s f p).w1c = 0)) ∧
    (∀ v, let t := pciConfigWrite8 io f.bus (f.slot.setWidth 8) (f.func.setWidth 8) o v s
      h.space t f o = (h.space s f o).write v ∧
      (Spares (h.space s) (h.space t) f (named8 o v) ↔ ∀ p, p &&& 0xFC = o &&& 0xFC → p ≠ o →
        (h.space s f p).value &&& (h.space s f p).w1c = 0)) := by
  obtain ⟨hlow, hhigh, hne⟩ := pair_words o
  refine ⟨fun v => ?_, fun v => ?_⟩
  · intro t
    have ht : h.space t = poke (h.space s) f o (named16 o v) := write16_space h f o s v
    have hnone : ∀ p, named16 o v p = none ↔ p ≠ o &&& 0xFE ∧ p ≠ o ||| 1 := fun p => named16_none o v p
    rw [ht]
    refine ⟨poke_named hlow (if_pos rfl), poke_named hhigh ((if_neg hne).trans (if_pos rfl)), ?_⟩
    rw [poke_spares_iff]
    simp only [hnone, and_imp]
  · intro t
    have ht : h.space t = poke (h.space s) f o (named8 o v) := write8_space h f o s v
    have hnone : ∀ p, named8 o v p = none ↔ p ≠ o := fun p => ite_eq_right_iff.trans (by simp)
    rw [ht]
    refine ⟨poke_named rfl (if_pos rfl), ?_⟩
    rw [poke_spares_iff]
    simp only [hnone]

end Dionnex.PciConfig
