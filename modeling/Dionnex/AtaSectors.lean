import Dionnex.AtaChannels

/-!
# Sectors through the ATA ports

Seen through the driver two channels with two drives each are a store of
sectors. Calls in any order, with anything done to the memory in between,
have the effects that they have on the sectors themselves.
-/

set_option autoImplicit false

namespace Dionnex.AtaSectors
open ByteMemory PortDevices AtaChannels

/-! ## Calls -/

/-- What a program does between and with the calls. -/
inductive Call where
  | read (bus driveType : BitVec 8) (lba : BitVec 32) (count : BitVec 8) (buf : ℕ)
  | write (bus driveType : BitVec 8) (lba : BitVec 32) (count : BitVec 8) (buf : ℕ)
  | compute (f : Mem → Mem)

def channelOf (bus : BitVec 8) : Bool := decide (bus ≠ 0)

def driveOf (driveType : BitVec 8) : Bool := driveType.getLsbD 0

def sectorOf (lba : BitVec 32) : ℕ := lba.toNat % 268435456

def Call.perform {σ : Type*} (io : Bus σ) (rounds : ℕ) : Call → σ → Mem → Option (ℤ × σ × Mem)
  | .read bus driveType lba count buf, s, m => ataReadSectors io rounds bus driveType lba count buf s m
  | .write bus driveType lba count buf, s, m =>
    (ataWriteSectors io rounds bus driveType lba count buf s m).bind (fun r => some (r.1, r.2, m))
  | .compute f, s, m => some (0, s, f m)

/-- The answers in order, the hardware and the memory after all calls. -/
def performCalls {σ : Type*} (io : Bus σ) (rounds : ℕ) : List Call → σ → Mem → Option (List ℤ × σ × Mem)
  | [], s, m => some ([], s, m)
  | c::cs, s, m => (c.perform io rounds s m).bind (fun r =>
    (performCalls io rounds cs r.2.1 r.2.2).bind (fun t => some (r.1::t.1, t.2)))

/-- The calls on the sectors themselves. -/
def Call.meaning (bad : Bool → Bool → ℕ → Bool) : Call → Disks × Mem → ℤ × Disks × Mem
  | .read bus driveType lba count buf, (disks, m) =>
    (answer (bad (channelOf bus) (driveOf driveType)) (sectorOf lba) count.toNat, disks,
      storeWords m buf (fromSector (disks (channelOf bus) (driveOf driveType)) (sectorOf lba))
        (256*moved (bad (channelOf bus) (driveOf driveType)) (sectorOf lba) count.toNat))
  | .write bus driveType lba count buf, (disks, m) =>
    (answer (bad (channelOf bus) (driveOf driveType)) (sectorOf lba) count.toNat,
      Function.update disks (channelOf bus) (written (disks (channelOf bus)) (driveOf driveType) (sectorOf lba)
        (moved (bad (channelOf bus) (driveOf driveType)) (sectorOf lba) count.toNat) m buf), m)
  | .compute f, (disks, m) => (0, disks, f m)

/-- Two drives, the sector 9 of the slave bad, and sectors that take up to two looks. -/
def sampleChannel : Channel where
  disk := fun _ l p => BitVec.ofNat 16 (1000*l+p)
  bad := fun d l => d && decide (l = 9)
  delays := fun n => n % 3
  waits := 0
  reg := fun _ => 0
  phase := .idle

section Runs

variable {σ : Type*} {io : Bus σ} (C : Controller io) {s : σ}

theorem disks_seen {b : Bool} {s' : σ} {disk : Bool → ℕ → ℕ → BitVec 16} {bad : Bool → ℕ → Bool} {phase : Phase}
    (h : Seen C (C.view s) b s' disk bad phase) : C.disks s' = Function.update (C.disks s) b disk := by
  obtain ⟨c, hv, rfl, -, -⟩ := h
  unfold Controller.disks
  rw [hv]
  exact Function.comp_update Channel.disk (C.view s) b c

theorem bads_seen {b : Bool} {s' : σ} {disk : Bool → ℕ → ℕ → BitVec 16} {phase : Phase}
    (h : Seen C (C.view s) b s' disk (C.view s b).bad phase) : C.bads s' = C.bads s := by
  obtain ⟨c, hv, -, hbad, -⟩ := h
  unfold Controller.bads
  rw [hv]
  have hcomp := Function.comp_update Channel.bad (C.view s) b c
  rw [hbad] at hcomp
  exact hcomp.trans (Function.update_eq_self b _)

theorem ready_seen {b : Bool} {s' : σ} {disk : Bool → ℕ → ℕ → BitVec 16} {bad : Bool → ℕ → Bool} {phase : Phase}
    (h : Seen C (C.view s) b s' disk bad phase) (hb : (C.view s' b).Ready) (hready : ∀ a, (C.view s a).Ready) (a : Bool) :
    (C.view s' a).Ready := by
  by_cases ha : a = b
  · rw [ha]
    exact hb
  · obtain ⟨c, hv, -⟩ := h
    rw [hv, Function.update_of_ne ha]
    exact hready a

theorem read_means (bus driveType : BitVec 8) (lba : BitVec 32) (count : BitVec 8) (buf : ℕ) (m : Mem)
    (hready : ∀ b, (C.view s b).Ready) :
    ∃ s', Settles (fun n => ataReadSectors io n bus driveType lba count buf s m)
        (answer (C.bads s (channelOf bus) (driveOf driveType)) (sectorOf lba) count.toNat, s',
          storeWords m buf (fromSector (C.disks s (channelOf bus) (driveOf driveType)) (sectorOf lba))
            (256*moved (C.bads s (channelOf bus) (driveOf driveType)) (sectorOf lba) count.toNat)) ∧
      C.disks s' = C.disks s ∧ C.bads s' = C.bads s ∧ ∀ b, (C.view s' b).Ready := by
  by_cases hcount : count = 0
  · subst hcount
    exact ⟨s, settles_some, rfl, rfl, hready⟩
  · obtain ⟨w, hstart⟩ := @seen_start _ _ C s driveType lba count hcount 0x20 false rfl (channelOf bus) (hready _)
    obtain ⟨s', phase, hs, hseen, hlast⟩ := seen_readLoop C rfl m buf rfl hstart
    refine ⟨s', ?_, (disks_seen C hseen).trans (Function.update_eq_self _ _), bads_seen C hseen,
      ready_seen C hseen hlast hready⟩
    simp only [ataReadSectors, if_neg hcount, ioBase_port, ctrlBase_port]
    exact hs

theorem write_means (bus driveType : BitVec 8) (lba : BitVec 32) (count : BitVec 8) (buf : ℕ) (m : Mem)
    (hready : ∀ b, (C.view s b).Ready) :
    ∃ s', Settles (fun n => ataWriteSectors io n bus driveType lba count buf s m)
        (answer (C.bads s (channelOf bus) (driveOf driveType)) (sectorOf lba) count.toNat, s') ∧
      C.disks s' = Function.update (C.disks s) (channelOf bus)
        (written (C.disks s (channelOf bus)) (driveOf driveType) (sectorOf lba)
          (moved (C.bads s (channelOf bus) (driveOf driveType)) (sectorOf lba) count.toNat) m buf) ∧
      C.bads s' = C.bads s ∧ ∀ b, (C.view s' b).Ready := by
  by_cases hcount : count = 0
  · subst hcount
    refine ⟨s, settles_some, ?_, rfl, hready⟩
    exact (Function.update_eq_self _ _).symm.trans (congrArg _ (written_none _ _ _ _ _).symm)
  · obtain ⟨w, hstart⟩ := @seen_start _ _ C s driveType lba count hcount 0x30 true rfl (channelOf bus) (hready _)
    obtain ⟨s', phase, hs, hseen, hlast⟩ := seen_writeLoop C rfl m buf rfl hstart
    refine ⟨s', ?_, disks_seen C hseen, bads_seen C hseen, ready_seen C hseen hlast hready⟩
    simp only [ataWriteSectors, if_neg hcount, ioBase_port, ctrlBase_port]
    exact hs

/-- Every call ends, with the answer and the effects of its meaning. -/
theorem call_means (c : Call) (m : Mem) (hready : ∀ b, (C.view s b).Ready) :
    ∃ s', Settles (fun n => c.perform io n s m)
        ((c.meaning (C.bads s) (C.disks s, m)).1, s', (c.meaning (C.bads s) (C.disks s, m)).2.2) ∧
      C.disks s' = (c.meaning (C.bads s) (C.disks s, m)).2.1 ∧ C.bads s' = C.bads s ∧ ∀ b, (C.view s' b).Ready := by
  cases c with
  | read bus driveType lba count buf => exact read_means C bus driveType lba count buf m hready
  | write bus driveType lba count buf =>
    obtain ⟨s', hs, hlast⟩ := write_means C bus driveType lba count buf m hready
    exact ⟨s', settles_bind hs settles_some, hlast⟩
  | compute f => exact ⟨s, settles_some, rfl, rfl, hready⟩

/-- Any calls in any order: each of them ends, and the drives and the memory are those of the meanings. -/
theorem calls_mean (cs : List Call) (m : Mem) (hready : ∀ b, (C.view s b).Ready) :
    ∃ s', Settles (fun n => performCalls io n cs s m)
        ((performAll (Call.meaning (C.bads s)) cs (C.disks s, m)).1, s',
          (performAll (Call.meaning (C.bads s)) cs (C.disks s, m)).2.2) ∧
      C.disks s' = (performAll (Call.meaning (C.bads s)) cs (C.disks s, m)).2.1 ∧ C.bads s' = C.bads s ∧
      ∀ b, (C.view s' b).Ready := by
  induction cs generalizing s m with
  | nil => exact ⟨s, settles_some, rfl, rfl, hready⟩
  | cons c cs ih =>
    obtain ⟨t, hfirst, hdisks, hbads, hnext⟩ := call_means C c m hready
    obtain ⟨s', hrest, hlast⟩ := ih (c.meaning (C.bads s) (C.disks s, m)).2.2 hnext
    rw [hdisks, hbads] at hrest hlast
    exact ⟨s', settles_bind hfirst (settles_bind hrest settles_some), hlast⟩

/-- The call does not write to these sectors of the drive. -/
def Call.Spares (b d : Bool) (first n : ℕ) : Call → Prop
  | .write bus driveType lba count _ => channelOf bus ≠ b ∨ driveOf driveType ≠ d ∨
    sectorOf lba + count.toNat ≤ first ∨ first+n ≤ sectorOf lba
  | _ => True

theorem meaning_spares {bad : Bool → Bool → ℕ → Bool} {b d : Bool} {first n : ℕ} {c : Call} (h : c.Spares b d first n)
    (x : Disks × Mem) {l : ℕ} (hl : first ≤ l ∧ l < first+n) (p : ℕ) : (c.meaning bad x).2.1 b d l p = x.1 b d l p := by
  cases c with
  | read bus driveType lba count buf => rfl
  | compute f => rfl
  | write bus driveType lba count buf =>
    obtain ⟨disks, m⟩ := x
    show Function.update disks (channelOf bus) _ b d l p = disks b d l p
    by_cases hb : b = channelOf bus
    · subst hb
      have hle := (moved_spec (bad (channelOf bus) (driveOf driveType)) (sectorOf lba) count.toNat).1
      rw [Function.update_self, written, if_neg]
      rintro ⟨rfl, hlow, hhigh, -⟩
      obtain h | h | h | h := h
      · exact h rfl
      · exact h rfl
      · omega
      · omega
    · rw [Function.update_of_ne hb]

theorem all_spare {bad : Bool → Bool → ℕ → Bool} {b d : Bool} {first n : ℕ} {cs : List Call}
    (h : ∀ c ∈ cs, c.Spares b d first n) (x : Disks × Mem) {l : ℕ} (hl : first ≤ l ∧ l < first+n) (p : ℕ) :
    (performAll (Call.meaning bad) cs x).2.1 b d l p = x.1 b d l p :=
  all_invariant (I := fun y => y.1 b d l p = x.1 b d l p) cs (fun c hc y hy => (meaning_spares (h c hc) y hl p).trans hy) rfl

theorem moved_all {bad : ℕ → Bool} {lba n : ℕ} (h : ∀ i < n, bad (lba+i) = false) : moved bad lba n = n := by
  obtain ⟨hle, -, hbad⟩ := moved_spec bad lba n
  by_contra hne
  have hlt : moved bad lba n < n := Nat.lt_of_le_of_ne hle hne
  rw [h _ hlt] at hbad
  exact Bool.false_ne_true (hbad hlt)

theorem load8_word {m m' : Mem} {a b : ℕ} (h : load16 m a = load16 m' b) :
    load8 m a = load8 m' b ∧ load8 m (a+1) = load8 m' (b+1) := by
  have hm := load8_lt m a
  have hm' := load8_lt m' b
  unfold load16 at h
  omega

end Runs

end Dionnex.AtaSectors
