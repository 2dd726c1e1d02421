import Dionnex.AtaChannels
import Dionnex.StringBuffers
import Mathlib.Data.List.DropRight

/-!
# The drives that `ata_init` finds

Each of the four places is asked to identify itself: nobody answers, a
packet device answers with its signature, a drive fails or takes any time and
sends 256 words. The strings among these have the bytes of each word the
wrong way round and blanks at the end.
-/

set_option autoImplicit false

namespace Dionnex.AtaDrives
open PortDevices StringBuffers AtaChannels

/-! ## The driver -/

/-- `present` is `exists` in the source. -/
structure AtaDrive where
  present : Bool
  isMaster : Bool
  bus : BitVec 8
  sizeSectors : BitVec 32
  model : Buffer
  serial : Buffer

def AtaDrive.zero : AtaDrive := ⟨false, false, 0, 0, fun _ => 0, fun _ => 0⟩

def swapPairs (str : Buffer) (i : ℕ) : ℕ → Buffer
  | 0 => str
  | n+1 => swapPairs (Function.update (Function.update str i (str (i+1))) (i+1) (str i)) (i+2) n

def padding (c : UInt8) : Bool := c = 32 || c = 0

/-- The loop from the end down, with the bytes before index `i` left. -/
def trimEnd (str : Buffer) : ℕ → Buffer
  | 0 => str
  | i+1 => if padding (str i) then trimEnd (Function.update str i 0) i else str

def ataFixString (str : Buffer) (length : ℕ) : Buffer :=
  trimEnd (Function.update (swapPairs str 0 ((length+1)/2)) length 0) length

/-- `memcpy` of words to a string, the lower byte first. -/
def copyWords (str : Buffer) (data : ℕ → BitVec 16) (first n : ℕ) : Buffer :=
  fun i => if i < n then ⟨((data (first+i/2)) >>> (8*(i%2))).setWidth 8⟩ else str i

section Driver

variable {σ : Type*} (io : Bus σ)

def identifyWords (base : ℕ) : ℕ → ℕ → σ → (ℕ → BitVec 16) → σ × (ℕ → BitVec 16)
  | 0, _, s, data => (s, data)
  | n+1, i, s, data =>
    let r := io.inp 16 base s
    identifyWords base n (i+1) r.2 (Function.update data i r.1)

/-- The commands before the status is looked at. -/
def askIdentity (base ctrl : ℕ) (isSlave : Bool) (s : σ) : σ :=
  let s := io.out 8 (base+6) (if isSlave then 0xB0 else 0xA0) s
  let s := ata400nsDelay io ctrl s
  let s := io.out 8 (base+2) 0 s
  let s := io.out 8 (base+3) 0 s
  let s := io.out 8 (base+4) 0 s
  let s := io.out 8 (base+5) 0 s
  let s := io.out 8 (base+7) 0xEC s
  ata400nsDelay io ctrl s

/-- The record from the words; `identity_data` is what the local array was before. -/
def describe (bus : BitVec 8) (isSlave : Bool) (drive : AtaDrive) (data : ℕ → BitVec 16) : AtaDrive where
  present := true
  isMaster := !isSlave
  bus := bus
  sizeSectors := ((data 61).setWidth 32 <<< 16) ||| (data 60).setWidth 32
  model := ataFixString (copyWords drive.model data 27 40) 40
  serial := ataFixString (copyWords drive.serial data 10 20) 20

/-- `none` when the rounds of the waiting loops do not suffice. -/
def ataIdentify (rounds : ℕ) (bus : BitVec 8) (isSlave : Bool) (drive : AtaDrive) (s : σ) : Option (ℤ × AtaDrive × σ) :=
  let base := ioBase bus
  let status := io.inp 8 (base+7) (askIdentity io base (ctrlBase bus) isSlave s)
  if status.1 = 0 then some (-1, drive, status.2)
  else (pollWhile (io.inp 8 (base+7)) bsy rounds status.1 status.2).bind (fun r =>
    let mid := io.inp 8 (base+4) r.2
    let high := io.inp 8 (base+5) mid.2
    if mid.1 ≠ 0 ∨ high.1 ≠ 0 then some (-1, drive, high.2)
    else (pollWhile (io.inp 8 (base+7)) (fun status => !drq status && !err status) rounds r.1 high.2).bind (fun r =>
      if err r.1 then some (-1, drive, r.2)
      else
        let t := identifyWords io base 256 0 r.2 (fun _ => 0)
        some (0, describe bus isSlave drive t.2, t.1)))

/-- The lines that `ata_init` prints. -/
inductive Message where
  | found (bus : BitVec 8) (isSlave : Bool) (model : Buffer) (megabytes : BitVec 32)
  | noDrives

def megabytes (sizeSectors : BitVec 32) : BitVec 32 := (sizeSectors*512) / (1024*1024)

structure Drives (σ : Type*) where
  drives : ℕ → AtaDrive
  activeDriveCount : ℕ
  messages : List Message
  dev : σ

/-- The rest of a round of the inner loop, with the answer of `ata_identify`. -/
def noteDrive (idx : ℕ) (d : Drives σ) (r : ℤ × AtaDrive × σ) : Drives σ :=
  if r.1 = 0 then
    ⟨Function.update d.drives idx r.2.1, (d.activeDriveCount+1) % 256,
      d.messages ++ [.found (BitVec.ofNat 8 (idx/2)) (decide (idx%2 = 1)) r.2.1.model (megabytes r.2.1.sizeSectors)], r.2.2⟩
  else { d with drives := Function.update d.drives idx r.2.1, dev := r.2.2 }

/-- `idx` is the bus and the place on it. -/
def initDrive (rounds idx : ℕ) (d : Drives σ) : Option (Drives σ) :=
  (ataIdentify io rounds (BitVec.ofNat 8 (idx/2)) (decide (idx%2 = 1)) (d.drives idx) d.dev).bind (fun r =>
    some (noteDrive idx d r))

def initLoop (rounds : ℕ) : List ℕ → Drives σ → Option (Drives σ)
  | [], d => some d
  | idx::l, d => (initDrive io rounds idx d).bind (initLoop rounds l)

/-- The last line, when nothing was found. -/
def noteNone (d : Drives σ) : Drives σ :=
  if d.activeDriveCount = 0 then { d with messages := d.messages ++ [.noDrives] } else d

def ataInit (rounds : ℕ) (s : σ) : Option (Drives σ) :=
  (initLoop io rounds [0, 1, 2, 3] ⟨fun _ => .zero, 0, [], s⟩).bind (fun d => some (noteNone d))

/-- The place of the drive, and `none` for a null pointer. -/
def ataGetDrive (d : Drives σ) (bus driveIdx : BitVec 8) : Option ℕ :=
  let idx := (bus*2 + driveIdx).toNat
  if idx < 4 ∧ (d.drives idx).present then some idx else none

end Driver

/-! ## Strings -/

/-- The text of `n` words, the upper byte of each first, without what pads it at the end. -/
def spelled (w : ℕ → BitVec 16) (first n : ℕ) : List UInt8 :=
  ((List.range n).flatMap (fun k => [⟨((w (first+k)) >>> 8).setWidth 8⟩, ⟨(w (first+k)).setWidth 8⟩])).rdropWhile padding

/-- The byte on the other side of a word. -/
def partner (j : ℕ) : ℕ := if j%2 = 0 then j+1 else j-1

theorem swapPairs_apply (str : Buffer) (i n j : ℕ) (hi : i%2 = 0) :
    swapPairs str i n j = if i ≤ j ∧ j < i+2*n then str (partner j) else str j := by
  induction n generalizing str i with
  | zero => rw [swapPairs, if_neg (by omega)]
  | succ n ih =>
    rw [swapPairs, ih _ _ (by omega)]
    by_cases hin : i+2 ≤ j ∧ j < i+2+2*n
    · have hfar : i+2 ≤ partner j := by
        unfold partner
        split <;> omega
      rw [if_pos hin, if_pos (show i ≤ j ∧ j < i+2*(n+1) by omega), Function.update_of_ne (by omega),
        Function.update_of_ne (by omega)]
    · rw [if_neg hin]
      by_cases h0 : j = i
      · have hp : partner j = i+1 := by
          unfold partner
          rw [if_pos (by omega), h0]
        rw [if_pos (show i ≤ j ∧ j < i+2*(n+1) by omega), hp, h0, Function.update_of_ne (by omega), Function.update_self]
      · by_cases h1 : j = i+1
        · have hp : partner j = i := by
            unfold partner
            rw [if_neg (by omega), h1, Nat.add_sub_cancel]
          rw [if_pos (show i ≤ j ∧ j < i+2*(n+1) by omega), hp, h1, Function.update_self]
        · rw [if_neg (show ¬ (i ≤ j ∧ j < i+2*(n+1)) by omega), Function.update_of_ne h1, Function.update_of_ne h0]

theorem trimEnd_apply (str : Buffer) (n j : ℕ) :
    trimEnd str n j = if j < n then (((List.range n).map str).rdropWhile padding).getD j 0 else str j := by
  induction n generalizing str with
  | zero => rw [trimEnd, if_neg (Nat.not_lt_zero j)]
  | succ n ih =>
    rw [trimEnd, List.range_succ, List.map_append, List.map_singleton, List.rdropWhile_concat]
    cases hp : padding (str n) with
    | true =>
      have hsame : (List.range n).map (Function.update str n 0) = (List.range n).map str :=
        List.map_congr_left (fun k hk => Function.update_of_ne (Nat.ne_of_lt (List.mem_range.mp hk)) _ _)
      rw [if_pos rfl, if_pos rfl, ih, hsame]
      by_cases hlt : j < n
      · rw [if_pos hlt, if_pos (Nat.lt_succ_of_lt hlt)]
      · rw [if_neg hlt]
        by_cases he : j = n
        · subst he
          rw [Function.update_self, if_pos (Nat.lt_succ_self j)]
          have hlen : (((List.range j).map str).rdropWhile padding).length ≤ j := by
            have hprefix := (List.rdropWhile_prefix padding (l := (List.range j).map str)).length_le
            rwa [List.length_map, List.length_range] at hprefix
          exact (List.getD_eq_default _ _ hlen).symm
        · rw [Function.update_of_ne he, if_neg (by omega)]
    | false =>
      rw [if_neg Bool.false_ne_true, if_neg Bool.false_ne_true]
      by_cases hlt : j < n+1
      · rw [if_pos hlt]
        have hget : ((List.range (n+1)).map str).getD j 0 = str j := by simp [hlt]
        rw [List.range_succ, List.map_append, List.map_singleton] at hget
        exact hget.symm
      · rw [if_neg hlt]

theorem pairs_range (f : ℕ → UInt8) (n : ℕ) :
    (List.range n).flatMap (fun k => [f (2*k), f (2*k+1)]) = (List.range (2*n)).map f := by
  induction n with
  | zero => rfl
  | succ n ih =>
    rw [List.range_succ, List.flatMap_append, ih, List.flatMap_singleton, Nat.mul_succ, List.range_succ, List.range_succ,
      List.map_append, List.map_append, List.append_assoc]
    rfl

/-- A string of `n` words comes out as their text, with NULs up to its end. -/
theorem fixed_text (str : Buffer) (w : ℕ → BitVec 16) (first n i : ℕ) (hi : i ≤ 2*n) :
    ataFixString (copyWords str w first (2*n)) (2*n) i = (spelled w first n).getD i 0 := by
  have hspelled : spelled w first n = ((List.range (2*n)).map
      (Function.update (swapPairs (copyWords str w first (2*n)) 0 ((2*n+1)/2)) (2*n) 0)).rdropWhile padding := by
    unfold spelled
    congr 1
    rw [← pairs_range]
    refine List.flatMap_congr (fun k hk => ?_)
    have hkn := List.mem_range.mp hk
    have heven : Function.update (swapPairs (copyWords str w first (2*n)) 0 ((2*n+1)/2)) (2*n) 0 (2*k) =
        ⟨((w (first+k)) >>> 8).setWidth 8⟩ := by
      rw [Function.update_of_ne (by omega), swapPairs_apply _ _ _ _ rfl, if_pos (by omega), partner, if_pos (by omega),
        copyWords, if_pos (by omega), show (2*k+1)/2 = k by omega, show 8*((2*k+1)%2) = 8 by omega]
    have hodd : Function.update (swapPairs (copyWords str w first (2*n)) 0 ((2*n+1)/2)) (2*n) 0 (2*k+1) =
        ⟨(w (first+k)).setWidth 8⟩ := by
      rw [Function.update_of_ne (by omega), swapPairs_apply _ _ _ _ rfl, if_pos (by omega), partner, if_neg (by omega),
        copyWords, if_pos (by omega), Nat.add_sub_cancel, show 2*k/2 = k by omega, show 8*(2*k%2) = 0 by omega]
      rfl
    rw [heven, hodd]
  unfold ataFixString
  rw [trimEnd_apply, hspelled]
  by_cases hlt : i < 2*n
  · rw [if_pos hlt]
  · obtain rfl : i = 2*n := by omega
    rw [if_neg hlt, Function.update_self]
    have hprefix := (List.rdropWhile_prefix padding (l := (List.range (2*n)).map
      (Function.update (swapPairs (copyWords str w first (2*n)) 0 ((2*n+1)/2)) (2*n) 0))).length_le
    rw [List.length_map, List.length_range] at hprefix
    exact (List.getD_eq_default _ _ hprefix).symm

/-! ## Places for drives -/

/-- What can be asked. Without a controller the lines float, and a packet device has a signature. -/
inductive Place where
  | nobody
  | floating
  | packet (mid high : BitVec 8) (h : mid ≠ 0 ∨ high ≠ 0)
  | failing
  | disk (words : ℕ → BitVec 16)

def Place.signature : Place → BitVec 8 × BitVec 8
  | .packet mid high _ => (mid, high)
  | _ => (0, 0)

/-- A channel: after a command the place that is selected takes its time and then has a word to give. -/
structure Asked where
  places : Bool → Place
  selected : Bool
  delays : ℕ → ℕ
  asks : ℕ
  wait : ℕ
  pos : ℕ

structure Prober {σ : Type*} (io : Bus σ) where
  view : σ → Bool → Asked
  select : ∀ b v s, view (io.out 8 (portOf b + 6) v s) =
    Function.update (view s) b { view s b with selected := v.getLsbD 4 }
  register : ∀ b r v s, 2 ≤ r → r ≤ 5 → view (io.out 8 (portOf b + r) v s) = view s
  ask : ∀ b s, view (io.out 8 (portOf b + 7) 0xEC s) = Function.update (view s) b
    { view s b with wait := (view s b).delays (view s b).asks, asks := (view s b).asks+1, pos := 0 }
  altStatus : ∀ b s, view (io.inp 8 (ctrlOf b) s).2 = view s
  silent : ∀ b s, (view s b).places (view s b).selected = .nobody → (io.inp 8 (portOf b + 7) s).1 = 0
  floats : ∀ b s, (view s b).places (view s b).selected = .floating → (io.inp 8 (portOf b + 7) s).1 = 0xFF
  present : ∀ b s p, (view s b).places (view s b).selected = p → p ≠ .nobody → p ≠ .floating →
    (io.inp 8 (portOf b + 7) s).1 ≠ 0 ∧ bsy (io.inp 8 (portOf b + 7) s).1 = decide ((view s b).wait ≠ 0) ∧
    ((view s b).wait = 0 → (err (io.inp 8 (portOf b + 7) s).1 = true ↔ p = .failing) ∧
      ∀ w, p = .disk w → drq (io.inp 8 (portOf b + 7) s).1 = true)
  look : ∀ b s, view (io.inp 8 (portOf b + 7) s).2 = Function.update (view s) b { view s b with wait := (view s b).wait-1 }
  signature : ∀ b s, (view s b).wait = 0 → ((io.inp 8 (portOf b + 4) s).1, (io.inp 8 (portOf b + 5) s).1) =
    ((view s b).places (view s b).selected).signature
  quiet : ∀ b r s, r = 4 ∨ r = 5 → view (io.inp 8 (portOf b + r) s).2 = view s
  word : ∀ b s w, (view s b).places (view s b).selected = .disk w → (view s b).wait = 0 → (view s b).pos < 256 →
    (io.inp 16 (portOf b) s).1 = w (view s b).pos ∧
    view (io.inp 16 (portOf b) s).2 = Function.update (view s) b { view s b with pos := (view s b).pos+1 }

/-! ### The places as a device -/

def Asked.place (c : Asked) : Place := c.places c.selected

def Asked.status (c : Asked) : BitVec 8 :=
  match c.place with
  | .nobody => 0
  | .floating => 0xFF
  | .packet _ _ _ => if c.wait = 0 then 0x40 else 0x80
  | .failing => if c.wait = 0 then 0x41 else 0x80
  | .disk _ => if c.wait = 0 then 0x48 else 0x80

def Asked.wordIn (c : Asked) : BitVec 16 × Asked :=
  match c.place with
  | .disk w => if c.wait = 0 ∧ c.pos < 256 then (w c.pos, { c with pos := c.pos+1 }) else (0, c)
  | _ => (0, c)

def Asked.inp (c : Asked) (w r : ℕ) : BitVec w × Asked :=
  if r = 0 then (c.wordIn.1.setWidth w, c.wordIn.2)
  else if r = 4 then (c.place.signature.1.setWidth w, c)
  else if r = 5 then (c.place.signature.2.setWidth w, c)
  else if r = 7 then (c.status.setWidth w, { c with wait := c.wait-1 })
  else (c.status.setWidth w, c)

def Asked.out (c : Asked) {w : ℕ} (r : ℕ) (v : BitVec w) : Asked :=
  if r = 6 then { c with selected := v.getLsbD 4 }
  else if r = 7 ∧ v.toNat = 0xEC then { c with wait := c.delays c.asks, asks := c.asks+1, pos := 0 }
  else c

def askedBus : Bus (Bool → Asked) where
  inp := fun w port s => match decode port with
    | some (b, r) => (((s b).inp w r).1, Function.update s b ((s b).inp w r).2)
    | none => (0, s)
  out := fun _ port v s => match decode port with
    | some (b, r) => Function.update s b ((s b).out r v)
    | none => s

theorem asked_status (c : Asked) (h1 : c.place ≠ .nobody) (h2 : c.place ≠ .floating) :
    c.status ≠ 0 ∧ bsy c.status = decide (c.wait ≠ 0) ∧ (c.wait = 0 → (err c.status = true ↔ c.place = .failing) ∧
      ∀ w, c.place = .disk w → drq c.status = true) := by
  unfold Asked.status
  cases hp : c.place with
  | nobody => exact absurd hp h1
  | floating => exact absurd hp h2
  | packet mid high h => by_cases hw : c.wait = 0 <;> simp [hw, bsy, err]
  | failing => by_cases hw : c.wait = 0 <;> simp [hw, bsy, err]
  | disk w => by_cases hw : c.wait = 0 <;> simp [hw, bsy, err, drq]

theorem asked_read (b : Bool) (s : Bool → Asked) : (askedBus.inp 8 (portOf b + 7) s).1 = (s b).status := by
  simp only [askedBus, decode_port b (le_refl 7), Asked.inp, if_neg (show 7 ≠ 0 by decide), if_neg (show 7 ≠ 4 by decide),
    if_neg (show 7 ≠ 5 by decide), if_true, BitVec.setWidth_eq]

theorem asked_register (b : Bool) (r : ℕ) (v : BitVec 8) (s : Bool → Asked) (hlow : 2 ≤ r) (hhigh : r ≤ 5) :
    askedBus.out 8 (portOf b + r) v s = s := by
  have h6 : r ≠ 6 := by omega
  have h7 : ¬ (r = 7 ∧ v.toNat = 0xEC) := by omega
  simp only [askedBus, decode_port b (show r ≤ 7 by omega), Asked.out, if_neg h6, if_neg h7]
  exact Function.update_eq_self b s

def askedProber : Prober askedBus where
  view := id
  select := by
    intro b v s
    simp only [askedBus, decode_port b (show 6 ≤ 7 by decide), Asked.out, if_true, id]
  register := asked_register
  ask := by
    intro b s
    simp only [askedBus, decode_port b (le_refl 7), Asked.out, if_neg (show 7 ≠ 6 by decide), id]
    rfl
  altStatus := by
    intro b s
    simp only [askedBus, decode_ctrl, Asked.inp, id]
    exact Function.update_eq_self b s
  silent := by
    intro b s h
    have hp : (s b).place = .nobody := h
    rw [asked_read, Asked.status, hp]
  floats := by
    intro b s h
    have hp : (s b).place = .floating := h
    rw [asked_read, Asked.status, hp]
  present := by
    intro b s p hp h1 h2
    subst hp
    rw [asked_read]
    exact asked_status (s b) h1 h2
  look := by
    intro b s
    simp only [askedBus, decode_port b (le_refl 7), Asked.inp, if_neg (show 7 ≠ 0 by decide), if_neg (show 7 ≠ 4 by decide),
      if_neg (show 7 ≠ 5 by decide), if_true, id]
  signature := by
    intro b s _
    simp only [askedBus, decode_port b (show 4 ≤ 7 by decide), decode_port b (show 5 ≤ 7 by decide), Asked.inp,
      if_neg (show 4 ≠ 0 by decide), if_neg (show 5 ≠ 0 by decide), if_neg (show 5 ≠ 4 by decide), if_true,
      BitVec.setWidth_eq, id]
    rfl
  quiet := by
    rintro b r s (rfl | rfl)
    · simp only [askedBus, decode_port b (show 4 ≤ 7 by decide), Asked.inp, if_neg (show 4 ≠ 0 by decide), if_true, id]
      exact Function.update_eq_self b s
    · simp only [askedBus, decode_port b (show 5 ≤ 7 by decide), Asked.inp, if_neg (show 5 ≠ 0 by decide),
        if_neg (show 5 ≠ 4 by decide), if_true, id]
      exact Function.update_eq_self b s
  word := by
    intro b s w hp hw hpos
    have hplace : (s b).place = .disk w := hp
    have hword : (s b).wordIn = (w (s b).pos, { s b with pos := (s b).pos+1 }) := by
      unfold Asked.wordIn
      rw [hplace]
      exact if_pos ⟨hw, hpos⟩
    have hport := decode_port b (Nat.zero_le 7)
    rw [Nat.add_zero] at hport
    simp only [askedBus, hport, Asked.inp, if_true, hword, BitVec.setWidth_eq, id]
    exact ⟨trivial, trivial⟩

section Asking

variable {σ : Type*} {io : Bus σ} (P : Prober io) {v : Bool → Asked} {b : Bool} {s : σ} {place : Place} {w pos : ℕ}

/-- The channel is as told, and the other one and all places are as they were. -/
def Seen (v : Bool → Asked) (b : Bool) (s : σ) (place : Place) (w pos : ℕ) : Prop :=
  ∃ c : Asked, P.view s = Function.update v b c ∧ c.places = (v b).places ∧ c.places c.selected = place ∧ c.wait = w ∧
    c.pos = pos

theorem seen_places (h : Seen P v b s place w pos) (a : Bool) : (P.view s a).places = (v a).places := by
  obtain ⟨c, hv, hc, -⟩ := h
  rw [hv]
  by_cases ha : a = b
  · rw [ha, Function.update_self, hc]
  · rw [Function.update_of_ne ha]

theorem seen_self (h : Seen P v b s place w pos) :
    (P.view s b).places (P.view s b).selected = place ∧ (P.view s b).wait = w ∧ (P.view s b).pos = pos := by
  obtain ⟨c, hv, -, hc⟩ := h
  rw [hv, Function.update_self]
  exact hc

theorem delay_view (b : Bool) (s : σ) : P.view (ata400nsDelay io (ctrlOf b) s) = P.view s := by
  unfold ata400nsDelay
  rw [P.altStatus, P.altStatus, P.altStatus, P.altStatus]

theorem asked (b isSlave : Bool) (s : σ) :
    ∃ w, Seen P (P.view s) b (askIdentity io (portOf b) (ctrlOf b) isSlave s) ((P.view s b).places isSlave) w 0 := by
  have hbit : (if isSlave then (0xB0 : BitVec 8) else 0xA0).getLsbD 4 = isSlave := by cases isSlave <;> rfl
  let c := { P.view s b with selected := isSlave }
  refine ⟨c.delays c.asks, { c with wait := c.delays c.asks, asks := c.asks+1, pos := 0 }, ?_, rfl, rfl, rfl, rfl⟩
  unfold askIdentity
  have h0 : P.view (ata400nsDelay io (ctrlOf b) (io.out 8 (portOf b + 6) (if isSlave then 0xB0 else 0xA0) s)) =
      Function.update (P.view s) b c := by
    rw [delay_view, P.select, hbit]
  simp only [delay_view, P.ask, P.register b _ _ _ (le_refl 2) (by decide), P.register b 3 _ _ (by decide) (by decide),
    P.register b 4 _ _ (by decide) (by decide), P.register b 5 _ _ (by decide) (by decide), h0, Function.update_idem,
    Function.update_self]

theorem seen_look (h : Seen P v b s place w pos) : Seen P v b (io.inp 8 (portOf b + 7) s).2 place (w-1) pos := by
  obtain ⟨c, hv, hp, hplace, hw, hpos⟩ := h
  have hc : P.view s b = c := by rw [hv, Function.update_self]
  refine ⟨{ c with wait := c.wait-1 }, ?_, hp, hplace, by rw [hw], hpos⟩
  rw [P.look, hc, hv, Function.update_idem]

/-- However long the place takes, the loop on the busy bit ends with its status. -/
theorem busy_over (h1 : place ≠ .nobody) (h2 : place ≠ .floating) (h : Seen P v b s place w pos) :
    ∃ status s', Settles (fun n => pollWhile (io.inp 8 (portOf b + 7)) bsy n (io.inp 8 (portOf b + 7) s).1
        (io.inp 8 (portOf b + 7) s).2) (status, s') ∧ (err status = true ↔ place = .failing) ∧
      (∀ w, place = .disk w → drq status = true) ∧ Seen P v b s' place 0 pos := by
  induction w generalizing s with
  | zero =>
    obtain ⟨hplace, hw, -⟩ := seen_self P h
    obtain ⟨-, hbsy, hstatus⟩ := P.present b s place hplace h1 h2
    obtain ⟨herr, hdrq⟩ := hstatus hw
    refine ⟨_, _, poll_done ?_, herr, hdrq, seen_look P h⟩
    rw [hbsy, hw]
    rfl
  | succ w ih =>
    obtain ⟨hplace, hw, -⟩ := seen_self P h
    obtain ⟨-, hbsy, -⟩ := P.present b s place hplace h1 h2
    obtain ⟨status, s', hs, hrest⟩ := ih (seen_look P h)
    refine ⟨status, s', poll_next ?_ hs, hrest⟩
    rw [hbsy, hw]
    rfl

theorem floating_waits (h : Seen P v b s .floating w pos) (n : ℕ) :
    pollWhile (io.inp 8 (portOf b + 7)) bsy n (io.inp 8 (portOf b + 7) s).1 (io.inp 8 (portOf b + 7) s).2 = none := by
  induction n generalizing s w with
  | zero => rfl
  | succ n ih =>
    have hff := P.floats b s (seen_self P h).1
    rw [pollWhile, if_pos (by rw [hff]; decide)]
    exact ih (seen_look P h)

theorem seen_words {words : ℕ → BitVec 16} (data : ℕ → BitVec 16) {n : ℕ} (hn : pos+n ≤ 256)
    (h : Seen P v b s (.disk words) 0 pos) :
    Seen P v b (identifyWords io (portOf b) n pos s data).1 (.disk words) 0 (pos+n) ∧
    (identifyWords io (portOf b) n pos s data).2 = fun i => if pos ≤ i ∧ i < pos+n then words i else data i := by
  induction n generalizing s pos data with
  | zero =>
    refine ⟨h, ?_⟩
    funext i
    rw [if_neg (by omega)]
    rfl
  | succ n ih =>
    obtain ⟨hplace, hw, hpos⟩ := seen_self P h
    obtain ⟨hword, hview⟩ := P.word b s words hplace hw (by omega)
    have hnext : Seen P v b (io.inp 16 (portOf b) s).2 (.disk words) 0 (pos+1) := by
      obtain ⟨c, hv, hp, hc, hcw, hcp⟩ := h
      have hself : P.view s b = c := by rw [hv, Function.update_self]
      refine ⟨{ c with pos := c.pos+1 }, ?_, hp, hc, hcw, by rw [hcp]⟩
      rw [hview, hself, hv, Function.update_idem]
    obtain ⟨hlast, hdata⟩ := ih (Function.update data pos (io.inp 16 (portOf b) s).1) (by omega) hnext
    rw [identifyWords]
    refine ⟨by rw [show pos+(n+1) = pos+1+n by omega]; exact hlast, hdata.trans ?_⟩
    funext i
    by_cases he : i = pos
    · subst he
      rw [if_neg (by omega), if_pos (by omega), Function.update_self, hword, hpos]
    · rw [Function.update_of_ne he, if_congr (show pos+1 ≤ i ∧ i < pos+1+n ↔ pos ≤ i ∧ i < pos+(n+1) by omega) rfl rfl]

theorem seen_quiet {r : ℕ} (hr : r = 4 ∨ r = 5) (h : Seen P v b s place w pos) :
    Seen P v b (io.inp 8 (portOf b + r) s).2 place w pos := by
  obtain ⟨c, hv, hc⟩ := h
  exact ⟨c, (P.quiet b r s hr).trans hv, hc⟩

/-- The words that the driver has room for. -/
def firstWords (w : ℕ → BitVec 16) : ℕ → BitVec 16 := fun i => if i < 256 then w i else 0

/-- What the call answers, and the record it leaves. -/
def identity (place : Place) (bus : BitVec 8) (isSlave : Bool) (drive : AtaDrive) : ℤ × AtaDrive :=
  match place with
  | .disk w => (0, describe bus isSlave drive (firstWords w))
  | _ => (-1, drive)

theorem identified (bus : BitVec 8) (isSlave : Bool) (drive : AtaDrive) (s : σ)
    (hplace : (P.view s (decide (bus ≠ 0))).places isSlave = place) (hne : place ≠ .floating) :
    ∃ s', Settles (fun n => ataIdentify io n bus isSlave drive s)
        ((identity place bus isSlave drive).1, (identity place bus isSlave drive).2, s') ∧
      ∀ a, (P.view s' a).places = (P.view s a).places := by
  obtain ⟨w, hasked⟩ := asked P (decide (bus ≠ 0)) isSlave s
  rw [hplace] at hasked
  unfold ataIdentify
  simp only [ioBase_port, ctrlBase_port]
  by_cases h0 : place = .nobody
  · subst h0
    have hzero := P.silent _ _ (seen_self P hasked).1
    refine ⟨_, ?_, seen_places P (seen_look P hasked)⟩
    simp only [hzero, if_true]
    exact settles_some
  · have hstatus := (P.present _ _ _ (seen_self P hasked).1 h0 hne).1
    simp only [if_neg hstatus]
    obtain ⟨status, t, ht, herr, hdrq, hseen⟩ := busy_over P h0 hne hasked
    have hmid := seen_quiet P (Or.inl rfl) hseen
    have hhigh := seen_quiet P (Or.inr rfl) hmid
    obtain ⟨hplace1, hwait1, -⟩ := seen_self P hseen
    obtain ⟨hplace2, hwait2, -⟩ := seen_self P hmid
    have hsig1 := congrArg Prod.fst (P.signature _ t hwait1)
    have hsig2 := congrArg Prod.snd (P.signature _ _ hwait2)
    rw [hplace1] at hsig1
    rw [hplace2] at hsig2
    simp only at hsig1 hsig2
    cases place with
    | nobody => exact absurd rfl h0
    | floating => exact absurd rfl hne
    | packet mid high hsig =>
      refine ⟨_, settles_bind ht ?_, seen_places P hhigh⟩
      simp only [hsig1, hsig2, Place.signature, if_pos hsig]
      exact settles_some
    | failing =>
      refine ⟨_, settles_bind ht ?_, seen_places P hhigh⟩
      simp only [hsig1, hsig2, Place.signature, ne_eq, not_true_eq_false, or_self, if_false]
      refine settles_bind (poll_done ?_) ?_
      · rw [herr.mpr rfl, Bool.not_true, Bool.and_false]
      · simp only [herr.mpr rfl, if_true]
        exact settles_some
    | disk words =>
      have hgood : err status = false := by
        cases he : err status with
        | false => rfl
        | true => cases herr.mp he
      obtain ⟨hlast, hdata⟩ := seen_words P (fun _ => 0) (show 0+256 ≤ 256 by decide) hhigh
      refine ⟨_, settles_bind ht ?_, seen_places P hlast⟩
      simp only [hsig1, hsig2, Place.signature, ne_eq, not_true_eq_false, or_self, if_false]
      refine settles_bind (poll_done ?_) ?_
      · rw [hdrq words rfl, Bool.not_true, Bool.false_and]
      · simp only [hgood, Bool.false_eq_true, if_false, hdata, Nat.zero_add, Nat.zero_le, true_and]
        exact settles_some

theorem identify_hangs (bus : BitVec 8) (isSlave : Bool) (drive : AtaDrive) (s : σ)
    (hplace : (P.view s (decide (bus ≠ 0))).places isSlave = .floating) (n : ℕ) :
    ataIdentify io n bus isSlave drive s = none := by
  obtain ⟨w, hasked⟩ := asked P (decide (bus ≠ 0)) isSlave s
  rw [hplace] at hasked
  have hff := P.floats _ _ (seen_self P hasked).1
  unfold ataIdentify
  simp only [ioBase_port, ctrlBase_port]
  rw [if_neg (by rw [hff]; decide), floating_waits P hasked n]
  rfl

/-! ## All places -/

def busOf (idx : ℕ) : BitVec 8 := BitVec.ofNat 8 (idx/2)

def slaveOf (idx : ℕ) : Bool := decide (idx%2 = 1)

def Prober.placeAt (s : σ) (idx : ℕ) : Place := (P.view s (decide (busOf idx ≠ 0))).places (slaveOf idx)

def Place.isDisk : Place → Bool
  | .disk _ => true
  | _ => false

/-- A disk is described by its words, and nothing is said of any other place. -/
def Describes (bus : BitVec 8) (isSlave : Bool) (r : AtaDrive) : Place → Prop
  | .disk w => r.present = true ∧ r.isMaster = !isSlave ∧ r.bus = bus ∧ r.sizeSectors = w 61 ++ w 60 ∧
    (∀ i ≤ 40, r.model i = (spelled w 27 20).getD i 0) ∧ ∀ i ≤ 20, r.serial i = (spelled w 10 10).getD i 0
  | _ => r = .zero

def messageOf (bus : BitVec 8) (isSlave : Bool) (r : AtaDrive) : Option Message :=
  if r.present then some (.found bus isSlave r.model (megabytes r.sizeSectors)) else none

theorem words_append (high low : BitVec 16) : (high.setWidth 32 <<< 16) ||| low.setWidth 32 = high ++ low := by
  apply BitVec.eq_of_getLsbD_eq
  intro i hi
  rw [BitVec.getLsbD_or, BitVec.getLsbD_shiftLeft, BitVec.getLsbD_setWidth, BitVec.getLsbD_setWidth, BitVec.getLsbD_append]
  by_cases h16 : i < 16
  · simp [h16, hi]
  · rw [BitVec.getLsbD_of_ge low i (by omega)]
    simp [h16, hi, show i-16 < 32 by omega]

theorem spelled_first {w : ℕ → BitVec 16} {first n : ℕ} (h : first+n ≤ 256) :
    spelled (firstWords w) first n = spelled w first n := by
  unfold spelled
  congr 1
  refine List.flatMap_congr (fun k hk => ?_)
  have hkn := List.mem_range.mp hk
  rw [firstWords, if_pos (by omega)]

theorem identity_describes (p : Place) (bus : BitVec 8) (isSlave : Bool) :
    Describes bus isSlave (identity p bus isSlave .zero).2 p ∧ (identity p bus isSlave .zero).2.present = p.isDisk ∧
      ((identity p bus isSlave .zero).1 = 0 ↔ p.isDisk = true) := by
  cases p with
  | disk w =>
    refine ⟨⟨rfl, rfl, rfl, words_append _ _, fun i hi => ?_, fun i hi => ?_⟩, rfl, iff_of_true rfl rfl⟩
    · exact (fixed_text _ (firstWords w) 27 20 i hi).trans (congrArg (fun l => l.getD i 0) (spelled_first (by decide)))
    · exact (fixed_text _ (firstWords w) 10 10 i hi).trans (congrArg (fun l => l.getD i 0) (spelled_first (by decide)))
  | _ => exact ⟨rfl, rfl, iff_of_false (show (-1 : ℤ) ≠ 0 by decide) Bool.false_ne_true⟩

/-- What a row of rounds has done to the table, the count and the lines. -/
structure After (place : ℕ → Place) (l : List ℕ) (d d' : Drives σ) : Prop where
  table : ∀ idx, d'.drives idx = if idx ∈ l then (identity (place idx) (busOf idx) (slaveOf idx) .zero).2 else d.drives idx
  count : d'.activeDriveCount = (d.activeDriveCount + (l.filter (fun idx => (place idx).isDisk)).length) % 256
  messages : d'.messages = d.messages ++ l.filterMap (fun idx => messageOf (busOf idx) (slaveOf idx) (d'.drives idx))
  places : ∀ a, (P.view d'.dev a).places = (P.view d.dev a).places

theorem placeAt_kept {s t : σ} (h : ∀ a, (P.view t a).places = (P.view s a).places) : P.placeAt t = P.placeAt s := by
  funext idx
  unfold Prober.placeAt
  rw [h]

/-- One round. -/
theorem drive_after (idx : ℕ) (d : Drives σ) (hc : d.activeDriveCount < 256) (hzero : d.drives idx = .zero)
    (hne : P.placeAt d.dev idx ≠ .floating) :
    ∃ d', Settles (fun n => initDrive io n idx d) d' ∧ After P (P.placeAt d.dev) [idx] d d' := by
  obtain ⟨a, ha⟩ : ∃ a, a = identity (P.placeAt d.dev idx) (busOf idx) (slaveOf idx) .zero := ⟨_, rfl⟩
  obtain ⟨t, ht, hplaces⟩ := @identified _ _ P (P.placeAt d.dev idx) (busOf idx) (slaveOf idx) .zero d.dev rfl hne
  obtain ⟨-, hpresent, hanswer⟩ := identity_describes (P.placeAt d.dev idx) (busOf idx) (slaveOf idx)
  rw [← hzero] at ht
  rw [hzero, ← ha] at ht
  rw [← ha] at hpresent hanswer
  have htable : ∀ k, Function.update d.drives idx a.2 k =
      if k ∈ [idx] then (identity (P.placeAt d.dev k) (busOf k) (slaveOf k) .zero).2 else d.drives k := by
    intro k
    by_cases hk : k = idx
    · rw [hk, Function.update_self, if_pos (List.mem_singleton_self idx), ha]
    · rw [Function.update_of_ne hk, if_neg (fun h => hk (List.mem_singleton.mp h))]
  have hsettles : Settles (fun n => initDrive io n idx d) (noteDrive idx d (a.1, a.2, t)) := by
    unfold initDrive
    rw [hzero]
    exact settles_bind ht settles_some
  refine ⟨_, hsettles, ?_⟩
  unfold noteDrive
  cases hd : (P.placeAt d.dev idx).isDisk with
  | true =>
    rw [hd] at hpresent
    rw [if_pos (hanswer.mpr hd)]
    refine ⟨htable, ?_, ?_, hplaces⟩
    · rw [List.filter_singleton, hd]
      rfl
    · simp only [List.filterMap_cons, List.filterMap_nil, messageOf, Function.update_self, hpresent, if_true]
      rfl
  | false =>
    rw [hd] at hpresent
    rw [if_neg (fun h => Bool.false_ne_true (hd.symm.trans (hanswer.mp h)))]
    refine ⟨htable, ?_, ?_, hplaces⟩
    · rw [List.filter_singleton, hd]
      exact (Nat.mod_eq_of_lt hc).symm
    · simp only [List.filterMap_cons, List.filterMap_nil, messageOf, Function.update_self, hpresent, Bool.false_eq_true,
        if_false, List.append_nil]

theorem loop_after (l : List ℕ) (hl : l.Nodup) (d : Drives σ) (hc : d.activeDriveCount < 256)
    (hzero : ∀ idx ∈ l, d.drives idx = .zero) (hne : ∀ idx ∈ l, P.placeAt d.dev idx ≠ .floating) :
    ∃ d', Settles (fun n => initLoop io n l d) d' ∧ After P (P.placeAt d.dev) l d d' := by
  induction l generalizing d with
  | nil =>
    refine ⟨d, settles_some, fun idx => (if_neg List.not_mem_nil).symm, ?_, (List.append_nil _).symm, fun _ => rfl⟩
    exact (Nat.mod_eq_of_lt hc).symm
  | cons idx l ih =>
    obtain ⟨hidx, hl⟩ := List.nodup_cons.mp hl
    obtain ⟨d1, hfirst, h1⟩ := drive_after P idx d hc (hzero idx List.mem_cons_self) (hne idx List.mem_cons_self)
    have hplace := placeAt_kept P h1.places
    have hrest : ∀ k ∈ l, d1.drives k = .zero := by
      intro k hk
      have hne' : k ∉ [idx] := by
        rintro hmem
        rw [List.mem_singleton.mp hmem] at hk
        exact hidx hk
      rw [h1.table, if_neg hne']
      exact hzero k (List.mem_cons_of_mem _ hk)
    obtain ⟨d2, hlast, h2⟩ := ih hl d1 (by rw [h1.count]; exact Nat.mod_lt _ (by decide)) hrest
      (fun k hk => by rw [hplace]; exact hne k (List.mem_cons_of_mem _ hk))
    rw [hplace] at h2
    refine ⟨d2, settles_bind hfirst hlast, fun k => ?_, ?_, ?_, fun a => (h2.places a).trans (h1.places a)⟩
    · rw [h2.table, h1.table]
      by_cases hk : k ∈ l
      · rw [if_pos hk, if_pos (List.mem_cons_of_mem _ hk)]
      · rw [if_neg hk, if_congr (show k ∈ [idx] ↔ k ∈ idx::l from ?_) rfl rfl]
        rw [List.mem_singleton, List.mem_cons]
        exact ⟨Or.inl, fun h => h.resolve_right hk⟩
    · have hcons : idx::l = [idx] ++ l := rfl
      rw [h2.count, h1.count, hcons, List.filter_append, List.length_append]
      omega
    · have hsame : d2.drives idx = d1.drives idx := by rw [h2.table, if_neg hidx]
      have hone : [idx].filterMap (fun k => messageOf (busOf k) (slaveOf k) (d1.drives k)) =
          [idx].filterMap (fun k => messageOf (busOf k) (slaveOf k) (d2.drives k)) := by
        simp only [List.filterMap_cons, List.filterMap_nil, hsame]
      rw [h2.messages, h1.messages, List.append_assoc, hone, ← List.filterMap_append, List.singleton_append]

theorem loop_hangs (l : List ℕ) (hl : l.Nodup) (d : Drives σ) (hc : d.activeDriveCount < 256)
    (hzero : ∀ idx ∈ l, d.drives idx = .zero) (hf : ∃ idx ∈ l, P.placeAt d.dev idx = .floating) :
    Hangs (fun n => initLoop io n l d) := by
  induction l generalizing d with
  | nil =>
    obtain ⟨idx, hidx, -⟩ := hf
    exact absurd hidx List.not_mem_nil
  | cons idx l ih =>
    by_cases hidx : P.placeAt d.dev idx = .floating
    · exact hangs_bind (hangs_bind ⟨0, fun n _ => identify_hangs P (busOf idx) (slaveOf idx) _ _ hidx n⟩)
    · obtain ⟨hnot, hl⟩ := List.nodup_cons.mp hl
      obtain ⟨d1, hfirst, h1⟩ := drive_after P idx d hc (hzero idx List.mem_cons_self) hidx
      refine hangs_after hfirst (ih hl d1 (by rw [h1.count]; exact Nat.mod_lt _ (by decide)) (fun k hk => ?_) ?_)
      · have hne' : k ∉ [idx] := by
          intro hmem
          rw [List.mem_singleton.mp hmem] at hk
          exact hnot hk
        rw [h1.table, if_neg hne']
        exact hzero k (List.mem_cons_of_mem _ hk)
      · obtain ⟨k, hk, hfloat⟩ := hf
        rw [placeAt_kept P h1.places]
        refine ⟨k, (List.mem_cons.mp hk).resolve_left ?_, hfloat⟩
        rintro rfl
        exact hidx hfloat

theorem note_fields (d : Drives σ) : (noteNone d).drives = d.drives ∧ (noteNone d).activeDriveCount = d.activeDriveCount ∧
    (noteNone d).messages = d.messages ++ (if d.activeDriveCount = 0 then [.noDrives] else []) := by
  unfold noteNone
  split
  · exact ⟨rfl, rfl, rfl⟩
  · exact ⟨rfl, rfl, (List.append_nil _).symm⟩

/-- Drives of 4 GiB and more are shown as what they exceed a multiple of that by. -/
theorem megabytes_wrap (size : BitVec 32) : (megabytes size).toNat = size.toNat % 8388608 / 2048 := by
  unfold megabytes
  rw [BitVec.toNat_udiv, BitVec.toNat_mul]
  show size.toNat * 512 % 4294967296 / 1048576 = _
  omega

end Asking

/-- One disk as the second drive of the first bus, with a blank at the end of each string. -/
def sampleAsked (b : Bool) : Asked where
  places := fun d => if b = false ∧ d = true then .disk (fun i => if i = 61 then 1 else 0x4120) else .nobody
  selected := false
  delays := fun n => n
  asks := 0
  wait := 0
  pos := 0

end Dionnex.AtaDrives
