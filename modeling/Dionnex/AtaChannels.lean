import Dionnex.ByteMemory
import Dionnex.PortDevices

/-!
# An ATA channel and its driver

`ata_read_sectors` and `ata_write_sectors` program the task file, wait for
each sector and move it word by word. A channel takes any time for a sector,
can fail at any of them, and takes commands only when no sector is under
way. The two loops of the driver end, and they move the sectors up to the
first bad one.
-/

set_option autoImplicit false

namespace Dionnex.AtaChannels
open ByteMemory PortDevices

/-! ## The driver -/

section Driver

variable {σ : Type*} (io : Bus σ)

def ioBase (bus : BitVec 8) : ℕ := if bus = 0 then 0x1F0 else 0x170

def ctrlBase (bus : BitVec 8) : ℕ := if bus = 0 then 0x3F6 else 0x376

/-- The bits 0x80, 0x08 and 0x01 of the status. -/
def bsy (status : BitVec 8) : Bool := status &&& 0x80 ≠ 0

def drq (status : BitVec 8) : Bool := status &&& 0x08 ≠ 0

def err (status : BitVec 8) : Bool := status &&& 0x01 ≠ 0

def ata400nsDelay (ctrlPort : ℕ) (s : σ) : σ :=
  (io.inp 8 ctrlPort (io.inp 8 ctrlPort (io.inp 8 ctrlPort (io.inp 8 ctrlPort s).2).2).2).2

/-- The byte that selects the drive and the upper address bits. -/
def driveByte (driveType : BitVec 8) (lba : BitVec 32) : BitVec 8 :=
  (0xE0#32 ||| (driveType.setWidth 32 <<< 4) ||| ((lba >>> 24) &&& 0x0F#32)).setWidth 8

/-- The six register writes before the loop. -/
def startTransfer (base : ℕ) (driveType : BitVec 8) (lba : BitVec 32) (count command : BitVec 8) (s : σ) : σ :=
  let s := io.out 8 (base+6) (driveByte driveType lba) s
  let s := io.out 8 (base+2) count s
  let s := io.out 8 (base+3) (lba.setWidth 8) s
  let s := io.out 8 (base+4) ((lba >>> 8).setWidth 8) s
  let s := io.out 8 (base+5) ((lba >>> 16).setWidth 8) s
  io.out 8 (base+7) command s

/-- The beginning of a round, up to the test of the error bit. -/
def waitSector (base ctrl rounds : ℕ) (s : σ) : Option (BitVec 8 × σ) :=
  let status := io.inp 8 (base+7) (ata400nsDelay io ctrl s)
  (pollWhile (io.inp 8 (base+7)) (fun status => bsy status && !err status) rounds status.1 status.2).bind (fun r =>
    pollWhile (io.inp 8 (base+7)) (fun status => !drq status && !err status) rounds r.1 r.2)

def readWords (base : ℕ) : ℕ → ℕ → σ → Mem → σ × Mem
  | 0, _, s, m => (s, m)
  | n+1, ptr, s, m =>
    let r := io.inp 16 base s
    readWords base n (ptr+2) r.2 (store16 m ptr r.1.toNat)

def writeWords (base : ℕ) (m : Mem) : ℕ → ℕ → σ → σ
  | 0, _, s => s
  | n+1, ptr, s => writeWords base m n (ptr+2) (io.out 16 base (BitVec.ofNat 16 (load16 m ptr)) s)

def readLoop (base ctrl rounds : ℕ) : ℕ → ℕ → σ → Mem → Option (ℤ × σ × Mem)
  | 0, _, s, m => some (0, s, m)
  | left+1, ptr, s, m => (waitSector io base ctrl rounds s).bind (fun r =>
    if err r.1 then some (-1, r.2, m)
    else
      let t := readWords io base 256 ptr r.2 m
      readLoop base ctrl rounds left (ptr+512) t.1 t.2)

def writeLoop (base ctrl rounds : ℕ) (m : Mem) : ℕ → ℕ → σ → Option (ℤ × σ)
  | 0, _, s => some (0, io.out 8 (base+7) 0xE7 s)
  | left+1, ptr, s => (waitSector io base ctrl rounds s).bind (fun r =>
    if err r.1 then some (-1, r.2)
    else writeLoop base ctrl rounds m left (ptr+512) (writeWords io base m 256 ptr r.2))

/-- `none` when the rounds of the waiting loops do not suffice. -/
def ataReadSectors (rounds : ℕ) (bus driveType : BitVec 8) (lba : BitVec 32) (count : BitVec 8) (buf : ℕ) (s : σ)
    (m : Mem) : Option (ℤ × σ × Mem) :=
  if count = 0 then some (0, s, m)
  else readLoop io (ioBase bus) (ctrlBase bus) rounds count.toNat buf
    (startTransfer io (ioBase bus) driveType lba count 0x20 s) m

def ataWriteSectors (rounds : ℕ) (bus driveType : BitVec 8) (lba : BitVec 32) (count : BitVec 8) (buf : ℕ) (s : σ)
    (m : Mem) : Option (ℤ × σ) :=
  if count = 0 then some (0, s)
  else writeLoop io (ioBase bus) (ctrlBase bus) rounds m count.toNat buf
    (startTransfer io (ioBase bus) driveType lba count 0x30 s)

end Driver

/-! ## Words in memory -/

/-- Memory with `n` words from `ptr` on. -/
def storeWords (m : Mem) (ptr : ℕ) (f : ℕ → BitVec 16) : ℕ → Mem
  | 0 => m
  | n+1 => storeWords (store16 m ptr (f 0).toNat) (ptr+2) (fun i => f (i+1)) n

theorem storeWords_append (m : Mem) (ptr : ℕ) (f : ℕ → BitVec 16) (n k : ℕ) :
    storeWords m ptr f (n+k) = storeWords (storeWords m ptr f n) (ptr+2*n) (fun i => f (n+i)) k := by
  induction n generalizing m ptr f with
  | zero => simp only [Nat.zero_add, Nat.mul_zero, Nat.add_zero, storeWords]
  | succ n ih =>
    rw [Nat.add_right_comm n 1 k, storeWords, ih, storeWords]
    congr 1
    · omega
    · funext i
      congr 1
      omega

theorem storeWords_off (m : Mem) (ptr : ℕ) (f : ℕ → BitVec 16) (n : ℕ) :
    SameOff (span ptr (2*n)) m (storeWords m ptr f n) := by
  induction n generalizing m ptr f with
  | zero => exact SameOff.refl _ _
  | succ n ih =>
    exact ((store16_off m ptr _).mono (span_mono (by omega))).trans ((ih _ _ _).mono (span_shift (by omega)))

/-- A block of words that does not come round again keeps its first one. -/
theorem span_apart {a n : ℕ} (h : 2+2*n ≤ 4294967296) : Disjoint (span a 2) (span (a+2) (2*n)) := by
  refine Set.disjoint_left.mpr ?_
  rintro x ⟨i, hi, rfl⟩ ⟨j, hj, he⟩
  unfold wrap at he
  omega

theorem load16_storeWords (m : Mem) (ptr : ℕ) (f : ℕ → BitVec 16) {n i : ℕ} (hn : 2*n ≤ 4294967296) (hi : i < n) :
    load16 (storeWords m ptr f n) (ptr+2*i) = (f i).toNat := by
  induction n generalizing m ptr f i with
  | zero => omega
  | succ n ih =>
    rw [storeWords]
    cases i with
    | zero =>
      have happart : Disjoint (span ptr 2) (span (ptr+2) (2*n)) := span_apart (by omega)
      exact (load16_off (storeWords_off _ _ _ _) happart).trans (load16_store16 m ptr (f 0).isLt)
    | succ i =>
      rw [show ptr+2*(i+1) = ptr+2+2*i by omega, ih _ _ _ (by omega) (by omega)]

/-! ## Drives -/

/-- What a drive is doing: sectors are left to be moved from `lba` on. -/
structure Job where
  write : Bool
  drive : Bool
  lba : ℕ
  left : ℕ
  deriving DecidableEq, Repr

/-- A sector under way is busy for `wait` more looks at the status, and `pos` words of it are done. -/
inductive Phase where
  | idle
  | active (job : Job) (wait pos : ℕ)
  deriving DecidableEq, Repr

/-- A channel with the words of its two drives, the sectors that fail, and the time that each sector takes. -/
structure Channel where
  disk : Bool → ℕ → ℕ → BitVec 16
  bad : Bool → ℕ → Bool
  delays : ℕ → ℕ
  waits : ℕ
  reg : ℕ → BitVec 8
  phase : Phase

def Channel.start (c : Channel) (job : Job) : Channel :=
  if job.left = 0 then { c with phase := .idle }
  else { c with phase := .active job (c.delays c.waits) 0, waits := c.waits+1 }

/-- The 28 bits of the address registers. -/
def Channel.lba (c : Channel) : ℕ :=
  (c.reg 3).toNat + 256*(c.reg 4).toNat + 65536*(c.reg 5).toNat + 16777216*((c.reg 6).toNat % 16)

/-- Writing 0 asks for 256 sectors. -/
def Channel.count (c : Channel) : ℕ := if c.reg 2 = 0 then 256 else (c.reg 2).toNat

/-- Reads and writes start a transfer; the other commands do not touch the sectors. -/
def Channel.command (c : Channel) (v : BitVec 8) : Channel :=
  if v = 0x20 then c.start ⟨false, (c.reg 6).getLsbD 4, c.lba, c.count⟩
  else if v = 0x30 then c.start ⟨true, (c.reg 6).getLsbD 4, c.lba, c.count⟩
  else { c with phase := .idle }

def Channel.setReg (c : Channel) (r : ℕ) (v : BitVec 8) : Channel := { c with reg := Function.update c.reg r v }

def Channel.busy (c : Channel) : Bool :=
  match c.phase with
  | .active _ (_+1) _ => true
  | _ => false

def Channel.error (c : Channel) : Bool :=
  match c.phase with
  | .active job 0 _ => c.bad job.drive job.lba
  | _ => false

def Channel.request (c : Channel) : Bool :=
  match c.phase with
  | .active job 0 _ => !c.bad job.drive job.lba
  | _ => false

/-- Looking at the status lets time pass. -/
def Channel.tick (c : Channel) : Channel :=
  match c.phase with
  | .active job (wait+1) pos => { c with phase := .active job wait pos }
  | _ => c

/-- After a word the next one or the next sector follows. -/
def Channel.next (c : Channel) (job : Job) (pos : ℕ) : Channel :=
  if pos+1 = 256 then c.start { job with lba := job.lba+1, left := job.left-1 }
  else { c with phase := .active job 0 (pos+1) }

def Channel.store (c : Channel) (drive : Bool) (lba pos : ℕ) (v : BitVec 16) : Channel :=
  { c with disk := fun d l p => if d = drive ∧ l = lba ∧ p = pos then v else c.disk d l p }

/-- The channel takes registers and commands: no sector is under way. -/
def Channel.Ready (c : Channel) : Prop := c.busy = false ∧ c.request = false

def portOf (b : Bool) : ℕ := if b then 0x170 else 0x1F0

def ctrlOf (b : Bool) : ℕ := if b then 0x376 else 0x3F6

/-- The two channels behind their ports. -/
structure Controller {σ : Type*} (io : Bus σ) where
  view : σ → Bool → Channel
  register : ∀ b r v s, 2 ≤ r → r ≤ 6 → (view s b).Ready →
    view (io.out 8 (portOf b + r) v s) = Function.update (view s) b ((view s b).setReg r v)
  command : ∀ b v s, (view s b).Ready →
    view (io.out 8 (portOf b + 7) v s) = Function.update (view s) b ((view s b).command v)
  altStatus : ∀ b s, view (io.inp 8 (ctrlOf b) s).2 = view s
  status : ∀ b s, bsy (io.inp 8 (portOf b + 7) s).1 = (view s b).busy ∧
    ((view s b).busy = false → drq (io.inp 8 (portOf b + 7) s).1 = (view s b).request) ∧
    err (io.inp 8 (portOf b + 7) s).1 = (view s b).error ∧
    view (io.inp 8 (portOf b + 7) s).2 = Function.update (view s) b (view s b).tick
  dataIn : ∀ b s job pos, (view s b).phase = .active job 0 pos → job.write = false → (view s b).error = false →
    (io.inp 16 (portOf b) s).1 = (view s b).disk job.drive job.lba pos ∧
    view (io.inp 16 (portOf b) s).2 = Function.update (view s) b ((view s b).next job pos)
  dataOut : ∀ b v s job pos, (view s b).phase = .active job 0 pos → job.write = true → (view s b).error = false →
    view (io.out 16 (portOf b) v s) =
      Function.update (view s) b (((view s b).store job.drive job.lba pos v).next job pos)

/-- The words of all drives: channel, drive, sector and word. -/
abbrev Disks := Bool → Bool → ℕ → ℕ → BitVec 16

def Controller.disks {σ : Type*} {io : Bus σ} (C : Controller io) (s : σ) : Disks := fun b => (C.view s b).disk

def Controller.bads {σ : Type*} {io : Bus σ} (C : Controller io) (s : σ) : Bool → Bool → ℕ → Bool := fun b => (C.view s b).bad

/-! ## The channels as a device -/

/-- The channel and the register behind a port; 8 stands for the alternate status. -/
def decode (port : ℕ) : Option (Bool × ℕ) :=
  if 0x1F0 ≤ port ∧ port ≤ 0x1F7 then some (false, port-0x1F0)
  else if 0x170 ≤ port ∧ port ≤ 0x177 then some (true, port-0x170)
  else if port = 0x3F6 then some (false, 8)
  else if port = 0x376 then some (true, 8)
  else none

def Channel.status (c : Channel) : BitVec 8 :=
  if c.busy then 0x80 else if c.error then 0x41 else if c.request then 0x48 else 0x40

def Channel.wordIn (c : Channel) : BitVec 16 × Channel :=
  match c.phase with
  | .active job 0 pos => if c.error then (0, c) else (c.disk job.drive job.lba pos, c.next job pos)
  | _ => (0, c)

def Channel.wordOut (c : Channel) (v : BitVec 16) : Channel :=
  match c.phase with
  | .active job 0 pos => if c.error then c else (c.store job.drive job.lba pos v).next job pos
  | _ => c

instance (c : Channel) : Decidable c.Ready := inferInstanceAs (Decidable (_ ∧ _))

def Channel.inp (c : Channel) (w r : ℕ) : BitVec w × Channel :=
  if r = 0 then (c.wordIn.1.setWidth w, c.wordIn.2)
  else if r = 7 then (c.status.setWidth w, c.tick)
  else if r = 8 then (c.status.setWidth w, c)
  else ((c.reg r).setWidth w, c)

def Channel.out (c : Channel) {w : ℕ} (r : ℕ) (v : BitVec w) : Channel :=
  if r = 0 then c.wordOut (v.setWidth 16)
  else if c.Ready then (if r = 7 then c.command (v.setWidth 8) else if r = 8 then c else c.setReg r (v.setWidth 8))
  else c

def channelBus : Bus (Bool → Channel) where
  inp := fun w port s => match decode port with
    | some (b, r) => (((s b).inp w r).1, Function.update s b ((s b).inp w r).2)
    | none => (0, s)
  out := fun _ port v s => match decode port with
    | some (b, r) => Function.update s b ((s b).out r v)
    | none => s

theorem decode_port (b : Bool) {r : ℕ} (hr : r ≤ 7) : decode (portOf b + r) = some (b, r) := by
  interval_cases r <;> cases b <;> rfl

theorem decode_ctrl (b : Bool) : decode (ctrlOf b) = some (b, 8) := by cases b <;> rfl

theorem channel_flags (c : Channel) : (c.busy = true → c.error = false) ∧ (c.error = true → c.request = false) := by
  unfold Channel.busy Channel.error Channel.request
  cases c.phase with
  | idle => exact ⟨fun _ => rfl, fun _ => rfl⟩
  | active job w pos =>
    cases w with
    | zero => exact ⟨fun h => absurd h Bool.false_ne_true, fun h => congrArg not h⟩
    | succ w => exact ⟨fun _ => rfl, fun _ => rfl⟩

theorem channel_status (c : Channel) : bsy c.status = c.busy ∧ (c.busy = false → drq c.status = c.request) ∧
    err c.status = c.error := by
  obtain ⟨hbusy, herror⟩ := channel_flags c
  unfold Channel.status
  cases hb : c.busy with
  | true =>
    rw [hbusy hb, if_pos rfl]
    exact ⟨by decide, fun h => absurd h (by decide), by decide⟩
  | false =>
    cases he : c.error with
    | true =>
      rw [herror he]
      decide
    | false => cases c.request <;> decide

def channelController : Controller channelBus where
  view := id
  register := by
    intro b r v s hlow hhigh hready
    have hready' : (s b).Ready := hready
    simp only [channelBus, decode_port b (show r ≤ 7 by omega), Channel.out, if_neg (show r ≠ 0 by omega),
      if_neg (show r ≠ 7 by omega), if_neg (show r ≠ 8 by omega), if_pos hready', BitVec.setWidth_eq, id]
  command := by
    intro b v s hready
    have hready' : (s b).Ready := hready
    simp only [channelBus, decode_port b (le_refl 7), Channel.out, if_neg (show 7 ≠ 0 by decide), if_pos hready', if_true,
      BitVec.setWidth_eq, id]
  altStatus := by
    intro b s
    simp only [channelBus, decode_ctrl, Channel.inp, id]
    exact Function.update_eq_self b s
  status := by
    intro b s
    obtain ⟨hbsy, hdrq, herr⟩ := channel_status (s b)
    simp only [channelBus, decode_port b (le_refl 7), Channel.inp, if_neg (show 7 ≠ 0 by decide), if_true,
      BitVec.setWidth_eq, id]
    exact ⟨hbsy, hdrq, herr, trivial⟩
  dataIn := by
    intro b s job pos hp _ hgood
    simp only [id] at hp hgood
    have hport := decode_port b (Nat.zero_le 7)
    rw [Nat.add_zero] at hport
    simp only [channelBus, hport, Channel.inp, if_true, Channel.wordIn, hp, hgood, Bool.false_eq_true, if_false,
      BitVec.setWidth_eq, id]
    exact ⟨trivial, trivial⟩
  dataOut := by
    intro b v s job pos hp _ hgood
    simp only [id] at hp hgood
    have hport := decode_port b (Nat.zero_le 7)
    rw [Nat.add_zero] at hport
    simp only [channelBus, hport, Channel.out, if_true, Channel.wordOut, hp, hgood, Bool.false_eq_true, if_false,
      BitVec.setWidth_eq, id]

/-! ## One sector -/

section Rounds

variable {σ : Type*} {io : Bus σ} (C : Controller io) {v : Bool → Channel} {b : Bool} {s : σ} {job : Job}
variable {disk : Bool → ℕ → ℕ → BitVec 16} {bad : Bool → ℕ → Bool} {phase : Phase} {w pos : ℕ}

/-- The phase in which the rest of a job begins. -/
def begun (job : Job) (wait : ℕ) : Phase := if job.left = 0 then .idle else .active job wait 0

def Job.rest (job : Job) : Job := { job with lba := job.lba+1, left := job.left-1 }

/-- One channel is as told and the other as it was. -/
def Seen (v : Bool → Channel) (b : Bool) (s : σ) (disk : Bool → ℕ → ℕ → BitVec 16) (bad : Bool → ℕ → Bool) (phase : Phase) :
    Prop := ∃ c : Channel, C.view s = Function.update v b c ∧ c.disk = disk ∧ c.bad = bad ∧ c.phase = phase

theorem ioBase_port (bus : BitVec 8) : ioBase bus = portOf (decide (bus ≠ 0)) := by
  unfold ioBase portOf
  by_cases h : bus = 0 <;> simp [h]

theorem ctrlBase_port (bus : BitVec 8) : ctrlBase bus = ctrlOf (decide (bus ≠ 0)) := by
  unfold ctrlBase ctrlOf
  by_cases h : bus = 0 <;> simp [h]

theorem delay_view (b : Bool) (s : σ) : C.view (ata400nsDelay io (ctrlOf b) s) = C.view s := by
  unfold ata400nsDelay
  rw [C.altStatus,C.altStatus,C.altStatus,C.altStatus]

theorem start_begun (c : Channel) (job : Job) :
    ∃ w, (c.start job).phase = begun job w ∧ (c.start job).disk = c.disk ∧ (c.start job).bad = c.bad := by
  unfold Channel.start begun
  split
  · exact ⟨0, rfl, rfl, rfl⟩
  · exact ⟨c.delays c.waits, rfl, rfl, rfl⟩

/-- What is read from the status while a sector is under way, and the time that passes. -/
theorem seen_status (h : Seen C v b s disk bad (.active job w pos)) :
    bsy (io.inp 8 (portOf b + 7) s).1 = decide (w ≠ 0) ∧
    (w = 0 → drq (io.inp 8 (portOf b + 7) s).1 = !bad job.drive job.lba) ∧
    err (io.inp 8 (portOf b + 7) s).1 = (decide (w = 0) && bad job.drive job.lba) ∧
    Seen C v b (io.inp 8 (portOf b + 7) s).2 disk bad (.active job (w-1) pos) := by
  obtain ⟨c, hv, rfl, rfl, hp⟩ := h
  obtain ⟨hbsy, hdrq, herr, hnext⟩ := C.status b s
  have hc : C.view s b = c := by rw [hv, Function.update_self]
  rw [hc] at hbsy hdrq herr hnext
  rw [hv, Function.update_idem] at hnext
  cases w with
  | zero =>
    simp only [Channel.busy, Channel.request, Channel.error, Channel.tick, hp] at hbsy hdrq herr hnext
    exact ⟨hbsy, fun _ => hdrq trivial, herr, c, hnext, rfl, rfl, hp⟩
  | succ w =>
    simp only [Channel.busy, Channel.error, Channel.tick, hp] at hbsy herr hnext
    exact ⟨hbsy, fun h => absurd h (Nat.succ_ne_zero w), herr, _, hnext, rfl, rfl, rfl⟩

/-- However long the sector takes the two loops end, with the error bit of a bad one. -/
theorem seen_polled (h : Seen C v b s disk bad (.active job w pos)) :
    ∃ status s', Settles (fun n => pollWhile (io.inp 8 (portOf b + 7)) (fun status => bsy status && !err status) n
        (io.inp 8 (portOf b + 7) s).1 (io.inp 8 (portOf b + 7) s).2) (status, s') ∧
      drq status = (!bad job.drive job.lba) ∧ err status = bad job.drive job.lba ∧
      Seen C v b s' disk bad (.active job 0 pos) := by
  induction w generalizing s with
  | zero =>
    obtain ⟨hbsy, hdrq, herr, hnext⟩ := seen_status C h
    refine ⟨_, _, poll_done ?_, hdrq rfl, herr, hnext⟩
    rw [hbsy]
    rfl
  | succ w ih =>
    obtain ⟨hbsy, -, herr, hnext⟩ := seen_status C h
    obtain ⟨status, s', hs, hrest⟩ := ih hnext
    refine ⟨status, s', poll_next ?_ hs, hrest⟩
    rw [hbsy, herr]
    rfl

theorem seen_wait (h : Seen C v b s disk bad (.active job w pos)) :
    ∃ status s', Settles (fun n => waitSector io (portOf b) (ctrlOf b) n s) (status, s') ∧
      err status = bad job.drive job.lba ∧ Seen C v b s' disk bad (.active job 0 pos) := by
  have hd : Seen C v b (ata400nsDelay io (ctrlOf b) s) disk bad (.active job w pos) := by
    obtain ⟨c, hv, hc⟩ := h
    exact ⟨c, (delay_view C b s).trans hv, hc⟩
  obtain ⟨status, s', hs, hdrq, herr, hseen⟩ := seen_polled C hd
  refine ⟨status, s', settles_bind hs (poll_done ?_), herr, hseen⟩
  rw [hdrq, herr]
  cases bad job.drive job.lba <;> rfl

/-- The phase after a word. -/
theorem next_phase (c : Channel) (job : Job) (pos : ℕ) :
    ∃ w, (c.next job pos).phase = (if pos+1 = 256 then begun job.rest w else .active job 0 (pos+1)) ∧
      (c.next job pos).disk = c.disk ∧ (c.next job pos).bad = c.bad := by
  unfold Channel.next
  split
  · exact start_begun c job.rest
  · exact ⟨0, rfl, rfl, rfl⟩

theorem error_good {c : Channel} (hp : c.phase = .active job 0 pos) (hgood : c.bad job.drive job.lba = false) :
    c.error = false := by
  unfold Channel.error
  rw [hp]
  exact hgood

theorem seen_in (h : Seen C v b s disk bad (.active job 0 pos)) (hw : job.write = false)
    (hgood : bad job.drive job.lba = false) :
    (io.inp 16 (portOf b) s).1 = disk job.drive job.lba pos ∧
    ∃ w, Seen C v b (io.inp 16 (portOf b) s).2 disk bad
      (if pos+1 = 256 then begun job.rest w else .active job 0 (pos+1)) := by
  obtain ⟨c, hv, rfl, rfl, hp⟩ := h
  have hc : C.view s b = c := by rw [hv, Function.update_self]
  obtain ⟨hvalue, hnext⟩ := C.dataIn b s job pos (by rw [hc, hp]) hw (by rw [hc]; exact error_good hp hgood)
  obtain ⟨w, hphase, hdisk, hbad⟩ := next_phase c job pos
  rw [hc] at hvalue hnext
  rw [hv, Function.update_idem] at hnext
  exact ⟨hvalue, w, _, hnext, hdisk, hbad, hphase⟩

theorem seen_out (x : BitVec 16) (h : Seen C v b s disk bad (.active job 0 pos)) (hw : job.write = true)
    (hgood : bad job.drive job.lba = false) :
    ∃ w, Seen C v b (io.out 16 (portOf b) x s)
      (fun d l p => if d = job.drive ∧ l = job.lba ∧ p = pos then x else disk d l p) bad
      (if pos+1 = 256 then begun job.rest w else .active job 0 (pos+1)) := by
  obtain ⟨c, hv, rfl, rfl, hp⟩ := h
  have hc : C.view s b = c := by rw [hv, Function.update_self]
  have hnext := C.dataOut b x s job pos (by rw [hc, hp]) hw (by rw [hc]; exact error_good hp hgood)
  obtain ⟨w, hphase, hdisk, hbad⟩ := next_phase (c.store job.drive job.lba pos x) job pos
  rw [hc, hv, Function.update_idem] at hnext
  exact ⟨w, _, hnext, hdisk, hbad, hphase⟩

theorem seen_read (hw : job.write = false) (hgood : bad job.drive job.lba = false) (m : Mem) (ptr : ℕ) {n : ℕ}
    (hn : n+1+pos = 256) (h : Seen C v b s disk bad (.active job 0 pos)) :
    (∃ w, Seen C v b (readWords io (portOf b) (n+1) ptr s m).1 disk bad (begun job.rest w)) ∧
    (readWords io (portOf b) (n+1) ptr s m).2 = storeWords m ptr (fun i => disk job.drive job.lba (pos+i)) (n+1) := by
  induction n generalizing s m ptr pos with
  | zero =>
    obtain ⟨hvalue, w, hnext⟩ := seen_in C h hw hgood
    rw [if_pos (by omega)] at hnext
    refine ⟨⟨w, hnext⟩, ?_⟩
    simp only [readWords, storeWords, hvalue, Nat.add_zero]
  | succ n ih =>
    obtain ⟨hvalue, w, hnext⟩ := seen_in C h hw hgood
    rw [if_neg (by omega)] at hnext
    obtain ⟨hlast, hmem⟩ := ih (store16 m ptr (io.inp 16 (portOf b) s).1.toNat) (ptr+2) (by omega) hnext
    rw [readWords]
    refine ⟨hlast, hmem.trans ?_⟩
    have hshift : (fun i => disk job.drive job.lba (pos+1+i)) = fun i => disk job.drive job.lba (pos+(i+1)) := by
      funext i
      rw [Nat.add_assoc, Nat.add_comm 1 i]
    rw [hvalue, hshift]
    rfl

/-- A drive whose sector has taken `n` words of `m` from the word `pos` on. -/
def taken (disk : Bool → ℕ → ℕ → BitVec 16) (job : Job) (m : Mem) (ptr pos n : ℕ) : Bool → ℕ → ℕ → BitVec 16 :=
  fun d l p => if d = job.drive ∧ l = job.lba ∧ pos ≤ p ∧ p < pos+n then BitVec.ofNat 16 (load16 m (ptr+2*(p-pos)))
    else disk d l p

theorem taken_first (disk : Bool → ℕ → ℕ → BitVec 16) (job : Job) (m : Mem) (ptr pos n : ℕ) :
    taken (fun d l p => if d = job.drive ∧ l = job.lba ∧ p = pos then BitVec.ofNat 16 (load16 m ptr) else disk d l p)
      job m (ptr+2) (pos+1) n = taken disk job m ptr pos (n+1) := by
  funext d l p
  unfold taken
  by_cases hp : p = pos
  · subst hp
    simp
  · have hsub : pos+1 ≤ p → ptr+2+2*(p-(pos+1)) = ptr+2*(p-pos) := by omega
    have hle : (pos+1 ≤ p ∧ p < pos+1+n) ↔ (pos ≤ p ∧ p < pos+(n+1)) := by omega
    simp only [hp, and_false, if_false]
    split_ifs with h1 h2 h2
    · rw [hsub h1.2.2.1]
    · exact absurd ⟨h1.1, h1.2.1, hle.mp h1.2.2⟩ h2
    · exact absurd ⟨h2.1, h2.2.1, hle.mpr h2.2.2⟩ h1
    · rfl

theorem taken_none (disk : Bool → ℕ → ℕ → BitVec 16) (job : Job) (m : Mem) (ptr pos : ℕ) :
    taken disk job m ptr pos 0 = disk := by
  funext d l p
  unfold taken
  rw [if_neg (by omega)]

theorem seen_written (hw : job.write = true) (hgood : bad job.drive job.lba = false) (m : Mem) (ptr : ℕ) {n : ℕ}
    (hn : n+1+pos = 256) (h : Seen C v b s disk bad (.active job 0 pos)) :
    ∃ w, Seen C v b (writeWords io (portOf b) m (n+1) ptr s) (taken disk job m ptr pos (n+1)) bad (begun job.rest w) := by
  induction n generalizing s ptr pos disk with
  | zero =>
    obtain ⟨w, hnext⟩ := seen_out C (BitVec.ofNat 16 (load16 m ptr)) h hw hgood
    rw [if_pos (by omega)] at hnext
    refine ⟨w, ?_⟩
    rw [← taken_first, taken_none]
    exact hnext
  | succ n ih =>
    obtain ⟨w, hnext⟩ := seen_out C (BitVec.ofNat 16 (load16 m ptr)) h hw hgood
    rw [if_neg (by omega)] at hnext
    rw [← taken_first]
    exact ih (ptr+2) (by omega) hnext

theorem seen_ready (h : Seen C v b s disk bad phase)
    (hp : phase = .idle ∨ ∃ j pos, phase = .active j 0 pos ∧ bad j.drive j.lba = true) : (C.view s b).Ready := by
  obtain ⟨c, hv, rfl, rfl, rfl⟩ := h
  rw [hv, Function.update_self]
  unfold Channel.Ready Channel.busy Channel.request
  obtain hp | ⟨j, pos, hp, hbad⟩ := hp <;> rw [hp]
  · exact ⟨rfl, rfl⟩
  · exact ⟨rfl, by simp only [hbad, Bool.not_true]⟩

/-- How many of `n` sectors come before the first bad one. -/
def moved (bad : ℕ → Bool) (lba : ℕ) : ℕ → ℕ
  | 0 => 0
  | n+1 => if bad lba then 0 else moved bad (lba+1) n + 1

def answer (bad : ℕ → Bool) (lba n : ℕ) : ℤ := if moved bad lba n = n then 0 else -1

theorem moved_bad {bad : ℕ → Bool} {lba : ℕ} (h : bad lba = true) (n : ℕ) : moved bad lba (n+1) = 0 := if_pos h

theorem moved_good {bad : ℕ → Bool} {lba : ℕ} (h : bad lba = false) (n : ℕ) :
    moved bad lba (n+1) = moved bad (lba+1) n + 1 := if_neg (by rw [h]; exact Bool.false_ne_true)

theorem answer_bad {bad : ℕ → Bool} {lba : ℕ} (h : bad lba = true) (n : ℕ) : answer bad lba (n+1) = -1 := by
  unfold answer
  rw [moved_bad h]
  exact if_neg (Nat.succ_ne_zero n).symm

theorem answer_good {bad : ℕ → Bool} {lba : ℕ} (h : bad lba = false) (n : ℕ) :
    answer bad lba (n+1) = answer bad (lba+1) n := by
  unfold answer
  rw [moved_good h]
  simp only [Nat.add_right_cancel_iff]

/-- The sectors moved are all good, and the next one is bad unless they are all. -/
theorem moved_spec (bad : ℕ → Bool) (lba n : ℕ) : moved bad lba n ≤ n ∧
    (∀ i < moved bad lba n, bad (lba+i) = false) ∧ (moved bad lba n < n → bad (lba + moved bad lba n) = true) := by
  induction n generalizing lba with
  | zero => exact ⟨le_refl 0, fun i hi => absurd hi (Nat.not_lt_zero i), fun h => absurd h (Nat.lt_irrefl 0)⟩
  | succ n ih =>
    cases h : bad lba with
    | true =>
      rw [moved_bad h]
      exact ⟨Nat.zero_le _, fun i hi => absurd hi (Nat.not_lt_zero i), fun _ => h⟩
    | false =>
      obtain ⟨hle, hgood, hbad⟩ := ih (lba+1)
      rw [moved_good h]
      refine ⟨Nat.succ_le_succ hle, fun i hi => ?_, fun hlt => ?_⟩
      · cases i with
        | zero => exact h
        | succ i => rw [Nat.add_comm i 1, ← Nat.add_assoc]; exact hgood i (by omega)
      · rw [Nat.add_comm _ 1, ← Nat.add_assoc]
        exact hbad (Nat.lt_of_succ_lt_succ hlt)

/-- The words of a drive from the sector `lba` on. -/
def fromSector (disk : ℕ → ℕ → BitVec 16) (lba i : ℕ) : BitVec 16 := disk (lba + i/256) (i%256)

theorem fromSector_first (disk : ℕ → ℕ → BitVec 16) (lba : ℕ) {i : ℕ} (hi : i < 256) :
    fromSector disk lba i = disk lba i := by
  unfold fromSector
  rw [Nat.div_eq_of_lt hi, Nat.mod_eq_of_lt hi, Nat.add_zero]

theorem fromSector_next (disk : ℕ → ℕ → BitVec 16) (lba i : ℕ) :
    fromSector disk lba (256+i) = fromSector disk (lba+1) i := by
  unfold fromSector
  rw [Nat.add_mod_left, Nat.add_div_left i (by decide), Nat.add_assoc, Nat.add_comm 1]

theorem storeWords_congr (m : Mem) (ptr : ℕ) {f g : ℕ → BitVec 16} {n : ℕ} (h : ∀ i < n, f i = g i) :
    storeWords m ptr f n = storeWords m ptr g n := by
  induction n generalizing m ptr f g with
  | zero => rfl
  | succ n ih =>
    rw [storeWords, storeWords, h 0 (Nat.succ_pos n)]
    exact ih _ _ (fun i hi => h (i+1) (Nat.succ_lt_succ hi))

theorem storeWords_sector (m : Mem) (ptr : ℕ) (disk : ℕ → ℕ → BitVec 16) (lba k : ℕ) :
    storeWords m ptr (fromSector disk lba) (256*(k+1)) =
      storeWords (storeWords m ptr (disk lba) 256) (ptr+512) (fromSector disk (lba+1)) (256*k) := by
  rw [Nat.mul_succ, Nat.add_comm, storeWords_append]
  have hnext : (fun i => fromSector disk lba (256+i)) = fromSector disk (lba+1) :=
    funext (fromSector_next disk lba)
  rw [hnext, storeWords_congr m ptr (fun i hi => fromSector_first disk lba hi)]

theorem seen_readLoop (hw : job.write = false) (m : Mem) (ptr : ℕ) {left : ℕ} (hl : job.left = left)
    (h : Seen C v b s disk bad (begun job w)) :
    ∃ s' phase, Settles (fun n => readLoop io (portOf b) (ctrlOf b) n left ptr s m)
      (answer (bad job.drive) job.lba left, s',
        storeWords m ptr (fromSector (disk job.drive) job.lba) (256*moved (bad job.drive) job.lba left)) ∧
      Seen C v b s' disk bad phase ∧ (C.view s' b).Ready := by
  induction left generalizing s m ptr job w with
  | zero =>
    refine ⟨s, _, settles_some, h, seen_ready C h (Or.inl ?_)⟩
    exact if_pos hl
  | succ left ih =>
    rw [begun, if_neg (by omega)] at h
    obtain ⟨status, t, hs, herr, hseen⟩ := seen_wait C h
    cases hb : bad job.drive job.lba with
    | true =>
      refine ⟨t, _, settles_bind hs ?_, hseen, seen_ready C hseen (Or.inr ⟨job, 0, rfl, hb⟩)⟩
      rw [answer_bad hb, moved_bad hb]
      simp only [herr, hb, if_true]
      exact settles_some
    | false =>
      obtain ⟨⟨w', hnext⟩, hmem⟩ := seen_read C hw hb m ptr (n := 255) rfl hseen
      obtain ⟨s', phase, hrest, hlast⟩ := ih (show job.rest.write = false from hw) (readWords io (portOf b) 256 ptr t m).2 (ptr+512)
        (show job.left-1 = left by omega) hnext
      refine ⟨s', phase, settles_bind hs ?_, hlast⟩
      simp only [herr, hb, Bool.false_eq_true, if_false]
      rw [answer_good hb, moved_good hb, storeWords_sector]
      simp only [Nat.zero_add] at hmem
      rw [← hmem]
      exact hrest

/-- A drive that has taken `k` sectors from memory. -/
def written (disk : Bool → ℕ → ℕ → BitVec 16) (drive : Bool) (lba k : ℕ) (m : Mem) (ptr : ℕ) :
    Bool → ℕ → ℕ → BitVec 16 :=
  fun d l p => if d = drive ∧ lba ≤ l ∧ l < lba+k ∧ p < 256 then BitVec.ofNat 16 (load16 m (ptr + 512*(l-lba) + 2*p))
    else disk d l p

theorem written_none (disk : Bool → ℕ → ℕ → BitVec 16) (drive : Bool) (lba : ℕ) (m : Mem) (ptr : ℕ) :
    written disk drive lba 0 m ptr = disk := by
  funext d l p
  unfold written
  rw [if_neg (by omega)]

theorem written_next (disk : Bool → ℕ → ℕ → BitVec 16) (job : Job) (k : ℕ) (m : Mem) (ptr : ℕ) :
    written (taken disk job m ptr 0 256) job.drive (job.lba+1) k m (ptr+512) = written disk job.drive job.lba (k+1) m ptr := by
  funext d l p
  unfold written taken
  by_cases hd : d = job.drive ∧ p < 256
  · obtain ⟨rfl, hp⟩ := hd
    obtain hl | hl | hl := lt_trichotomy l job.lba
    · rw [if_neg (by omega), if_neg (by omega), if_neg (by omega)]
    · rw [if_neg (by omega), if_pos ⟨rfl, hl, Nat.zero_le p, by omega⟩, if_pos ⟨rfl, by omega, by omega, hp⟩, hl,
        Nat.sub_self]
      rfl
    · by_cases hk : l < job.lba+1+k
      · rw [if_pos ⟨rfl, by omega, hk, hp⟩, if_pos ⟨rfl, by omega, by omega, hp⟩,
          show ptr+512+512*(l-(job.lba+1)) = ptr+512*(l-job.lba) by omega]
      · rw [if_neg (fun h => hk h.2.2.1), if_neg (fun h => Nat.ne_of_gt hl h.2.1), if_neg (by omega)]
  · rw [if_neg (fun h => hd ⟨h.1, h.2.2.2⟩), if_neg (fun h => hd ⟨h.1, by omega⟩), if_neg (fun h => hd ⟨h.1, h.2.2.2⟩)]

theorem view_register {r : ℕ} (hlow : 2 ≤ r) (hhigh : r ≤ 6) (x : BitVec 8) {c : Channel} (hc : c.Ready)
    (h : C.view s = Function.update v b c) :
    C.view (io.out 8 (portOf b + r) x s) = Function.update v b (c.setReg r x) := by
  have hself : C.view s b = c := by rw [h, Function.update_self]
  rw [C.register b r x s hlow hhigh (by rw [hself]; exact hc), hself, h, Function.update_idem]

theorem view_command (x : BitVec 8) {c : Channel} (hc : c.Ready) (h : C.view s = Function.update v b c) :
    C.view (io.out 8 (portOf b + 7) x s) = Function.update v b (c.command x) := by
  have hself : C.view s b = c := by rw [h, Function.update_self]
  rw [C.command b x s (by rw [hself]; exact hc), hself, h, Function.update_idem]

/-- The last command of a call, when all sectors are done. -/
theorem seen_flushed (h : Seen C v b s disk bad .idle) :
    Seen C v b (io.out 8 (portOf b + 7) 0xE7 s) disk bad .idle := by
  have hready := seen_ready C h (Or.inl rfl)
  obtain ⟨c, hv, hdisk, hbad, hp⟩ := h
  rw [hv, Function.update_self] at hready
  exact ⟨_, view_command C 0xE7 hready hv, hdisk, hbad, rfl⟩

theorem seen_writeLoop (hw : job.write = true) (m : Mem) (ptr : ℕ) {left : ℕ} (hl : job.left = left)
    (h : Seen C v b s disk bad (begun job w)) :
    ∃ s' phase, Settles (fun n => writeLoop io (portOf b) (ctrlOf b) n m left ptr s)
      (answer (bad job.drive) job.lba left, s') ∧
      Seen C v b s' (written disk job.drive job.lba (moved (bad job.drive) job.lba left) m ptr) bad phase ∧
      (C.view s' b).Ready := by
  induction left generalizing s ptr job w disk with
  | zero =>
    rw [begun, if_pos hl] at h
    have hlast := seen_flushed C h
    refine ⟨_, .idle, settles_some, ?_, seen_ready C hlast (Or.inl rfl)⟩
    rw [moved, written_none]
    exact hlast
  | succ left ih =>
    rw [begun, if_neg (by omega)] at h
    obtain ⟨status, t, hs, herr, hseen⟩ := seen_wait C h
    cases hb : bad job.drive job.lba with
    | true =>
      rw [answer_bad hb, moved_bad hb, written_none]
      refine ⟨t, _, settles_bind hs ?_, hseen, seen_ready C hseen (Or.inr ⟨job, 0, rfl, hb⟩)⟩
      simp only [herr, hb, if_true]
      exact settles_some
    | false =>
      obtain ⟨w', hnext⟩ := seen_written C hw hb m ptr (n := 255) rfl hseen
      obtain ⟨s', phase, hrest, hlast⟩ := ih (show job.rest.write = true from hw) (ptr+512) (show job.left-1 = left by omega) hnext
      rw [answer_good hb, moved_good hb, ← written_next]
      refine ⟨s', phase, settles_bind hs ?_, hlast⟩
      simp only [herr, hb, Bool.false_eq_true, if_false]
      exact hrest

/-! ## One call -/

theorem driveByte_drive (driveType : BitVec 8) (lba : BitVec 32) :
    (driveByte driveType lba).getLsbD 4 = driveType.getLsbD 0 := by
  simp [driveByte]

theorem driveByte_address (driveType : BitVec 8) (lba : BitVec 32) :
    (driveByte driveType lba).toNat % 16 = lba.toNat / 16777216 % 16 := by
  have hlow : (driveByte driveType lba).setWidth 4 = (lba >>> 24).setWidth 4 := by
    apply BitVec.eq_of_getLsbD_eq
    intro j hj
    have hbyte : j < 8 := by omega
    unfold driveByte
    rw [BitVec.getLsbD_setWidth, BitVec.getLsbD_setWidth, BitVec.getLsbD_setWidth, BitVec.getLsbD_or, BitVec.getLsbD_or,
      BitVec.getLsbD_and, BitVec.getLsbD_shiftLeft]
    have hmask : (0x0F#32).getLsbD j = true := by interval_cases j <;> rfl
    have hconst : (0xE0#32).getLsbD j = false := by interval_cases j <;> rfl
    rw [hmask, hconst]
    simp [hj, hbyte]
  have hnat := congrArg BitVec.toNat hlow
  rw [BitVec.toNat_setWidth, BitVec.toNat_setWidth, BitVec.toNat_ushiftRight, Nat.shiftRight_eq_div_pow] at hnat
  exact hnat

theorem lba_parts (n : ℕ) :
    n % 256 + 256*(n/256 % 256) + 65536*(n/65536 % 256) + 16777216*(n/16777216 % 16) = n % 268435456 := by
  omega

/-- The transfer that the six register writes begin. -/
theorem seen_start (driveType : BitVec 8) (lba : BitVec 32) {count : BitVec 8} (hcount : count ≠ 0) {command : BitVec 8}
    {write : Bool} (hc : command = if write then 0x30 else 0x20) (b : Bool) (hready : (C.view s b).Ready) :
    ∃ w, Seen C (C.view s) b (startTransfer io (portOf b) driveType lba count command s) (C.view s b).disk (C.view s b).bad
      (begun ⟨write, driveType.getLsbD 0, lba.toNat % 268435456, count.toNat⟩ w) := by
  let c0 := C.view s b
  let c1 := c0.setReg 6 (driveByte driveType lba)
  let c2 := c1.setReg 2 count
  let c3 := c2.setReg 3 (lba.setWidth 8)
  let c4 := c3.setReg 4 ((lba >>> 8).setWidth 8)
  let c5 := c4.setReg 5 ((lba >>> 16).setWidth 8)
  have hview : C.view (startTransfer io (portOf b) driveType lba count command s) =
      Function.update (C.view s) b (c5.command command) := by
    have h0 : C.view s = Function.update (C.view s) b c0 := (Function.update_eq_self b _).symm
    have h1 := view_register C (c := c0) (show 2 ≤ 6 by decide) (by decide) (driveByte driveType lba) hready h0
    have h2 := view_register C (c := c1) (show 2 ≤ 2 by decide) (by decide) count hready h1
    have h3 := view_register C (c := c2) (show 2 ≤ 3 by decide) (by decide) (lba.setWidth 8) hready h2
    have h4 := view_register C (c := c3) (show 2 ≤ 4 by decide) (by decide) ((lba >>> 8).setWidth 8) hready h3
    have h5 := view_register C (c := c4) (show 2 ≤ 5 by decide) (by decide) ((lba >>> 16).setWidth 8) hready h4
    exact view_command C (c := c5) command hready h5
  have hcommand : c5.command command =
      c5.start ⟨write, driveType.getLsbD 0, lba.toNat % 268435456, count.toNat⟩ := by
    have hdrive : (c5.reg 6).getLsbD 4 = driveType.getLsbD 0 := driveByte_drive driveType lba
    have hlba : c5.lba = lba.toNat % 268435456 := by
      have hparts := lba_parts lba.toNat
      rw [← driveByte_address driveType lba] at hparts
      exact Eq.trans (by simp [Channel.lba, c5, c4, c3, c2, c1, Channel.setReg, Nat.shiftRight_eq_div_pow]) hparts
    have hc5 : c5.count = count.toNat := if_neg hcount
    unfold Channel.command
    rw [hdrive, hlba, hc5, hc]
    cases write <;> rfl
  obtain ⟨w, hphase, hdisk, hbad⟩ := start_begun c5 ⟨write, driveType.getLsbD 0, lba.toNat % 268435456, count.toNat⟩
  rw [hcommand] at hview
  exact ⟨w, _, hview, hdisk, hbad, hphase⟩

end Rounds

end Dionnex.AtaChannels
