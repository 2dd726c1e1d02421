import Mathlib.Data.List.DropRight
import Dionnex.CircularBuffer

/-!
# The kernel log

Characters go into a ring of fixed size whose two ends and fill level are
kept in three variables. Seen from outside it is a window on everything that
was logged since it was last emptied.
-/

set_option autoImplicit false

namespace Dionnex.KernelLog
open CircularBuffer

/-- `DIONNEX_KLOG_SIZE`. -/
def klogSize : ℕ := 4096

structure Klog where
  buffer : ℕ → UInt8
  head : ℕ
  tail : ℕ
  count : ℕ

/-- The static variables before any code runs. -/
def Klog.zero : Klog := ⟨fun _ => 0, 0, 0, 0⟩

def klogPushChar (k : Klog) (c : UInt8) : Klog :=
  let k := { k with buffer := Function.update k.buffer k.head c, head := (k.head+1) % klogSize }
  if k.count < klogSize then { k with count := k.count+1 }
  else { k with tail := (k.tail+1) % klogSize }

def klogInit (_ : Klog) : Klog := ⟨fun _ => 0, 0, 0, 0⟩

def klogClear (_ : Klog) : Klog := ⟨fun _ => 0, 0, 0, 0⟩

def klogGetCount (k : Klog) : ℕ := k.count

inductive Output where
  | vgaPutchar (c : UInt8)
  | serialPutchar (c : UInt8)
  deriving DecidableEq, Repr

/-- The loop of `klog_dump` with so many rounds left. -/
def dumpLoop (k : Klog) : ℕ → ℕ → List Output
  | 0, _ => []
  | rounds+1, idx =>
    .vgaPutchar (k.buffer idx) :: .serialPutchar (k.buffer idx) :: dumpLoop k rounds ((idx+1) % klogSize)

def klogDump (k : Klog) : List Output := dumpLoop k k.count k.tail

/-- The loop of `klog_read_bytes` from round `i` with so many rounds left. -/
def readLoop (k : Klog) : ℕ → ℕ → ℕ → (ℕ → UInt8) → ℕ → UInt8
  | 0, _, _, buf => buf
  | rounds+1, i, idx, buf =>
    readLoop k rounds (i+1) ((idx+1) % klogSize) (Function.update buf i (k.buffer idx))

/-- The answer and the caller's buffer afterwards; no buffer is a null pointer. -/
def klogReadBytes (k : Klog) (buf : Option (ℕ → UInt8)) (maxLen : ℕ) : ℕ × Option (ℕ → UInt8) :=
  match buf with
  | none => (0, none)
  | some buf =>
    if maxLen = 0 then (0, some buf)
    else
      let readCnt := if k.count < maxLen then k.count else maxLen
      (readCnt, some (readLoop k readCnt 0 k.tail buf))

inductive Event where
  | init
  | clear
  | push (c : UInt8)

def perform (k : Klog) : Event → Klog
  | .init => klogInit k
  | .clear => klogClear k
  | .push c => klogPushChar k c

def execute (events : List Event) : Klog := events.foldl perform Klog.zero

/-! ## The unbounded log -/

def logged (history : List UInt8) : Event → List UInt8
  | .init => []
  | .clear => []
  | .push c => history ++ [c]

/-- Everything logged since the last `klog_init` or `klog_clear`. -/
def history (events : List Event) : List UInt8 := events.foldl logged []

/-- The newest entries of the history, as many as fit. -/
def window (events : List Event) : List UInt8 := (history events).rtake klogSize

/-- The ring shows the last entries of the history. -/
structure Shows (k : Klog) (history : List UInt8) : Prop where
  tail : k.tail < klogSize
  count : k.count = min history.length klogSize
  head : k.head = (k.tail+k.count) % klogSize
  contents : contents k.buffer klogSize k.tail k.count = history.rtake klogSize

theorem klogSize_pos : 0 < klogSize := by decide

theorem shows_empty : Shows Klog.zero [] where
  tail := klogSize_pos
  count := by simp [Klog.zero]
  head := by simp [Klog.zero]
  contents := by simp [Klog.zero, CircularBuffer.contents]

theorem rtake_all {l : List UInt8} {n : ℕ} (h : l.length ≤ n) : l.rtake n = l := by
  rw [List.rtake, Nat.sub_eq_zero_of_le h, List.drop_zero]

theorem rtake_tail {l : List UInt8} {n : ℕ} (h : n < l.length) : (l.rtake (n+1)).tail = l.rtake n := by
  rw [List.rtake, List.tail_drop, List.rtake, show l.length - (n+1) + 1 = l.length - n by omega]

/-- Room is left exactly as long as the whole history fits. -/
theorem push_shows {k : Klog} {history : List UInt8} (h : Shows k history) (c : UInt8) :
    Shows (klogPushChar k c) (history ++ [c]) := by
  have hcount := h.count
  unfold klogPushChar
  by_cases hroom : k.count < klogSize
  · have hshort : history.length < klogSize := by omega
    have hwhole := rtake_all (l := history) hshort.le
    rw [if_pos hroom]
    constructor
    · exact h.tail
    · simp
      omega
    · change (k.head+1) % klogSize = (k.tail+(k.count+1)) % klogSize
      rw [h.head, Nat.mod_add_mod, Nat.add_assoc]
    · change CircularBuffer.contents (Function.update k.buffer k.head c) klogSize k.tail (k.count+1) = _
      rw [h.head, contents_push h.tail hroom, h.contents, hwhole, rtake_all (by simp; omega)]
  · have hfull : k.count = klogSize := by omega
    have hlong : klogSize ≤ history.length := by omega
    have hhead : k.head = k.tail := by
      rw [h.head, hfull, Nat.add_mod_right, Nat.mod_eq_of_lt h.tail]
    rw [if_neg hroom]
    constructor
    · exact Nat.mod_lt _ klogSize_pos
    · simp
      omega
    · change (k.head+1) % klogSize = ((k.tail+1) % klogSize + k.count) % klogSize
      rw [hhead, hfull, Nat.add_mod_right, Nat.mod_mod]
    · change CircularBuffer.contents (Function.update k.buffer k.head c) klogSize ((k.tail+1) % klogSize) k.count = _
      have hcontents := h.contents
      rw [hfull] at hcontents
      rw [hhead, hfull, contents_overwrite h.tail, hcontents]
      change (history.rtake (4095+1)).tail ++ [c] = (history++[c]).rtake (4095+1)
      rw [List.rtake_concat_succ, rtake_tail hlong]

theorem perform_shows {k : Klog} {history : List UInt8} (h : Shows k history) (e : Event) :
    Shows (perform k e) (logged history e) := by
  cases e with
  | init => exact shows_empty
  | clear => exact shows_empty
  | push c => exact push_shows h c

theorem execute_shows (events : List Event) : Shows (execute events) (history events) := by
  have hrun : ∀ (k : Klog) (l : List UInt8), Shows k l →
      Shows (events.foldl perform k) (events.foldl logged l) := by
    induction events with
    | nil => exact fun _ _ h => h
    | cons e events ih => exact fun k l h => ih _ _ (perform_shows h e)
  exact hrun Klog.zero [] shows_empty

/-! ## What readers see -/

theorem dumpLoop_contents (k : Klog) (rounds idx : ℕ) :
    dumpLoop k rounds idx =
      (contents k.buffer klogSize idx rounds).flatMap (fun c => [.vgaPutchar c, .serialPutchar c]) := by
  induction rounds generalizing idx with
  | zero => rfl
  | succ rounds ih => simp [dumpLoop, CircularBuffer.contents, ih]

theorem readLoop_apply (k : Klog) (rounds i idx : ℕ) (buf : ℕ → UInt8) (j : ℕ) :
    readLoop k rounds i idx buf j =
      if i ≤ j then (contents k.buffer klogSize idx rounds).getD (j-i) (buf j) else buf j := by
  induction rounds generalizing i idx buf with
  | zero => simp [readLoop, CircularBuffer.contents]
  | succ rounds ih =>
    rw [readLoop, ih, CircularBuffer.contents]
    rcases Nat.lt_trichotomy j i with hj | rfl | hj
    · rw [if_neg (by omega), if_neg (by omega), Function.update_of_ne (by omega)]
    · rw [if_neg (by omega), if_pos le_rfl, Function.update_self]
      simp
    · obtain ⟨d, rfl⟩ := Nat.exists_eq_add_of_lt hj
      rw [if_pos (by omega), if_pos (by omega), Function.update_of_ne (by omega)]
      rw [show i+d+1-(i+1) = d by omega, show i+d+1-i = d+1 by omega, List.getD_cons_succ]

/-- Reading copies a prefix of the contents and writes nowhere else. -/
theorem klogReadBytes_spec {k : Klog} {l : List UInt8} (hl : contents k.buffer klogSize k.tail k.count = l)
    (buf : ℕ → UInt8) (n : ℕ) : ∃ buf', klogReadBytes k (some buf) n = (min n l.length, some buf') ∧
      ∀ j, buf' j = (l.take n).getD j (buf j) := by
  have hcount : k.count = l.length := by rw [← hl, contents_length]
  by_cases hn : n = 0
  · refine ⟨buf, ?_, ?_⟩
    · simp [klogReadBytes, hn]
    · simp [hn]
  have hlen : (if k.count < n then k.count else n) = min n l.length := by
    rw [hcount]
    split
    · omega
    · omega
  refine ⟨readLoop k (min n l.length) 0 k.tail buf, ?_, fun j => ?_⟩
  · simp [klogReadBytes, hn, hlen]
  · have htake : contents k.buffer klogSize k.tail (min n l.length) = l.take n := by
      rw [← hcount, ← hl, contents_take]
    rw [readLoop_apply, if_pos (Nat.zero_le j), htake, Nat.sub_zero]

/-- After any events the log is the window on the history, for every reader. -/
theorem log_window (events : List Event) :
    klogGetCount (execute events) = (window events).length ∧
    klogDump (execute events) = (window events).flatMap (fun c => [.vgaPutchar c, .serialPutchar c]) ∧
    (execute events).head = ((execute events).tail + (execute events).count) % klogSize ∧
    ∀ (buf : ℕ → UInt8) (n : ℕ), ∃ buf',
      klogReadBytes (execute events) (some buf) n = (min n (window events).length, some buf') ∧
      ∀ j, buf' j = ((window events).take n).getD j (buf j) := by
  have h := execute_shows events
  refine ⟨?_, ?_, h.head, klogReadBytes_spec h.contents⟩
  · have hlen := congrArg List.length h.contents
    rw [contents_length] at hlen
    exact hlen
  · rw [klogDump, dumpLoop_contents, h.contents]
    rfl

/-- Emptied in between, the log forgets what came before. -/
example : klogDump (execute [.push 104, .clear, .push 105]) = [.vgaPutchar 105, .serialPutchar 105] := by decide

end Dionnex.KernelLog
