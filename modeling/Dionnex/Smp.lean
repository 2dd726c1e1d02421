import Dionnex.ByteMemory
import Mathlib.Data.List.GetD

/-!
# The processors

At boot the multiprocessor tables of the firmware are read. An entry for a
processor has 20 bytes and every other one 8, so where an entry begins is known only
when those before it have been read. The table is a list of entries in memory, and the
array of processors is to hold its enabled ones.
-/

set_option autoImplicit false

namespace Dionnex.Smp
open ByteMemory

/-! ## The code -/

def maxCpus : ℕ := 32

structure CpuInfo where
  apicId : ℕ
  enabled : ℕ
  isBsp : ℕ
  deriving DecidableEq, Repr

/-- The array goes on behind its 32 elements with whatever is there. -/
structure Processors where
  cpus : ℕ → CpuInfo
  cpuCount : ℕ

/-- `memcmp` with a constant is zero. -/
def hasBytes (mem : Mem) (a : ℕ) : List ℕ → Bool
  | [] => true
  | b::bs => if load8 mem a = b then hasBytes mem (a+1) bs else false

def checksum (mem : Mem) (a : ℕ) : ℕ := ((List.range 16).map (fun i => load8 mem (a+i))).sum % 256

/-- The loop over the addresses `start`, `start+16`, ... below `start+length`. -/
def smpFindMpPointer (mem : Mem) (start length : ℕ) : Option ℕ :=
  ((List.range ((length+15)/16)).map (fun k => start+16*k)).find?
    (fun a => hasBytes mem a [95, 77, 80, 95] && checksum mem a == 0)

/-- The body of the loop for a processor; the enabled ones are counted. -/
def takeCpu (cpus : ℕ → CpuInfo) (parsed apicId cpuFlags : ℕ) : (ℕ → CpuInfo) × ℕ :=
  if cpuFlags &&& 0x01 ≠ 0 then
    if parsed < maxCpus then
      (Function.update cpus parsed ⟨apicId, 1, if cpuFlags &&& 0x02 ≠ 0 then 1 else 0⟩, parsed+1)
    else (cpus, parsed)
  else (cpus, parsed)

/-- The loop with the rounds that are left; `entry_count` has 16 bits like the counter. -/
def entryLoop (mem : Mem) : ℕ → ℕ → (ℕ → CpuInfo) → ℕ → (ℕ → CpuInfo) × ℕ
  | 0, _, cpus, parsed => (cpus, parsed)
  | n+1, entry, cpus, parsed =>
    let type := load8 mem entry
    if type = 0 then
      let r := takeCpu cpus parsed (load8 mem (entry+1)) (load8 mem (entry+3))
      entryLoop mem n (entry+20) r.1 r.2
    else if type = 1 then entryLoop mem n (entry+8) cpus parsed
    else if type = 2 then entryLoop mem n (entry+8) cpus parsed
    else if type = 3 then entryLoop mem n (entry+8) cpus parsed
    else if type = 4 then entryLoop mem n (entry+8) cpus parsed
    else (cpus, parsed)

/-- After `memset` and the default processor. -/
def smpDefault (s : Processors) : Processors :=
  ⟨Function.update (fun i => if i < maxCpus then ⟨0, 0, 0⟩ else s.cpus i) 0 ⟨0, 1, 1⟩, 1⟩

/-- The configuration header that is read, if there is one. -/
def configHeader (mem : Mem) : Option ℕ :=
  let mp := (smpFindMpPointer mem 0x9FC00 1024).or (smpFindMpPointer mem 0xF0000 0x10000)
  mp.bind (fun mp =>
    let cfg := load32 mem (mp+4)
    if cfg ≠ 0 ∧ hasBytes mem cfg [80, 67, 77, 80] = true then some cfg else none)

def smpInit (mem : Mem) (s : Processors) : Processors :=
  let s := smpDefault s
  match configHeader mem with
  | none => s
  | some cfg =>
    let r := entryLoop mem (load16 mem (cfg+34)) (cfg+44) s.cpus 0
    ⟨r.1, if r.2 > 0 then r.2 else s.cpuCount⟩

/-! ## The table -/

/-- The entries of the types that are known; the other bytes of an entry are not looked at. -/
inductive Entry where
  | processor (apicId flags : UInt8)
  | other (type : Fin 4)

def Entry.size : Entry → ℕ
  | .processor _ _ => 20
  | .other _ => 8

def Entry.At (mem : Mem) (a : ℕ) : Entry → Prop
  | .processor apicId flags => load8 mem a = 0 ∧ load8 mem (a+1) = apicId.toNat ∧ load8 mem (a+3) = flags.toNat
  | .other type => load8 mem a = type.val + 1

/-- The entries stand one behind the other from `a` on, and there are `n` of them or an unknown type comes next. -/
def TableAt (mem : Mem) : ℕ → ℕ → List Entry → Prop
  | n, a, [] => n = 0 ∨ 4 < load8 mem a
  | n, a, e::es => ∃ m, n = m+1 ∧ e.At mem a ∧ TableAt mem m (a + e.size) es

/-- A processor that is enabled, as it is to be listed; the lowest bit of its flags says that it is, the next one
that it has booted the machine. -/
def Entry.cpu : Entry → Option CpuInfo
  | .processor apicId flags =>
    if flags.toNat.testBit 0 then some ⟨apicId.toNat, 1, (flags.toNat.testBit 1).toNat⟩ else none
  | .other _ => none

/-- The enabled processors before the first unknown type. -/
def enabledCpus (es : List Entry) : List CpuInfo := es.filterMap Entry.cpu

/-- The entries that the firmware has left; without a table there are none. -/
def Tables (mem : Mem) (es : List Entry) : Prop :=
  match configHeader mem with
  | none => es = []
  | some cfg => TableAt mem (load16 mem (cfg+34)) (cfg+44) es

/-- The array holds the first 32 processors, or the one it holds by default. -/
structure Listed (s t : Processors) (cpus : List CpuInfo) : Prop where
  count : t.cpuCount = if cpus = [] then 1 else min 32 cpus.length
  cpus : (List.range t.cpuCount).map t.cpus = if cpus = [] then [⟨0, 1, 1⟩] else cpus.take 32
  beyond : ∀ i ≥ 32, t.cpus i = s.cpus i

section Entries

variable {mem : Mem} {cpus : ℕ → CpuInfo} {parsed n a : ℕ} {es : List Entry} {e : Entry}

/-- One more processor in the array, if there is room. -/
def store (r : (ℕ → CpuInfo) × ℕ) (c : CpuInfo) : (ℕ → CpuInfo) × ℕ :=
  if r.2 < maxCpus then (Function.update r.1 r.2 c, r.2+1) else r

theorem and_bit (flags i : ℕ) : flags &&& 2^i ≠ 0 ↔ flags.testBit i = true := by
  constructor
  · intro h
    obtain ⟨j, hj⟩ := Nat.exists_testBit_of_ne_zero h
    rw [Nat.testBit_and, Nat.testBit_two_pow, Bool.and_eq_true, decide_eq_true_eq] at hj
    exact hj.2 ▸ hj.1
  · intro h h0
    have hbit := congrArg (fun n => n.testBit i) h0
    rw [Nat.testBit_and, Nat.testBit_two_pow, h, Nat.zero_testBit, decide_eq_true rfl] at hbit
    cases hbit

theorem takeCpu_entry (apicId flags : UInt8) :
    takeCpu cpus parsed apicId.toNat flags.toNat = (Entry.processor apicId flags).cpu.toList.foldl store (cpus, parsed) := by
  unfold takeCpu Entry.cpu
  have hbit : flags.toNat &&& 0x01 ≠ 0 ↔ flags.toNat.testBit 0 = true := and_bit _ 0
  have hbsp : flags.toNat &&& 0x02 ≠ 0 ↔ flags.toNat.testBit 1 = true := and_bit _ 1
  simp only [hbit, hbsp]
  by_cases h : flags.toNat.testBit 0 = true
  · rw [if_pos h, if_pos h]
    cases flags.toNat.testBit 1 <;> rfl
  · rw [if_neg h, if_neg h]
    rfl

/-- The loop stores the enabled processors one after the other. -/
theorem entryLoop_table (h : TableAt mem n a es) :
    entryLoop mem n a cpus parsed = (enabledCpus es).foldl store (cpus, parsed) := by
  induction es generalizing n a cpus parsed with
  | nil =>
    cases n with
    | zero => rfl
    | succ n =>
      have hunknown : 4 < load8 mem a := h.resolve_left (Nat.succ_ne_zero n)
      rw [entryLoop]
      simp only [if_neg (show load8 mem a ≠ 0 by omega), if_neg (show load8 mem a ≠ 1 by omega),
        if_neg (show load8 mem a ≠ 2 by omega), if_neg (show load8 mem a ≠ 3 by omega),
        if_neg (show load8 mem a ≠ 4 by omega)]
      rfl
  | cons e es ih =>
    obtain ⟨m, rfl, he, hes⟩ := h
    cases e with
    | processor apicId flags =>
      obtain ⟨htype, hapic, hflags⟩ := he
      have hcpus : enabledCpus (.processor apicId flags :: es) =
          (Entry.processor apicId flags).cpu.toList ++ enabledCpus es := by
        unfold enabledCpus
        rw [List.filterMap_cons]
        cases (Entry.processor apicId flags).cpu <;> rfl
      rw [entryLoop, hcpus, List.foldl_append, ← takeCpu_entry]
      simp only [htype, hapic, hflags, if_true]
      exact ih hes
    | other type =>
      have htype : load8 mem a = type.val + 1 := he
      have hskip : entryLoop mem (m+1) a cpus parsed = entryLoop mem m (a+8) cpus parsed := by
        rw [entryLoop]
        simp only [htype]
        fin_cases type <;> rfl
      rw [hskip]
      exact ih hes

theorem store_last (h : ¬ parsed < maxCpus) (c : CpuInfo) : store (cpus, parsed) c = (cpus, parsed) := if_neg h

theorem store_next (h : parsed < maxCpus) (c : CpuInfo) :
    store (cpus, parsed) c = (Function.update cpus parsed c, parsed+1) := if_pos h

/-- The array behind a row of stores: those that fit are in order from `parsed` on, and the rest is unchanged. -/
theorem foldl_store (l : List CpuInfo) (h : parsed ≤ maxCpus) :
    (l.foldl store (cpus, parsed)).2 = min maxCpus (parsed + l.length) ∧
      ∀ i, (l.foldl store (cpus, parsed)).1 i =
        if parsed ≤ i ∧ i < min maxCpus (parsed + l.length) then l.getD (i-parsed) ⟨0, 0, 0⟩ else cpus i := by
  induction l generalizing cpus parsed with
  | nil =>
    refine ⟨(Nat.min_eq_right h).symm, fun i => ?_⟩
    rw [if_neg (by rw [List.length_nil]; omega)]
    rfl
  | cons c l ih =>
    rw [List.foldl_cons]
    by_cases hroom : parsed < maxCpus
    · rw [store_next hroom]
      obtain ⟨hcount, hcpus⟩ := @ih (Function.update cpus parsed c) (parsed+1) hroom
      have hlen : parsed + 1 + l.length = parsed + (c::l).length := by
        rw [List.length_cons]
        omega
      rw [hlen] at hcount hcpus
      refine ⟨hcount, fun i => ?_⟩
      rw [hcpus]
      by_cases hi : i = parsed
      · have hin : parsed ≤ i ∧ i < min maxCpus (parsed + (c::l).length) := by
          rw [List.length_cons]
          omega
        rw [if_neg (by omega), if_pos hin, hi, Function.update_self, Nat.sub_self]
        rfl
      · rw [Function.update_of_ne hi]
        by_cases hin : parsed + 1 ≤ i ∧ i < min maxCpus (parsed + (c::l).length)
        · rw [if_pos hin, if_pos ⟨Nat.le_of_succ_le hin.1, hin.2⟩, show i - parsed = (i - (parsed+1)) + 1 by omega]
          rfl
        · rw [if_neg hin, if_neg (fun hle => hin ⟨by omega, hle.2⟩)]
    · rw [store_last hroom]
      obtain ⟨hcount, hcpus⟩ := @ih cpus parsed h
      have hfull : ∀ k, min maxCpus (parsed + k) = maxCpus := fun k => by omega
      rw [hfull] at hcount
      refine ⟨by rw [hcount, hfull], fun i => ?_⟩
      rw [hcpus, hfull, hfull, if_neg (by omega), if_neg (by omega)]

end Entries

section Init

variable {mem : Mem} {s : Processors} {n a : ℕ} {es : List Entry}

/-- Every memory holds some table. -/
theorem table_exists (mem : Mem) (n a : ℕ) : ∃ es, TableAt mem n a es := by
  induction n generalizing a with
  | zero => exact ⟨[], .inl rfl⟩
  | succ n ih =>
    by_cases hunknown : 4 < load8 mem a
    · exact ⟨[], .inr hunknown⟩
    by_cases hcpu : load8 mem a = 0
    · obtain ⟨es, hes⟩ := ih (a+20)
      exact ⟨.processor (mem (wrap (a+1))) (mem (wrap (a+3))) :: es, n, rfl, ⟨hcpu, rfl, rfl⟩, hes⟩
    · obtain ⟨es, hes⟩ := ih (a+8)
      refine ⟨.other ⟨load8 mem a - 1, by omega⟩ :: es, n, rfl, ?_, hes⟩
      change load8 mem a = load8 mem a - 1 + 1
      omega

theorem tables_exist (mem : Mem) : ∃ es, Tables mem es := by
  unfold Tables
  cases configHeader mem with
  | none => exact ⟨[], rfl⟩
  | some cfg => exact table_exists mem _ _

theorem smpDefault_first : (smpDefault s).cpus 0 = ⟨0, 1, 1⟩ := rfl

theorem smpDefault_beyond {i : ℕ} (h : i ≥ 32) : (smpDefault s).cpus i = s.cpus i := by
  unfold smpDefault maxCpus
  dsimp only
  rw [Function.update_of_ne (by omega), if_neg (by omega)]

theorem default_listed : Listed s (smpDefault s) [] :=
  ⟨rfl, congrArg (fun c => [c]) smpDefault_first, fun _ h => smpDefault_beyond h⟩

/-- What the loop leaves behind, from an array that holds the default processor. -/
theorem stored_listed (cpus : List CpuInfo) :
    let r := cpus.foldl store ((smpDefault s).cpus, 0)
    Listed s ⟨r.1, if r.2 > 0 then r.2 else (smpDefault s).cpuCount⟩ cpus := by
  intro r
  by_cases hnone : cpus = []
  · subst hnone
    exact default_listed
  have hpos := List.length_pos_of_ne_nil hnone
  obtain ⟨hcount, hcpus⟩ := @foldl_store (smpDefault s).cpus 0 cpus (Nat.zero_le maxCpus)
  rw [Nat.zero_add] at hcount
  simp only [Nat.zero_le, true_and, Nat.zero_add, Nat.sub_zero] at hcpus
  have hmore : r.2 > 0 := by
    rw [hcount]
    exact Nat.lt_min.mpr ⟨by decide, hpos⟩
  refine ⟨?_, ?_, fun i hi => ?_⟩
  · rw [if_pos hmore, if_neg hnone]
    exact hcount
  · simp only [if_pos hmore, if_neg hnone]
    rw [hcount]
    refine List.ext_getElem ?_ (fun i hi hi' => ?_)
    · rw [List.length_map, List.length_range, List.length_take]
      rfl
    · rw [List.length_map, List.length_range] at hi
      rw [List.getElem_map, List.getElem_range, hcpus, if_pos hi, List.getElem_take]
      exact List.getD_eq_getElem _ _ _
  · have hout : ¬ i < min maxCpus cpus.length := by
      unfold maxCpus
      omega
    exact (hcpus i).trans ((if_neg hout).trans (smpDefault_beyond hi))

/-- Whatever tables the firmware has left, the array holds the first 32 enabled processors in their order, or the
one it holds by default, and nothing behind it is written. -/
theorem smp_init_lists (mem : Mem) (s : Processors) (es : List Entry) (h : Tables mem es) :
    Listed s (smpInit mem s) (enabledCpus es) := by
  unfold Tables at h
  unfold smpInit
  cases hcfg : configHeader mem with
  | none =>
    rw [hcfg] at h
    obtain rfl : es = [] := h
    exact default_listed
  | some cfg =>
    rw [hcfg] at h
    dsimp only
    rw [entryLoop_table h]
    exact stored_listed _

end Init

/-- Two processors and a bus between them. -/
def firmware (a : ℕ) : UInt8 :=
  ([(0x9FC00, 95), (0x9FC01, 77), (0x9FC02, 80), (0x9FC03, 95), (0x9FC05, 16), (0x9FC0A, 149),
    (0x1000, 80), (0x1001, 67), (0x1002, 77), (0x1003, 80), (0x1022, 3), (0x102F, 3),
    (0x1040, 1), (0x1049, 1), (0x104B, 1)].lookup a).getD 0

theorem smp_init_lists_sample : Listed ⟨fun _ => ⟨9, 9, 9⟩, 7⟩ (smpInit firmware ⟨fun _ => ⟨9, 9, 9⟩, 7⟩)
    (enabledCpus [.processor 0 3, .other 0, .processor 1 1]) :=
  smp_init_lists firmware _ _ (by
    have hcfg : configHeader firmware = some 0x1000 := by decide +kernel
    unfold Tables
    rw [hcfg]
    exact ⟨2, rfl, ⟨rfl, rfl, rfl⟩, 1, rfl, rfl, 0, rfl, ⟨rfl, rfl, rfl⟩, .inl rfl⟩)

end Dionnex.Smp
