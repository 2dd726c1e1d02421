import Dionnex.X86Protection

/-!
# The descriptor tables of the kernel

`gdt_init`, `idt_init`, `syscall_init` and `tss_init` fill three packed tables
byte by byte and load them. What the processor decodes from them is a fixed
GDT, one gate for each stub, and a kernel stack in the task state segment.
-/

set_option autoImplicit false

namespace Dionnex.BootTables
open ByteMemory X86Protection

/-- Where the linker has put the tables and the stubs. -/
structure Image where
  gdtEntries : ℕ
  gdtPtr : ℕ
  idtEntries : ℕ
  idtPtr : ℕ
  tss : ℕ
  isr : ℕ → ℕ
  irq : ℕ → ℕ
  syscallIsrStub : ℕ
  inMemory : ∀ o ∈ [(gdtEntries, 48), (gdtPtr, 6), (idtEntries, 2048), (idtPtr, 6), (tss, 104)], o.1+o.2 ≤ 4294967296
  apart : [(gdtEntries, 48), (gdtPtr, 6), (idtEntries, 2048), (idtPtr, 6), (tss, 104)].Pairwise
    (fun x y => x.1+x.2 ≤ y.1 ∨ y.1+y.2 ≤ x.1)
  stubs : ((List.range 32).map isr ++ (List.range 16).map irq ++ [syscallIsrStub]).Nodup
  stubBound : ∀ a ∈ (List.range 32).map isr ++ (List.range 16).map irq ++ [syscallIsrStub], a < 4294967296

section Tables

variable (im : Image)

/-! ## The source -/

def gdtSetGate (m : Mem) (num base limit access gran : ℕ) : Mem :=
  let e := im.gdtEntries + 8*num
  let m := store16 m (e+2) (base % 65536)
  let m := store8 m (e+4) (base / 65536 % 256)
  let m := store8 m (e+7) (base / 16777216 % 256)
  let m := store16 m e (limit % 65536)
  let m := store8 m (e+6) (limit / 65536 % 16)
  let m := store8 m (e+6) (load8 m (e+6) ||| (gran &&& 0xF0))
  store8 m (e+5) access

/-- `mov ax, v` and the four loads from `ax`, as the assembly files have them. -/
def loadData (v : ℕ) : List Instr :=
  [.movAx v, .movSegment .ds, .movSegment .es, .movSegment .fs, .movSegment .gs]

def gdtFlush (a : ℕ) : List Instr := .lgdt a :: (loadData 0x10 ++ [.movStack, .jumpFar 0x08])

def gdtGates (m : Mem) : Mem :=
  let m := gdtSetGate im m 0 0 0 0 0
  let m := gdtSetGate im m 1 0 0xFFFFFFFF 0x9A 0xCF
  let m := gdtSetGate im m 2 0 0xFFFFFFFF 0x92 0xCF
  let m := gdtSetGate im m 3 0 0xFFFFFFFF 0xFA 0xCF
  let m := gdtSetGate im m 4 0 0xFFFFFFFF 0xF2 0xCF
  gdtSetGate im m 5 0 0 0 0

def gdtInit (p : Processor) : Except Fault Processor :=
  exec (gdtFlush im.gdtPtr)
    { p with mem := gdtGates im (store32 (store16 p.mem im.gdtPtr (8*6-1)) (im.gdtPtr+2) im.gdtEntries) }

def idtSetGate (m : Mem) (num base sel flags : ℕ) : Mem :=
  let e := im.idtEntries + 8*num
  let m := store16 m e (base % 65536)
  let m := store16 m (e+6) (base / 65536 % 65536)
  let m := store16 m (e+2) sel
  let m := store8 m (e+4) 0
  store8 m (e+5) flags

/-- The loop clears the fields of an entry in the order in which `idt_set_gate` sets them. -/
def idtGates (m : Mem) : Mem :=
  let m := (List.range 256).foldl (fun m i => idtSetGate im m i 0 0 0) m
  let m := (List.range 32).foldl (fun m i => idtSetGate im m i (im.isr i) 0x08 0x8E) m
  (List.range 16).foldl (fun m i => idtSetGate im m (32+i) (im.irq i) 0x08 0x8E) m

/-- The handler array is in `Interrupts`, `pic_remap` in `PicLines`. -/
def idtInit (p : Processor) : Except Fault Processor :=
  exec [.lidt im.idtPtr]
    { p with mem := idtGates im (store32 (store16 p.mem im.idtPtr (8*256-1)) (im.idtPtr+2) im.idtEntries) }

/-- The gate of `syscall_init`. -/
def syscallInit (m : Mem) : Mem := idtSetGate im m 0x80 im.syscallIsrStub 0x08 0xEE

def tssSetKernelStack (m : Mem) (esp0 : ℕ) : Mem := store32 m (im.tss+4) esp0

def tssFlush : List Instr := [.movAx 0x28, .ltr]

def tssFields (m : Mem) : Mem :=
  let m := memset m im.tss 0 104
  let m := store32 m (im.tss+8) 0x10
  let m := store32 m (im.tss+4) 0
  let m := store16 m (im.tss+102) 104
  gdtSetGate im m 5 im.tss (104-1) 0xE9 0x00

def tssInit (p : Processor) : Except Fault Processor := exec tssFlush { p with mem := tssFields im p.mem }

/-- `kernel_main` up to the task state segment; `rest` is what its other calls do to memory after the first two. -/
def boot (rest : Mem → Mem) (p : Processor) : Except Fault Processor :=
  (gdtInit im p).bind (fun p => (idtInit im p).bind (fun p => tssInit im { p with mem := syscallInit im (rest p.mem) }))

/-! ## What the processor decodes -/

def segmentDescriptor : ℕ → Descriptor
  | 1 => ⟨0, 0xFFFFF, 0x9A, 0xC⟩
  | 2 => ⟨0, 0xFFFFF, 0x92, 0xC⟩
  | 3 => ⟨0, 0xFFFFF, 0xFA, 0xC⟩
  | 4 => ⟨0, 0xFFFFF, 0xF2, 0xC⟩
  | _ => ⟨0, 0, 0, 0⟩

def kernelDescriptor (i : ℕ) : Descriptor := if i = 5 then ⟨im.tss, 103, 0xEB, 0⟩ else segmentDescriptor i

def kernelGate (v : ℕ) : Gate :=
  if v < 32 then ⟨im.isr v, 0x08, 0x8E⟩
  else if v < 48 then ⟨im.irq (v-32), 0x08, 0x8E⟩
  else if v = 0x80 then ⟨im.syscallIsrStub, 0x08, 0xEE⟩
  else ⟨0, 0, 0⟩

/-- The bytes that nothing may change but the kernel stack's word. -/
def Image.tables : Set ℕ := span im.gdtEntries 48 ∪ span im.idtEntries 2048 ∪ span im.tss 104

def kernelStack (m : Mem) : ℕ := load32 m (im.tss+4)

/-- The tables as they stand in memory. -/
structure Stored (m : Mem) : Prop where
  gdt : ∀ i < 6, descriptorAt m (im.gdtEntries + 8*i) = kernelDescriptor im i
  idt : ∀ v < 256, gateAt m (im.idtEntries + 8*v) = kernelGate im v
  ss0 : load16 m (im.tss+8) = 0x10

/-- And as they are loaded. -/
structure Loaded (p : Processor) : Prop where
  stored : Stored im p.mem
  gdtr : p.gdtr = ⟨im.gdtEntries, 47⟩
  idtr : p.idtr = ⟨im.idtEntries, 2047⟩
  tr : p.tr = ⟨0x28, im.tss, 103⟩

end Tables

/-! ## One entry -/

section Entries

variable (im : Image) (m : Mem) {num base limit access gran sel flags : ℕ}

theorem gdtSetGate_off : SameOff (span (im.gdtEntries+8*num) 8) m (gdtSetGate im m num base limit access gran) :=
  ((((((((store16_off _ _ _).mono (span_shift (by decide))).trans ((store8_off _ _ _).mono (span_shift (by decide)))).trans
    ((store8_off _ _ _).mono (span_shift (by decide)))).trans ((store16_off _ _ _).mono (span_mono (by decide)))).trans
    ((store8_off _ _ _).mono (span_shift (by decide)))).trans ((store8_off _ _ _).mono (span_shift (by decide)))).trans
    ((store8_off _ _ _).mono (span_shift (by decide))))

theorem idtSetGate_off : SameOff (span (im.idtEntries+8*num) 8) m (idtSetGate im m num base sel flags) :=
  (((((store16_off _ _ _).mono (span_mono (by decide))).trans ((store16_off _ _ _).mono (span_shift (by decide)))).trans
    ((store16_off _ _ _).mono (span_shift (by decide)))).trans ((store8_off _ _ _).mono (span_shift (by decide)))).trans
    ((store8_off _ _ _).mono (span_shift (by decide)))

/-- The byte that the limit and the granularity share. -/
theorem granularity_byte (x g : ℕ) (hg : g < 256) : (x % 16 % 256 ||| (g &&& 0xF0)) % 256 = x % 16 + 16*(g/16) := by
  have hx : x % 16 % 256 < 16 := by omega
  have hall : ∀ g : Fin 256, g.val &&& 0xF0 = 16*(g.val/16) := by decide +kernel
  have hhigh : g &&& 0xF0 = 16*(g/16) := hall ⟨g, hg⟩
  rw [hhigh, Nat.or_comm, show 16*(g/16) = 2^4*(g/16) from rfl, ← Nat.two_pow_add_eq_or_of_lt (i := 4) hx]
  omega

theorem gdtSetGate_at (hb : base < 4294967296) (ha : access < 256) (hg : gran < 256) :
    descriptorAt (gdtSetGate im m num base limit access gran) (im.gdtEntries+8*num) =
      ⟨base, limit % 1048576, access, gran/16⟩ := by
  have hgran := granularity_byte (limit/65536) gran hg
  unfold gdtSetGate descriptorAt
  generalize im.gdtEntries+8*num = e
  simp (disch := decide) only [store16, load16, Nat.add_assoc, Nat.reduceAdd, store8_same, load8_other, load8_above, load8_below]
  rw [hgran]
  have hbase : base % 65536 % 256 + (256 * (base % 65536 / 256 % 256) +
      (65536 * (base / 65536 % 256 % 256) + 16777216 * (base / 16777216 % 256 % 256))) = base := by omega
  have hlimit : limit % 65536 % 256 + (256 * (limit % 65536 / 256 % 256) +
      65536 * ((limit / 65536 % 16 + 16 * (gran / 16)) % 16)) = limit % 1048576 := by omega
  have hflags : (limit / 65536 % 16 + 16 * (gran / 16)) / 16 = gran / 16 := by omega
  rw [hbase, hlimit, hflags, Nat.mod_eq_of_lt ha]

theorem idtSetGate_at (hb : base < 4294967296) (hs : sel < 65536) (hf : flags < 256) :
    gateAt (idtSetGate im m num base sel flags) (im.idtEntries+8*num) = ⟨base, sel, flags⟩ := by
  unfold idtSetGate gateAt
  generalize im.idtEntries+8*num = e
  simp (disch := decide) only [store16, load16, Nat.add_assoc, Nat.reduceAdd, store8_same, load8_other, load8_below]
  have hbase : base % 65536 % 256 + (256 * (base % 65536 / 256 % 256) +
      65536 * (base / 65536 % 65536 % 256 + 256 * (base / 65536 % 65536 / 256 % 256))) = base := by omega
  have hsel : sel % 256 + 256 * (sel / 256 % 256) = sel := by omega
  rw [hbase, hsel, Nat.mod_eq_of_lt hf]

theorem gdt_span {i : ℕ} (hi : i < 6) : span (im.gdtEntries+8*i) 8 ⊆ span im.gdtEntries 48 := span_shift (by omega)

theorem idt_span {v : ℕ} (hv : v < 256) : span (im.idtEntries+8*v) 8 ⊆ span im.idtEntries 2048 := span_shift (by omega)

/-- Entries of eight bytes with different numbers. -/
theorem entries_apart {a i j k : ℕ} (hi : i < k) (hj : j < k) (hk : 8*k ≤ 4294967296) (hne : i ≠ j) :
    Disjoint (span (a+8*i) 8) (span (a+8*j) 8) := by
  refine Set.disjoint_left.mpr ?_
  rintro x ⟨b, hb, rfl⟩ ⟨c, hc, he⟩
  unfold wrap at he
  omega

theorem gdtSetGate_ne {i : ℕ} (hi : i < 6) (hn : num < 6) (hne : i ≠ num) :
    descriptorAt (gdtSetGate im m num base limit access gran) (im.gdtEntries+8*i) = descriptorAt m (im.gdtEntries+8*i) :=
  descriptorAt_off (gdtSetGate_off im m) (entries_apart hi hn (by decide) hne)

theorem gdtSetGate_after {i : ℕ} (hi : i < 6) (hn : num < 6) (hb : base < 4294967296) (ha : access < 256) (hg : gran < 256) :
    descriptorAt (gdtSetGate im m num base limit access gran) (im.gdtEntries+8*i) =
      if i = num then ⟨base, limit % 1048576, access, gran/16⟩ else descriptorAt m (im.gdtEntries+8*i) := by
  split
  · rename_i h
    rw [h]
    exact gdtSetGate_at im m hb ha hg
  · rename_i h
    exact gdtSetGate_ne im m hi hn h

theorem idtSetGate_ne {v : ℕ} (hv : v < 256) (hn : num < 256) (hne : v ≠ num) :
    gateAt (idtSetGate im m num base sel flags) (im.idtEntries+8*v) = gateAt m (im.idtEntries+8*v) :=
  gateAt_off (idtSetGate_off im m) (entries_apart hv hn (by decide) hne)

variable (sel flags) in
/-- A loop over consecutive gates sets these and no others. -/
theorem idtGates_loop (g : ℕ → ℕ) (first n : ℕ) (hlast : first+n ≤ 256) (hg : ∀ i < n, g i < 4294967296)
    (hs : sel < 65536) (hf : flags < 256) {v : ℕ} (hv : v < 256) :
    gateAt ((List.range n).foldl (fun m i => idtSetGate im m (first+i) (g i) sel flags) m) (im.idtEntries+8*v) =
      if first ≤ v ∧ v < first+n then ⟨g (v-first), sel, flags⟩ else gateAt m (im.idtEntries+8*v) := by
  induction n with
  | zero =>
    rw [if_neg (by omega)]
    rfl
  | succ n ih =>
    have hbefore := ih (by omega) (fun i hi => hg i (by omega))
    rw [List.range_succ, List.foldl_append, List.foldl_cons, List.foldl_nil]
    by_cases hlastGate : v = first+n
    · subst hlastGate
      rw [idtSetGate_at im _ (hg n (by omega)) hs hf, if_pos (by omega), Nat.add_sub_cancel_left]
    · rw [idtSetGate_ne im _ hv (by omega) hlastGate, hbefore]
      congr 1
      exact propext (by omega)

variable (sel flags) in
theorem idtGates_loop_off (g : ℕ → ℕ) (first n : ℕ) (hlast : first+n ≤ 256) :
    SameOff (span im.idtEntries 2048) m
      ((List.range n).foldl (fun m i => idtSetGate im m (first+i) (g i) sel flags) m) := by
  induction n with
  | zero => exact SameOff.refl _ m
  | succ n ih =>
    rw [List.range_succ, List.foldl_append, List.foldl_cons, List.foldl_nil]
    exact (ih (by omega)).trans ((idtSetGate_off im _).mono (idt_span im (by omega)))

end Entries

/-! ## Segments -/

section Segments

variable {im : Image} {p : Processor}

/-- The four flat segments are loaded. -/
structure Segments (im : Image) (p : Processor) : Prop where
  gdtr : p.gdtr = ⟨im.gdtEntries, 47⟩
  gdt : ∀ i, 1 ≤ i → i ≤ 4 → descriptorAt p.mem (im.gdtEntries+8*i) = segmentDescriptor i

theorem Loaded.segments (h : Loaded im p) : Segments im p :=
  ⟨h.gdtr, fun i _ hi => (h.stored.gdt i (by omega)).trans (if_neg (by omega))⟩

theorem lookup_low (hg : p.gdtr = ⟨im.gdtEntries, 47⟩) {sel : ℕ} (hsel : sel/4%2 = 0) (h5 : sel/8 ≤ 5) :
    lookup p sel = .ok (descriptorAt p.mem (im.gdtEntries+8*(sel/8))) := by
  rw [lookup, hg]
  exact if_neg (by dsimp only; omega)

theorem lookup_high (hg : p.gdtr = ⟨im.gdtEntries, 47⟩) {sel : ℕ} (hsel : sel/4%2 = 1 ∨ 5 < sel/8) :
    lookup p sel = .error (.protection (sel/4*4)) := by
  rw [lookup, hg]
  exact if_pos (by dsimp only; omega)

theorem segmentDescriptor_flat {i : ℕ} (h1 : 1 ≤ i) (h4 : i ≤ 4) : (segmentDescriptor i).isFlat = true := by
  interval_cases i <;> decide

theorem describe_kernel (h : Segments im p) {sel i : ℕ} (hsel : sel/4%2 = 0) (hi : sel/8 = i) (h1 : 1 ≤ i) (h4 : i ≤ 4) :
    describe p sel = .ok (segmentDescriptor i) := by
  rw [describe, lookup_low h.gdtr hsel (by omega), hi, h.gdt _ h1 h4]
  exact if_pos (segmentDescriptor_flat h1 h4)

/-- A null selector, or a segment of the level or of user mode. -/
def Usable (level sel : ℕ) : Prop :=
  sel < 65536 ∧ (sel/4 = 0 ∨ sel/4%2 = 0 ∧ (sel/8 = 3 ∨ sel/8 = 4) ∨ level = 0 ∧ (sel = 0x08 ∨ sel = 0x10))

theorem Usable.kernel {level sel : ℕ} (h : Usable level sel) : Usable 0 sel := by
  obtain ⟨hlt, hnull | huser | ⟨-, hown⟩⟩ := h
  · exact ⟨hlt, Or.inl hnull⟩
  · exact ⟨hlt, Or.inr (Or.inl huser)⟩
  · exact ⟨hlt, Or.inr (Or.inr ⟨rfl, hown⟩)⟩

theorem checkData_segment (h : Segments im p) {sel i : ℕ} (hsel : sel/4%2 = 0) (hi : sel/8 = i) (h1 : 1 ≤ i) (h4 : i ≤ 4)
    (hlevel : max p.cpl (sel%4) ≤ (segmentDescriptor i).dpl) : checkData p sel = .ok () := by
  have hload : (segmentDescriptor i).isLoadable = true ∧ (segmentDescriptor i).isPresent = true := by
    interval_cases i <;> decide
  rw [checkData, if_neg (by omega), describe_kernel h hsel hi h1 h4]
  exact (if_pos ⟨hload.1, Or.inr hlevel⟩).trans (if_pos hload.2)

theorem checkData_usable (h : Segments im p) {sel : ℕ} (hu : Usable p.cpl sel) : checkData p sel = .ok () := by
  have hcpl : p.cpl ≤ 3 := Nat.le_of_lt_succ (Nat.mod_lt _ (by decide))
  have hrpl : sel%4 ≤ 3 := Nat.le_of_lt_succ (Nat.mod_lt _ (by decide))
  obtain ⟨-, hnull | ⟨hti, h3 | h4⟩ | ⟨hzero, rfl | rfl⟩⟩ := hu
  · exact if_pos hnull
  · exact checkData_segment h hti h3 (by decide) (by decide) (max_le hcpl hrpl)
  · exact checkData_segment h hti h4 (by decide) (by decide) (max_le hcpl hrpl)
  · exact checkData_segment h rfl rfl (by decide) (by decide) (by rw [hzero]; decide)
  · exact checkData_segment h rfl rfl (by decide) (by decide) (by rw [hzero]; decide)

theorem checkStack_segment (h : Segments im p) {level sel i : ℕ} (hsel : sel/4%2 = 0) (hi : sel/8 = i) (h1 : 1 ≤ i)
    (h4 : i ≤ 4) (hlevel : sel%4 = level ∧ (segmentDescriptor i).isWritable ∧ (segmentDescriptor i).dpl = level)
    (bad : ℕ → Fault) : checkStack p level sel bad = .ok () := by
  have hpresent : (segmentDescriptor i).isPresent = true := by
    interval_cases i <;> decide
  rw [checkStack, if_neg (by omega), lookup_low h.gdtr hsel (by omega), hi, h.gdt i h1 h4]
  exact (if_pos hlevel).trans ((if_pos hpresent).trans (if_pos (segmentDescriptor_flat h1 h4)))

theorem checkStack_kernel (h : Segments im p) (bad : ℕ → Fault) : checkStack p 0 0x10 bad = .ok () :=
  checkStack_segment h rfl rfl (by decide) (by decide) (by decide) bad

theorem checkStack_user (h : Segments im p) (bad : ℕ → Fault) : checkStack p 3 0x23 bad = .ok () :=
  checkStack_segment h rfl rfl (by decide) (by decide) (by decide) bad

theorem checkJump_kernel (h : Segments im p) (hcpl : p.cpl = 0) : checkJump p 0x08 = .ok () := by
  rw [checkJump, if_neg (by decide), describe_kernel h rfl rfl (by decide) (by decide), hcpl]
  decide

theorem checkTarget_kernel (h : Segments im p) : checkTarget p 0x08 = .ok (segmentDescriptor 1) := by
  have hcode : (segmentDescriptor 1).isCode = true ∧ (segmentDescriptor 1).dpl ≤ p.cpl := ⟨by decide, Nat.zero_le _⟩
  have hpresent : (segmentDescriptor 1).isPresent = true := by decide
  rw [checkTarget, if_neg (by decide), describe_kernel h rfl rfl (by decide) (by decide), Except.bind, if_pos hcode,
    if_pos hpresent]

/-- Back to the same level, or out to user mode. -/
theorem checkReturn_kernel (h : Segments im p) (hcpl : p.cpl = 0) {sel : ℕ} (hsel : sel = 0x08 ∨ sel = 0x1B) :
    checkReturn p sel = .ok () := by
  rcases hsel with rfl | rfl
  · rw [checkReturn, if_neg (by decide), describe_kernel h rfl rfl (by decide) (by decide), hcpl]
    decide
  · rw [checkReturn, if_neg (by decide), describe_kernel h rfl rfl (by decide) (by decide), hcpl]
    decide

theorem outerSelector_segment (h : Segments im p) {sel i : ℕ} (hsel : sel/4%2 = 0) (hi : sel/8 = i) (h1 : 1 ≤ i)
    (h4 : i ≤ 4) {level : ℕ} (hlevel : level ≤ (segmentDescriptor i).dpl) : outerSelector p level sel = sel := by
  rw [outerSelector, lookup_low h.gdtr hsel (by omega), hi, h.gdt i h1 h4]
  exact if_neg (fun hn => absurd hn.2.2 (Nat.not_lt.mpr hlevel))

/-- What user mode may use stays when the kernel leaves for user mode. -/
theorem outerSelector_usable (h : Segments im p) {sel : ℕ} (hu : Usable 3 sel) : outerSelector p 3 sel = sel := by
  obtain ⟨-, hnull | ⟨hti, h3 | h4⟩ | ⟨hzero, -⟩⟩ := hu
  · unfold outerSelector
    split
    · exact if_neg (fun hn => hn.1 hnull)
    · rfl
  · exact outerSelector_segment h hti h3 (by decide) (by decide) (by decide)
  · exact outerSelector_segment h hti h4 (by decide) (by decide) (by decide)
  · cases hzero

theorem setSegment_usable (h : Segments im p) {sel : ℕ} (hu : Usable p.cpl sel) (s : DataSegment) :
    setSegment p s sel = .ok { p with data := p.data.set sel s } := by
  rw [setSegment, checkData_usable h hu]
  rfl

/-- The processor after `ax` and the four data segment registers have been loaded with a selector. -/
def withData (p : Processor) (v : ℕ) : Processor :=
  { p with regs := { p.regs with eax := p.regs.eax / 65536 * 65536 + v }, data := ⟨v, v, v, v⟩ }

theorem withData_bounded (h : p.Bounded) {v : ℕ} (hv : v < 65536) : (withData p v).Bounded := by
  refine ⟨?_, h.eip, h.eflags⟩
  intro r
  have hr := h.regs r
  cases r
  case eax =>
    change p.regs.eax / 65536 * 65536 + v < 4294967296
    change p.regs.eax < 4294967296 at hr
    omega
  all_goals exact hr

theorem exec_loadData (h : Segments im p) {v : ℕ} (hu : Usable p.cpl v) (is : List Instr) :
    exec (loadData v ++ is) p = exec is (withData p v) := by
  have hax : ax (withData p v).regs = v := by
    have hv := hu.1
    simp only [ax, withData]
    omega
  have hload (x : Selectors) (s : DataSegment) : step { withData p v with data := x } (.movSegment s) =
      .ok { withData p v with data := x.set v s } := by
    have hseg : Segments im { withData p v with data := x } := ⟨h.gdtr, h.gdt⟩
    have hset := setSegment_usable hseg (show Usable p.cpl v from hu) s
    rw [step]
    dsimp only
    rw [hax]
    exact hset
  have hmov : step p (.movAx v) = .ok { withData p v with data := p.data } := rfl
  rw [loadData, List.cons_append, exec_cons hmov, List.cons_append, exec_cons (hload _ _), List.cons_append,
    exec_cons (hload _ _), List.cons_append, exec_cons (hload _ _), List.cons_append, exec_cons (hload _ _)]
  rfl

end Segments

/-! ## Booting -/

section Booting

variable {im : Image}

theorem spans_apart {a n b k : ℕ} (ha : a+n ≤ 4294967296) (hb : b+k ≤ 4294967296) (h : a+n ≤ b ∨ b+k ≤ a) :
    Disjoint (span a n) (span b k) := by
  rw [span_eq ha, span_eq hb, Set.Ico_disjoint_Ico]
  omega

theorem Image.objects_apart (im : Image) : Disjoint (span im.gdtEntries 48) (span im.gdtPtr 6) ∧
    Disjoint (span im.gdtEntries 48) (span im.idtEntries 2048) ∧ Disjoint (span im.gdtEntries 48) (span im.idtPtr 6) ∧
    Disjoint (span im.gdtEntries 48) (span im.tss 104) ∧ Disjoint (span im.idtEntries 2048) (span im.idtPtr 6) ∧
    Disjoint (span im.idtEntries 2048) (span im.tss 104) := by
  have hin := im.inMemory
  have hapart := im.apart
  simp only [List.forall_mem_cons, List.pairwise_cons, List.not_mem_nil, false_implies, implies_true, and_true] at hin hapart
  refine ⟨?_, ?_, ?_, ?_, ?_, ?_⟩ <;> apply spans_apart <;> omega

theorem tableAt_stored (m : Mem) {a base limit : ℕ} (hb : base < 4294967296) (hl : limit < 65536) :
    tableAt (store32 (store16 m a limit) (a+2) base) a = ⟨base, limit⟩ := by
  have happart : Disjoint (span a 2) (span (a+2) 4) := by
    refine Set.disjoint_left.mpr ?_
    rintro x ⟨i, hi, rfl⟩ ⟨j, hj, he⟩
    unfold wrap at he
    omega
  rw [tableAt, load32_store32, wrap_of_lt hb, load16_off (store32_off _ _ _) happart, load16_store16 _ _ hl]

theorem tableAt_off {R : Set ℕ} {m m' : Mem} (h : SameOff R m m') {a : ℕ} (hd : Disjoint (span a 6) R) :
    tableAt m' a = tableAt m a := by
  rw [tableAt, load32_off h (hd.mono_left (span_shift (by decide))), load16_off h (hd.mono_left (span_mono (by decide))),
    tableAt]

theorem gdtGates_off (m : Mem) : SameOff (span im.gdtEntries 48) m (gdtGates im m) :=
  ((((((gdtSetGate_off im m).mono (gdt_span im (by decide))).trans ((gdtSetGate_off im _).mono (gdt_span im (by decide)))).trans
    ((gdtSetGate_off im _).mono (gdt_span im (by decide)))).trans
    ((gdtSetGate_off im _).mono (gdt_span im (by decide)))).trans
    ((gdtSetGate_off im _).mono (gdt_span im (by decide)))).trans ((gdtSetGate_off im _).mono (gdt_span im (by decide)))

theorem gdtGates_at (m : Mem) {i : ℕ} (hi : i < 6) :
    descriptorAt (gdtGates im m) (im.gdtEntries+8*i) = segmentDescriptor i := by
  have hafter {m : Mem} {num limit access gran : ℕ} (hn : num < 6) (ha : access < 256) (hg : gran < 256) :
      descriptorAt (gdtSetGate im m num 0 limit access gran) (im.gdtEntries+8*i) =
        if i = num then ⟨0, limit % 1048576, access, gran/16⟩ else descriptorAt m (im.gdtEntries+8*i) :=
    gdtSetGate_after im m hi hn (by decide) ha hg
  simp (disch := decide) only [gdtGates, hafter]
  interval_cases i <;> rfl

theorem idtGates_off (m : Mem) : SameOff (span im.idtEntries 2048) m (idtGates im m) := by
  have hclear := idtGates_loop_off im m 0 0 (fun _ => 0) 0 256 (by decide)
  have hisr := fun m => idtGates_loop_off im m 0x08 0x8E im.isr 0 32 (by decide)
  simp only [Nat.zero_add] at hclear hisr
  have hirq := fun m => idtGates_loop_off im m 0x08 0x8E im.irq 32 16 (by decide)
  rw [idtGates]
  exact (hclear.trans (hisr _)).trans (hirq _)

theorem stub_bounds (im : Image) : (∀ v < 32, im.isr v < 4294967296) ∧ (∀ n < 16, im.irq n < 4294967296) ∧
    im.syscallIsrStub < 4294967296 := by
  refine ⟨fun v hv => im.stubBound _ ?_, fun n hn => im.stubBound _ ?_, im.stubBound _ ?_⟩
  · exact List.mem_append_left _ (List.mem_append_left _ (List.mem_map.mpr ⟨v, List.mem_range.mpr hv, rfl⟩))
  · exact List.mem_append_left _ (List.mem_append_right _ (List.mem_map.mpr ⟨n, List.mem_range.mpr hn, rfl⟩))
  · exact List.mem_append_right _ (List.mem_singleton_self _)

theorem idtGates_at (m : Mem) {v : ℕ} (hv : v < 256) : gateAt (idtGates im m) (im.idtEntries+8*v) =
    if v < 32 then ⟨im.isr v, 0x08, 0x8E⟩ else if v < 48 then ⟨im.irq (v-32), 0x08, 0x8E⟩ else ⟨0, 0, 0⟩ := by
  obtain ⟨hisrs, hirqs, -⟩ := stub_bounds im
  have hclear := idtGates_loop im m 0 0 (fun _ => 0) 0 256 (by decide) (fun _ _ => by decide)
    (by decide) (by decide) hv
  have hisr := fun m => idtGates_loop im m 0x08 0x8E im.isr 0 32 (by decide) hisrs (by decide)
    (by decide) hv
  simp only [Nat.zero_add, Nat.sub_zero, Nat.zero_le, true_and] at hclear hisr
  rw [idtGates, idtGates_loop im _ 0x08 0x8E im.irq 32 16 (by decide) hirqs (by decide) (by decide) hv, hisr, hclear, if_pos hv]
  by_cases h32 : v < 32
  · rw [if_neg (by omega), if_pos h32, if_pos h32]
  · by_cases h48 : v < 48
    · rw [if_pos (by omega), if_neg h32, if_pos h48]
    · rw [if_neg (by omega), if_neg h32, if_neg h32, if_neg h48]

theorem syscallInit_at (m : Mem) (hm : ∀ v < 256, gateAt m (im.idtEntries+8*v) =
    if v < 32 then ⟨im.isr v, 0x08, 0x8E⟩ else if v < 48 then ⟨im.irq (v-32), 0x08, 0x8E⟩ else ⟨0, 0, 0⟩)
    {v : ℕ} (hv : v < 256) : gateAt (syscallInit im m) (im.idtEntries+8*v) = kernelGate im v := by
  rw [syscallInit, kernelGate]
  by_cases h80 : v = 0x80
  · subst h80
    exact idtSetGate_at im m (stub_bounds im).2.2 (by decide) (by decide)
  · rw [idtSetGate_ne im m hv (by decide) h80, hm v hv, if_neg h80]

theorem load16_store32 (m : Mem) (a : ℕ) {v : ℕ} (hv : v < 65536) : load16 (store32 m a v) a = v := by
  have h := load32_store32 m a v
  rw [wrap_of_lt (by omega)] at h
  unfold load32 at h
  have h0 := load8_lt (store32 m a v) a
  have h1 := load8_lt (store32 m a v) (a+1)
  unfold load16
  omega

theorem tssWrites_off (m : Mem) : SameOff (span im.tss 104) m
    (store16 (store32 (store32 (memset m im.tss 0 104) (im.tss+8) 0x10) (im.tss+4) 0) (im.tss+102) 104) :=
  (((memset_off m im.tss 0 104).trans ((store32_off _ _ _).mono (span_shift (by decide)))).trans
    ((store32_off _ _ _).mono (span_shift (by decide)))).trans ((store16_off _ _ _).mono (span_shift (by decide)))

theorem fields_apart {a i j n k : ℕ} (h : i+n ≤ j ∨ j+k ≤ i) (hi : i+n ≤ 4096) (hj : j+k ≤ 4096) :
    Disjoint (span (a+i) n) (span (a+j) k) := by
  refine Set.disjoint_left.mpr ?_
  rintro x ⟨b, hb, rfl⟩ ⟨c, hc, he⟩
  unfold wrap at he
  omega

theorem tssFields_off (m : Mem) : SameOff (span im.tss 104 ∪ span (im.gdtEntries+8*5) 8) m (tssFields im m) :=
  ((tssWrites_off m).mono Set.subset_union_left).trans ((gdtSetGate_off im _).mono Set.subset_union_right)

theorem tssFields_words (m : Mem) : load16 (tssFields im m) (im.tss+8) = 0x10 ∧ kernelStack im (tssFields im m) = 0 := by
  obtain ⟨-, -, -, hgdt, -, -⟩ := im.objects_apart
  have hgate (w : Mem) : SameOff (span (im.gdtEntries+8*5) 8) w (gdtSetGate im w 5 im.tss (104-1) 0xE9 0x00) :=
    gdtSetGate_off im w
  have hd : Disjoint (span im.tss 104) (span (im.gdtEntries+8*5) 8) := (hgdt.mono_left (gdt_span im (by decide))).symm
  constructor
  · rw [tssFields, load16_off (hgate _) (hd.mono_left (span_shift (by decide))),
      load16_off (store16_off _ _ _) (fields_apart (by decide) (by decide) (by decide)),
      load16_off (store32_off _ _ _) (fields_apart (by decide) (by decide) (by decide)), load16_store32 _ _ (by decide)]
  · rw [kernelStack, tssFields, load32_off (hgate _) (hd.mono_left (span_shift (by decide))),
      load32_off (store16_off _ _ _) (fields_apart (by decide) (by decide) (by decide)), load32_store32]
    rfl

theorem gdtInit_loads (p : Processor) (hcpl : p.cpl = 0) : ∃ q, gdtInit im p = .ok q ∧ Segments im q ∧
    descriptorAt q.mem (im.gdtEntries+8*0) = segmentDescriptor 0 ∧ q.cs = 0x08 ∧ q.ss = 0x10 ∧
      q.data = ⟨0x10, 0x10, 0x10, 0x10⟩ ∧ q.eflags = p.eflags ∧ (p.Bounded → q.Bounded) := by
  obtain ⟨hptr, -, -, -, -, -⟩ := im.objects_apart
  have hbase : im.gdtEntries < 4294967296 := by
    have := im.inMemory (im.gdtEntries, 48) (List.mem_cons_self ..)
    dsimp only at this
    omega
  generalize hm : gdtGates im (store32 (store16 p.mem im.gdtPtr (8*6-1)) (im.gdtPtr+2) im.gdtEntries) = m
  have htable : tableAt m im.gdtPtr = ⟨im.gdtEntries, 47⟩ := by
    rw [← hm, tableAt_off (gdtGates_off _) hptr.symm, tableAt_stored _ hbase (by decide)]
  have hlgdt : step { p with mem := m } (.lgdt im.gdtPtr) = .ok { p with mem := m, gdtr := ⟨im.gdtEntries, 47⟩ } :=
    step_lgdt (p := { p with mem := m }) hcpl htable
  have hseg : Segments im { p with mem := m, gdtr := ⟨im.gdtEntries, 47⟩ } :=
    ⟨rfl, fun i _ hi => by rw [← hm]; exact gdtGates_at _ (by omega)⟩
  have husable : Usable p.cpl 0x10 := ⟨by decide, Or.inr (Or.inr ⟨hcpl, Or.inr rfl⟩)⟩
  generalize hq : withData { p with mem := m, gdtr := ⟨im.gdtEntries, 47⟩ } 0x10 = q
  have hax : ax q.regs = 0x10 := by
    rw [← hq]
    simp only [ax, withData]
    omega
  have hsegq : Segments im q := by
    rw [← hq]
    exact ⟨hseg.gdtr, hseg.gdt⟩
  have hcplq : q.cpl = 0 := by
    rw [← hq]
    exact hcpl
  have hstack : step q .movStack = .ok { q with ss := 0x10 } :=
    step_movStack hax (by rw [hcplq]; exact checkStack_kernel hsegq _)
  have hjump : step { q with ss := 0x10 } (.jumpFar 0x08) = .ok { q with ss := 0x10, cs := 0x08 + q.cpl } :=
    step_jumpFar (p := { q with ss := 0x10 }) (checkJump_kernel ⟨hsegq.gdtr, hsegq.gdt⟩ hcplq)
  rw [hcplq] at hjump
  refine ⟨{ q with ss := 0x10, cs := 0x08 }, ?_, ⟨hsegq.gdtr, hsegq.gdt⟩, ?_, rfl, rfl, ?_, ?_, ?_⟩
  · rw [gdtInit, hm, gdtFlush, exec_cons hlgdt, exec_loadData hseg husable, hq, exec_cons hstack, exec_cons hjump, exec]
  · rw [← hq, ← hm]
    exact gdtGates_at _ (by decide)
  · rw [← hq]
    rfl
  · rw [← hq]
    rfl
  · intro hp
    have hbounded := withData_bounded (p := { p with mem := m, gdtr := ⟨im.gdtEntries, 47⟩ }) ⟨hp.regs, hp.eip, hp.eflags⟩
      (show 0x10 < 65536 by decide)
    rw [hq] at hbounded
    exact ⟨hbounded.regs, hbounded.eip, hbounded.eflags⟩

/-- The gates of the stubs but for the system call. -/
def FirstGates (im : Image) (m : Mem) : Prop := ∀ v < 256, gateAt m (im.idtEntries+8*v) =
  if v < 32 then ⟨im.isr v, 0x08, 0x8E⟩ else if v < 48 then ⟨im.irq (v-32), 0x08, 0x8E⟩ else ⟨0, 0, 0⟩

theorem idtInit_loads (p : Processor) (hcpl : p.cpl = 0) :
    ∃ m, idtInit im p = .ok { p with mem := m, idtr := ⟨im.idtEntries, 2047⟩ } ∧ FirstGates im m ∧
      ∀ i < 6, descriptorAt m (im.gdtEntries+8*i) = descriptorAt p.mem (im.gdtEntries+8*i) := by
  obtain ⟨-, hgi, hgp, -, hptr, -⟩ := im.objects_apart
  have hbase : im.idtEntries < 4294967296 := by
    have := im.inMemory (im.idtEntries, 2048) (by simp)
    dsimp only at this
    omega
  generalize hm : idtGates im (store32 (store16 p.mem im.idtPtr (8*256-1)) (im.idtPtr+2) im.idtEntries) = m
  have htable : tableAt m im.idtPtr = ⟨im.idtEntries, 2047⟩ := by
    rw [← hm, tableAt_off (idtGates_off _) hptr.symm, tableAt_stored _ hbase (by decide)]
  have hlidt : step { p with mem := m } (.lidt im.idtPtr) = .ok { p with mem := m, idtr := ⟨im.idtEntries, 2047⟩ } :=
    step_lidt (p := { p with mem := m }) hcpl htable
  refine ⟨m, ?_, ?_, ?_⟩
  · rw [idtInit, hm, exec_cons hlidt, exec]
  · intro v hv
    rw [← hm]
    exact idtGates_at _ hv
  · intro i hi
    have hptrs : SameOff (span im.idtPtr 6) p.mem
        (store32 (store16 p.mem im.idtPtr (8*256-1)) (im.idtPtr+2) im.idtEntries) :=
      ((store16_off _ _ _).mono (span_mono (by decide))).trans ((store32_off _ _ _).mono (span_shift (by decide)))
    rw [← hm, descriptorAt_off (idtGates_off _) (hgi.mono_left (gdt_span im hi)),
      descriptorAt_off hptrs (hgp.mono_left (gdt_span im hi))]

/-- What `tss_init` touches: its structure and the last descriptor. -/
def tssRegion (im : Image) : Set ℕ := span im.tss 104 ∪ span (im.gdtEntries+8*5) 8

theorem busy_off (m : Mem) (v : ℕ) : SameOff (span (im.gdtEntries+8*5) 8) m (store8 m (im.gdtEntries+8*5+5) v) :=
  (store8_off _ _ _).mono (span_shift (by decide))

theorem entry_tssRegion {i : ℕ} (hi : i < 5) : Disjoint (span (im.gdtEntries+8*i) 8) (tssRegion im) := by
  obtain ⟨-, -, -, htss, -, -⟩ := im.objects_apart
  exact Set.disjoint_union_right.mpr
    ⟨htss.mono_left (gdt_span im (by omega)), entries_apart (k := 6) (by omega) (by decide) (by decide) (by omega)⟩

theorem gate_tssRegion {v : ℕ} (hv : v < 256) : Disjoint (span (im.idtEntries+8*v) 8) (tssRegion im) := by
  obtain ⟨-, hgdt, -, -, -, htss⟩ := im.objects_apart
  exact Set.disjoint_union_right.mpr ⟨htss.mono_left (idt_span im hv),
    (hgdt.mono_left (gdt_span im (by decide))).symm.mono_left (idt_span im hv)⟩

theorem tssInit_loads (p : Processor) (h : Segments im p) (hcpl : p.cpl = 0) (hidtr : p.idtr = ⟨im.idtEntries, 2047⟩)
    (hgates : ∀ v < 256, gateAt p.mem (im.idtEntries+8*v) = kernelGate im v)
    (hnull : descriptorAt p.mem (im.gdtEntries+8*0) = segmentDescriptor 0) : ∃ q, tssInit im p = .ok q ∧ Loaded im q ∧
      kernelStack im q.mem = 0 ∧ q.cs = p.cs ∧ q.ss = p.ss ∧ q.data = p.data ∧ q.eflags = p.eflags ∧
      (p.Bounded → q.Bounded) := by
  obtain ⟨-, -, -, htss, -, -⟩ := im.objects_apart
  have hbound : im.tss < 4294967296 := by
    have := im.inMemory (im.tss, 104) (by simp)
    dsimp only at this
    omega
  obtain ⟨hss0, hesp0⟩ := @tssFields_words im p.mem
  have hoff := @tssFields_off im p.mem
  have hlast : descriptorAt (tssFields im p.mem) (im.gdtEntries+8*5) = ⟨im.tss, 103, 0xE9, 0⟩ :=
    gdtSetGate_at im _ hbound (by decide) (by decide)
  generalize hm : tssFields im p.mem = m at *
  have hmov : step { p with mem := m } (.movAx 0x28) =
      .ok { p with mem := m, regs := { p.regs with eax := p.regs.eax / 65536 * 65536 + 0x28 } } := rfl
  generalize hp1 : ({ p with mem := m, regs := { p.regs with eax := p.regs.eax / 65536 * 65536 + 0x28 } } : Processor) = p1
    at hmov
  have hgdtr : p1.gdtr = ⟨im.gdtEntries, 47⟩ := by
    rw [← hp1]
    exact h.gdtr
  have hax : ax p1.regs = 0x28 := by
    rw [← hp1]
    simp only [ax]
    omega
  have hlookup : lookup p1 0x28 = .ok ⟨im.tss, 103, 0xE9, 0⟩ := by
    rw [lookup_low hgdtr rfl (by decide), ← hlast, ← hp1]
  have hcpl1 : p1.cpl = 0 := by
    rw [← hp1]
    exact hcpl
  have htype : 0xE9 % 32 = 9 ∧ Nat.testBit 0xE9 7 = true ∧ Nat.testBit 0 3 = false := by decide
  have hltr := step_ltr hcpl1 hax (by decide) hlookup htype
  have hexec (q : Processor) (hq : step p1 .ltr = .ok q) : tssInit im p = .ok q := by
    rw [tssInit, hm, tssFlush, exec_cons hmov, exec_cons hq, exec]
  have hbase : p1.gdtr.base + 8*(0x28/8) + 5 = im.gdtEntries+8*5+5 := by
    rw [hgdtr]
  rw [hbase] at hltr
  subst hp1
  have hbusy := @busy_off im m (0xE9 ||| 2)
  have hall : SameOff (tssRegion im) p.mem (store8 m (im.gdtEntries+8*5+5) (0xE9 ||| 2)) :=
    hoff.trans (hbusy.mono Set.subset_union_right)
  have happart : Disjoint (span im.tss 104) (span (im.gdtEntries+8*5) 8) :=
    (htss.mono_left (gdt_span im (by decide))).symm
  refine ⟨_, hexec _ hltr, ⟨⟨?_, ?_, ?_⟩, h.gdtr, hidtr, rfl⟩, ?_,
    rfl, rfl, rfl, rfl, ?_⟩
  · intro i hi
    by_cases h5 : i = 5
    · subst h5
      exact (descriptorAt_access _ _ _).trans (by rw [hlast]; simp [kernelDescriptor])
    · refine (descriptorAt_off hall (entry_tssRegion (by omega))).trans (Eq.trans ?_ (if_neg h5).symm)
      by_cases h0 : i = 0
      · subst h0
        exact hnull
      · exact h.gdt i (by omega) (by omega)
  · intro v hv
    exact (gateAt_off hall (gate_tssRegion hv)).trans (hgates v hv)
  · exact (load16_off hbusy (happart.mono_left (span_shift (by decide)))).trans hss0
  · exact (load32_off hbusy (happart.mono_left (span_shift (by decide)))).trans hesp0
  · intro hp
    have hbounded := withData_bounded hp (show 0x28 < 65536 by decide)
    exact ⟨hbounded.regs, hbounded.eip, hbounded.eflags⟩

/-- The tables stay as they are where memory off them changes. -/
theorem Stored.off {m m' : Mem} {R : Set ℕ} (h : Stored im m) (hm : SameOff R m m') (hR : Disjoint im.tables R) :
    Stored im m' := by
  have hgdt : Disjoint (span im.gdtEntries 48) R := hR.mono_left (fun x hx => Or.inl (Or.inl hx))
  have hidt : Disjoint (span im.idtEntries 2048) R := hR.mono_left (fun x hx => Or.inl (Or.inr hx))
  have htss : Disjoint (span im.tss 104) R := hR.mono_left (fun x hx => Or.inr hx)
  refine ⟨?_, ?_, ?_⟩
  · intro i hi
    exact (descriptorAt_off hm (hgdt.mono_left (gdt_span im hi))).trans (h.gdt i hi)
  · intro v hv
    exact (gateAt_off hm (hidt.mono_left (idt_span im hv))).trans (h.idt v hv)
  · exact (load16_off hm (htss.mono_left (span_shift (by decide)))).trans h.ss0

theorem boot_loads (p : Processor) (hcpl : p.cpl = 0) (rest : Mem → Mem)
    (hrest : ∀ m, ∀ x ∈ im.tables, rest m x = m x) : ∃ q, boot im rest p = .ok q ∧ Loaded im q ∧
      kernelStack im q.mem = 0 ∧ q.cs = 0x08 ∧ q.ss = 0x10 ∧ q.data = ⟨0x10, 0x10, 0x10, 0x10⟩ ∧
      q.eflags = p.eflags ∧
      (p.Bounded → q.Bounded) := by
  obtain ⟨-, hgi, -, -, -, -⟩ := im.objects_apart
  obtain ⟨p1, hp1, hseg, hnull, hcs, hss, hdata, hflags, hbounded⟩ := @gdtInit_loads im p hcpl
  have hcpl1 : p1.cpl = 0 := by
    rw [Processor.cpl, hcs]
  obtain ⟨m, hm, hgates, hkept⟩ := @idtInit_loads im p1 hcpl1
  have hoff : SameOff (im.tables)ᶜ m (rest m) := fun x hx => hrest m x (Set.notMem_compl_iff.mp hx)
  have hin {S : Set ℕ} (h : S ⊆ im.tables) : Disjoint S (im.tables)ᶜ := Set.disjoint_compl_right_iff_subset.mpr h
  have hgdt (i : ℕ) (hi : i < 6) : descriptorAt (syscallInit im (rest m)) (im.gdtEntries+8*i) =
      descriptorAt p1.mem (im.gdtEntries+8*i) := by
    rw [syscallInit, descriptorAt_off (idtSetGate_off im _)
        ((hgi.mono_left (gdt_span im hi)).mono_right (idt_span im (by decide))),
      descriptorAt_off hoff (hin (fun x hx => Or.inl (Or.inl (gdt_span im hi hx)))), hkept i hi]
  have hfirst : FirstGates im (rest m) := by
    intro v hv
    rw [gateAt_off hoff (hin (fun x hx => Or.inl (Or.inr (idt_span im hv hx)))), hgates v hv]
  obtain ⟨q, hq, hloaded, hstack, hcsq, hssq, hdataq, hflagsq, hboundedq⟩ :=
    @tssInit_loads im { p1 with mem := syscallInit im (rest m), idtr := ⟨im.idtEntries, 2047⟩ }
      ⟨hseg.gdtr, fun i h1 h4 => (hgdt i (by omega)).trans (hseg.gdt i h1 h4)⟩ hcpl1 rfl
      (fun v hv => syscallInit_at _ hfirst hv) ((hgdt 0 (by decide)).trans hnull)
  refine ⟨q, ?_, hloaded, hstack, hcsq.trans hcs, hssq.trans hss, hdataq.trans hdata, hflagsq.trans hflags,
    fun hp => hboundedq ⟨(hbounded hp).regs, (hbounded hp).eip, (hbounded hp).eflags⟩⟩
  rw [boot, hp1, Except.bind, hm]
  exact hq

end Booting

end Dionnex.BootTables
