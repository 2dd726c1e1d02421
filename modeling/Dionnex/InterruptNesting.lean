import Dionnex.InterruptStubs
import Dionnex.LabelledRuns

/-!
# Interrupts at any time

The kernel and its programs compute, are interrupted on any kernel stack with
room, and go back to what has been interrupted in any order. The tables and the
frames of the handlers that have not come back survive.
-/

set_option autoImplicit false

namespace Dionnex.InterruptNesting
open ByteMemory X86Protection LabelledRuns Dionnex.BootTables Dionnex.InterruptStubs
open X86Stack (pushWords pushWords_word)

/-- The bytes of a frame that its handler leaves alone: all above its argument but for `eax`. -/
def region (f : Frame) : Set ℕ :=
  Set.Ico (f.address+4) (f.address+48) ∪ Set.Ico (f.address+52) (f.address + 4*f.words.length)

structure Machine where
  cpu : Processor
  pending : List Frame

def Machine.frames (m : Machine) : Set ℕ := {x | ∃ f ∈ m.pending, x ∈ region f}

/-- Code computes on its level and leaves the frames and the tables alone, but for the kernel stack's word. -/
def Machine.Computes (im : Image) (m : Machine) (q : Processor) : Prop :=
  Context q ∧ q.cs = m.cpu.cs ∧ q.gdtr = m.cpu.gdtr ∧ q.idtr = m.cpu.idtr ∧ q.tr = m.cpu.tr ∧
    (∀ x ∈ im.tables \ span (im.tss+4) 4, q.mem x = m.cpu.mem x) ∧ ∀ x ∈ m.frames, q.mem x = m.cpu.mem x

def Machine.Room (im : Image) (m : Machine) : Prop :=
  80 ≤ stackTop im m.cpu ∧ stackTop im m.cpu < 4294967296 ∧ Disjoint im.tables (room im m.cpu) ∧
    Disjoint m.frames (room im m.cpu)

inductive Label where
  | compute (q : Processor)
  | interrupt (r : Request)
  | resume (i : ℕ)
  | discard (i : ℕ)
  | enter (eip esp : ℕ)

def Step (im : Image) (m : Machine) : Label → Machine → Prop
  | .compute q, m' => m.Computes im q ∧ m' = { m with cpu := q }
  | .interrupt r, m' => r.Allowed m.cpu ∧ m.Room im ∧
      ∃ s q, arrive im m.cpu r = .ok (s, q) ∧ m' = ⟨q, ⟨s, m.cpu, r.error, q.regs.esp⟩ :: m.pending⟩
  | .resume i, m' => m.cpu.cpl = 0 ∧
      ∃ f q, m.pending[i]? = some f ∧ m.cpu.regs.esp = f.address ∧ exec f.stub.exit m.cpu = .ok q ∧
        m' = ⟨q, m.pending.eraseIdx i⟩
  | .discard i, m' => m' = { m with pending := m.pending.eraseIdx i }
  | .enter eip esp, m' => m.cpu.cpl = 0 ∧ m.Room im ∧ eip < 4294967296 ∧ esp < 4294967296 ∧
      ∃ q, exec (enterUserspace eip esp) m.cpu = .ok q ∧ m' = { m with cpu := q }

structure Sound (im : Image) (m : Machine) : Prop where
  loaded : Loaded im m.cpu
  context : Context m.cpu
  pending : ∀ f ∈ m.pending, Kept im m.cpu.mem f

section Machines

variable {im : Image} {m m' : Machine}

theorem kept_off {f : Frame} {x y : Mem} (h : Kept im x f) (hsame : ∀ b ∈ region f, y b = x b) : Kept im y f := by
  refine ⟨h.context, h.gdtr, h.idtr, h.tr, h.bound, h.top, ?_⟩
  intro i v hi h0 h12
  have hbound := h.bound
  obtain ⟨hlt, -⟩ := List.getElem?_eq_some_iff.mp hi
  rw [← h.words i v hi h0 h12]
  refine load32_congr (fun b hb => hsame b ?_)
  rw [span_eq (by omega)] at hb
  obtain ⟨hlow, hhigh⟩ := hb
  rcases Nat.lt_or_gt_of_ne h12 with hlt12 | hgt12
  · exact Or.inl ⟨by omega, by omega⟩
  · exact Or.inr ⟨by omega, by omega⟩

theorem stored_keep {x y : Mem} (h : Stored im x) (hsame : ∀ b ∈ im.tables \ span (im.tss+4) 4, y b = x b) : Stored im y := by
  obtain ⟨-, -, -, hgdt, -, hidt⟩ := im.objects_apart
  have hoff : SameOff (im.tables \ span (im.tss+4) 4)ᶜ x y := fun b hb => hsame b (Set.notMem_compl_iff.mp hb)
  have hin : span (im.tss+4) 4 ⊆ span im.tss 104 := span_shift (by decide)
  have hd {S : Set ℕ} (hS : S ⊆ im.tables) (hS' : Disjoint S (span (im.tss+4) 4)) :
      Disjoint S (im.tables \ span (im.tss+4) 4)ᶜ :=
    Set.disjoint_compl_right_iff_subset.mpr (Set.subset_sdiff.mpr ⟨hS, hS'⟩)
  refine ⟨?_, ?_, ?_⟩
  · intro i hi
    exact (descriptorAt_off hoff (hd (fun b hb => Or.inl (Or.inl (gdt_span im hi hb)))
      ((hgdt.mono_right hin).mono_left (gdt_span im hi)))).trans (h.gdt i hi)
  · intro v hv
    exact (gateAt_off hoff (hd (fun b hb => Or.inl (Or.inr (idt_span im hv hb)))
      ((hidt.mono_right hin).mono_left (idt_span im hv)))).trans (h.idt v hv)
  · have hss0 : span (im.tss+8) 2 ⊆ span im.tss 104 := span_shift (by decide)
    exact (load16_off hoff (hd (fun b hb => Or.inr (hss0 hb))
      (fields_apart (by decide) (by decide) (by decide)))).trans h.ss0

theorem frame_length (im : Image) (p : Processor) (r : Request) :
    (frameOf im p r).words.length = 13 + (r.stub.codes r.error ++ returnWords p).length := words_length _ _ _ _

theorem frame_top {p : Processor} (hroom : 80 ≤ stackTop im p) (r : Request) :
    (frameOf im p r).address + 4*(frameOf im p r).words.length = stackTop im p := by
  have hlength := frame_length im p r
  have hseven := codes_length r.stub r.error p
  have haddress : (frameOf im p r).address = stackTop im p - 4*(13 + (r.stub.codes r.error ++ returnWords p).length) := rfl
  omega

/-- The saved words lie in memory in the order of the handler's structure. -/
theorem entered_words {p : Processor} (hroom : 80 ≤ stackTop im p) (htop : stackTop im p < 4294967296) (r : Request) {i v : ℕ}
    (hi : (frameOf im p r).words[i]? = some v) : load32 (entered im p r).mem ((frameOf im p r).address + 4*i) = wrap v := by
  have htopw := frame_top hroom r
  obtain ⟨hlt, hget⟩ := List.getElem?_eq_some_iff.mp hi
  have hlen : (frameOf im p r).words.reverse.length = (frameOf im p r).words.length := List.length_reverse
  have hword := pushWords_word p.mem (stackTop im p) (frameOf im p r).words.reverse i (by omega) (by omega) htop
  have haddress : stackTop im p - 4*(frameOf im p r).words.reverse.length = (frameOf im p r).address := by omega
  rw [haddress] at hword
  refine hword.trans (congrArg wrap ?_)
  rw [List.get_eq_getElem, List.getElem_reverse, ← hget]
  congr 1
  simp only [List.length_reverse]
  omega

theorem entered_off {p : Processor} (hroom : 80 ≤ stackTop im p) (htop : stackTop im p < 4294967296) (r : Request) :
    SameOff (room im p) p.mem (entered im p r).mem := by
  refine frame_off hroom htop _ ?_
  rw [List.length_reverse, frame_length]
  have hseven := codes_length r.stub r.error p
  omega

theorem stub_address_lt (im : Image) {s : Stub} (hs : s ∈ stubs) : s.address im < 4294967296 := by
  obtain ⟨hisr, hirq, hsyscall⟩ := stub_bounds im
  rcases mem_stubs hs with ⟨v, hv, rfl⟩ | ⟨n, hn, rfl⟩ | rfl
  · exact hisr v hv
  · exact hirq n hn
  · exact hsyscall

theorem entered_context {p : Processor} (hc : Context p) (htop : stackTop im p < 4294967296) (r : Request)
    (hs : r.stub ∈ stubs) : Context (entered im p r) := by
  have hlevel : (entered im p r).cpl = 0 := show 0x08 % 4 = 0 from rfl
  refine ⟨⟨?_, stub_address_lt im hs, clearFlags_lt (clearFlags_lt hc.bounded.eflags _) _⟩, ?_, ?_,
    Or.inl ⟨rfl, rfl⟩, ?_⟩
  · intro x
    have hx := hc.bounded.regs x
    cases x
    case eax =>
      change p.regs.eax / 65536 * 65536 + 0x10 < 4294967296
      change p.regs.eax < 4294967296 at hx
      omega
    case esp =>
      change stackTop im p - 4*(13 + (r.stub.codes r.error ++ returnWords p).length) < 4294967296
      omega
    all_goals exact hx
  · change (clearFlags (clearFlags p.eflags _) _).testBit nestedBit = false
    rw [testBit_clearFlags, testBit_clearFlags, hc.nested]
    rfl
  · change (clearFlags (clearFlags p.eflags _) _).testBit virtualBit = false
    rw [testBit_clearFlags, testBit_clearFlags, hc.virtual]
    rfl
  · intro s
    have hdata : (entered im p r).data.get s = 0x10 := by
      cases s <;> rfl
    rw [hlevel, hdata]
    exact ⟨by decide, Or.inr (Or.inr ⟨rfl, Or.inr rfl⟩)⟩

theorem request_words_lt {p : Processor} {r : Request} (hr : r.Allowed p) : ∀ v ∈ r.stub.codes r.error, v < 4294967296 := by
  intro v hv
  cases r with
  | exception n e =>
    obtain ⟨hn, -, he⟩ := hr
    change v ∈ [n, e.getD 0] at hv
    rcases List.mem_pair.mp hv with rfl | rfl
    · omega
    · cases e with
      | none => exact Nat.zero_lt_succ _
      | some c => exact he c rfl
  | irq n =>
    have hn : n < 16 := hr
    change v ∈ [32+n, 0] at hv
    rcases List.mem_pair.mp hv with rfl | rfl
    · omega
    · exact Nat.zero_lt_succ _
  | int n =>
    have hn : n < 256 := hr.1
    by_cases h80 : n = 0x80
    · rw [Request.stub, if_pos h80] at hv
      cases hv
    · rw [Request.stub, Request.error, if_neg h80, if_neg h80] at hv
      change v ∈ [13, 8*n+2] at hv
      rcases List.mem_pair.mp hv with rfl | rfl <;> omega

theorem frame_words_lt {p : Processor} (hc : Context p) (hroom : 80 ≤ stackTop im p) (htop : stackTop im p < 4294967296)
    {r : Request} (hr : r.Allowed p) {v : ℕ} (hv : v ∈ (frameOf im p r).words) : v < 4294967296 := by
  have hdata (s : DataSegment) : p.data.get s < 4294967296 := lt_trans (hc.data s).1 (by decide)
  have hreg := hc.bounded.regs
  have hcs : p.cs < 4294967296 ∧ p.ss < 4294967296 := by
    rcases hc.mode with ⟨hcs, hss⟩ | ⟨hcs, hss⟩ <;> omega
  have hlength := frame_length im p r
  have htopw := frame_top hroom r
  rw [Frame.words, savedWords, List.mem_append, List.mem_append] at hv
  rcases hv with hv | hv | hv
  · revert v
    simp only [List.forall_mem_cons, List.not_mem_nil, false_implies, implies_true, and_true]
    exact ⟨by omega, hdata .gs, hdata .fs, hdata .es, hdata .ds, hreg .edi, hreg .esi, hreg .ebp, by omega, hreg .ebx,
      hreg .edx, hreg .ecx, hreg .eax⟩
  · exact request_words_lt hr v hv
  · have hreturn : ∀ x ∈ [p.eip, p.cs, p.eflags] ++ [p.regs.esp, p.ss], x < 4294967296 := by
      simp only [List.cons_append, List.nil_append, List.forall_mem_cons, List.not_mem_nil, false_implies, implies_true, and_true]
      exact ⟨hc.bounded.eip, hcs.1, hc.bounded.eflags, hreg .esp, hcs.2⟩
    change v ∈ returnWords p at hv
    rw [returnWords, List.mem_append] at hv
    rcases hv with hv | hv
    · exact hreturn v (List.mem_append_left _ hv)
    · split at hv
      · cases hv
      · exact hreturn v (List.mem_append_right _ hv)

/-- A handler starts with interrupts closed. -/
theorem entered_closed (im : Image) (p : Processor) (r : Request) : (entered im p r).eflags.testBit interruptBit = false := by
  change (clearFlags (clearFlags p.eflags _) _).testBit interruptBit = false
  rw [testBit_clearFlags, show Nat.testBit (2^interruptBit) interruptBit = true by decide, Bool.not_true, Bool.and_false]

theorem request_stub {p : Processor} {r : Request} (hr : r.Allowed p) : r.stub ∈ stubs := by
  cases r with
  | exception v e => exact isr_mem hr.1
  | irq n => exact irq_mem hr
  | int n =>
    rw [Request.stub]
    split
    · exact syscall_mem
    · exact isr_mem (by decide)

theorem interrupt_sound (h : Sound im m) {r : Request} (hr : r.Allowed m.cpu) (hroom : m.Room im) :
    arrive im m.cpu r = .ok (r.stub, entered im m.cpu r) ∧
      Sound im ⟨entered im m.cpu r, frameOf im m.cpu r :: m.pending⟩ := by
  obtain ⟨h80, htop, htables, hframes⟩ := hroom
  have hoff := entered_off h80 htop r
  refine ⟨arrive_entered h.loaded h.context h80 htop htables r hr, ?_, entered_context h.context htop r (request_stub hr), ?_⟩
  · exact ⟨h.loaded.stored.off hoff htables, h.loaded.gdtr, h.loaded.idtr, h.loaded.tr⟩
  · intro f hf
    rcases List.mem_cons.mp hf with rfl | hf
    · have htopw := frame_top h80 r
      refine ⟨h.context, h.loaded.gdtr, h.loaded.idtr, h.loaded.tr, by omega, ?_,
        fun i v hi _ _ => entered_words h80 htop r hi⟩
      intro hcpl
      have hown : stackTop im m.cpu = m.cpu.regs.esp := if_pos hcpl
      exact hown.symm.trans htopw.symm
    · exact kept_off (h.pending f hf) (fun b hb => hoff b (Set.disjoint_left.mp hframes ⟨f, hf, hb⟩))

theorem step_sound {l : Label} (h : Sound im m) (hstep : Step im m l m') : Sound im m' := by
  cases l with
  | compute q =>
    obtain ⟨⟨hq, hcs, hgdtr, hidtr, htr, htables, hframes⟩, rfl⟩ := hstep
    exact ⟨⟨stored_keep h.loaded.stored htables, hgdtr.trans h.loaded.gdtr, hidtr.trans h.loaded.idtr,
      htr.trans h.loaded.tr⟩, hq, fun f hf => kept_off (h.pending f hf) (fun b hb => hframes b ⟨f, hf, hb⟩)⟩
  | interrupt r =>
    obtain ⟨hr, hroom, s, q, harrive, rfl⟩ := hstep
    obtain ⟨hentered, hsound⟩ := interrupt_sound h hr hroom
    rw [hentered] at harrive
    cases harrive
    exact hsound
  | resume i =>
    obtain ⟨hcpl, f, q, hf, hesp, hexec, rfl⟩ := hstep
    have hkept := h.pending f (List.mem_of_getElem? hf)
    rw [exit_resumes h.loaded h.context hcpl hkept hesp] at hexec
    cases hexec
    refine ⟨⟨h.loaded.stored, hkept.gdtr, hkept.idtr, hkept.tr⟩, ?_, fun g hg => h.pending g (List.mem_of_mem_eraseIdx hg)⟩
    have hcontext := hkept.context
    refine ⟨⟨?_, hcontext.bounded.eip, hcontext.bounded.eflags⟩, hcontext.nested, hcontext.virtual, hcontext.mode,
      hcontext.data⟩
    intro r
    have hr := hcontext.bounded.regs r
    cases r
    case eax => exact load32_lt _ _
    all_goals exact hr
  | discard i =>
    subst hstep
    exact ⟨h.loaded, h.context, fun f hf => h.pending f (List.mem_of_mem_eraseIdx hf)⟩
  | enter eip esp =>
    obtain ⟨hcpl, ⟨h80, htop, htables, hframes⟩, heip, hesp, q, hexec, rfl⟩ := hstep
    obtain ⟨w, hw, hcontext, -, -, -, -, hgdtr, hidtr, htr, hoff⟩ :=
      enterUserspace_enters h.loaded h.context hcpl h80 htables heip hesp
    rw [hw] at hexec
    cases hexec
    exact ⟨⟨h.loaded.stored.off hoff htables, hgdtr.trans h.loaded.gdtr, hidtr.trans h.loaded.idtr, htr.trans h.loaded.tr⟩,
      hcontext, fun f hf => kept_off (h.pending f hf) (fun b hb => hoff b (Set.disjoint_left.mp hframes ⟨f, hf, hb⟩))⟩

/-- `tss_set_kernel_stack` is a computation, and moves the stack of the next entry from user mode. -/
theorem setKernelStack_computes (h : Sound im m) (hframes : Disjoint m.frames (span (im.tss+4) 4)) (esp0 : ℕ) :
    m.Computes im { m.cpu with mem := tssSetKernelStack im m.cpu.mem esp0 } ∧
      kernelStack im (tssSetKernelStack im m.cpu.mem esp0) = wrap esp0 := by
  have hoff : SameOff (span (im.tss+4) 4) m.cpu.mem (tssSetKernelStack im m.cpu.mem esp0) := store32_off _ _ _
  have hc := h.context
  refine ⟨⟨⟨⟨hc.bounded.regs, hc.bounded.eip, hc.bounded.eflags⟩, hc.nested, hc.virtual, hc.mode, hc.data⟩, rfl, rfl, rfl, rfl,
    fun x hx => hoff x hx.2, fun x hx => hoff x (Set.disjoint_left.mp hframes hx)⟩, load32_store32 _ _ _⟩

/-- A request that is allowed and has room calls its handler with interrupts closed, the saved words from `esp` on. -/
def Machine.Arrives (im : Image) (m : Machine) : Prop :=
  ∀ r : Request, r.Allowed m.cpu → m.Room im → arrive im m.cpu r = .ok (r.stub, entered im m.cpu r) ∧
    (entered im m.cpu r).eflags.testBit interruptBit = false ∧ ∀ i v, (frameOf im m.cpu r).words[i]? = some v →
      load32 (entered im m.cpu r).mem ((entered im m.cpu r).regs.esp + 4*i) = v

/-- A handler that comes back resumes what its frame has interrupted. -/
def Machine.Returns (m : Machine) : Prop :=
  ∀ f ∈ m.pending, m.cpu.cpl = 0 → m.cpu.regs.esp = f.address → exec f.stub.exit m.cpu = .ok (f.resumed m.cpu.mem)

/-- The kernel can start a program, which interrupts may leave. -/
def Machine.Enters (im : Image) (m : Machine) : Prop :=
  ∀ eip esp, eip < 4294967296 → esp < 4294967296 → m.cpu.cpl = 0 → m.Room im →
    ∃ q, exec (enterUserspace eip esp) m.cpu = .ok q ∧ q.cpl = 3 ∧ q.eip = eip ∧ q.regs.esp = esp ∧
      q.eflags.testBit interruptBit = true

theorem sound_arrives (h : Sound im m) : m.Arrives im := by
  intro r hr hroom
  have harrive := (interrupt_sound h hr hroom).1
  obtain ⟨h80, htop, -, -⟩ := hroom
  refine ⟨harrive, entered_closed im m.cpu r, ?_⟩
  intro i v hi
  have hlt := frame_words_lt h.context h80 htop hr (List.mem_of_getElem? hi)
  exact (entered_words h80 htop r hi).trans (wrap_of_lt hlt)

theorem sound_returns (h : Sound im m) : m.Returns :=
  fun f hf hcpl hesp => exit_resumes h.loaded h.context hcpl (h.pending f hf) hesp

theorem sound_enters (h : Sound im m) : m.Enters im := by
  intro eip esp heip hesp hcpl ⟨h80, _, htables, _⟩
  obtain ⟨q, hq, -, hcs, hqeip, hqesp, hflag, -⟩ := enterUserspace_enters h.loaded h.context hcpl h80 htables heip hesp
  exact ⟨q, hq, by rw [Processor.cpl, hcs], hqeip, hqesp, hflag⟩

theorem boot_sound {p q : Processor} (hp : p.Bounded) (hnested : p.eflags.testBit nestedBit = false)
    (hvirtual : p.eflags.testBit virtualBit = false) (hloaded : Loaded im q) (hcs : q.cs = 0x08) (hss : q.ss = 0x10)
    (hdata : q.data = ⟨0x10, 0x10, 0x10, 0x10⟩) (hflags : q.eflags = p.eflags) (hbounded : p.Bounded → q.Bounded) :
    Sound im ⟨q, []⟩ := by
  refine ⟨hloaded, ⟨hbounded hp, hflags ▸ hnested, hflags ▸ hvirtual, Or.inl ⟨hcs, hss⟩, ?_⟩, nofun⟩
  intro s
  have hsel : q.data.get s = 0x10 := by
    rw [hdata]
    cases s <;> rfl
  have hcpl : q.cpl = 0 := by rw [Processor.cpl, hcs]
  change Usable q.cpl (q.data.get s)
  rw [hsel, hcpl]
  exact ⟨by decide, Or.inr (Or.inr ⟨rfl, Or.inr rfl⟩)⟩

/-- After boot, whatever runs and whatever interrupts it, an interrupt reaches its handler and its return the context it has
taken; the tables and the frames survive every step. -/
theorem interrupts_transparent (im : Image) {p : Processor} (hcpl : p.cpl = 0) (hp : p.Bounded)
    (hnested : p.eflags.testBit nestedBit = false) (hvirtual : p.eflags.testBit virtualBit = false) {rest : Mem → Mem}
    (hrest : ∀ m, ∀ x ∈ im.tables, rest m x = m x) :
    ∃ q, boot im rest p = .ok q ∧ ∀ tr, Run (Step im) ⟨q, []⟩ tr →
      (last ⟨q, []⟩ tr).Arrives im ∧ (last ⟨q, []⟩ tr).Returns ∧ (last ⟨q, []⟩ tr).Enters im := by
  obtain ⟨q, hq, hloaded, -, hcs, hss, hdata, hflags, hbounded⟩ := boot_loads p hcpl rest hrest
  have hstart := boot_sound hp hnested hvirtual hloaded hcs hss hdata hflags hbounded
  refine ⟨q, hq, fun tr hrun => ?_⟩
  have hlast : Sound im (last ⟨q, []⟩ tr) :=
    run_last (I := Sound im) (fun _ _ _ hs hstep => step_sound hs hstep) _ tr hstart hrun
  exact ⟨sound_arrives hlast, sound_returns hlast, sound_enters hlast⟩

theorem sample_objects :
    (∀ o ∈ [(0x1000, 48), (0x2000, 6), (0x3000, 2048), (0x4000, 6), (0x5000, 104)], o.1+o.2 ≤ 4294967296) ∧
    [(0x1000, 48), (0x2000, 6), (0x3000, 2048), (0x4000, 6), (0x5000, 104)].Pairwise
      (fun x y => x.1+x.2 ≤ y.1 ∨ y.1+y.2 ≤ x.1) := by
  decide

theorem sample_stubs : ((List.range 32).map (fun v => 0x100000 + 16*v) ++ (List.range 16).map (fun n => 0x200000 + 16*n) ++
      [0x300000]).Nodup ∧
    ∀ a ∈ (List.range 32).map (fun v => 0x100000 + 16*v) ++ (List.range 16).map (fun n => 0x200000 + 16*n) ++ [0x300000],
      a < 4294967296 := by
  decide +kernel

def sampleImage : Image where
  gdtEntries := 0x1000
  gdtPtr := 0x2000
  idtEntries := 0x3000
  idtPtr := 0x4000
  tss := 0x5000
  isr v := 0x100000 + 16*v
  irq n := 0x200000 + 16*n
  syscallIsrStub := 0x300000
  inMemory := sample_objects.1
  apart := sample_objects.2
  stubs := sample_stubs.1
  stubBound := sample_stubs.2

def sampleProcessor : Processor where
  regs := ⟨0, 0, 0, 0, 0x90000, 0, 0, 0⟩
  eflags := 2
  eip := 0
  cs := 0x10
  ss := 0x18
  data := ⟨0x18, 0x18, 0x18, 0x18⟩
  gdtr := ⟨0, 0⟩
  idtr := ⟨0, 0⟩
  tr := ⟨0, 0, 0⟩
  mem := fun _ => 0

theorem interrupts_transparent_sample : ∃ q, boot sampleImage id sampleProcessor = .ok q ∧
    ∀ tr, Run (Step sampleImage) ⟨q, []⟩ tr → (last ⟨q, []⟩ tr).Arrives sampleImage ∧ (last ⟨q, []⟩ tr).Returns ∧
      (last ⟨q, []⟩ tr).Enters sampleImage := by
  refine interrupts_transparent sampleImage rfl ⟨?_, by decide, by decide⟩ (by decide) (by decide) (fun _ _ _ => rfl)
  intro r
  cases r <;> decide

end Machines

end Dionnex.InterruptNesting
