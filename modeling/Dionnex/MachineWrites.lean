import Dionnex.ProcessImage
import Dionnex.TwinRuns
import Dionnex.HeapWrites

/-!
# Where the kernel stores

The memory calls and the heap calls of the kernel, seen from a set `K` of
frames that they must not touch. Mapping loops and the loader store to
tables, to frames from the pool and, for a tame image, nowhere else; the
heap stores to its blocks and to the headers of a growth.
-/

set_option autoImplicit false

namespace Dionnex.MachineWrites
open ByteMemory FirstFit PageTables Dionnex.PmmBitmap Dionnex.KernelHeap Dionnex.HeapBlocks Dionnex.HeapPages
open Dionnex.HeapOwnership Dionnex.HeapWrites Dionnex.Vmm Dionnex.UserPages Dionnex.UserMemory
open Dionnex.PagedAccess Dionnex.ElfLoader Dionnex.TwinRuns Dionnex.Process Dionnex.ProcessImage

/-- No segment that is loaded writes outside its pages. -/
def TameImage (data : Option Mem) (size : ℕ) : Prop :=
  ∀ d, data = some d → ∀ ph ∈ phdrs d, ph.pType = ptLoad → Tame ph size

/-! ## Stores that leave the frames alone -/

/-- The addresses outside the frames `K`. -/
def outside (K : Set ℕ) : Set ℕ := {x | frameOf x ∉ K}

/-- No store through the tables or to a free frame meets `K`. -/
structure Away (K : Set ℕ) (s : VmState) : Prop where
  ready : Ready s
  zero : 0 ∉ K
  tables : ∀ x ∈ K, x ∉ kernelFrames s
  pool : ∀ k ∈ freeSet s.pmm, k*pageSize ∉ K

structure Past (K : Set ℕ) (s t : VmState) : Prop where
  away : Away K t
  pool : freeSet t.pmm ⊆ freeSet s.pmm
  low : Present (dirEntryAt s 0) → Present (dirEntryAt t 0)
  off : SameOff (outside K) s.mem t.mem

variable {K : Set ℕ} {s t : VmState}

theorem Past.refl (hk : Away K s) : Past K s s := ⟨hk, subset_rfl, id, SameOff.refl _ _⟩

theorem Past.trans {u : VmState} (h : Past K s t) (g : Past K t u) : Past K s u :=
  ⟨g.away, g.pool.trans h.pool, fun h0 => g.low (h.low h0), h.off.trans g.off⟩

theorem lent_past {V : Set ℕ} (h : Lent s V t) (hk : Away K s) : Past K s t := by
  have hframes : ∀ x ∈ K, x ∉ kernelFrames t := by
    intro x hx hin
    rcases h.frames x hin with hin | rfl | ⟨k, hfree, -, rfl⟩
    · exact hk.tables x hx hin
    · exact hk.zero hx
    · exact hk.pool k hfree hx
  refine ⟨⟨h.ready, hk.zero, hframes, fun k hfree => hk.pool k (h.pool hfree)⟩, h.pool,
    fun h0 => by rw [h.dirs 0 h0]; exact h0, h.off.mono ?_⟩
  rintro x (hx | ⟨k, hfree, -, he⟩) hin
  · exact hframes _ hin hx
  · rw [he] at hin
    exact hk.pool k hfree hin

theorem identity_past {n : ℕ} (hk : Away K s) (h0 : Present (dirEntryAt s 0)) (hn : n ≤ 1024) :
    Past K s (identityPages s 0 n) :=
  lent_past (identity_spec hk.ready h0 (by omega)).lent hk

theorem grants_past {base n : ℕ} (hk : Away K s) (hn : n ≤ 1048576) :
    Past K s (grantPages s base userFlags 0 n) :=
  lent_past (grantPages_lent hk.ready (by decide) (by decide) hn) hk

theorem mapUserSpace_past (hk : Away K s) (h0 : Present (dirEntryAt s 0)) : Past K s (mapUserSpace s) := by
  have hlow := identity_past hk h0 le_rfl
  unfold mapUserSpace
  dsimp only
  generalize identityPages s 0 1024 = t at *
  have hstack := @grants_past _ _ stackBottom (procStackSize/4096) hlow.away (by decide)
  generalize grantPages t stackBottom userFlags 0 (procStackSize/4096) = u at *
  have hheap := @grants_past _ _ Dionnex.Process.procHeapBase 16 hstack.away (by decide)
  exact hlow.trans (hstack.trans hheap)

theorem load_past {data : Option Mem} {size : ℕ} {r : ℕ × VmState} (hk : Away K s)
    (ht : TameImage data size) (h : elfLoadSegments s data size = some r) : Past K s r.2 := by
  unfold elfLoadSegments at h
  cases data with
  | none =>
    obtain rfl := Option.some.inj h
    exact Past.refl hk
  | some d =>
    dsimp only at h
    split at h
    · obtain rfl := Option.some.inj h
      exact Past.refl hk
    · obtain ⟨q, hq, rfl⟩ := Option.map_eq_some_iff.mp h
      obtain ⟨q', hq', hlent⟩ := segments_lent d hk.ready (ht d rfl)
      obtain rfl := Option.some.inj (hq.symm.trans hq')
      exact lent_past hlent hk

/-- A free page is taken and written. -/
theorem directory_past {k : ℕ} {mem : Mem} (hk : Away K s) (hfree : k ∈ freeSet s.pmm)
    (hpage : pmmAllocPage s.pmm = (k*pageSize, takePage s.pmm k))
    (hoff : SameOff (span (k*pageSize) 4096) s.mem mem) : Past K s { takePmmPage s with mem := mem } := by
  have hpool : (takePmmPage s).pmm = takePage s.pmm k := by
    unfold takePmmPage
    rw [hpage]
  have hless : freeSet (takePmmPage s).pmm ⊆ freeSet s.pmm := by
    rw [hpool, takePage_free]
    exact Set.sdiff_subset
  have hpad : Padded (takePmmPage s).pmm := alloc_padded s.pmm hk.ready.padded
  have hlt := freeSet_lt s.pmm hfree
  have haddr : s.pmm.totalPages ≤ 1048576 := hk.ready.padded.addressable
  have hspan : k*pageSize+4096 ≤ 4294967296 := by
    unfold pageSize
    omega
  have hframe : ∀ x ∈ span (k*pageSize) 4096, frameOf x = k*pageSize := by
    intro x hx
    rw [span_eq hspan, Set.mem_Ico] at hx
    unfold frameOf pageSize at *
    omega
  rcases hk.ready.next with he | ⟨hsound, hplain⟩
  · rw [he] at hfree
    exact hfree.elim
  have hsame := sameTables_off hk.ready.space hoff (Set.disjoint_left.mpr (fun x hx hin =>
    hsound.reserved k hfree (hframe x hx ▸ hin)))
  have hframes : kernelFrames { takePmmPage s with mem := mem } = kernelFrames s :=
    hsame.frames
  have hlow : Present (dirEntryAt s 0) → Present (dirEntryAt { takePmmPage s with mem := mem } 0) := by
    intro h0
    change Present (dirEntryAt { s with mem := mem } 0)
    rw [hsame.dirs 0]
    exact h0
  refine ⟨⟨⟨hsame.space, hpad, Or.inr ⟨⟨hsame.space, hpad, fun h => hsound.zeroTaken (hless h), ?_⟩, ?_⟩⟩,
    hk.zero, ?_, fun j hj => hk.pool j (hless hj)⟩, hless, hlow, hoff.mono ?_⟩
  · intro j hj
    rw [hframes]
    exact hsound.reserved j (hless hj)
  · unfold Plain
    rw [hframes]
    exact hplain
  · rw [hframes]
    exact hk.tables
  · intro x hx hin
    rw [hframe x hx] at hin
    exact hk.pool k hfree hin

/-! ## The heap -/

variable {available : Set ℕ} {total : ℕ} {held : List ℕ} {m : Machine} {bs : List Block}

theorem extent_outside {h : Heap} (hi : Inv available total ⟨h, held⟩ bs) (hK : ∀ x ∈ K, x ∈ held) :
    extent headerSize bs ⊆ outside K := by
  intro x hx hin
  obtain ⟨p, hp, hlo, hhi⟩ := hi.owned x hx
  obtain ⟨hheld, k, hk, -⟩ := hi.pages p hp
  have hframe : frameOf x = p := by
    unfold pageSize at hk hhi
    unfold frameOf
    omega
  exact hheld (hframe ▸ hK _ hin)

/-- A header at the given place behind a page boundary lies in one frame. -/
theorem header_outside {k i n x : ℕ} (hn : n = i%4096) (hi : n ≤ 4083) (hx : x ∈ headerRange (wrap (k*pageSize+i))) :
    frameOf x = wrap ((k + i/4096)*pageSize) := by
  obtain ⟨hlo, hhi⟩ := hx
  unfold frameOf wrap pageSize headerSize at *
  omega

theorem spill_outside {pmm : Pmm} {size n : ℕ} (hn : n = (headerSize + alignUp4 size)/4096)
    (hroom : (headerSize + alignUp4 size) % 4096 ≤ 4083) (hfree : ∀ k ∈ freeSet pmm, k*pageSize ∉ K)
    (hrest : ∀ k ∈ freeSet pmm, wrap ((k+n)*pageSize) ∉ K) : spill pmm (alignUp4 size) ⊆ outside K := by
  rintro x ⟨k, hk, hx | hx⟩ hin
  · have hframe : frameOf x = k*pageSize := by
      obtain ⟨hlo, hhi⟩ := hx
      unfold frameOf pageSize headerSize at *
      omega
    exact hfree k hk (hframe ▸ hin)
  · rw [Nat.add_assoc] at hx
    rw [header_outside rfl hroom hx, ← hn] at hin
    exact hrest k hk hin

theorem growPages_shrinks (n : ℕ) {h : Heap} (hp : Padded h.pmm) : freeSet (growPages n h).pmm ⊆ freeSet h.pmm := by
  induction n generalizing h with
  | zero => exact subset_rfl
  | succ n ih => exact (ih (h := (takeHeapPage h).2) (alloc_padded h.pmm hp)).trans (alloc_shrinks hp)

theorem growHeap_shrinks {h : Heap} (req last : ℕ) (hp : Padded h.pmm) :
    freeSet (growHeap h req last).2.pmm ⊆ freeSet h.pmm := by
  unfold growHeap
  dsimp only
  split
  · exact alloc_shrinks hp
  · exact (growPages_shrinks _ (h := (takeHeapPage h).2) (alloc_padded h.pmm hp)).trans (alloc_shrinks hp)

/-- What a request for a process record does. -/
structure Recorded (available : Set ℕ) (total : ℕ) (held : List ℕ) (m : Machine) (bs : List Block) (ptr : ℕ)
    (m' : Machine) (bs' : List Block) : Prop where
  heap : Inv available total ⟨m'.heap, held⟩ bs'
  block : ptr ≠ 0 → ∃ b ∈ bs', ptr = b.addr+headerSize
  fresh : ∀ b ∈ bs, b.free = false → ptr ≠ b.addr+headerSize
  pool : freeSet m'.vm.pmm ⊆ freeSet m.vm.pmm
  directory : m'.vm.pageDirectory = m.vm.pageDirectory
  kernel : m'.kernel = m.kernel
  off : ∀ K : Set ℕ, (∀ x ∈ K, x ∈ held) → SameOff (outside K) m.vm.mem m'.vm.mem

theorem held_outside {h : Heap} (hi : Inv available total ⟨h, held⟩ bs) (hK : ∀ x ∈ K, x ∈ held) :
    ∀ k ∈ freeSet h.pmm, k*pageSize ∉ K := by
  intro k hk hin
  obtain ⟨j, hj, -, -, hfree, -⟩ := hi.held _ (hK _ hin)
  obtain rfl := page_mul_injective hj
  exact hfree hk

theorem record_supplied (hi : Inv available total ⟨m.heap, held⟩ bs) : Supplied m.heap processSize := by
  by_cases hfit : FitsInList m.heap (alignUp4 processSize)
  · exact Or.inr (Or.inl ⟨by decide, hfit⟩)
  · rcases alloc_cases m.heap.pmm hi.padded with ⟨he, -⟩ | ⟨f, hf, -⟩
    · exact Or.inr (Or.inr (Or.inl ⟨hfit, he⟩))
    · refine Or.inr (Or.inr (Or.inr ⟨by decide, f, hf.2, ?_⟩))
      rw [show pagesNeeded processSize = 1 by decide]
      intro k hk
      rw [Set.mem_Ico] at hk
      obtain rfl : k = f := by omega
      exact hf.1

theorem record_fresh (hi : Inv available total ⟨m.heap, held⟩ bs) {q : ℕ} {h' : Heap}
    (hk : kmalloc m.heap processSize = .ok (q, h')) :
    (∀ b ∈ bs, b.free = false → q ≠ b.addr+headerSize) ∧ freeSet h'.pmm ⊆ freeSet m.heap.pmm := by
  cases hp : place headerSize 16 (alignUp4 processSize) bs with
  | some r =>
    obtain ⟨p, bs'⟩ := r
    obtain ⟨mem, c, hk', -, hc, hfit, hpc, -⟩ := kmalloc_found hi.blocks hi.apart hi.space
      (show processSize ≠ 0 by decide) (by decide) hp
    obtain ⟨rfl, rfl⟩ := Prod.mk.inj (Except.ok.inj (hk.symm.trans hk'))
    refine ⟨fun b hb hfree he => ?_, subset_rfl⟩
    have hsame : b = c := apart_mem (by decide) hi.apart hb hc (by omega)
    rw [hsame, hfit.1] at hfree
    cases hfree
  | none =>
    have hgrow := Except.ok.inj (hk.symm.trans (kmalloc_missing hi.blocks hi.space (show processSize ≠ 0 by decide) hp))
    have hq : q = (growHeap m.heap (alignUp4 processSize) (lastAddr 0 bs)).1 := by rw [← hgrow]
    have hheap : h' = (growHeap m.heap (alignUp4 processSize) (lastAddr 0 bs)).2 := by rw [← hgrow]
    rw [growHeap_ptr] at hq
    refine ⟨fun b hb _ he => ?_, hheap ▸ growHeap_shrinks _ _ hi.padded⟩
    obtain ⟨p, hpage, hlo, hhi⟩ := hi.owned _ (first_in_extent hb)
    obtain ⟨-, j, rfl, -, -, hjfree, -⟩ := hi.pages p hpage
    rcases alloc_cases m.heap.pmm hi.padded with ⟨-, halloc⟩ | ⟨k, hk, halloc⟩
    · rw [halloc, if_pos rfl] at hq
      unfold headerSize at he
      omega
    · have hlt := freeSet_lt m.heap.pmm hk.1
      have haddr : m.heap.pmm.totalPages ≤ 1048576 := hi.padded.addressable
      have hk0 : k ≠ 0 := fun he => hi.zero (he ▸ hk.1)
      rw [halloc, if_neg (Nat.mul_ne_zero hk0 (by decide))] at hq
      have hjk : j = k := by
        unfold wrap pageSize headerSize at *
        dsimp only at hq
        omega
      exact hjfree (hjk ▸ hk.1)

theorem record_spec (hm : Steady available total held m bs) {r : ℕ × Machine}
    (h : kmallocIn m processSize = some r) : ∃ bs', Recorded available total held m bs r.1 r.2 bs' := by
  have hi := hm.heap
  obtain ⟨q, h', bs', hk, hserved⟩ := kmalloc_served hi (record_supplied hi)
  obtain ⟨h'', hk', hr⟩ := kmallocIn_iff.mp h
  obtain ⟨rfl, rfl⟩ := Prod.mk.inj (Except.ok.inj (hk.symm.trans hk'))
  obtain ⟨hfresh, hpool⟩ := record_fresh hi hk
  rw [hr]
  refine ⟨bs', hserved.inv, fun hq => ?_, hfresh, hpool, rfl, rfl, fun K hK => ?_⟩
  · obtain ⟨c, hc, he, -⟩ := hserved.data.resolve_left hq
    exact ⟨c, hc, he⟩
  · have hfree := held_outside hi hK
    refine SameOff.mono (kmalloc_off hi.blocks hi.apart hi.space hi.padded hi.zero (by decide) (by decide)
      (by decide) hk).1 (Set.union_subset (extent_outside hi hK) ?_)
    refine spill_outside (n := 0) (by decide) (by decide) hfree (fun k hk hin => hfree k hk ?_)
    have hlt := freeSet_lt m.heap.pmm hk
    have haddr : m.heap.pmm.totalPages ≤ 1048576 := hi.padded.addressable
    have hsame : wrap ((k+0)*pageSize) = k*pageSize := by
      unfold wrap pageSize at *
      omega
    exact hsame ▸ hin

/-- The list of a heap whose blocks lie away from `K`. -/
structure Listed (K : Set ℕ) (h : Heap) (bs : List Block) : Prop where
  blocks : Represents h bs
  apart : Apart headerSize bs
  space : InSpace bs
  outside : extent headerSize bs ⊆ outside K

/-- The headers of a heap, whether or not its blocks are in order. -/
structure Chained (K A : Set ℕ) (h : Heap) : Prop where
  linked : Linked h.mem A
  start : h.heapStart = 0 ∨ h.heapStart ∈ A
  outside : headersAt A ⊆ outside K

theorem Listed.chained {h : Heap} (hl : Listed K h bs) : Chained K {a | ∃ b ∈ bs, b.addr = a} h := by
  obtain ⟨hlinked, hstart⟩ := linked_represents hl.blocks hl.apart hl.space
  refine ⟨hlinked, hstart, ?_⟩
  rintro x ⟨a, ⟨b, hb, rfl⟩, hx⟩
  refine hl.outside ⟨b, hb, hx.1, hx.2.trans_le ?_⟩
  unfold Block.stop
  omega

theorem kfreeIn_chained {A : Set ℕ} {m' : Machine} {a : ℕ} (hc : Chained K A m.heap) (ha : a ∈ A)
    (h : kfreeIn m (a+headerSize) = some m') :
    SameOff (outside K) m.vm.mem m'.vm.mem ∧ Chained K A m'.heap ∧ m'.kernel = m.kernel ∧
      m'.vm.pageDirectory = m.vm.pageDirectory := by
  obtain ⟨h', hf, rfl⟩ := kfreeIn_iff.mp h
  have hlow := hc.linked.space a ha
  have hptr : sub32 (a+headerSize) headerSize = a := by
    unfold sub32 wrap headerSize at *
    omega
  have hin : sub32 (a+headerSize) headerSize ∈ A := by
    rw [hptr]
    exact ha
  obtain ⟨hsame, hoff, hlinked⟩ := kfree_off hc.linked hc.start (Or.inr hin) hf
  refine ⟨SameOff.mono hoff hc.outside, ⟨hlinked, ?_, hc.outside⟩, rfl, rfl⟩
  rw [show (m.withHeap h').heap.heapStart = h'.heapStart from rfl, hsame]
  exact hc.start

theorem kfreeIn_off {m' : Machine} {proc : ℕ} (hl : Listed K m.heap bs) (hc : ∃ c ∈ bs, proc = c.addr+headerSize)
    (h : kfreeIn m proc = some m') : SameOff (outside K) m.vm.mem m'.vm.mem ∧ m'.kernel = m.kernel := by
  obtain ⟨c, hc, rfl⟩ := hc
  obtain ⟨hoff, -, hkernel, -⟩ := kfreeIn_chained hl.chained ⟨c, hc, rfl⟩ h
  exact ⟨hoff, hkernel⟩

theorem kmallocIn_off {r : ℕ × Machine} {size n : ℕ} (hl : Listed K m.heap bs) (hp : Padded m.vm.pmm)
    (hfree : ∀ k ∈ freeSet m.vm.pmm, k*pageSize ∉ K) (h0 : 0 ∉ freeSet m.vm.pmm) (hsize : size ≠ 0) (hmax : size ≤ maxRequest)
    (hn : n = (headerSize + alignUp4 size)/4096) (hroom : (headerSize + alignUp4 size) % 4096 ≤ 4083)
    (hspill : ∀ k ∈ freeSet m.vm.pmm, wrap ((k+n)*pageSize) ∉ K) (h : kmallocIn m size = some r) :
    SameOff (outside K) m.vm.mem r.2.vm.mem ∧ r.2.kernel = m.kernel ∧
      r.2.vm.pageDirectory = m.vm.pageDirectory ∧ (r.1 = 0 → r.2 = m) := by
  obtain ⟨h', hf, hr⟩ := kmallocIn_iff.mp h
  obtain ⟨hoff, hzero⟩ := kmalloc_off hl.blocks hl.apart hl.space hp h0 hsize hmax hroom hf
  have hin := Set.union_subset hl.outside (spill_outside hn hroom hfree hspill)
  rw [hr]
  refine ⟨SameOff.mono hoff hin, rfl, rfl, fun h0 => ?_⟩
  rw [hzero h0]
  rfl

/-- The frames of the heap. -/
def heapFrames (h : Heap) : Set ℕ := {p | p ∈ h.pages}

theorem heapFrames_away (hi : Inv available total ⟨m.heap, held⟩ bs) (hr : Ready m.vm)
    (hk : ∀ x ∈ kernelFrames m.vm, x ∈ held) : Away (heapFrames m.heap) m.vm where
  ready := hr
  zero h := by
    obtain ⟨-, k, hpk, h0, -⟩ := hi.pages 0 h
    unfold pageSize at hpk
    omega
  tables x hx hin := (hi.pages x hx).1 (hk x hin)
  pool k hfree hin := by
    obtain ⟨-, j, hj, -, -, hjfree, -⟩ := hi.pages _ hin
    obtain rfl := page_mul_injective hj
    exact hjfree hfree

/-- Stores that leave the heap's frames alone keep its list. -/
theorem listed_past {h : Heap} {mem : Mem} (hi : Inv available total ⟨h, held⟩ bs) (hK : ∀ x ∈ K, x ∈ held)
    (hoff : SameOff (outside (heapFrames h)) h.mem mem) : Listed K { h with mem := mem } bs where
  blocks := by
    refine represents_write hi.blocks hi.space hoff (fun b hb => Set.disjoint_left.mpr (fun x hx hout => ?_))
    have hin : x ∈ extent headerSize bs := by
      refine ⟨b, hb, hx.1, hx.2.trans_le ?_⟩
      unfold Block.stop
      omega
    obtain ⟨p, hp, hlo, hhi⟩ := hi.owned x hin
    obtain ⟨-, k, hk, -⟩ := hi.pages p hp
    refine hout ?_
    have hframe : frameOf x = p := by
      unfold pageSize at hk hhi
      unfold frameOf
      omega
    exact hframe ▸ hp
  apart := hi.apart
  space := hi.space
  outside := extent_outside hi hK

/-- The tables do not depend on the pool. -/
theorem tables_pool (h : SameTables s { s with mem := t.mem }) (hd : t.pageDirectory = s.pageDirectory) :
    Space t ∧ kernelFrames t = kernelFrames s ∧ ∀ wa, dirEntryAt t wa = dirEntryAt s wa := by
  obtain ⟨mem, pmm, dir⟩ := t
  dsimp only at hd
  subst hd
  exact ⟨h.space, h.frames, h.dirs⟩

theorem load_returns {data : Option Mem} {size : ℕ} (hs : Ready s) (ht : TameImage data size) :
    ∃ r, elfLoadSegments s data size = some r := by
  unfold elfLoadSegments
  cases data with
  | none => exact ⟨_, rfl⟩
  | some d =>
    dsimp only
    split
    · exact ⟨_, rfl⟩
    · obtain ⟨q, hq, -⟩ := segments_lent d hs (ht d rfl)
      rw [hq]
      exact ⟨_, rfl⟩

end Dionnex.MachineWrites
