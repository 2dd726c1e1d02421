import Dionnex.ProcessImage
import Dionnex.HeapOwnership

/-!
# Failing calls

`process_create`, `elf_load_segments` and `sys_exec` return what they took
only in part: the record's block goes back to the heap, but no page ever
goes back to the pool. So a failing call leaves no trace only when it fails
before its first page: on an invalid image or, with a record that fits the
heap, on an empty pool.
-/

set_option autoImplicit false

namespace Dionnex.FailureAtomicity
open ByteMemory LinkedChain FirstFit PageTables Dionnex.PmmBitmap Dionnex.KernelHeap Dionnex.HeapBlocks
open Dionnex.HeapOwnership Dionnex.Vmm Dionnex.UserPages Dionnex.UserMemory Dionnex.PagedAccess
open Dionnex.ElfLoader Dionnex.Process Dionnex.ProcessImage

/-! ## The pool only shrinks -/

/-- A pool with a free page, counted right. -/
structure Stocked (p : Pmm) : Prop where
  padded : Padded p
  zeroTaken : 0 ∉ freeSet p
  some : freeSet p ≠ ∅
  counted : p.freePages = (freeSet p).ncard

theorem alloc_fewer (p : Pmm) : (pmmAllocPage p).2.freePages ≤ p.freePages := by
  unfold pmmAllocPage
  split
  · exact le_rfl
  · split
    · exact le_rfl
    · unfold takePage
      dsimp only
      split
      · omega
      · exact le_rfl

theorem alloc_spends {p : Pmm} (hp : Stocked p) :
    (pmmAllocPage p).1 ≠ 0 ∧ (pmmAllocPage p).2.freePages < p.freePages := by
  have hpos : 0 < p.freePages := by
    rw [hp.counted]
    exact (Set.ncard_pos (freeSet_finite p)).mpr (Set.nonempty_iff_ne_empty.mpr hp.some)
  rcases alloc_cases p hp.padded with ⟨he, -⟩ | ⟨q, hq, ha⟩
  · exact absurd he hp.some
  · rw [ha]
    constructor
    · refine Nat.mul_ne_zero (fun h0 => hp.zeroTaken (h0 ▸ hq.1)) (by decide)
    · unfold takePage
      dsimp only
      rw [if_pos hpos]
      omega

def Fewer (s t : VmState) : Prop := t.pmm.freePages ≤ s.pmm.freePages

theorem map_fewer (s : VmState) (virt phys flags : ℕ) : Fewer s (vmmMapPage s virt phys flags) := by
  change (ensureTable s (pageDirIndex virt) flags).pmm.freePages ≤ s.pmm.freePages
  unfold ensureTable
  split
  · exact alloc_fewer s.pmm
  · exact le_rfl

theorem grant_fewer (s : VmState) (va flags : ℕ) : Fewer s (grantPage s va flags) := by
  unfold grantPage
  split
  · exact (map_fewer _ _ _ _).trans (alloc_fewer s.pmm)
  · exact alloc_fewer s.pmm

theorem grantPages_fewer (s : VmState) (base flags i n : ℕ) : Fewer s (grantPages s base flags i n) := by
  induction n generalizing s i with
  | zero => exact le_rfl
  | succ n ih => exact (ih _ _).trans (grant_fewer s _ _)

theorem identityPages_fewer (s : VmState) (i n : ℕ) : Fewer s (identityPages s i n) := by
  induction n generalizing s i with
  | zero => exact le_rfl
  | succ n ih => exact (ih _ _).trans (map_fewer s _ _ _)

theorem mapUserSpace_fewer (s : VmState) : Fewer s (mapUserSpace s) := by
  have hlow := identityPages_fewer s 0 1024
  unfold mapUserSpace
  dsimp only
  generalize identityPages s 0 1024 = t at *
  have hstack := grantPages_fewer t stackBottom userFlags 0 (procStackSize/4096)
  generalize grantPages t stackBottom userFlags 0 (procStackSize/4096) = u at *
  have hheap := grantPages_fewer u Dionnex.Process.procHeapBase userFlags 0 16
  generalize grantPages u Dionnex.Process.procHeapBase userFlags 0 16 = v at *
  exact hheap.trans (hstack.trans hlow)

theorem loadPages_fewer (s : VmState) (base flags i n : ℕ) : Fewer s (loadPages s base flags i n).2 := by
  induction n generalizing s i with
  | zero => exact le_rfl
  | succ n ih =>
    rw [loadPages]
    split
    · exact alloc_fewer s.pmm
    · exact (ih _ _).trans ((map_fewer _ _ _ _).trans (alloc_fewer s.pmm))

/-- A load of at least one page takes a page from a pool that has one. -/
theorem loadPages_spends {s : VmState} {base flags i n : ℕ} (hs : Stocked s.pmm) (hn : n ≠ 0) :
    (loadPages s base flags i n).2.pmm.freePages < s.pmm.freePages := by
  obtain ⟨n, rfl⟩ := Nat.exists_eq_succ_of_ne_zero hn
  obtain ⟨ha, hlt⟩ := alloc_spends hs
  rw [loadPages, if_neg ha]
  exact lt_of_le_of_lt ((loadPages_fewer _ _ _ _ _).trans (map_fewer _ _ _ _)) hlt

theorem storeBytes_pmm {s t : VmState} {va i n : ℕ} {f : ℕ → ℕ} (h : storeBytes s va f i n = some t) :
    t.pmm = s.pmm := by
  induction n generalizing s i with
  | zero =>
    obtain rfl := Option.some.inj h
    rfl
  | succ n ih =>
    obtain ⟨u, hu, hrest⟩ := Option.bind_eq_some_iff.mp h
    obtain ⟨x, -, rfl⟩ := Option.map_eq_some_iff.mp hu
    have hlast := ih hrest
    exact hlast

theorem fill_pmm {s t : VmState} {d : Mem} {size : ℕ} {ph : Phdr} (h : fillSegment s d size ph = some t) :
    t.pmm = s.pmm := by
  obtain ⟨u, hu, hrest⟩ := Option.bind_eq_some_iff.mp h
  have hfirst := storeBytes_pmm hu
  split at hrest
  · exact (storeBytes_pmm hrest).trans hfirst
  · obtain rfl := Option.some.inj hrest
    exact hfirst

/-- What a segment does to the pool. -/
theorem segment_pool {s : VmState} {d : Mem} {size : ℕ} {ph : Phdr} {r : Bool × VmState}
    (h : loadSegment s d size ph = some r) : Fewer s r.2 ∧
      (Stocked s.pmm → r.2.pmm.freePages < s.pmm.freePages ∨ r.1 = true ∧ r.2.pmm = s.pmm) := by
  unfold loadSegment at h
  split at h
  · obtain rfl := Option.some.inj h
    exact ⟨le_rfl, fun _ => Or.inr ⟨rfl, rfl⟩⟩
  · have hpool : r.2.pmm = (loadPages s (pageStart ph) (segmentFlags ph) 0 (segmentPages ph)).2.pmm ∧
        (segmentPages ph = 0 → r.1 = true) := by
      dsimp only at h
      split at h
      · rename_i hstop
        obtain rfl := Option.some.inj h
        refine ⟨rfl, fun hn => ?_⟩
        rw [hn] at hstop
        cases hstop
      · obtain ⟨t, ht, rfl⟩ := Option.map_eq_some_iff.mp h
        exact ⟨fill_pmm ht, fun _ => rfl⟩
    unfold Fewer
    rw [hpool.1]
    refine ⟨loadPages_fewer _ _ _ _ _, fun hs => ?_⟩
    by_cases hn : segmentPages ph = 0
    · right
      rw [hn]
      exact ⟨hpool.2 hn, rfl⟩
    · exact Or.inl (loadPages_spends hs hn)

theorem segments_pool {s : VmState} {d : Mem} {size : ℕ} {phs : List Phdr} {r : Bool × VmState}
    (h : loadSegments s d size phs = some r) : Fewer s r.2 ∧
      (Stocked s.pmm → r.1 = false → r.2.pmm.freePages < s.pmm.freePages) := by
  induction phs generalizing s with
  | nil =>
    obtain rfl := Option.some.inj h
    exact ⟨le_rfl, fun _ hf => by cases hf⟩
  | cons ph rest ih =>
    obtain ⟨q, hq, hrest⟩ := Option.bind_eq_some_iff.mp h
    obtain ⟨hfewer, hspend⟩ := segment_pool hq
    split at hrest
    · rename_i hstop
      obtain rfl := Option.some.inj hrest
      refine ⟨hfewer, fun hs _ => (hspend hs).resolve_right (fun h => ?_)⟩
      rw [h.1] at hstop
      cases hstop
    · obtain ⟨hlater, hlast⟩ := ih hrest
      refine ⟨hlater.trans hfewer, fun hs hf => ?_⟩
      rcases hspend hs with hlt | ⟨-, hsame⟩
      · exact lt_of_le_of_lt hlater hlt
      · have hlt := hlast (hsame ▸ hs) hf
        rwa [hsame] at hlt

/-- A load that fails on a valid image has taken a page, unless the pool was empty. -/
theorem load_pool {s t : VmState} {data : Option Mem} {size ret : ℕ}
    (h : elfLoadSegments s data size = some (ret, t)) : Fewer s t ∧
      (Stocked s.pmm → elfValidate data size = true → ret ≠ 0 → t.pmm.freePages < s.pmm.freePages) := by
  unfold elfLoadSegments at h
  cases data with
  | none =>
    obtain ⟨-, rfl⟩ := Prod.mk.inj (Option.some.inj h)
    exact ⟨le_rfl, fun _ hv => by cases hv⟩
  | some d =>
    dsimp only at h
    split at h
    · rename_i hv
      obtain ⟨-, rfl⟩ := Prod.mk.inj (Option.some.inj h)
      exact ⟨le_rfl, fun _ hv' => by rw [hv] at hv'; cases hv'⟩
    · obtain ⟨r, hr, he⟩ := Option.map_eq_some_iff.mp h
      obtain ⟨rfl, rfl⟩ := Prod.mk.inj he
      obtain ⟨hfewer, hspend⟩ := segments_pool hr
      refine ⟨hfewer, fun hs _ hret => hspend hs ?_⟩
      by_contra ht
      exact hret (if_pos (Bool.eq_true_of_not_eq_false ht))

/-! ## The state before the call -/

variable {available : Set ℕ} {total : ℕ} {held : List ℕ} {m : Machine} {bs : List Block}

/-- The addresses and sizes of the blocks in use. -/
def liveBlocks (h : Heap) : Set (ℕ × ℕ) :=
  {b | InList h b.1 ∧ freeAt h.mem b.1 = 0 ∧ sizeAt h.mem b.1 = b.2}

/-- The process list and its records. -/
def SameProcesses (k k' : Kernel) : Prop :=
  ∀ l, Chain k.next k.procList l → Chain k'.next k'.procList l ∧ ∀ p ∈ l, k'.procs p = k.procs p

structure Unchanged (m m' : Machine) : Prop where
  freeCount : m'.vm.pmm.freePages = m.vm.pmm.freePages
  blocks : liveBlocks m'.heap = liveBlocks m.heap
  processes : SameProcesses m.kernel m'.kernel
  translations : ∀ va x, translateAt m.vm va = some x → translateAt m'.vm va = some x

theorem unchanged_refl (m : Machine) : Unchanged m m :=
  ⟨rfl, rfl, fun _ hl => ⟨hl, fun _ _ => rfl⟩, fun _ _ h => h⟩

theorem steady_stocked (hm : Steady available total held m bs) (hne : freeSet m.vm.pmm ≠ ∅) :
    Stocked m.vm.pmm := ⟨hm.heap.padded, hm.heap.zero, hne, hm.counted⟩

theorem live_iff {h : Heap} (hr : Represents h bs) (a n : ℕ) :
    (a, n) ∈ liveBlocks h ↔ ∃ b ∈ bs, b.free = false ∧ b.addr = a ∧ b.size = n := by
  constructor
  · rintro ⟨hin, hfree, hsize⟩
    obtain ⟨b, hb, rfl⟩ := (mem_inList hr a).mp hin
    have hh := hr.2 b hb
    refine ⟨b, hb, ?_, rfl, hh.size.symm.trans hsize⟩
    by_contra hne
    exact (flag_iff hh).mpr (Bool.eq_true_of_not_eq_false hne) hfree
  · rintro ⟨b, hb, hfree, rfl, rfl⟩
    have hh := hr.2 b hb
    refine ⟨(mem_inList hr b.addr).mpr ⟨b, hb, rfl⟩, ?_, hh.size⟩
    by_contra hne
    rw [(flag_iff hh).mp hne] at hfree
    cases hfree

theorem same_live {h h' : Heap} {bs' : List Block} (hr : Represents h bs) (hr' : Represents h' bs')
    (hsame : ∀ x, x.free = false → (x ∈ bs' ↔ x ∈ bs)) : liveBlocks h' = liveBlocks h := by
  ext ⟨a, n⟩
  rw [live_iff hr, live_iff hr']
  constructor
  · rintro ⟨b, hb, hfree, ha, hn⟩
    exact ⟨b, (hsame b hfree).mp hb, hfree, ha, hn⟩
  · rintro ⟨b, hb, hfree, ha, hn⟩
    exact ⟨b, (hsame b hfree).mpr hb, hfree, ha, hn⟩

theorem headers_extent (bs : List Block) : headers bs ⊆ extent headerSize bs := by
  rintro x ⟨b, hb, hlo, hhi⟩
  refine ⟨b, hb, hlo, ?_⟩
  unfold Block.stop
  omega

/-- A record that finds a free block: the block goes back, and no process has lived in it. -/
theorem record_returned (hm : Steady available total held m bs) {size p : ℕ} {bs' : List Block}
    (h0 : size ≠ 0) (hmax : size ≤ maxRequest)
    (hp : place headerSize 16 (alignUp4 size) bs = some (p, bs')) :
    ∃ mem mem', kmallocIn m size = some (p+headerSize, m.withHeap { m.heap with mem := mem }) ∧
      kfreeIn (m.withHeap { m.heap with mem := mem }) (p+headerSize) =
        some (m.withHeap { m.heap with mem := mem' }) ∧
      liveBlocks { m.heap with mem := mem' } = liveBlocks m.heap ∧
      SameTables m.vm { m.vm with mem := mem' } ∧ ∀ b ∈ bs, b.free = false → b.addr ≠ p := by
  have hi := hm.heap
  obtain ⟨mem, b, hk, hrep, hb, hfit, hpb, hoff⟩ := kmalloc_found hi.blocks hi.apart hi.space h0 hmax hp
  obtain ⟨l, c, r, rfl, hc, hused⟩ := place_returned hp
  have hspace := space_place hi.space hp
  have hlt : p+headerSize < 4294967296 := by
    have hstop := (hi.space b hb).2
    have hge := (alignUp4_ge hmax).1
    have hreq := hfit.2
    unfold Block.stop at hstop
    omega
  have hptr : sub32 (p+headerSize) headerSize = c.addr := by
    rw [sub32_of_le (Nat.le_add_left _ _) hlt, hc]
    exact Nat.add_sub_cancel _ _
  obtain ⟨mem', hk', hrep', hoff'⟩ := kfree_blocks hrep (apart_place hi.apart hp) hspace hptr
    (by unfold headerSize; omega)
  have hall : SameOff (extent headerSize bs) m.vm.mem mem' := by
    refine SameOff.trans (hoff.mono ?_) (hoff'.mono ?_)
    · exact fun x hx => ⟨b, hb, hx⟩
    · exact (headers_extent _).trans (place_extent hp)
  refine ⟨mem, mem', kmallocIn_iff.mpr ⟨_, hk, rfl⟩, kfreeIn_iff.mpr ⟨_, hk', rfl⟩, ?_,
    sameTables_off hm.space hall hm.apart, ?_⟩
  · refine same_live hi.blocks hrep' (fun x hx => ?_)
    rw [coalesce_used_iff hx]
    exact hused x hx
  · rintro d hd hfree rfl
    have hsame : d = b := apart_mem (by decide) hi.apart hd hb hpb
    rw [hsame, hfit.1] at hfree
    cases hfree

/-! ## A pool with a page -/

theorem growPages_fewer (n : ℕ) (h : Heap) : (growPages n h).pmm.freePages ≤ h.pmm.freePages := by
  induction n generalizing h with
  | zero => exact le_rfl
  | succ n ih => exact (ih _).trans (alloc_fewer h.pmm)

theorem growHeap_pool (h : Heap) (req last : ℕ) :
    (growHeap h req last).2.pmm.freePages ≤ (pmmAllocPage h.pmm).2.freePages := by
  unfold growHeap
  dsimp only
  split
  · exact le_rfl
  · exact growPages_fewer _ (takeHeapPage h).2

theorem kmallocIn_fewer {m : Machine} {size : ℕ} {r : ℕ × Machine} (h : kmallocIn m size = some r) :
    Fewer m.vm r.2.vm := by
  obtain ⟨h', hk, hr⟩ := kmallocIn_iff.mp h
  rw [hr]
  change h'.pmm.freePages ≤ m.heap.pmm.freePages
  unfold kmalloc at hk
  split at hk
  · obtain ⟨-, rfl⟩ := Prod.mk.inj (Except.ok.inj hk)
    exact le_rfl
  · cases hfind : findFit m.heap.mem (alignUp4 size) loopBound m.heap.heapStart 0 with
    | error e =>
      rw [hfind] at hk
      cases hk
    | ok found =>
      rw [hfind] at hk
      have hres := (Prod.ext_iff.mp (Except.ok.inj hk)).2
      dsimp only at hres
      rw [← hres]
      cases found with
      | found block => exact le_rfl
      | missing last => exact (growHeap_pool _ _ _).trans (alloc_fewer _)

theorem kfreeIn_pmm {m m' : Machine} {ptr : ℕ} (h : kfreeIn m ptr = some m') : m'.vm.pmm = m.vm.pmm := by
  obtain ⟨h', hk, rfl⟩ := kfreeIn_iff.mp h
  change h'.pmm = m.heap.pmm
  unfold kfree at hk
  split at hk
  · obtain rfl := Except.ok.inj hk
    rfl
  · dsimp only at hk
    split at hk
    · cases hk
    · unfold heapCoalesce at hk
      cases hloop : coalesceLoop loopBound (setFree m.heap.mem (sub32 ptr headerSize) 1) m.heap.heapStart with
      | error e =>
        rw [hloop] at hk
        cases hk
      | ok mem =>
        rw [hloop] at hk
        obtain rfl := Except.ok.inj hk
        rfl

theorem loadProcess_fewer {m : Machine} {name : Option (List UInt8)} {data : Option Mem}
    {size proc pageDirectory : ℕ} {r : ℕ × Machine}
    (h : loadProcess m name data size proc pageDirectory = some r) : Fewer m.vm r.2.vm := by
  unfold loadProcess at h
  obtain ⟨q, hq, hrest⟩ := Option.bind_eq_some_iff.mp h
  have hload : Fewer m.vm q.2 := by
    have hspace := mapUserSpace_fewer { m.vm with mem := memset m.vm.mem pageDirectory 0 4096 }
    have hfewer := (load_pool hq).1
    generalize mapUserSpace { m.vm with mem := memset m.vm.mem pageDirectory 0 4096 } = t at *
    exact le_trans hfewer hspace
  split at hrest
  · obtain ⟨m', hm', rfl⟩ := Option.map_eq_some_iff.mp hrest
    have hpmm := kfreeIn_pmm hm'
    change m'.vm.pmm.freePages ≤ m.vm.pmm.freePages
    rw [hpmm]
    exact hload
  · obtain ⟨k, hk, hlast⟩ := Option.bind_eq_some_iff.mp hrest
    have hstack := (kmallocIn_fewer hk).trans hload
    split at hlast
    · obtain ⟨m', hm', rfl⟩ := Option.map_eq_some_iff.mp hlast
      have hpmm := kfreeIn_pmm hm'
      change m'.vm.pmm.freePages ≤ m.vm.pmm.freePages
      rw [hpmm]
      exact hstack
    · obtain rfl := Option.some.inj hlast
      exact hstack

/-- The record or, with a record from the list, the page directory takes a page for good. -/
theorem create_spends (hm : Steady available total held m bs) (hne : freeSet m.vm.pmm ≠ ∅)
    {name : Option (List UInt8)} {data : Option Mem} {size : ℕ} {r : ℕ × Machine}
    (hv : elfValidate data size ≠ false) (h : processCreateIn m name data size = some r) :
    r.2.vm.pmm.freePages < m.vm.pmm.freePages := by
  have hs := steady_stocked hm hne
  rw [processCreateIn, if_neg hv] at h
  obtain ⟨q, hq, hrest⟩ := Option.bind_eq_some_iff.mp h
  have hlater : r.2.vm.pmm.freePages ≤ q.2.vm.pmm.freePages ∧
      (q.1 ≠ 0 → r.2.vm.pmm.freePages ≤ (pmmAllocPage q.2.vm.pmm).2.freePages) := by
    split at hrest
    · rename_i h0
      obtain rfl := Option.some.inj hrest
      exact ⟨le_rfl, fun h => absurd h0 h⟩
    · have hboth : r.2.vm.pmm.freePages ≤ (pmmAllocPage q.2.vm.pmm).2.freePages := by
        dsimp only at hrest
        split at hrest
        · obtain ⟨m', hm', rfl⟩ := Option.map_eq_some_iff.mp hrest
          have hpmm := kfreeIn_pmm hm'
          change m'.vm.pmm.freePages ≤ _
          rw [hpmm]
          exact le_rfl
        · exact loadProcess_fewer hrest
      exact ⟨hboth.trans (alloc_fewer _), fun _ => hboth⟩
  cases hp : place headerSize 16 (alignUp4 processSize) bs with
  | none =>
    have hk := kmalloc_missing hm.heap.blocks hm.heap.space (show processSize ≠ 0 by decide) hp
    obtain ⟨h', hk', hr⟩ := kmallocIn_iff.mp hq
    have hheap : (growHeap m.heap (alignUp4 processSize) (lastAddr 0 bs)).2 = h' :=
      (Prod.ext_iff.mp (Except.ok.inj (hk.symm.trans hk'))).2
    rw [hr, ← hheap] at hlater
    refine lt_of_le_of_lt (hlater.1.trans (growHeap_pool _ _ _)) (alloc_spends hs).2
  | some pb =>
    obtain ⟨p, bs'⟩ := pb
    obtain ⟨mem, mem', hin, -⟩ := record_returned hm (show processSize ≠ 0 by decide) (by decide) hp
    rw [hin] at hq
    obtain rfl := Option.some.inj hq
    have h0 : p+headerSize ≠ 0 := by
      unfold headerSize
      omega
    exact lt_of_le_of_lt (hlater.2 h0) (alloc_spends hs).2

/-! ## An empty pool -/

theorem take_empty {s : VmState} (he : freeSet s.pmm = ∅) : takePmmPage s = s := by
  unfold takePmmPage
  rw [alloc_empty s.pmm he]

theorem put_same {k : Kernel} {p nextPid : ℕ} {r : Record} (hl : ∀ l, Chain k.next k.procList l → p ∉ l) :
    SameProcesses k ({ k with nextPid := nextPid }.put p r) := by
  intro l hc
  have hp : ∀ x ∈ l, ({ k with nextPid := nextPid }.put p r).procs x = k.procs x :=
    fun x hx => Function.update_of_ne (ne_of_mem_of_not_mem hx (hl l hc)) _ _
  refine ⟨seg_congr (fun x hx => ?_) hc, hp⟩
  unfold Kernel.next
  rw [hp x hx]

/-- Without a page the record's block comes back, or there is no record. -/
theorem create_empty (hm : Steady available total held m bs) (he : freeSet m.vm.pmm = ∅)
    {name : Option (List UInt8)} {data : Option Mem} {size : ℕ} {r : ℕ × Machine}
    (h : processCreateIn m name data size = some r) : Unchanged m r.2 := by
  by_cases hv : elfValidate data size = false
  · rw [processCreateIn, if_pos hv] at h
    obtain rfl := Option.some.inj h
    exact unchanged_refl m
  rw [processCreateIn, if_neg hv] at h
  cases hp : place headerSize 16 (alignUp4 processSize) bs with
  | none =>
    have hk := kmalloc_missing hm.heap.blocks hm.heap.space (show processSize ≠ 0 by decide) hp
    rw [growHeap_refused (alloc_empty m.heap.pmm he)] at hk
    have hin : kmallocIn m processSize = some (0, m) := kmallocIn_iff.mpr ⟨_, hk, rfl⟩
    rw [hin] at h
    obtain rfl := Option.some.inj h
    exact unchanged_refl m
  | some pb =>
    obtain ⟨p, bs'⟩ := pb
    obtain ⟨mem, mem', hin, hout, hlive, htables, hfree⟩ :=
      record_returned hm (show processSize ≠ 0 by decide) (by decide) hp
    have h0 : p+headerSize ≠ 0 := by
      unfold headerSize
      omega
    have hpage : pmmAllocPage (m.withHeap { m.heap with mem := mem }).vm.pmm = (0, m.vm.pmm) := alloc_empty _ he
    rw [hin] at h
    simp only [Option.bind_some, if_neg h0, hpage, if_pos, take_empty (s := (m.withHeap { m.heap with mem := mem }).vm) he,
      hout, Option.map_some, Option.some.injEq] at h
    subst h
    refine ⟨rfl, hlive, ?_, fun va x hx => (htables.translate va).trans hx⟩
    have hkernel : (processCreate m.kernel name ⟨true, p+headerSize, 0, false, 0, 0⟩).2 =
        { m.kernel with nextPid := (m.kernel.nextPid+1) % wordMod }.put (p+headerSize) (freshRecord m.kernel name) := by
      unfold processCreate
      rw [if_neg Bool.noConfusion, if_neg h0]
      rfl
    change SameProcesses m.kernel (processCreate m.kernel name ⟨true, p+headerSize, 0, false, 0, 0⟩).2
    rw [hkernel]
    refine put_same (fun l hl hmem => ?_)
    obtain ⟨l', hl', hlive'⟩ := hm.processes
    rw [chain_unique hl hl'] at hmem
    obtain ⟨b, hb, hused, hbp⟩ := hlive' _ hmem
    exact hfree b hb hused (by omega)

/-- The image writes nothing before its first page. -/
def Quiet (size : ℕ) : List Phdr → Prop
  | [] => True
  | ph::rest => segmentRun ph ≠ [] ∨
      (ph.pType = ptLoad → ph.pMemsz = 0 ∧ ¬ Copied ph size) ∧ Quiet size rest

theorem segmentRun_empty {ph : Phdr} (hl : ph.pType = ptLoad) (h : segmentRun ph = []) : segmentPages ph = 0 := by
  unfold segmentRun at h
  rw [if_pos hl] at h
  by_contra hn
  obtain ⟨n, hn⟩ := Nat.exists_eq_succ_of_ne_zero hn
  rw [hn] at h
  cases h

theorem loadSegment_refused {s : VmState} {d : Mem} {size : ℕ} {ph : Phdr} (he : freeSet s.pmm = ∅)
    (hrun : segmentRun ph ≠ []) : loadSegment s d size ph = some (false, s) := by
  unfold segmentRun at hrun
  by_cases hl : ph.pType = ptLoad
  · rw [if_pos hl] at hrun
    have hn : segmentPages ph ≠ 0 := by
      intro hn
      rw [hn] at hrun
      exact hrun rfl
    obtain ⟨n, hn⟩ := Nat.exists_eq_succ_of_ne_zero hn
    have hload : loadPages s (pageStart ph) (segmentFlags ph) 0 (segmentPages ph) = (false, s) := by
      have halloc : (pmmAllocPage s.pmm).1 = 0 := by rw [alloc_empty s.pmm he]
      rw [hn, Nat.succ_eq_add_one, loadPages, if_pos halloc, take_empty he]
    unfold loadSegment
    rw [if_neg (not_not.mpr hl), hload]
    rfl
  · rw [if_neg hl] at hrun
    exact absurd rfl hrun

theorem loadSegment_quiet {s : VmState} {d : Mem} {size : ℕ} {ph : Phdr} (hrun : segmentRun ph = [])
    (hq : ph.pType = ptLoad → ph.pMemsz = 0 ∧ ¬ Copied ph size) :
    loadSegment s d size ph = some (true, s) := by
  unfold loadSegment
  by_cases hl : ph.pType = ptLoad
  · obtain ⟨hsize, hcopy⟩ := hq hl
    rw [if_neg (not_not.mpr hl), segmentRun_empty hl hrun]
    unfold fillSegment memsetAt
    rw [hsize]
    simp only [loadPages, storeBytes, Option.bind_some, if_neg hcopy]
    rfl
  · rw [if_pos hl]

theorem segments_empty {s : VmState} {d : Mem} {size : ℕ} {phs : List Phdr} {r : Bool × VmState}
    (he : freeSet s.pmm = ∅) (hq : Quiet size phs) (h : loadSegments s d size phs = some r)
    (hf : r.1 = false) : r.2 = s := by
  induction phs with
  | nil =>
    obtain rfl := Option.some.inj h
    cases hf
  | cons ph rest ih =>
    rw [loadSegments] at h
    by_cases hrun : segmentRun ph = []
    · rcases hq with hne | ⟨hsilent, hrest⟩
      · exact absurd hrun hne
      · rw [loadSegment_quiet hrun hsilent] at h
        exact ih hrest h
    · rw [loadSegment_refused he hrun] at h
      obtain rfl := Option.some.inj h
      rfl

theorem load_empty {s t : VmState} {data : Option Mem} {size ret : ℕ} (he : freeSet s.pmm = ∅)
    (hq : ∀ d, data = some d → Quiet size (phdrs d)) (h : elfLoadSegments s data size = some (ret, t))
    (hret : ret ≠ 0) : t = s := by
  unfold elfLoadSegments at h
  cases data with
  | none => exact (Prod.mk.inj (Option.some.inj h)).2.symm
  | some d =>
    dsimp only at h
    split at h
    · exact (Prod.mk.inj (Option.some.inj h)).2.symm
    · obtain ⟨r, hr, hr'⟩ := Option.map_eq_some_iff.mp h
      obtain ⟨rfl, rfl⟩ := Prod.mk.inj hr'
      refine segments_empty he (hq d rfl) hr ?_
      by_contra htrue
      rw [Bool.not_eq_false] at htrue
      exact hret (if_pos htrue)

/-- The image is refused before anything happens, or it asks the empty pool before it writes. -/
def Refused (s : VmState) (data : Option Mem) (size : ℕ) : Prop :=
  elfValidate data size = false ∨ freeSet s.pmm = ∅ ∧ ∀ d, data = some d → Quiet size (phdrs d)

theorem load_refused {s t : VmState} {data : Option Mem} {size ret : ℕ} (hr : Refused s data size)
    (h : elfLoadSegments s data size = some (ret, t)) (hret : ret ≠ 0) : t = s := by
  rcases hr with hv | ⟨he, hq⟩
  · unfold elfLoadSegments at h
    cases data with
    | none => exact (Prod.mk.inj (Option.some.inj h)).2.symm
    | some d =>
      dsimp only at h
      rw [if_pos hv] at h
      exact (Prod.mk.inj (Option.some.inj h)).2.symm
  · exact load_empty he hq h hret

theorem load_kept (hm : Steady available total held m bs) {t : VmState} {data : Option Mem} {size ret : ℕ}
    (h : elfLoadSegments m.vm data size = some (ret, t)) (hret : ret ≠ 0)
    (hkept : t.pmm.freePages = m.vm.pmm.freePages) :
    elfValidate data size = false ∨ freeSet m.vm.pmm = ∅ := by
  by_contra hno
  obtain ⟨hv, hne⟩ := not_or.mp hno
  have hlt := (load_pool h).2 (steady_stocked hm hne) (Bool.eq_true_of_not_eq_false hv) hret
  omega

/-- `sys_exec` reaches the loader. -/
def Loads (m : Machine) (path : Option (List UInt8)) (file : Option (Mem × ℕ)) (d : Mem) (size : ℕ) : Prop :=
  path.isSome ∧ file = some (d, size) ∧ m.kernel.currentProcess ≠ 0

theorem exec_cases {m m' : Machine} {path : Option (List UInt8)} {file : Option (Mem × ℕ)}
    (h : sysExec m path file = some (minusOne, m')) :
    m' = m ∧ (∀ d size, ¬ Loads m path file d size) ∨
      ∃ d size ret t, Loads m path file d size ∧ elfLoadSegments m.vm (some d) size = some (ret, t) ∧
        ret ≠ 0 ∧ m' = { m with vm := t } := by
  unfold sysExec at h
  cases path with
  | none =>
    obtain ⟨-, rfl⟩ := Prod.mk.inj (Option.some.inj h)
    exact Or.inl ⟨rfl, fun _ _ hl => by cases hl.1⟩
  | some path =>
    cases file with
    | none =>
      obtain ⟨-, rfl⟩ := Prod.mk.inj (Option.some.inj h)
      exact Or.inl ⟨rfl, fun _ _ hl => by cases hl.2.1⟩
    | some f =>
      obtain ⟨d, size⟩ := f
      dsimp only at h
      split at h
      · rename_i h0
        obtain ⟨-, rfl⟩ := Prod.mk.inj (Option.some.inj h)
        exact Or.inl ⟨rfl, fun _ _ hl => hl.2.2 h0⟩
      · rename_i h0
        obtain ⟨⟨ret, t⟩, hr, hrest⟩ := Option.map_eq_some_iff.mp h
        right
        refine ⟨d, size, ret, t, ⟨rfl, rfl, h0⟩, hr, ?_⟩
        by_cases hret : ret = 0
        · rw [if_pos hret] at hrest
          have hbad : 0 = minusOne := (Prod.mk.inj hrest).1
          exact absurd hbad (by decide)
        · rw [if_neg hret] at hrest
          exact ⟨hret, (Prod.mk.inj hrest).2.symm⟩

theorem sampleKernel_frames : ∀ x ∈ kernelFrames sampleKernel, x ∈ [0x1000, 0x2000] := by
  intro x hx
  rcases Set.mem_insert_iff.mp hx with rfl | ⟨i, hi, hp, rfl⟩
  · decide
  · obtain rfl := (VmmTranslation.init_tables VmmTranslation.sample_boot hi).mp hp
    change frameOf (entry (vmmInit VmmTranslation.sampleMachine).mem
      (vmmInit VmmTranslation.sampleMachine).pageDirectory 0) ∈ [0x1000, 0x2000]
    rw [VmmTranslation.init_frame VmmTranslation.sample_boot]
    decide

theorem sampleKernel_counted : sampleKernel.pmm.freePages = (freeSet sampleKernel.pmm).ncard := by
  have hfree : freeSet sampleKernel.pmm =
      ((Finset.range 1024).filter (fun p => PackedBits.bit sampleKernel.pmm.bitmap p = false) : Finset ℕ) := by
    ext p
    rw [Finset.mem_coe, Finset.mem_filter, Finset.mem_range]
    exact Iff.rfl
  rw [hfree, Set.ncard_coe_finset]
  decide +kernel

def sampleMachine : Machine where
  vm := sampleKernel
  heapStart := 0
  heapEndAddr := 0
  heapPages := []
  kernel := ⟨fun _ => blankRecord, 0, 0, 0, 1, 0⟩

theorem sampleMachine_steady : Steady Set.univ 1024 [0x1000, 0x2000] sampleMachine [] where
  heap :=
    { blocks := heapSeg_nil.mpr rfl
      apart := List.Pairwise.nil
      nopair := List.IsChain.nil
      owned := fun x ⟨_, hb, _⟩ => absurd hb List.not_mem_nil
      padded := sampleKernel_sound.1.padded
      totalPages := rfl
      zero := sampleKernel_sound.1.zeroTaken
      free := Set.subset_univ _
      pages := fun p hp => absurd hp List.not_mem_nil
      held := by
        intro p hp
        rcases List.mem_pair.mp hp with rfl | rfl
        · exact ⟨1, rfl, by decide, by decide, fun h => absurd h.2 (by decide), trivial⟩
        · exact ⟨2, rfl, by decide, by decide, fun h => absurd h.2 (by decide), trivial⟩
      distinct := by decide }
  space := sampleKernel_sound.1.space
  tables := sampleKernel_frames
  counted := sampleKernel_counted
  processes := ⟨[], rfl, fun _ h => absurd h List.not_mem_nil⟩

/-- A segment larger than the machine. -/
def largePhdr : Phdr := ⟨1, 0, 0x08048000, 0, 0x800000, 6⟩

theorem loadPages_count {s : VmState} {base flags i n : ℕ} (hs : Ready s) (hf : flags < 4096)
    (hn : n ≤ 1048576) (hall : (loadPages s base flags i n).1 = true) : n ≤ s.pmm.totalPages := by
  obtain ⟨k, f, hserved, hk⟩ := @loadPages_served _ base _ i _ hs hf hn
  obtain rfl := hk.mp hall
  have hmaps : Set.MapsTo f (Finset.range k) (Finset.range s.pmm.totalPages) := by
    intro j hj
    rw [Finset.mem_coe, Finset.mem_range] at hj ⊢
    exact (hserved.free j hj).1
  have hinj : Set.InjOn f (Finset.range k) := by
    intro j hj l hl he
    rw [Finset.mem_coe, Finset.mem_range] at hj hl
    exact hserved.distinct j hj l hl he
  have hcard := Finset.card_le_card_of_injOn f hmaps hinj
  rwa [Finset.card_range, Finset.card_range] at hcard

theorem load_stopped {s : VmState} {d : Mem} {size : ℕ} {ph : Phdr} (hv : ¬ elfValidate (some d) size = false)
    (hph : phdrs d = [ph]) (hl : ph.pType = ptLoad)
    (hstop : (loadPages s (pageStart ph) (segmentFlags ph) 0 (segmentPages ph)).1 = false) :
    ∃ t, elfLoadSegments s (some d) size = some (minusOne, t) := by
  have hone : loadSegment s d size ph =
      some (false, (loadPages s (pageStart ph) (segmentFlags ph) 0 (segmentPages ph)).2) := by
    unfold loadSegment
    rw [if_neg (not_not.mpr hl)]
    dsimp only
    rw [if_pos hstop]
  unfold elfLoadSegments
  dsimp only
  rw [if_neg hv, hph, loadSegments, hone]
  exact ⟨_, rfl⟩

theorem large_fails : ∃ t, elfLoadSegments sampleKernel (some (imageWith largePhdr [])) 84 = some (minusOne, t) := by
  have hready : Ready sampleKernel :=
    ⟨sampleKernel_sound.1.space, sampleKernel_sound.1.padded, Or.inr sampleKernel_sound⟩
  refine load_stopped (by decide) (show phdrs (imageWith largePhdr []) = [largePhdr] by decide) rfl ?_
  by_contra hall
  have hle := loadPages_count hready (segmentFlags_lt _) (segmentPages_le _) (Bool.eq_true_of_not_eq_false hall)
  exact absurd hle (by decide)

end Dionnex.FailureAtomicity
