import Dionnex.HeapRealloc

/-!
# Sizes that wrap

Rounding up, adding the header, rounding to pages and the product of
`kcalloc` are all done modulo `2^32`, and the growth path trusts that the
pages it gets are consecutive. What is asked for is met exactly when none of
this goes wrong: then a result records at least the size, and that many
bytes lie behind it.
-/

set_option autoImplicit false

namespace Dionnex.HeapSizes
open ByteMemory FirstFit Dionnex.PmmBitmap Dionnex.KernelHeap Dionnex.HeapBlocks Dionnex.HeapPages
  Dionnex.HeapRealloc

/-- A heap and its page allocator: the blocks are well formed and cover no free page. -/
structure Valid (h : Heap) (bs : List Block) : Prop where
  heap : WellFormed h bs
  pointers : ∀ b ∈ bs, b.addr+headerSize < 4294967296
  padded : Padded h.pmm
  clear : ∀ p ∈ freeSet h.pmm, ∀ b ∈ bs, b.stop headerSize ≤ p*pageSize ∨ (p+1)*pageSize ≤ b.addr

/-- The bytes behind a result: they were the data of one block of the list, or they lie in pages that
were free before the call and are not after it. -/
def Real (h h' : Heap) (bs : List Block) (q size : ℕ) : Prop :=
  (∃ b ∈ bs, q = b.addr+headerSize ∧ size ≤ b.size) ∨
    ∀ x ∈ Set.Ico q (q+size), x/pageSize ∈ freeSet h.pmm \ freeSet h'.pmm

/-- The call ends, and a result other than NULL has room for `size` bytes. -/
def Meets (h : Heap) (bs : List Block) (size : ℕ) (r : Except Fault (ℕ × Heap)) : Prop :=
  ∃ q h', r = .ok (q, h') ∧
    (q ≠ 0 → size ≤ sizeAt h'.mem (sub32 q headerSize) ∧ Real h h' bs q size)

/-- `pmm_alloc_page` returns zero: no page is free, or the least free one is page 0. -/
def NoPage (pmm : Pmm) : Prop := freeSet pmm = ∅ ∨ 0 ∈ freeSet pmm

/-- The requests that `kmalloc` answers with NULL. -/
def Refused (h : Heap) (bs : List Block) (n : ℕ) : Prop :=
  n = 0 ∨ ((∀ b ∈ bs, ¬ Fits (alignUp4 n) b) ∧ NoPage h.pmm)

/-- Pages under a header and `n` bytes. -/
def pagesOf (n : ℕ) : ℕ := (n + headerSize + 4095)/pageSize

/-- Refused, or served from the list without a sum that wraps, or served from `pages` free pages in a
row without a sum that wraps. -/
def Served (h : Heap) (bs : List Block) (n pages : ℕ) : Prop :=
  Refused h bs n ∨ (n ≤ maxRequest ∧ ∃ b ∈ bs, Fits (alignUp4 n) b) ∨
    ((n+3)/4*4 + headerSize + 4095 < 4294967296 ∧ ∃ f, FreeRun h.pmm f pages)

variable {h h' : Heap} {bs bs' : List Block} {b c : Block} {n q : ℕ}

theorem page_iff (hp : Padded h.pmm) : (takeHeapPage h).1 = 0 ↔ NoPage h.pmm := by
  change (pmmAllocPage h.pmm).1 = 0 ↔ _
  rcases alloc_cases h.pmm hp with ⟨hempty, ha⟩ | ⟨p, hleast, ha⟩
  · rw [ha]
    exact ⟨fun _ => Or.inl hempty, fun _ => rfl⟩
  · rw [ha]
    constructor
    · intro h0
      have hp0 : p = 0 := by
        unfold pageSize at h0
        dsimp only at h0
        omega
      exact Or.inr (hp0 ▸ hleast.1)
    · rintro (hempty | hzero)
      · rw [hempty] at hleast
        exact hleast.1.elim
      · have hp0 := hleast.2 hzero
        dsimp only
        rw [Nat.le_zero.mp hp0, Nat.zero_mul]

/-- The page that a growth starts with. -/
theorem first_page (hp : Padded h.pmm) (hne : (takeHeapPage h).1 ≠ 0) :
    ∃ f, 0 < f ∧ IsLeast (freeSet h.pmm) f ∧ (takeHeapPage h).1 = f*pageSize ∧
      freeSet (takeHeapPage h).2.pmm = freeSet h.pmm \ {f} := by
  change (pmmAllocPage h.pmm).1 ≠ 0 at hne
  rcases alloc_cases h.pmm hp with ⟨-, ha⟩ | ⟨f, hleast, ha⟩
  · rw [ha] at hne
    exact (hne rfl).elim
  · refine ⟨f, ?_, hleast, by rw [takeHeapPage, ha], ?_⟩
    · rw [ha] at hne
      dsimp only at hne
      exact Nat.pos_of_ne_zero (fun h0 => hne (by rw [h0, Nat.zero_mul]))
    · change freeSet (pmmAllocPage h.pmm).2 = _
      rw [ha]
      exact takePage_free h.pmm f

theorem freeRun_first {pmm : Pmm} {f g k : ℕ} (hr : FreeRun pmm f k) (hk : 0 < k)
    (hg : IsLeast (freeSet pmm) g) : f = g :=
  Nat.le_antisymm (hr.least hg.1) (hg.2 (hr.free ⟨le_rfl, by omega⟩))

/-- Growing only takes pages. -/
theorem growPages_less (k : ℕ) (hp : Padded h.pmm) :
    freeSet (growPages k h).pmm ⊆ freeSet h.pmm := by
  induction k generalizing h with
  | zero => exact subset_rfl
  | succ k ih =>
    apply (ih (alloc_padded h.pmm hp)).trans
    change freeSet (pmmAllocPage h.pmm).2 ⊆ freeSet h.pmm
    rcases alloc_cases h.pmm hp with ⟨-, ha⟩ | ⟨f, -, ha⟩
    · rw [ha]
    · rw [ha, takePage_free]
      exact Set.sdiff_subset

theorem growPages_add (j k : ℕ) (h : Heap) : growPages (j+k) h = growPages k (growPages j h) := by
  induction j generalizing h with
  | zero => rw [Nat.zero_add]; rfl
  | succ j ih =>
    rw [Nat.succ_add]
    exact ih (takeHeapPage h).2

/-- A run at the front is taken by any growth that is long enough. -/
theorem growPages_takes {f t k : ℕ} (hp : Padded h.pmm) (hf : 0 < f) (hr : FreeRun h.pmm f t)
    (htk : t ≤ k) : ∀ p ∈ Set.Ico f (f+t), p ∉ freeSet (growPages k h).pmm := by
  intro p hpr hmem
  obtain ⟨j, rfl⟩ := Nat.exists_eq_add_of_le htk
  have htook := growPages_took hp hf hr
  rw [growPages_add] at hmem
  have hless := growPages_less j htook.padded hmem
  rw [htook.free] at hless
  exact hless.2 hpr

theorem kmalloc_none (hv : Valid h bs) (h0 : n ≠ 0) (hnone : ∀ b ∈ bs, ¬ Fits (alignUp4 n) b) :
    kmalloc h n = .ok (growHeap h (alignUp4 n) (lastAddr 0 bs)) :=
  kmalloc_missing hv.heap.blocks hv.heap.space h0 (place_none.mpr hnone)

theorem kmalloc_refused (hv : Valid h bs) (hr : Refused h bs n) : ∃ h', kmalloc h n = .ok (0, h') := by
  by_cases h0 : n = 0
  · exact ⟨h, by rw [kmalloc, if_pos h0]⟩
  · obtain ⟨hnone, hpage⟩ := hr.resolve_left h0
    exact ⟨_, by rw [kmalloc_none hv h0 hnone, growHeap_null ((page_iff hv.padded).mpr hpage)]⟩

/-- A request that is not refused gets a pointer, whatever stands behind it. -/
theorem kmalloc_pointer (hv : Valid h bs) (hr : ¬ Refused h bs n) :
    ∃ q h', kmalloc h n = .ok (q, h') ∧ pageSize+headerSize ≤ q := by
  have h0 : n ≠ 0 := fun h0 => hr (Or.inl h0)
  by_cases hfit : ∀ b ∈ bs, ¬ Fits (alignUp4 n) b
  · have hpage : (takeHeapPage h).1 ≠ 0 := fun hp => hr (Or.inr ⟨hfit, (page_iff hv.padded).mp hp⟩)
    obtain ⟨h', hg, -⟩ := @growHeap_memory h (alignUp4 n) (lastAddr 0 bs) hpage
    refine ⟨_, h', (kmalloc_none hv h0 hfit).trans (congrArg Except.ok hg), ?_⟩
    exact Nat.add_le_add_right (alloc_page_low h.pmm hpage) headerSize
  · cases hp : place headerSize 16 (alignUp4 n) bs with
    | none => exact (hfit (place_none.mp hp)).elim
    | some r =>
      obtain ⟨l, b, r, rfl, hl, hb, -, -⟩ := place_some hp
      have hmem : b ∈ l++b::r := by simp
      have hlen := represents_length hv.heap.blocks hv.heap.space
      rw [List.length_append] at hlen
      have hfind : findFit h.mem (alignUp4 n) loopBound h.heapStart 0 = .ok (.found b.addr) :=
        findFit_found hv.heap.blocks hl hb (by omega)
      refine ⟨wrap (b.addr+headerSize), _, by rw [kmalloc, if_neg h0, hfind]; rfl, ?_⟩
      rw [wrap_of_lt (hv.pointers b hmem)]
      exact Nat.add_le_add_right (hv.heap.space b hmem).1 headerSize

theorem kmalloc_null_iff (hv : Valid h bs) (hk : kmalloc h n = .ok (q, h')) : q = 0 ↔ Refused h bs n := by
  constructor
  · intro hq
    by_contra hr
    obtain ⟨p, h1, hk1, hp⟩ := kmalloc_pointer hv hr
    rw [hk] at hk1
    cases hk1
    unfold headerSize at hp
    omega
  · intro hr
    obtain ⟨h1, hk1⟩ := kmalloc_refused hv hr
    rw [hk] at hk1
    cases hk1
    rfl

/-- What really lies behind a pointer ends with the address space. -/
theorem real_bound (hv : Valid h bs) (hn : 0 < n) (hreal : Real h h' bs q n) : q+n ≤ 4294967296 := by
  rcases hreal with ⟨b, hb, hq, hsize⟩ | hpages
  · have hstop := (hv.heap.space b hb).2
    unfold Block.stop at hstop
    omega
  · have hlast := (hpages (q+n-1) ⟨by omega, by omega⟩).1
    have hlt := freeSet_lt h.pmm hlast
    have haddr := hv.padded.addressable
    unfold pageSize at hlt
    omega

/-- New memory is real only if its pages come in a row. -/
theorem real_run (hv : Valid h bs) {f : ℕ} (hleast : IsLeast (freeSet h.pmm) f)
    (hreal : Real h h' bs (f*pageSize+headerSize) n) (hn : 0 < n) :
    FreeRun h.pmm f (pagesOf n) ∧ ∀ p ∈ Set.Ico f (f+pagesOf n), p ∉ freeSet h'.pmm := by
  rcases hreal with ⟨b, hb, hq, -⟩ | hpages
  · have hclear := hv.clear f hleast.1 b hb
    unfold Block.stop pageSize headerSize at *
    omega
  · have hall : ∀ p ∈ Set.Ico f (f+pagesOf n), p ∈ freeSet h.pmm \ freeSet h'.pmm := by
      intro p hp
      obtain ⟨hlo, hhi⟩ := hp
      have hx := hpages (max (f*pageSize+headerSize) (p*pageSize)) (by
        unfold pagesOf pageSize headerSize at *
        rw [Set.mem_Ico]
        omega)
      have hdiv : max (f*pageSize+headerSize) (p*pageSize) / pageSize = p := by
        unfold pageSize headerSize
        omega
      rw [hdiv] at hx
      exact hx
    exact ⟨⟨hleast.2, fun p hp => (hall p hp).1⟩, fun p hp => (hall p hp).2⟩

/-- A pointer with enough bytes behind it comes from a request that was served. -/
theorem real_served (hv : Valid h bs) (h0 : n ≠ 0) (hk : kmalloc h n = .ok (q, h')) (hq : q ≠ 0)
    (hreal : Real h h' bs q n) : Served h bs n (pagesOf n) := by
  have hr : ¬ Refused h bs n := fun hr => hq ((kmalloc_null_iff hv hk).mpr hr)
  have hbound := real_bound hv (Nat.pos_of_ne_zero h0) hreal
  have hmax : n ≤ maxRequest := by
    obtain ⟨p, h1, hk1, hp⟩ := kmalloc_pointer hv hr
    rw [hk] at hk1
    cases hk1
    unfold pageSize headerSize at hp
    unfold maxRequest
    omega
  by_cases hfit : ∃ b ∈ bs, Fits (alignUp4 n) b
  · exact Or.inr (Or.inl ⟨hmax, hfit⟩)
  · have hnone : ∀ b ∈ bs, ¬ Fits (alignUp4 n) b := fun b hb hf => hfit ⟨b, hb, hf⟩
    have hpage : (takeHeapPage h).1 ≠ 0 := fun hp => hr (Or.inr ⟨hnone, (page_iff hv.padded).mp hp⟩)
    obtain ⟨f, hf, hleast, haddr, htaken⟩ := first_page hv.padded hpage
    obtain ⟨h1, hg, -, hpmm⟩ := @growHeap_memory h (alignUp4 n) (lastAddr 0 bs) hpage
    rw [kmalloc_none hv h0 hnone, hg, haddr] at hk
    cases hk
    obtain ⟨hrun, hgone⟩ := real_run hv hleast hreal (Nat.pos_of_ne_zero h0)
    refine Or.inr (Or.inr ⟨?_, f, hrun⟩)
    by_contra hwrap
    -- a sum that wraps asks for at most one page, but the second page of the row is gone too
    have hone : pagesFor (wrap (alignUp4 n + headerSize)) - 1 = 0 := by
      unfold maxRequest at hmax
      unfold alignUp4 pagesFor wrap pageSize headerSize at *
      omega
    have hsecond : f+1 ∈ Set.Ico f (f+pagesOf n) := by
      unfold pagesOf pageSize headerSize at *
      rw [Set.mem_Ico]
      omega
    have hafter : freeSet h'.pmm = freeSet h.pmm \ {f} := by
      rw [hpmm, grownPages, hone]
      exact htaken
    apply hgone _ hsecond
    rw [hafter]
    exact ⟨hrun.free hsecond, by simp⟩

/-- Without a sum that wraps the growth path records enough, whatever pages it gets. -/
theorem grown_recorded {req : ℕ} (hv : Valid h bs) (hpage : (takeHeapPage h).1 ≠ 0)
    (hreq : req+headerSize+4095 < 4294967296) :
    ∃ h', growHeap h req (lastAddr 0 bs) = ((takeHeapPage h).1 + headerSize, h') ∧
      req ≤ sizeAt h'.mem (takeHeapPage h).1 ∧
      h'.pmm = (grownPages h (pagesFor (wrap (req+headerSize)))).pmm := by
  obtain ⟨f, hf, hleast, haddr, -⟩ := first_page hv.padded hpage
  obtain ⟨h', hg, hmem, hpmm⟩ := @growHeap_memory h req (lastAddr 0 bs) hpage
  refine ⟨h', hg, ?_, hpmm⟩
  obtain ⟨hsize, -⟩ := @linkedMem_header h req (lastAddr 0 bs) (by
    intro hl
    obtain ⟨x, hx, hlast⟩ := lastAddr_mem bs hl
    have hclear := hv.clear f hleast.1 x hx
    rw [hlast, haddr]
    refine ⟨headerRange_disjoint ?_, space_header hv.heap.space hx⟩
    unfold Block.stop pageSize headerSize at *
    omega)
  rw [hmem]
  by_cases hs : wrap (req+headerSize+16) ≤ sizeAt (linkedMem h req (lastAddr 0 bs)) (takeHeapPage h).1
  · exact (splitBlock_split (page_header h).le (by omega) hs).1.ge
  · have hsame : splitBlock (linkedMem h req (lastAddr 0 bs)) (takeHeapPage h).1 req (fun _ => 0) =
        linkedMem h req (lastAddr 0 bs) := by
      unfold splitBlock
      exact if_neg hs
    rw [hsame, hsize]
    exact grownSize_eq hreq

/-- A request served from the list. -/
theorem found_meets (hv : Valid h bs) (h0 : n ≠ 0) (hmax : n ≤ maxRequest)
    (hfit : ∃ b ∈ bs, Fits (alignUp4 n) b) :
    ∃ h' bs' c, kmalloc h n = .ok (c.addr+headerSize, h') ∧ Requested h bs n h' bs' c ∧
      ∃ b ∈ bs, c.addr+headerSize = b.addr+headerSize ∧ n ≤ b.size := by
  cases hp : place headerSize 16 (alignUp4 n) bs with
  | none =>
    obtain ⟨b, hb, hf⟩ := hfit
    exact (place_none.mp hp b hb hf).elim
  | some r =>
    obtain ⟨p, bs'⟩ := r
    obtain ⟨h', c, hk, ⟨x, hx, hxc, hsize⟩, hr⟩ := kmalloc_found_requested hv.heap h0 hmax hp
    exact ⟨h', bs', c, hk, hr, x, hx, by rw [hxc], hsize⟩

theorem requested_recorded (hr : Requested h bs n h' bs' c) :
    n ≤ sizeAt h'.mem (sub32 (c.addr+headerSize) headerSize) := by
  rw [ptr_block hr.pointer, (hr.heap.blocks.2 c hr.new).size]
  exact hr.size

theorem null_meets (hk : kmalloc h n = .ok (0, h')) : Meets h bs n (kmalloc h n) :=
  ⟨0, h', hk, fun h => (h rfl).elim⟩

/-- A request that the list cannot serve starts with the first page of a row. -/
theorem served_row {pages : ℕ} (hv : Valid h bs) (hr : ¬ Refused h bs n)
    (hfit : ¬ (n ≤ maxRequest ∧ ∃ b ∈ bs, Fits (alignUp4 n) b)) (hs : Served h bs n pages) (hpos : 0 < pages) :
    n ≤ maxRequest ∧ (∀ b ∈ bs, ¬ Fits (alignUp4 n) b) ∧ (takeHeapPage h).1 ≠ 0 ∧
      alignUp4 n + headerSize + 4095 < 4294967296 ∧
      ∃ f, 0 < f ∧ (takeHeapPage h).1 = f*pageSize ∧ FreeRun h.pmm f pages := by
  obtain ⟨hlt, f, hrun⟩ := (hs.resolve_left hr).resolve_left hfit
  have hmax : n ≤ maxRequest := by
    unfold maxRequest headerSize at *
    omega
  have hnone : ∀ b ∈ bs, ¬ Fits (alignUp4 n) b := fun b hb hf => hfit ⟨hmax, b, hb, hf⟩
  have hpage : (takeHeapPage h).1 ≠ 0 := fun hp => hr (Or.inr ⟨hnone, (page_iff hv.padded).mp hp⟩)
  rw [← alignUp4_eq hmax] at hlt
  obtain ⟨g, hg0, hleast, haddr, -⟩ := first_page hv.padded hpage
  obtain rfl := freeRun_first hrun hpos hleast
  exact ⟨hmax, hnone, hpage, hlt, f, hg0, haddr, hrun⟩

/-- The bytes over a row of free pages, once the growth has taken them. -/
theorem row_real (hp : Padded h.pmm) {f k : ℕ} (hf : 0 < f) (hrun : FreeRun h.pmm f (pagesOf n))
    (hk : pagesOf n ≤ k) (hpmm : h'.pmm = (grownPages h k).pmm) :
    Real h h' bs (f*pageSize+headerSize) n := by
  refine Or.inr (fun x hx => ?_)
  have hrow : x/pageSize ∈ Set.Ico f (f+pagesOf n) := by
    unfold pagesOf pageSize headerSize at *
    rw [Set.mem_Ico] at hx ⊢
    omega
  have hpos : 0 < k := (Nat.zero_lt_of_lt (show 0 < pagesOf n by rw [Set.mem_Ico] at hrow; omega)).trans_le hk
  rw [hpmm, grownPages, growPages_pred hpos]
  exact ⟨hrun.free hrow, growPages_takes hp hf hrun hk _ hrow⟩

theorem pagesOf_pos (n : ℕ) : 0 < pagesOf n := by
  unfold pagesOf pageSize headerSize
  omega

theorem pagesOf_mono {k : ℕ} (h : n ≤ k) : pagesOf n ≤ pagesOf k := by
  unfold pagesOf pageSize
  omega

theorem kmalloc_meets (hv : Valid h bs) (hs : Served h bs n (pagesOf n)) : Meets h bs n (kmalloc h n) := by
  by_cases hr : Refused h bs n
  · obtain ⟨h', hk⟩ := kmalloc_refused hv hr
    exact null_meets hk
  have h0 : n ≠ 0 := fun h0 => hr (Or.inl h0)
  by_cases hfit : n ≤ maxRequest ∧ ∃ b ∈ bs, Fits (alignUp4 n) b
  · obtain ⟨h', bs', c, hk, hreq, hreal⟩ := found_meets hv h0 hfit.1 hfit.2
    exact ⟨_, h', hk, fun _ => ⟨requested_recorded hreq, Or.inl hreal⟩⟩
  · obtain ⟨hmax, hnone, hpage, hlt, f, hf, haddr, hrun⟩ := served_row hv hr hfit hs (pagesOf_pos n)
    have hge := (alignUp4_ge hmax).1
    obtain ⟨h', hgrow, hsize, hpmm⟩ := grown_recorded hv hpage hlt
    have hcount : pagesFor (wrap (alignUp4 n + headerSize)) = pagesOf (alignUp4 n) := (pagesFor_room hlt).2.2
    rw [hcount] at hpmm
    refine ⟨_, h', (kmalloc_none hv h0 hnone).trans (congrArg Except.ok hgrow), fun _ => ⟨?_, ?_⟩⟩
    · rw [page_ptr]
      exact hge.trans hsize
    · rw [haddr]
      exact row_real hv.padded hf hrun (pagesOf_mono hge) hpmm

theorem kmalloc_meets_iff (hv : Valid h bs) : Meets h bs n (kmalloc h n) ↔ Served h bs n (pagesOf n) := by
  refine ⟨?_, kmalloc_meets hv⟩
  rintro ⟨q, h', hk, hmet⟩
  by_cases hq : q = 0
  · exact Or.inl ((kmalloc_null_iff hv hk).mp hq)
  · by_cases h0 : n = 0
    · exact Or.inl (Or.inl h0)
    · exact real_served hv h0 hk hq (hmet hq).2

theorem kcalloc_eq {count size : ℕ} (hk : kmalloc h (wrap (count*size)) = .ok (q, h')) :
    kcalloc h count size = .ok (if q = 0 then (q, h')
      else (q, { h' with mem := memset h'.mem q 0 (wrap (count*size)) })) := by
  rw [kcalloc]
  dsimp only
  rw [hk]
  rfl

/-- Clearing the data leaves the header before it. -/
theorem memset_recorded {m : Mem} (hlow : headerSize ≤ q) (hq : q+n ≤ 4294967296) (hn : 0 < n) :
    sizeAt (memset m q 0 n) (sub32 q headerSize) = sizeAt m (sub32 q headerSize) := by
  have hsub : sub32 q headerSize = q-headerSize := sub32_of_le hlow (by omega)
  rw [hsub]
  apply sizeAt_off (memset_off m q 0 n)
  · unfold headerRange
    rw [span_eq hq, Set.Ico_disjoint_Ico]
    omega
  · omega

theorem kmalloc_ends (hv : Valid h bs) (n : ℕ) : ∃ q h', kmalloc h n = .ok (q, h') ∧
    (q = 0 ∨ pageSize+headerSize ≤ q) := by
  by_cases hr : Refused h bs n
  · obtain ⟨h', hk⟩ := kmalloc_refused hv hr
    exact ⟨0, h', hk, Or.inl rfl⟩
  · obtain ⟨q, h', hk, hq⟩ := kmalloc_pointer hv hr
    exact ⟨q, h', hk, Or.inr hq⟩

theorem kcalloc_meets_iff (hv : Valid h bs) {count size : ℕ} :
    Meets h bs (count*size) (kcalloc h count size) ↔
      if count*size < 4294967296 then Served h bs (count*size) (pagesOf (count*size))
      else Refused h bs (wrap (count*size)) := by
  obtain ⟨q, h', hk, hlow⟩ := kmalloc_ends hv (wrap (count*size))
  have hcall := kcalloc_eq hk
  by_cases hq : q = 0
  · rw [if_pos hq] at hcall
    have hr : Refused h bs (wrap (count*size)) := (kmalloc_null_iff hv hk).mp hq
    have hmeets : Meets h bs (count*size) (kcalloc h count size) :=
      ⟨q, h', hcall, fun h => (h hq).elim⟩
    by_cases hlt : count*size < 4294967296
    · rw [wrap_of_lt hlt] at hr
      rw [if_pos hlt]
      exact ⟨fun _ => Or.inl hr, fun _ => hmeets⟩
    · rw [if_neg hlt]
      exact ⟨fun _ => hr, fun _ => hmeets⟩
  · rw [if_neg hq] at hcall
    have hlow' : headerSize ≤ q := (Nat.le_add_left _ _).trans (hlow.resolve_left hq)
    by_cases hlt : count*size < 4294967296
    · rw [wrap_of_lt hlt] at hk hcall
      rw [if_pos hlt, ← kmalloc_meets_iff hv, hcall, hk]
      have hpos : 0 < count*size := by
        by_contra hzero
        rw [Nat.eq_zero_of_not_pos hzero, kmalloc, if_pos rfl] at hk
        cases hk
        exact hq rfl
      constructor
      · rintro ⟨p, h1, he, hmet⟩
        cases he
        obtain ⟨hsize, hreal⟩ := hmet hq
        have hreal' : Real h h' bs q (count*size) := hreal
        rw [memset_recorded hlow' (real_bound hv hpos hreal') hpos] at hsize
        exact ⟨q, h', rfl, fun _ => ⟨hsize, hreal'⟩⟩
      · rintro ⟨p, h1, he, hmet⟩
        cases he
        obtain ⟨hsize, hreal⟩ := hmet hq
        refine ⟨q, _, rfl, fun _ => ⟨?_, hreal⟩⟩
        rw [memset_recorded hlow' (real_bound hv hpos hreal) hpos]
        exact hsize
    · rw [if_neg hlt]
      constructor
      · rintro ⟨p, h1, he, hmet⟩
        rw [hcall] at he
        cases he
        exact (hlt ((hmet hq).1.trans_lt (load32_lt _ _))).elim
      · exact fun hr => (hq ((kmalloc_null_iff hv hk).mpr hr)).elim

theorem kfree_pmm {ptr : ℕ} (hk : kfree h ptr = .ok h') : h'.pmm = h.pmm := by
  unfold kfree heapCoalesce at hk
  dsimp only at hk
  split at hk
  · cases hk
    rfl
  · split at hk
    · cases hk
    · cases hc : coalesceLoop loopBound (setFree h.mem (sub32 ptr headerSize) 1) h.heapStart with
      | error f =>
        rw [hc] at hk
        cases hk
      | ok m =>
        rw [hc] at hk
        cases hk
        rfl

theorem Valid.outside (hv : Valid h bs) : ∀ x ∈ extent headerSize bs, x/pageSize ∉ freeSet h.pmm := by
  rintro x ⟨b, hb, hlo, hhi⟩ hfree
  have hclear := hv.clear _ hfree b hb
  unfold pageSize at hclear
  omega

/-- The request of a block that has to move. -/
theorem move_requested (hv : Valid h bs) (hr : ¬ Refused h bs n)
    (hs : Served h bs n (pagesOf ((n+3)/4*4))) :
    ∃ h' bs' c, kmalloc h n = .ok (c.addr+headerSize, h') ∧ Requested h bs n h' bs' c ∧
      Real h h' bs (c.addr+headerSize) n := by
  have h0 : n ≠ 0 := fun h0 => hr (Or.inl h0)
  by_cases hfit : n ≤ maxRequest ∧ ∃ b ∈ bs, Fits (alignUp4 n) b
  · obtain ⟨h', bs', c, hk, hreq, hreal⟩ := found_meets hv h0 hfit.1 hfit.2
    exact ⟨h', bs', c, hk, hreq, Or.inl hreal⟩
  · obtain ⟨hmax, hnone, hpage, hlt, f, hf, haddr, hrow⟩ := served_row hv hr hfit hs (pagesOf_pos _)
    rw [← alignUp4_eq hmax] at hrow
    have hge := (alignUp4_ge hmax).1
    have hcount : pagesFor (wrap (alignUp4 n + headerSize)) = pagesOf (alignUp4 n) := (pagesFor_room hlt).2.2
    have hrun : FreeRun h.pmm f (pagesFor (wrap (alignUp4 n + headerSize))) := hcount ▸ hrow
    obtain ⟨hlow, -, hstop, hsize, -, hsub⟩ := grownBlock_facts hv.padded hf hlt hrun
    obtain ⟨h', bs', c, hkm, hca, hpmm, hreq⟩ := @kmalloc_grown_requested h bs n hv.heap h0 hmax
      hnone (grownBlock f (alignUp4 n)) haddr hsub rfl hlow hstop hsize
      (grown_clear hv.padded hf hlt hrun hv.outside)
    refine ⟨h', bs', c, hkm, hreq, ?_⟩
    have hshort : FreeRun h.pmm f (pagesOf n) := by
      refine ⟨hrow.least, fun p hp => hrow.free ?_⟩
      have hmono := pagesOf_mono hge
      rw [Set.mem_Ico] at hp ⊢
      omega
    rw [hcount] at hpmm
    rw [hca]
    exact row_real hv.padded hf hshort (pagesOf_mono hge) hpmm

/-- What the end of `krealloc` makes of a request that is met. -/
theorem krealloc_meets (hv : Valid h bs) (hb : b ∈ bs) (hused : b.free = false)
    (hs : n ≤ b.size ∨ Served h bs n (pagesOf ((n+3)/4*4))) :
    Meets h bs n (krealloc h (b.addr+headerSize) n) := by
  have hp := hv.pointers b hb
  have hhead := hv.heap.blocks.2 b hb
  by_cases h0 : n = 0
  · subst h0
    obtain ⟨l, r, rfl⟩ := List.append_of_mem hb
    have hne : b.addr+headerSize ≠ 0 := by
      unfold headerSize
      omega
    obtain ⟨m, hk, -⟩ := kfree_blocks hv.heap.blocks hv.heap.apart hv.heap.space (ptr_block hp) hne
    refine ⟨0, { h with mem := m }, ?_, fun h => (h rfl).elim⟩
    rw [krealloc, if_neg hne, if_pos rfl, hk]
    rfl
  by_cases hbig : n ≤ b.size
  · refine ⟨_, h, krealloc_stays hhead hp h0 hbig, fun _ => ⟨?_, Or.inl ⟨b, hb, rfl, hbig⟩⟩⟩
    rw [ptr_block hp, hhead.size]
    exact hbig
  have hsmall : b.size < n := Nat.not_le.mp hbig
  by_cases hr : Refused h bs n
  · obtain ⟨h', hk⟩ := kmalloc_refused hv hr
    refine ⟨0, h', ?_, fun h => (h rfl).elim⟩
    rw [krealloc_small hhead hp hsmall, hk]
    rfl
  · obtain ⟨h', bs', c, hk, hreq, hreal⟩ := move_requested hv hr (hs.resolve_left hbig)
    obtain ⟨m, bs'', hkr, hrep, hc, -⟩ := krealloc_moved hv.heap hb hused hp hsmall hk hreq
    refine ⟨_, _, hkr, fun _ => ⟨?_, hreal⟩⟩
    rw [ptr_block hreq.pointer, (hrep.2 c hc).size]
    exact hreq.size

theorem krealloc_served (hv : Valid h bs) (hb : b ∈ bs)
    (hm : Meets h bs n (krealloc h (b.addr+headerSize) n)) :
    n ≤ b.size ∨ Served h bs n (pagesOf n) := by
  by_cases hbig : n ≤ b.size
  · exact Or.inl hbig
  have hsmall : b.size < n := Nat.not_le.mp hbig
  obtain ⟨q, h', hk, hlow⟩ := kmalloc_ends hv n
  by_cases hq : q = 0
  · exact Or.inr (Or.inl ((kmalloc_null_iff hv hk).mp hq))
  · obtain ⟨p, h'', hkr, hmet⟩ := hm
    rw [krealloc_small (hv.heap.blocks.2 b hb) (hv.pointers b hb) hsmall, hk] at hkr
    simp only [Except.bind, if_neg hq] at hkr
    cases hf : kfree { h' with
        mem := memcpy h'.mem q (b.addr+headerSize) (sizeAt h'.mem b.addr) } (b.addr+headerSize) with
    | error f =>
      rw [hf] at hkr
      cases hkr
    | ok h3 =>
      rw [hf] at hkr
      cases hkr
      have hreal := (hmet hq).2
      have hpmm := kfree_pmm hf
      change h''.pmm = h'.pmm at hpmm
      rw [Real, hpmm] at hreal
      exact Or.inr (real_served hv (Nat.ne_of_gt (Nat.zero_lt_of_lt hsmall)) hk hq hreal)

/-- When the allocator meets a request, for every valid heap. For a block that has to move the two
conditions differ only where the rounding of the size reaches one page further. -/
theorem sizes_met_iff {h : Heap} {bs : List Block} (hv : Valid h bs) :
    (∀ n < 4294967296, Meets h bs n (kmalloc h n) ↔ Served h bs n (pagesOf n)) ∧
    (∀ count < 4294967296, ∀ size < 4294967296,
      Meets h bs (count*size) (kcalloc h count size) ↔
        if count*size < 4294967296 then Served h bs (count*size) (pagesOf (count*size))
        else Refused h bs (wrap (count*size))) ∧
    (∀ n < 4294967296, Meets h bs n (krealloc h 0 n) ↔ Served h bs n (pagesOf n)) ∧
    ∀ b ∈ bs, b.free = false → ∀ n < 4294967296,
      (n ≤ b.size ∨ Served h bs n (pagesOf ((n+3)/4*4)) →
        Meets h bs n (krealloc h (b.addr+headerSize) n)) ∧
      (Meets h bs n (krealloc h (b.addr+headerSize) n) →
        n ≤ b.size ∨ Served h bs n (pagesOf n)) := by
  refine ⟨fun n _ => kmalloc_meets_iff hv, fun count _ size _ => kcalloc_meets_iff hv, fun n _ => ?_, ?_⟩
  · rw [krealloc, if_pos rfl]
    exact kmalloc_meets_iff hv
  · intro b hb hused n _
    exact ⟨krealloc_meets hv hb hused, krealloc_served hv hb⟩

/-- What a call returns and the size recorded there. -/
def outcome (r : Except Fault (ℕ × Heap)) : Option (ℕ × ℕ) :=
  r.toOption.map (fun r => (r.1, sizeAt r.2.mem (sub32 r.1 headerSize)))

theorem short_outcome {r : Except Fault (ℕ × Heap)} {size recordedSize : ℕ}
    (ho : outcome r = some (q, recordedSize)) (hq : q ≠ 0) (hshort : recordedSize < size) :
    ¬ Meets h bs size r := by
  rintro ⟨p, h', rfl, hmet⟩
  simp only [outcome, Except.toOption, Option.map_some, Option.some.injEq, Prod.mk.injEq] at ho
  obtain ⟨rfl, rfl⟩ := ho
  exact absurd (hmet hq).1 (Nat.not_le.mpr hshort)

/-- A size that rounds up to zero, and a product that wraps to four: both get a pointer. -/
theorem sizes_wrap :
    ¬ Meets pairHeap pairBlocks 0xFFFFFFFE (kmalloc pairHeap 0xFFFFFFFE) ∧
    ¬ Meets pairHeap pairBlocks (2*0x80000002) (kcalloc pairHeap 2 0x80000002) ∧
    ¬ Meets pairHeap pairBlocks 0xFFFFFFFE (krealloc pairHeap 4109 0xFFFFFFFE) := by
  have heval : outcome (kmalloc pairHeap 0xFFFFFFFE) = some (4222, 0) ∧
      outcome (kcalloc pairHeap 2 0x80000002) = some (4222, 4) ∧
      outcome (krealloc pairHeap 4109 0xFFFFFFFE) = some (4222, 0) := by decide +kernel
  obtain ⟨h1, h2, h3⟩ := heval
  exact ⟨short_outcome h1 (by decide) (by decide), short_outcome h2 (by decide) (by decide),
    short_outcome h3 (by decide) (by decide)⟩

theorem pairHeap_noPages : freeSet pairHeap.pmm = ∅ :=
  Set.eq_empty_iff_forall_notMem.mpr (fun p hp => Nat.not_lt_zero p hp.1)

theorem pairHeap_valid : Valid pairHeap pairBlocks where
  heap := pairHeap_wellFormed
  pointers b hb := by
    rcases List.mem_pair.mp hb with rfl | rfl
    · decide
    · decide
  padded := ⟨by decide, fun p _ hp => absurd hp (Nat.not_lt_zero p), by decide⟩
  clear p hp := by
    rw [pairHeap_noPages] at hp
    exact hp.elim

/-- Sizes that fit, and a product that wraps and is refused. -/
theorem sizes_met_iff_sample :
    Meets pairHeap pairBlocks 200 (kmalloc pairHeap 200) ∧
    Meets pairHeap pairBlocks (0x10000*0x10001) (kcalloc pairHeap 0x10000 0x10001) ∧
    Meets pairHeap pairBlocks 200 (krealloc pairHeap 4109 200) := by
  have hfits : Served pairHeap pairBlocks 200 (pagesOf 200) :=
    Or.inr (Or.inl ⟨by decide, ⟨4209, 500, true⟩, by simp [pairBlocks], by decide⟩)
  have hrefused : Refused pairHeap pairBlocks (wrap (0x10000*0x10001)) := by
    refine Or.inr ⟨?_, Or.inl pairHeap_noPages⟩
    intro b hb
    rcases List.mem_pair.mp hb with rfl | rfl
    · decide
    · decide
  obtain ⟨hmalloc, hcalloc, -, hrealloc⟩ := sizes_met_iff pairHeap_valid
  refine ⟨(hmalloc 200 (by decide)).mpr hfits, ?_, ?_⟩
  · exact (hcalloc 0x10000 (by decide) 0x10001 (by decide)).mpr (by
      rw [if_neg (by decide)]
      exact hrefused)
  · exact (hrealloc ⟨4096, 100, false⟩ (by simp [pairBlocks]) rfl 200 (by decide)).1 (Or.inr hfits)

end Dionnex.HeapSizes
