import Dionnex.HeapPages
import Dionnex.LabelledRuns

/-!
# Runs of the heap beside other users of the page allocator

The heap takes pages at any time, other kernel code takes and returns pages
of its own, and the free pages can be scattered in any way. A block then
covers foreign memory in just three ways: pages that are not consecutive
are used as one range, a page count wraps, or blocks that are neighbours in
the list but not in memory are merged. Runs that avoid these keep every
block inside the pages of the heap.
-/

set_option autoImplicit false

namespace Dionnex.HeapOwnership
open ByteMemory LabelledRuns LinkedChain FirstFit Dionnex.PmmBitmap Dionnex.KernelHeap
  Dionnex.HeapBlocks Dionnex.HeapPages

/-- `held` are the pages of other kernel code. -/
structure System where
  heap : Heap
  held : List ℕ

inductive Event where
  | heapInit (start size : ℕ)
  | kmalloc (size : ℕ)
  | kcalloc (count size : ℕ)
  | krealloc (ptr size : ℕ)
  | kfree (ptr : ℕ)
  | allocPage
  | freePage (addr : ℕ)
  | write (mem : Mem)

/-- The result of a call and the state after it; `defaultStart` is what `heap_init` makes of a
null argument. -/
def perform (defaultStart : ℕ) (s : System) : Event → Except Fault (ℕ × System)
  | .heapInit start size =>
    (KernelHeap.heapInit defaultStart s.heap start size).map (fun h => (0, ⟨h, s.held⟩))
  | .kmalloc size => (KernelHeap.kmalloc s.heap size).map (fun r => (r.1, ⟨r.2, s.held⟩))
  | .kcalloc count size => (KernelHeap.kcalloc s.heap count size).map (fun r => (r.1, ⟨r.2, s.held⟩))
  | .krealloc ptr size => (KernelHeap.krealloc s.heap ptr size).map (fun r => (r.1, ⟨r.2, s.held⟩))
  | .kfree ptr => (KernelHeap.kfree s.heap ptr).map (fun h => (0, ⟨h, s.held⟩))
  | .allocPage =>
    .ok ((pmmAllocPage s.heap.pmm).1, ⟨{ s.heap with pmm := (pmmAllocPage s.heap.pmm).2 },
      if (pmmAllocPage s.heap.pmm).1 = 0 then s.held else (pmmAllocPage s.heap.pmm).1 :: s.held⟩)
  | .freePage addr =>
    .ok (0, ⟨{ s.heap with pmm := pmmFreePage s.heap.pmm addr }, s.held.erase addr⟩)
  | .write mem => .ok (0, ⟨{ s.heap with mem := mem }, s.held⟩)

/-- The links lead from the head of the list to `block`. -/
def InList (h : Heap) (block : ℕ) : Prop :=
  block ≠ 0 ∧ ∃ l, Seg (nextAt h.mem) h.heapStart l block

def listHeaders (h : Heap) : Set ℕ := {x | ∃ a, InList h a ∧ x ∈ headerRange a}

/-- Other code frees pages it holds, and does not write to the headers of the heap. -/
def Allowed (s : System) : Event → Prop
  | .freePage addr => addr ∈ s.held
  | .write mem => ∀ x ∈ listHeaders s.heap, mem x = s.heap.mem x
  | _ => True

def Step (defaultStart : ℕ) : Except Fault System → Event → Except Fault System → Prop
  | .ok s, e, t => Allowed s e ∧ t = (perform defaultStart s e).map Prod.snd
  | .error _, _, _ => False

/-- Every byte of every block lies in a page that the heap was given, and these
pages were available at the start and are nobody else's. -/
structure Owned (available : Set ℕ) (s : System) : Prop where
  bytes : ∀ a, InList s.heap a → ∀ i < headerSize + sizeAt s.heap.mem a,
    ∃ p ∈ s.heap.pages, p ≤ wrap (a+i) ∧ wrap (a+i) < p+pageSize
  pages : ∀ p ∈ s.heap.pages, p ∉ s.held ∧ ∃ k ∈ available, p = k*pageSize

/-- The pages that a block for `size` bytes needs. -/
def pagesNeeded (size : ℕ) : ℕ := ((size+3)/4*4 + headerSize + 4095)/pageSize

/-- Reallocations that reach `kmalloc` with an old block. -/
def Moves (h : Heap) (ptr size : ℕ) : Prop :=
  ptr ≠ 0 ∧ size ≠ 0 ∧ magicAt h.mem (sub32 ptr headerSize) = heapMagic ∧
    sizeAt h.mem (sub32 ptr headerSize) < size

/-- The event calls `kmalloc` for `size` bytes. -/
def Requests (s : System) (size : ℕ) : Event → Prop
  | .kmalloc n => n = size
  | .kcalloc count n => wrap (count*n) = size
  | .krealloc ptr n => n = size ∧ (ptr = 0 ∨ Moves s.heap ptr n)
  | _ => False

/-- No free block is large enough and fewer pages are free than the request needs. -/
def Short (h : Heap) (size : ℕ) : Prop :=
  size ≠ 0 ∧ (∀ a, InList h a → ¬ (freeAt h.mem a ≠ 0 ∧ size ≤ sizeAt h.mem a)) ∧
    (freeSet h.pmm).ncard < pagesNeeded size

def Correct (defaultStart : ℕ) (available : Set ℕ) :
    Except Fault System → Event → Except Fault System → Prop
  | .ok s, e, t => (∀ s', t = .ok s' → Owned available s') ∧
      ∀ size, Requests s size e → Short s.heap size →
        ∀ r, perform defaultStart s e = .ok r → r.1 = 0
  | .error _, _, _ => True

def FitsInList (h : Heap) (req : ℕ) : Prop :=
  ∃ a, InList h a ∧ freeAt h.mem a ≠ 0 ∧ req ≤ sizeAt h.mem a

/-- A request that is served from the list, or cannot be served at all, or
finds the pages it needs in a row. -/
def Supplied (h : Heap) (size : ℕ) : Prop :=
  size = 0 ∨ (size ≤ maxRequest ∧ FitsInList h (alignUp4 size)) ∨
    (¬ FitsInList h (alignUp4 size) ∧ freeSet h.pmm = ∅) ∨
    ((size+3)/4*4 + headerSize + 4095 < 4294967296 ∧ ∃ f, FreeRun h.pmm f (pagesNeeded size))

/-- The released block lies next to each free list neighbour; or the call
stops at the magic word, or writes its flag into memory that is no header. -/
def Releases (h : Heap) (ptr : ℕ) : Prop :=
  ptr = 0 ∨ magicAt h.mem (sub32 ptr headerSize) ≠ heapMagic ∨
    wrap (sub32 ptr headerSize + 8) ∉ listHeaders h ∨
    (InList h (sub32 ptr headerSize) ∧ ∀ l b r, Represents h (l++b::r) →
      b.addr = sub32 ptr headerSize → FreeAdjacent headerSize (l ++ { b with free := true }::r))

/-- The condition under which a step keeps the blocks inside the heap's pages. -/
def Harmless (s : System) : Event → Prop
  | .heapInit _ size => initSize size ≤ maxInitSize ∧
      ((freeSet s.heap.pmm).ncard < pagesFor (initSize size) ∨
        ∃ f, FreeRun s.heap.pmm f (pagesFor (initSize size)))
  | .kmalloc size => Supplied s.heap size
  | .kcalloc count size => Supplied s.heap (wrap (count*size))
  | .krealloc ptr size => (ptr = 0 → Supplied s.heap size) ∧
      (size = 0 → Releases s.heap ptr) ∧
      (Moves s.heap ptr size → Supplied s.heap size ∧ InList s.heap (sub32 ptr headerSize) ∧
        ∀ r, KernelHeap.kmalloc s.heap size = .ok r → r.1 ≠ 0 → Releases r.2 ptr)
  | .kfree ptr => Releases s.heap ptr
  | _ => True

structure Inv (available : Set ℕ) (total : ℕ) (s : System) (bs : List Block) : Prop where
  blocks : Represents s.heap bs
  apart : Apart headerSize bs
  nopair : NoFreePair bs
  owned : ∀ x ∈ extent headerSize bs, ∃ p ∈ s.heap.pages, p ≤ x ∧ x < p+pageSize
  padded : Padded s.heap.pmm
  totalPages : s.heap.pmm.totalPages = total
  zero : 0 ∉ freeSet s.heap.pmm
  free : freeSet s.heap.pmm ⊆ available
  pages : ∀ p ∈ s.heap.pages, p ∉ s.held ∧
    ∃ k, p = k*pageSize ∧ k ≠ 0 ∧ k < total ∧ k ∉ freeSet s.heap.pmm ∧ k ∈ available
  held : ∀ p ∈ s.held, ∃ k, p = k*pageSize ∧ k ≠ 0 ∧ k < total ∧ k ∉ freeSet s.heap.pmm ∧ k ∈ available
  distinct : s.held.Nodup

variable {available : Set ℕ} {total : ℕ} {s : System} {bs : List Block}

theorem first_in_extent {b : Block} (hb : b ∈ bs) : b.addr ∈ extent headerSize bs := by
  refine ⟨b, hb, le_rfl, ?_⟩
  unfold Block.stop headerSize
  omega

theorem last_in_extent {b : Block} (hb : b ∈ bs) : b.stop headerSize - 1 ∈ extent headerSize bs := by
  refine ⟨b, hb, ?_, ?_⟩
  · unfold Block.stop headerSize
    omega
  · unfold Block.stop headerSize
    omega

theorem Inv.space (hi : Inv available total s bs) : InSpace bs := by
  intro b hb
  have haddr := hi.padded.addressable
  rw [hi.totalPages] at haddr
  constructor
  · obtain ⟨p, hp, hlo, -⟩ := hi.owned _ (first_in_extent hb)
    obtain ⟨-, k, rfl, hk0, -⟩ := hi.pages p hp
    exact (Nat.le_mul_of_pos_left pageSize (Nat.pos_of_ne_zero hk0)).trans hlo
  · obtain ⟨p, hp, -, hhi⟩ := hi.owned _ (last_in_extent hb)
    obtain ⟨-, k, rfl, -, hkt, -⟩ := hi.pages p hp
    unfold pageSize at hhi
    omega

theorem mem_inList {h : Heap} (hr : Represents h bs) (a : ℕ) :
    InList h a ↔ ∃ b ∈ bs, b.addr = a := by
  rw [InList, ← chain_reach hr.1, List.mem_map]

theorem listHeaders_eq {h : Heap} (hr : Represents h bs) : listHeaders h = headers bs := by
  ext x
  constructor
  · rintro ⟨a, ha, hx⟩
    obtain ⟨b, hb, rfl⟩ := (mem_inList hr a).mp ha
    exact ⟨b, hb, hx⟩
  · rintro ⟨b, hb, hx⟩
    exact ⟨b.addr, (mem_inList hr b.addr).mpr ⟨b, hb, rfl⟩, hx⟩

theorem fitsInList_iff {h : Heap} (hr : Represents h bs) (req : ℕ) :
    FitsInList h req ↔ ∃ b ∈ bs, Fits req b := by
  constructor
  · rintro ⟨a, ha, hfit⟩
    obtain ⟨b, hb, rfl⟩ := (mem_inList hr a).mp ha
    exact ⟨b, hb, (fits_iff (hr.2 b hb) req).mp hfit⟩
  · rintro ⟨b, hb, hfit⟩
    exact ⟨b.addr, (mem_inList hr b.addr).mpr ⟨b, hb, rfl⟩, (fits_iff (hr.2 b hb) req).mpr hfit⟩

theorem Inv.ownership (hi : Inv available total s bs) : Owned available s where
  bytes a ha i hlt := by
    obtain ⟨b, hb, rfl⟩ := (mem_inList hi.blocks a).mp ha
    rw [(hi.blocks.2 b hb).size] at hlt
    have hstop := (hi.space b hb).2
    have hw : wrap (b.addr+i) = b.addr+i := by
      unfold Block.stop at hstop
      exact wrap_of_lt (by omega)
    rw [hw]
    refine hi.owned _ ⟨b, hb, by omega, ?_⟩
    unfold Block.stop
    omega
  pages p hp := by
    obtain ⟨hheld, k, hk, -, -, -, hav⟩ := hi.pages p hp
    exact ⟨hheld, k, hav, hk⟩

/-- New blocks in the old extent, with the pages untouched. -/
theorem Inv.keep (hi : Inv available total s bs) {h' : Heap} {bs' : List Block}
    (hr : Represents h' bs') (hapart : Apart headerSize bs') (hnopair : NoFreePair bs')
    (hext : extent headerSize bs' ⊆ extent headerSize bs) (hpmm : h'.pmm = s.heap.pmm)
    (hpages : h'.pages = s.heap.pages) : Inv available total ⟨h', s.held⟩ bs' where
  blocks := hr
  apart := hapart
  nopair := hnopair
  owned x hx := by
    change ∃ p ∈ h'.pages, p ≤ x ∧ x < p+pageSize
    rw [hpages]
    exact hi.owned x (hext hx)
  padded := by
    change Padded h'.pmm
    rw [hpmm]
    exact hi.padded
  totalPages := by
    change h'.pmm.totalPages = total
    rw [hpmm]
    exact hi.totalPages
  zero := by
    change 0 ∉ freeSet h'.pmm
    rw [hpmm]
    exact hi.zero
  free := by
    change freeSet h'.pmm ⊆ available
    rw [hpmm]
    exact hi.free
  pages := by
    change ∀ p ∈ h'.pages, p ∉ s.held ∧
      ∃ k, p = k*pageSize ∧ k ≠ 0 ∧ k < total ∧ k ∉ freeSet h'.pmm ∧ k ∈ available
    rw [hpmm, hpages]
    exact hi.pages
  held := by
    change ∀ p ∈ s.held, ∃ k, p = k*pageSize ∧ k ≠ 0 ∧ k < total ∧ k ∉ freeSet h'.pmm ∧ k ∈ available
    rw [hpmm]
    exact hi.held
  distinct := hi.distinct

/-- New blocks in the old extent and in the pages just taken. -/
theorem Inv.grow (hi : Inv available total s bs) {h' : Heap} {bs' : List Block} {f n : ℕ}
    (hr : Represents h' bs') (hapart : Apart headerSize bs') (hnopair : NoFreePair bs')
    (hrun : FreeRun s.heap.pmm f n)
    (htook : Took s.heap { h' with mem := s.heap.mem, heapStart := s.heap.heapStart } f n)
    (hext : ∀ x ∈ extent headerSize bs', x ∈ extent headerSize bs ∨
      (f*pageSize ≤ x ∧ x < (f+n)*pageSize)) : Inv available total ⟨h', s.held⟩ bs' := by
  have hfree : freeSet h'.pmm = freeSet s.heap.pmm \ Set.Ico f (f+n) := htook.free
  have hpages : ∀ a, a ∈ h'.pages ↔ a ∈ s.heap.pages ∨ ∃ p ∈ Set.Ico f (f+n), a = p*pageSize := htook.pages
  have hless : freeSet h'.pmm ⊆ freeSet s.heap.pmm := by
    rw [hfree]
    exact Set.sdiff_subset
  have hnew : ∀ k ∈ Set.Ico f (f+n), k ∈ freeSet s.heap.pmm ∧ k ∉ freeSet h'.pmm := by
    intro k hk
    refine ⟨hrun.free hk, ?_⟩
    rw [hfree]
    exact fun h => h.2 hk
  refine ⟨hr, hapart, hnopair, ?_, htook.padded, htook.total.trans hi.totalPages,
    fun h => hi.zero (hless h), hless.trans hi.free, ?_, ?_, hi.distinct⟩
  · intro x hx
    change ∃ p ∈ h'.pages, p ≤ x ∧ x < p+pageSize
    rcases hext x hx with hx | ⟨hlo, hhi⟩
    · obtain ⟨p, hp, hpx⟩ := hi.owned x hx
      exact ⟨p, (hpages p).mpr (Or.inl hp), hpx⟩
    · have hk : x/pageSize ∈ Set.Ico f (f+n) := by
        unfold pageSize at *
        simp only [Set.mem_Ico]
        omega
      refine ⟨x/pageSize*pageSize, (hpages _).mpr (Or.inr ⟨_, hk, rfl⟩), ?_, ?_⟩
      · exact Nat.div_mul_le_self x pageSize
      · unfold pageSize
        omega
  · intro p hp
    change p ∉ s.held ∧
      ∃ k, p = k*pageSize ∧ k ≠ 0 ∧ k < total ∧ k ∉ freeSet h'.pmm ∧ k ∈ available
    rcases (hpages p).mp hp with hp | ⟨k, hk, rfl⟩
    · obtain ⟨hheld, k, hk, hk0, hkt, hkf, hka⟩ := hi.pages p hp
      exact ⟨hheld, k, hk, hk0, hkt, fun h => hkf (hless h), hka⟩
    · obtain ⟨hkfree, hkgone⟩ := hnew k hk
      refine ⟨?_, k, rfl, fun h => hi.zero (h ▸ hkfree), ?_, hkgone, hi.free hkfree⟩
      · intro hheld
        obtain ⟨j, hj, -, -, hjfree, -⟩ := hi.held _ hheld
        have hkj : k = j := page_mul_injective hj
        exact hjfree (hkj ▸ hkfree)
      · rw [← hi.totalPages]
        exact freeSet_lt _ hkfree
  · intro p hp
    change ∃ k, p = k*pageSize ∧ k ≠ 0 ∧ k < total ∧ k ∉ freeSet h'.pmm ∧ k ∈ available
    obtain ⟨k, hk, hk0, hkt, hkf, hka⟩ := hi.held p hp
    exact ⟨k, hk, hk0, hkt, fun h => hkf (hless h), hka⟩

theorem freeRun_count {pmm : Pmm} {f n : ℕ} (h : FreeRun pmm f n) : n ≤ (freeSet pmm).ncard := by
  have hle := Set.ncard_le_ncard h.free (freeSet_finite pmm)
  rw [← Finset.coe_Ico, Set.ncard_coe_finset, Nat.card_Ico] at hle
  omega

theorem freeRun_pos {pmm : Pmm} {f n : ℕ} (h : FreeRun pmm f n) (hn : 0 < n) (h0 : 0 ∉ freeSet pmm) :
    0 < f := by
  have hf : f ∈ freeSet pmm := h.free ⟨le_rfl, by omega⟩
  exact Nat.pos_of_ne_zero (fun e => h0 (e ▸ hf))

/-- The block that a growth adds lies outside the pages of the heap. -/
theorem Inv.grown_clear (hi : Inv available total s bs) {f req : ℕ} (hf : 0 < f)
    (hreq : req+headerSize+4095 < 4294967296)
    (hr : FreeRun s.heap.pmm f (pagesFor (wrap (req+headerSize)))) :
    (∀ b ∈ bs, Clear headerSize b (grownBlock f req)) ∧
    ∀ x ∈ extent headerSize (carve headerSize 16 req (grownBlock f req)),
      f*pageSize ≤ x ∧ x < (f + pagesFor (wrap (req+headerSize)))*pageSize := by
  obtain ⟨-, hstop, -, hsize, -⟩ := grownBlock_facts hi.padded hf hreq hr
  have hin : ∀ x ∈ extent headerSize [grownBlock f req],
      f*pageSize ≤ x ∧ x < (f + pagesFor (wrap (req+headerSize)))*pageSize := by
    rintro x ⟨b, hb, hlo, hhi⟩
    rw [List.mem_singleton] at hb
    subst hb
    rw [hstop] at hhi
    exact ⟨hlo, hhi⟩
  refine ⟨HeapPages.grown_clear hi.padded hf hreq hr ?_, fun x hx => hin x (carve_extent hsize hx)⟩
  intro x hx hxfree
  obtain ⟨p, hp, hlo, hhi⟩ := hi.owned x hx
  obtain ⟨-, k, rfl, -, -, hkfree, -⟩ := hi.pages p hp
  have hk : x/pageSize = k := by
    unfold pageSize at *
    omega
  exact hkfree (hk ▸ hxfree)

/-- What a supplied request returns, and the blocks it leaves. -/
structure Served (available : Set ℕ) (total : ℕ) (s : System) (bs : List Block) (size q : ℕ)
    (h' : Heap) (bs' : List Block) : Prop where
  inv : Inv available total ⟨h', s.held⟩ bs'
  data : q = 0 ∨ ∃ c ∈ bs', q = c.addr+headerSize ∧ size ≤ c.size
  short : Short s.heap size → q = 0
  kept : ∀ x ∈ bs, ¬ Fits (alignUp4 size) x → x ∈ bs'

theorem kmalloc_fits (hi : Inv available total s bs) {size : ℕ} (h0 : size ≠ 0) (hmax : size ≤ maxRequest)
    {p : ℕ} {bs' : List Block} (hp : place headerSize 16 (alignUp4 size) bs = some (p, bs')) :
    ∃ q h', kmalloc s.heap size = .ok (q, h') ∧ Served available total s bs size q h' bs' := by
  obtain ⟨m', b, hk, hrep, hb, hfit, rfl, -⟩ := kmalloc_found hi.blocks hi.apart hi.space h0 hmax hp
  obtain ⟨c, hc, hcb, -, hreq⟩ := place_taken hp
  have hge := (alignUp4_ge hmax).1
  refine ⟨_, _, hk, ⟨?_, Or.inr ⟨c, hc, by rw [hcb], hge.trans hreq⟩, ?_, fun x hx => place_kept hp hx⟩⟩
  · exact hi.keep hrep (apart_place hi.apart hp) (noFreePair_place hi.nopair hp) (place_extent hp) rfl rfl
  · rintro ⟨-, hno, -⟩
    have hh := hi.blocks.2 b hb
    refine (hno b.addr ((mem_inList hi.blocks b.addr).mpr ⟨b, hb, rfl⟩) ⟨(flag_iff hh).mpr hfit.1, ?_⟩).elim
    rw [hh.size]
    exact hge.trans hfit.2

theorem kmalloc_refused (hi : Inv available total s bs) {size : ℕ} (h0 : size ≠ 0)
    (hp : place headerSize 16 (alignUp4 size) bs = none) (hempty : freeSet s.heap.pmm = ∅) :
    ∃ h', kmalloc s.heap size = .ok (0, h') ∧ Served available total s bs size 0 h' bs := by
  refine ⟨s.heap, ?_, ⟨hi, Or.inl rfl, fun _ => rfl, fun x hx _ => hx⟩⟩
  rw [kmalloc_missing hi.blocks hi.space h0 hp, growHeap_refused (alloc_empty s.heap.pmm hempty)]

theorem kmalloc_grows (hi : Inv available total s bs) {size f : ℕ} (h0 : size ≠ 0)
    (hp : place headerSize 16 (alignUp4 size) bs = none)
    (hlt : (size+3)/4*4 + headerSize + 4095 < 4294967296) (hr : FreeRun s.heap.pmm f (pagesNeeded size)) :
    ∃ q h' bs', kmalloc s.heap size = .ok (q, h') ∧ Served available total s bs size q h' bs' := by
  have hmax : size ≤ maxRequest := by
    unfold maxRequest headerSize at *
    omega
  have halign := alignUp4_eq hmax
  have hreq : alignUp4 size + headerSize + 4095 < 4294967296 := by
    rw [halign]
    exact hlt
  obtain ⟨hn, -, hcount⟩ := pagesFor_room hreq
  have hneed : pagesFor (wrap (alignUp4 size + headerSize)) = pagesNeeded size := by
    rw [hcount, halign, pagesNeeded]
  have hr' : FreeRun s.heap.pmm f (pagesFor (wrap (alignUp4 size + headerSize))) := by
    rw [hneed]
    exact hr
  have hf := freeRun_pos hr' hn hi.zero
  obtain ⟨hclear, hext⟩ := hi.grown_clear hf hreq hr'
  obtain ⟨-, -, -, hsize, -⟩ := grownBlock_facts hi.padded hf hreq hr'
  obtain ⟨h', hg, hrep, htook⟩ := growHeap_blocks hi.blocks hi.space hi.apart hi.padded hf hreq hr' hclear
  refine ⟨_, h', bs ++ carve headerSize 16 (alignUp4 size) (grownBlock f (alignUp4 size)),
    (kmalloc_missing hi.blocks hi.space h0 hp).trans (congrArg Except.ok hg), ⟨?_, ?_, ?_, ?_⟩⟩
  · refine hi.grow hrep (apart_grown hi.apart hclear hsize) ?_ hr' htook ?_
    · have hjoin : NoFreePair (bs ++ carve headerSize 16 (alignUp4 size)
          (grownBlock f (alignUp4 size)) ++ []) :=
        noFreePair_carve hi.nopair (List.IsChain.singleton _)
      rw [List.append_nil] at hjoin
      exact hjoin
    · intro x hx
      rw [extent_append] at hx
      rcases hx with hx | hx
      · exact Or.inl hx
      · exact Or.inr (hext x hx)
  · have hge := (alignUp4_ge hmax).1
    have hfirst : ∃ c ∈ carve headerSize 16 (alignUp4 size) (grownBlock f (alignUp4 size)),
        c.addr = (grownBlock f (alignUp4 size)).addr ∧ c.free = false ∧ alignUp4 size ≤ c.size :=
      carve_first hsize
    obtain ⟨c, hc, hca, -, hcs⟩ := hfirst
    exact Or.inr ⟨c, List.mem_append_right bs hc, by rw [hca]; rfl, hge.trans hcs⟩
  · rintro ⟨-, -, hshort⟩
    have hcard := freeRun_count hr
    omega
  · intro x hx _
    exact List.mem_append_left _ hx

/-- A supplied request keeps the blocks inside the heap's pages. -/
theorem kmalloc_served (hi : Inv available total s bs) {size : ℕ} (hs : Supplied s.heap size) :
    ∃ q h' bs', kmalloc s.heap size = .ok (q, h') ∧ Served available total s bs size q h' bs' := by
  by_cases h0 : size = 0
  · refine ⟨0, s.heap, bs, by rw [kmalloc, if_pos h0], ⟨hi, Or.inl rfl, fun _ => rfl, fun x hx _ => hx⟩⟩
  have hfits := fitsInList_iff hi.blocks (alignUp4 size)
  cases hp : place headerSize 16 (alignUp4 size) bs with
  | none =>
    have hnone : ¬ FitsInList s.heap (alignUp4 size) := by
      rw [hfits]
      rintro ⟨b, hb, hfit⟩
      exact place_none.mp hp b hb hfit
    rcases hs with h | ⟨-, h⟩ | ⟨-, hempty⟩ | ⟨hlt, f, hr⟩
    · exact (h0 h).elim
    · exact (hnone h).elim
    · obtain ⟨h', hk, hserved⟩ := kmalloc_refused hi h0 hp hempty
      exact ⟨0, h', bs, hk, hserved⟩
    · exact kmalloc_grows hi h0 hp hlt hr
  | some r =>
    obtain ⟨p, bs'⟩ := r
    have hsome : FitsInList s.heap (alignUp4 size) := by
      rw [hfits]
      obtain ⟨l, b, r, rfl, -, hb, -⟩ := place_some hp
      exact ⟨b, by simp, hb⟩
    have hmax : size ≤ maxRequest := by
      rcases hs with h | ⟨h, -⟩ | ⟨h, -⟩ | ⟨hlt, -⟩
      · exact (h0 h).elim
      · exact h
      · exact (h hsome).elim
      · unfold maxRequest headerSize at *
        omega
    obtain ⟨q, h', hk, hserved⟩ := kmalloc_fits hi h0 hmax hp
    exact ⟨q, h', bs', hk, hserved⟩

theorem mark_extent {l r : List Block} {b : Block} :
    extent headerSize (l ++ { b with free := true }::r) = extent headerSize (l++b::r) := by
  have hone : extent headerSize [{ b with free := true }] = extent headerSize [b] := by
    ext x
    simp [extent, Block.stop]
  rw [show l ++ { b with free := true }::r = l ++ [{ b with free := true }] ++ r by simp,
    show l++b::r = l++[b]++r by simp, extent_append, extent_append, extent_append, extent_append, hone]

theorem kfree_owned (hi : Inv available total s bs) {ptr : ℕ} (hrel : Releases s.heap ptr) {h' : Heap}
    (hk : kfree s.heap ptr = .ok h') : ∃ bs', Inv available total ⟨h', s.held⟩ bs' := by
  by_cases h0 : ptr = 0
  · rw [kfree, if_pos h0] at hk
    cases hk
    exact ⟨bs, hi⟩
  by_cases hmagic : magicAt s.heap.mem (sub32 ptr headerSize) = heapMagic
  · rcases hrel with h | h | h | ⟨hin, hadj⟩
    · exact (h0 h).elim
    · exact (h hmagic).elim
    · rw [listHeaders_eq hi.blocks] at h
      have hr : Represents { s.heap with mem := setFree s.heap.mem (sub32 ptr headerSize) 1 } bs := by
        refine represents_write hi.blocks hi.space (store8_off _ _ 1) ?_
        intro b hb
        rw [Set.disjoint_right]
        rintro x ⟨i, hi1, rfl⟩ hx
        obtain rfl : i = 0 := by omega
        exact h ⟨b, hb, hx⟩
      obtain ⟨m', hm', hrep, -⟩ := heapCoalesce_blocks hr hi.apart hi.space
      rw [kfree, if_neg h0] at hk
      dsimp only at hk
      rw [if_neg (not_not_intro hmagic), hm'] at hk
      cases hk
      exact ⟨_, hi.keep hrep (coalesce_apart (by decide) (noFreePair_adjacent hi.nopair) hi.apart)
        (noFreePair_coalesce bs) (coalesce_extent (noFreePair_adjacent hi.nopair)) rfl rfl⟩
    · obtain ⟨b, hb, hba⟩ := (mem_inList hi.blocks _).mp hin
      obtain ⟨l, r, rfl⟩ := List.append_of_mem hb
      have had := hadj l b r hi.blocks hba
      obtain ⟨m', hm', hrep, -⟩ := kfree_blocks hi.blocks hi.apart hi.space hba.symm h0
      rw [hk] at hm'
      cases hm'
      refine ⟨_, hi.keep hrep (coalesce_apart (by decide) had (mark_apart hi.apart))
        (noFreePair_coalesce _) ?_ rfl rfl⟩
      rw [← mark_extent (b := b)]
      exact coalesce_extent had
  · rw [kfree, if_neg h0] at hk
    dsimp only at hk
    rw [if_pos hmagic] at hk
    cases hk

/-- The state after an event that ends, and what it returns to a request that cannot be met. -/
structure Step.Good (available : Set ℕ) (total : ℕ) (s : System) (e : Event) (r : ℕ × System) : Prop where
  inv : ∃ bs', Inv available total r.2 bs'
  short : ∀ size, Requests s size e → Short s.heap size → r.1 = 0

variable {defaultStart : ℕ} {r : ℕ × System}

theorem kmalloc_good (hi : Inv available total s bs) {size : ℕ} (hs : Supplied s.heap size)
    (hp : perform defaultStart s (.kmalloc size) = .ok r) :
    Step.Good available total s (.kmalloc size) r := by
  obtain ⟨q, h', bs', hk, hserved⟩ := kmalloc_served hi hs
  rw [perform, hk] at hp
  cases hp
  refine ⟨⟨bs', hserved.inv⟩, ?_⟩
  rintro n rfl hshort
  exact hserved.short hshort

theorem kcalloc_good (hi : Inv available total s bs) {count size : ℕ}
    (hs : Supplied s.heap (wrap (count*size)))
    (hp : perform defaultStart s (.kcalloc count size) = .ok r) :
    Step.Good available total s (.kcalloc count size) r := by
  obtain ⟨q, h', bs', hk, hserved⟩ := kmalloc_served hi hs
  rw [perform, kcalloc] at hp
  dsimp only at hp
  rw [hk] at hp
  rcases hserved.data with rfl | ⟨c, hc, rfl, hsize⟩
  · cases hp
    exact ⟨⟨bs', hserved.inv⟩, fun n _ _ => rfl⟩
  · have hne : c.addr+headerSize ≠ 0 := by
      unfold headerSize
      omega
    simp only [Except.map, if_neg hne] at hp
    cases hp
    have hi' := hserved.inv
    refine ⟨⟨bs', hi'.keep (data_write hi'.blocks hi'.apart hi'.space hc hsize (memset_off _ _ 0 _))
      hi'.apart hi'.nopair subset_rfl rfl rfl⟩, ?_⟩
    rintro n rfl hshort
    exact hserved.short hshort

theorem kfree_good (hi : Inv available total s bs) {ptr : ℕ} (hrel : Releases s.heap ptr)
    (hp : perform defaultStart s (.kfree ptr) = .ok r) :
    Step.Good available total s (.kfree ptr) r := by
  rw [perform] at hp
  cases hk : kfree s.heap ptr with
  | error f =>
    rw [hk] at hp
    cases hp
  | ok h' =>
    rw [hk] at hp
    cases hp
    exact ⟨kfree_owned hi hrel hk, fun n hn => hn.elim⟩

theorem represents_unique {h : Heap} {bs bs' : List Block} (hr : Represents h bs)
    (hr' : Represents h bs') : bs = bs' := by
  have haddr := chain_unique hr.1 hr'.1
  have hsame : ∀ b ∈ bs, ∀ c ∈ bs', b.addr = c.addr → b = c := by
    intro b hb c hc hbc
    have h1 := hr.2 b hb
    have h2 := hr'.2 c hc
    have hsize : b.size = c.size := by rw [← h1.size, ← h2.size, hbc]
    have hfree : b.free = true ↔ c.free = true := by rw [← flag_iff h1, ← flag_iff h2, hbc]
    cases b
    cases c
    simp only [Block.mk.injEq]
    exact ⟨hbc, hsize, Bool.eq_iff_iff.mpr hfree⟩
  have hlen : bs.length = bs'.length := by
    have hl := congrArg List.length haddr
    simpa using hl
  refine List.ext_getElem hlen ?_
  intro i hi hi'
  refine hsame _ (List.getElem_mem hi) _ (List.getElem_mem hi') ?_
  have hget := List.getElem_of_eq haddr (i := i) (by simpa using hi)
  simpa using hget

/-- Writing data moves no block, so what may be released stays the same. -/
theorem releases_data {h : Heap} {m : Mem} {bs : List Block} {ptr : ℕ} (hr : Represents h bs)
    (hs : InSpace bs) (hr' : Represents { h with mem := m } bs) (hin : InList h (sub32 ptr headerSize))
    (hrel : Releases h ptr) : Releases { h with mem := m } ptr := by
  obtain ⟨b, hb, hba⟩ := (mem_inList hr _).mp hin
  rcases hrel with h0 | hmagic | hflag | ⟨-, hadj⟩
  · exact Or.inl h0
  · rw [← hba] at hmagic
    exact (hmagic (hr.2 b hb).magic).elim
  · refine (hflag ?_).elim
    have hlt := space_header hs hb
    rw [listHeaders_eq hr, ← hba]
    unfold headerSize at hlt
    rw [wrap_of_lt (by omega)]
    exact ⟨b, hb, by unfold headerRange headerSize; simp⟩
  · refine Or.inr (Or.inr (Or.inr ⟨(mem_inList hr' _).mpr ⟨b, hb, hba⟩, ?_⟩))
    intro l b r hlbr hbp
    have hsame := represents_unique hr' hlbr
    exact hadj l b r (hsame ▸ hr) hbp

theorem small_not_fits (hi : Inv available total s bs) {size : ℕ} (hs : Supplied s.heap size)
    {b : Block} (hb : b ∈ bs) (hsmall : b.size < size) : ¬ Fits (alignUp4 size) b := by
  intro hfit
  have hle : alignUp4 size ≤ b.size := hfit.2
  have hmax : size ≤ maxRequest := by
    rcases hs with h | ⟨h, -⟩ | ⟨h, -⟩ | ⟨hlt, -⟩
    · omega
    · exact h
    · exact (h ((fitsInList_iff hi.blocks _).mpr ⟨b, hb, hfit⟩)).elim
    · unfold maxRequest headerSize at *
      omega
  have hge := (alignUp4_ge hmax).1
  omega

theorem krealloc_moves (hi : Inv available total s bs) {ptr size : ℕ} (hmoves : Moves s.heap ptr size)
    (hs : Supplied s.heap size) (hin : InList s.heap (sub32 ptr headerSize))
    (hrel : ∀ r, kmalloc s.heap size = .ok r → r.1 ≠ 0 → Releases r.2 ptr)
    (hp : perform defaultStart s (.krealloc ptr size) = .ok r) :
    Step.Good available total s (.krealloc ptr size) r := by
  obtain ⟨h0, hsize0, hmagic, hsmall⟩ := hmoves
  obtain ⟨b, hb, hba⟩ := (mem_inList hi.blocks _).mp hin
  have hbsmall : b.size < size := by
    rw [← (hi.blocks.2 b hb).size, hba]
    exact hsmall
  obtain ⟨q, h', bs', hk, hserved⟩ := kmalloc_served hi hs
  have hi' := hserved.inv
  have hb' : b ∈ bs' := hserved.kept b hb (small_not_fits hi hs hb hbsmall)
  have hshort : ∀ n, Requests s n (.krealloc ptr size) → Short s.heap n → q = 0 := by
    rintro n ⟨rfl, -⟩ hn
    exact hserved.short hn
  rw [perform, krealloc, if_neg h0, if_neg hsize0] at hp
  dsimp only at hp
  rw [if_neg (not_not_intro hmagic), if_neg (Nat.not_le.mpr hsmall), hk] at hp
  rcases hserved.data with rfl | ⟨c, hc, rfl, hcsize⟩
  · cases hp
    exact ⟨⟨bs', hi'⟩, hshort⟩
  · have hne : c.addr+headerSize ≠ 0 := by
      unfold headerSize
      omega
    have hcopy := data_write hi'.blocks hi'.apart hi'.space hc (show b.size ≤ c.size by omega)
      (memcpy_off h'.mem (c.addr+headerSize) ptr b.size)
    have hbs : sizeAt h'.mem (sub32 ptr headerSize) = b.size := by
      rw [← hba]
      exact (hi'.blocks.2 b hb').size
    have hin' : InList h' (sub32 ptr headerSize) := (mem_inList hi'.blocks _).mpr ⟨b, hb', hba⟩
    have hrel' := releases_data hi'.blocks hi'.space hcopy hin' (hrel _ hk hne)
    have hcopied := hi'.keep hcopy hi'.apart hi'.nopair subset_rfl rfl rfl
    simp only [Except.bind, if_neg hne, hbs] at hp
    cases hf : kfree { h' with mem := memcpy h'.mem (c.addr+headerSize) ptr b.size } ptr with
    | error f =>
      rw [hf] at hp
      cases hp
    | ok h'' =>
      rw [hf] at hp
      cases hp
      exact ⟨kfree_owned hcopied hrel' hf, hshort⟩

theorem krealloc_good (hi : Inv available total s bs) {ptr size : ℕ}
    (hok : Harmless s (.krealloc ptr size)) (hp : perform defaultStart s (.krealloc ptr size) = .ok r) :
    Step.Good available total s (.krealloc ptr size) r := by
  obtain ⟨hnull, hzero, hmove⟩ := hok
  by_cases h0 : ptr = 0
  · obtain ⟨q, h', bs', hk, hserved⟩ := kmalloc_served hi (hnull h0)
    rw [perform, krealloc, if_pos h0, hk] at hp
    cases hp
    refine ⟨⟨bs', hserved.inv⟩, ?_⟩
    rintro n ⟨rfl, -⟩ hshort
    exact hserved.short hshort
  by_cases hsize0 : size = 0
  · have hnone : ∀ n, Requests s n (.krealloc ptr size) → Short s.heap n → r.1 = 0 := by
      rintro n ⟨-, h | h⟩ -
      · exact (h0 h).elim
      · exact (h.2.1 hsize0).elim
    rw [perform, krealloc, if_neg h0, if_pos hsize0] at hp
    cases hk : kfree s.heap ptr with
    | error f =>
      rw [hk] at hp
      cases hp
    | ok h' =>
      rw [hk] at hp
      cases hp
      exact ⟨kfree_owned hi (hzero hsize0) hk, hnone⟩
  by_cases hmoves : Moves s.heap ptr size
  · obtain ⟨hs, hin, hrel⟩ := hmove hmoves
    exact krealloc_moves hi hmoves hs hin hrel hp
  · have hnone : ∀ n, Requests s n (.krealloc ptr size) → Short s.heap n → r.1 = 0 := by
      rintro n ⟨-, h | h⟩ -
      · exact (h0 h).elim
      · exact (hmoves h).elim
    rw [perform, krealloc, if_neg h0, if_neg hsize0] at hp
    dsimp only at hp
    by_cases hmagic : magicAt s.heap.mem (sub32 ptr headerSize) = heapMagic
    · have hbig : sizeAt s.heap.mem (sub32 ptr headerSize) ≥ size :=
        Nat.not_lt.mp (fun h => hmoves ⟨h0, hsize0, hmagic, h⟩)
      rw [if_neg (not_not_intro hmagic), if_pos hbig] at hp
      cases hp
      exact ⟨⟨bs, hi⟩, hnone⟩
    · rw [if_pos hmagic] at hp
      cases hp

/-- With too few free pages `heap_init` panics. -/
theorem initPages_short {n : ℕ} {h : Heap} (hp : Padded h.pmm) (h0 : 0 ∉ freeSet h.pmm)
    (hcard : (freeSet h.pmm).ncard < n) :
    initPages n h = .error (.panic "Heap: Out of memory allocating initial heap pages") := by
  induction n generalizing h with
  | zero => omega
  | succ n ih =>
    rw [initPages]
    rcases alloc_cases h.pmm hp with ⟨-, ha⟩ | ⟨p, hleast, ha⟩
    · rw [if_pos (show (takeHeapPage h).1 = 0 by rw [takeHeapPage, ha])]
    · have hp0 : p ≠ 0 := fun e => h0 (e ▸ hleast.1)
      have hne : (takeHeapPage h).1 ≠ 0 := by
        rw [takeHeapPage, ha]
        exact Nat.mul_ne_zero hp0 (by decide)
      have hfree : freeSet (takeHeapPage h).2.pmm = freeSet h.pmm \ {p} := by
        change freeSet (pmmAllocPage h.pmm).2 = _
        rw [ha]
        exact takePage_free h.pmm p
      have hless := Set.ncard_sdiff_singleton_add_one hleast.1 (freeSet_finite h.pmm)
      rw [if_neg hne]
      refine ih (alloc_padded _ hp) ?_ ?_
      · rw [hfree]
        exact fun h => h0 h.1
      · rw [hfree]
        omega

theorem heapInit_good (hi : Inv available total s bs) {start size : ℕ}
    (hok : Harmless s (.heapInit start size)) (hp : perform defaultStart s (.heapInit start size) = .ok r) :
    Step.Good available total s (.heapInit start size) r := by
  obtain ⟨hsize, hrun⟩ := hok
  obtain ⟨hmin, -⟩ := initSize_pages hsize
  rcases hrun with hshort | ⟨f, hr⟩
  · rw [perform, heapInit] at hp
    rw [initPages_short hi.padded hi.zero hshort] at hp
    cases hp
  · have hf := freeRun_pos hr (by omega) hi.zero
    obtain ⟨h', hinit, hrep, htook⟩ := heapInit_blocks defaultStart start
      hi.padded hf hsize hr
    rw [perform, hinit] at hp
    cases hp
    refine ⟨⟨_, hi.grow hrep (List.pairwise_singleton _ _) (List.IsChain.singleton _) hr htook ?_⟩,
      fun n hn => hn.elim⟩
    rintro x ⟨b, hb, hlo, hhi⟩
    rw [List.mem_singleton] at hb
    subst hb
    have hstop := (freeRun_block hf (show 0 < pagesFor (initSize size) by omega)
      (freeRun_space hi.padded (by omega) hr) true).2.1
    rw [hstop] at hhi
    exact Or.inr ⟨hlo, hhi⟩

/-- Other code takes the least free page. -/
theorem allocPage_good (hi : Inv available total s bs)
    (hp : perform defaultStart s .allocPage = .ok r) : Step.Good available total s .allocPage r := by
  refine ⟨⟨bs, ?_⟩, fun n hn => hn.elim⟩
  rw [perform] at hp
  cases hp
  rcases alloc_cases s.heap.pmm hi.padded with ⟨-, ha⟩ | ⟨p, hleast, ha⟩
  · rw [ha]
    exact hi
  · have hp0 : p ≠ 0 := fun e => hi.zero (e ▸ hleast.1)
    have hne : p*pageSize ≠ 0 := Nat.mul_ne_zero hp0 (by decide)
    rw [ha]
    dsimp only
    rw [if_neg hne]
    have hless : ∀ k, k ∉ freeSet s.heap.pmm → k ∉ freeSet (takePage s.heap.pmm p) := by
      intro k hk h
      rw [takePage_free] at h
      exact hk h.1
    have hfresh : p*pageSize ∉ s.held := by
      intro hheld
      obtain ⟨k, hk, -, -, hkfree, -⟩ := hi.held _ hheld
      exact hkfree (page_mul_injective hk ▸ hleast.1)
    refine ⟨hi.blocks, hi.apart, hi.nopair, hi.owned, takePage_padded _ _ hi.padded, hi.totalPages,
      hless 0 hi.zero, ?_, ?_, ?_, List.nodup_cons.mpr ⟨hfresh, hi.distinct⟩⟩
    · change freeSet (takePage s.heap.pmm p) ⊆ available
      rw [takePage_free]
      exact Set.sdiff_subset.trans hi.free
    · intro a ha'
      obtain ⟨hheld, k, hk, hk0, hkt, hkf, hka⟩ := hi.pages a ha'
      refine ⟨?_, k, hk, hk0, hkt, hless k hkf, hka⟩
      intro hmem
      rcases List.mem_cons.mp hmem with h | h
      · exact hkf (page_mul_injective (hk.symm.trans h) ▸ hleast.1)
      · exact hheld h
    · intro a ha'
      rcases List.mem_cons.mp ha' with rfl | ha'
      · refine ⟨p, rfl, hp0, ?_, ?_, hi.free hleast.1⟩
        · rw [← hi.totalPages]
          exact freeSet_lt _ hleast.1
        · change p ∉ freeSet (takePage s.heap.pmm p)
          rw [takePage_free]
          exact fun h => h.2 rfl
      · obtain ⟨k, hk, hk0, hkt, hkf, hka⟩ := hi.held a ha'
        exact ⟨k, hk, hk0, hkt, hless k hkf, hka⟩

/-- Other code returns a page it holds. -/
theorem freePage_good (hi : Inv available total s bs) {addr : ℕ} (ha : addr ∈ s.held)
    (hp : perform defaultStart s (.freePage addr) = .ok r) :
    Step.Good available total s (.freePage addr) r := by
  refine ⟨⟨bs, ?_⟩, fun n hn => hn.elim⟩
  rw [perform] at hp
  cases hp
  obtain ⟨k, rfl, hk0, hkt, -, hka⟩ := hi.held addr ha
  have hidx : pageIndex (k*pageSize) = k := Nat.mul_div_cancel k (by decide)
  have hfree : freeSet (pmmFreePage s.heap.pmm (k*pageSize)) = insert k (freeSet s.heap.pmm) := by
    rw [free_freeSet, hidx]
    rw [hidx, hi.totalPages]
    exact hkt
  have hother : ∀ j, j ≠ k → j ∉ freeSet s.heap.pmm →
      j ∉ freeSet (pmmFreePage s.heap.pmm (k*pageSize)) := by
    intro j hj hjf h
    rw [hfree] at h
    rcases h with h | h
    · exact hj h
    · exact hjf h
  refine ⟨hi.blocks, hi.apart, hi.nopair, hi.owned, free_padded _ _ hi.padded,
    (free_totalPages _ _).trans hi.totalPages, hother 0 (Ne.symm hk0) hi.zero, ?_, ?_, ?_,
    hi.distinct.erase _⟩
  · change freeSet (pmmFreePage s.heap.pmm (k*pageSize)) ⊆ available
    rw [hfree]
    exact Set.insert_subset hka hi.free
  · intro a ha'
    obtain ⟨hheld, j, hj, hj0, hjt, hjf, hja⟩ := hi.pages a ha'
    refine ⟨fun h => hheld (List.mem_of_mem_erase h), j, hj, hj0, hjt, hother j ?_ hjf, hja⟩
    rintro rfl
    exact hheld (hj ▸ ha)
  · intro a ha'
    obtain ⟨hne, hmem⟩ := (hi.distinct.mem_erase_iff).mp ha'
    obtain ⟨j, hj, hj0, hjt, hjf, hja⟩ := hi.held a hmem
    refine ⟨j, hj, hj0, hjt, hother j ?_ hjf, hja⟩
    rintro rfl
    exact hne hj

theorem write_good (hi : Inv available total s bs) {mem : Mem} (ha : Allowed s (.write mem))
    (hp : perform defaultStart s (.write mem) = .ok r) : Step.Good available total s (.write mem) r := by
  refine ⟨⟨bs, ?_⟩, fun n hn => hn.elim⟩
  rw [perform] at hp
  cases hp
  have hoff : SameOff (headers bs)ᶜ s.heap.mem mem := by
    intro x hx
    refine ha x ?_
    rw [listHeaders_eq hi.blocks]
    by_contra h
    exact hx h
  refine hi.keep (represents_write hi.blocks hi.space hoff ?_) hi.apart hi.nopair subset_rfl rfl rfl
  intro b hb
  rw [Set.disjoint_left]
  intro x hx h
  exact h ⟨b, hb, hx⟩

theorem perform_good (hi : Inv available total s bs) {e : Event} (ha : Allowed s e)
    (hok : Harmless s e) (hp : perform defaultStart s e = .ok r) : Step.Good available total s e r := by
  cases e with
  | heapInit start size => exact heapInit_good hi hok hp
  | kmalloc size => exact kmalloc_good hi hok hp
  | kcalloc count size => exact kcalloc_good hi hok hp
  | krealloc ptr size => exact krealloc_good hi hok hp
  | kfree ptr => exact kfree_good hi hok hp
  | allocPage => exact allocPage_good hi hp
  | freePage addr => exact freePage_good hi ha hp
  | write mem => exact write_good hi ha hp

/-- The condition on one step, in any state. -/
def HarmlessStep : Except Fault System → Event → Except Fault System → Prop
  | .ok s, e, _ => Harmless s e
  | .error _, _, _ => True

/-- The kernel before its heap exists: some pages are free, others are held by other code. -/
structure Startup (pmm : Pmm) (held : List ℕ) : Prop where
  padded : Padded pmm
  zero : 0 ∉ freeSet pmm
  owners : ∀ p ∈ held, ∃ k, p = k*pageSize ∧ k ≠ 0 ∧ k < pmm.totalPages ∧ k ∉ freeSet pmm
  distinct : held.Nodup

def startState (mem : Mem) (pmm : Pmm) (held : List ℕ) : System := ⟨⟨mem, 0, 0, pmm, []⟩, held⟩

/-- Pages that are free or held by other code; all others are reserved. -/
def availablePages (pmm : Pmm) (held : List ℕ) : Set ℕ := {k | k ∈ freeSet pmm ∨ k*pageSize ∈ held}

theorem start_inv (mem : Mem) (pmm : Pmm) (held : List ℕ) (h : Startup pmm held) :
    Inv (availablePages pmm held) pmm.totalPages (startState mem pmm held) [] where
  blocks := ⟨rfl, fun b hb => by cases hb⟩
  apart := List.Pairwise.nil
  nopair := List.IsChain.nil
  owned x hx := by
    obtain ⟨b, hb, -⟩ := hx
    cases hb
  padded := h.padded
  totalPages := rfl
  zero := h.zero
  free _ hk := Or.inl hk
  pages p hp := by cases hp
  held p hp := by
    obtain ⟨k, rfl, hk0, hkt, hkf⟩ := h.owners p hp
    exact ⟨k, rfl, hk0, hkt, hkf, Or.inr hp⟩
  distinct := h.distinct

/-- In a run of harmless steps every block stays inside the pages of the heap,
and requests that the page allocator cannot supply return NULL. -/
theorem blocks_stay_owned (defaultStart : ℕ) (mem : Mem) (pmm : Pmm) (held : List ℕ)
    (h : Startup pmm held) (tr : List (Event × Except Fault System))
    (hr : Run (Step defaultStart) (.ok (startState mem pmm held)) tr)
    (hok : Along HarmlessStep (.ok (startState mem pmm held)) tr) :
    Along (Correct defaultStart (availablePages pmm held)) (.ok (startState mem pmm held)) tr := by
  refine along_mono (fun s e t h => h.2) _ _
    (run_guarded (I := fun t => ∀ s, t = .ok s →
      ∃ bs, Inv (availablePages pmm held) pmm.totalPages s bs) ?_ _ tr ?_ hr hok)
  · intro t e t' hinv hstep hharm
    cases t with
    | error f => exact hstep.elim
    | ok s =>
      obtain ⟨bs, hi⟩ := hinv s rfl
      obtain ⟨ha, rfl⟩ := hstep
      have hafter : ∀ s', (perform defaultStart s e).map Prod.snd = .ok s' →
          ∃ bs', Inv (availablePages pmm held) pmm.totalPages s' bs' := by
        intro s' hs'
        cases hp : perform defaultStart s e with
        | error f =>
          rw [hp] at hs'
          cases hs'
        | ok r =>
          rw [hp] at hs'
          cases hs'
          exact (perform_good hi ha hharm hp).inv
      refine ⟨hafter, ?_, ?_⟩
      · intro s' hs'
        obtain ⟨bs', hi'⟩ := hafter s' hs'
        exact hi'.ownership
      · intro size hreq hshort r hp
        exact (perform_good hi ha hharm hp).short size hreq hshort
  · intro s hs
    cases hs
    exact ⟨[], start_inv mem pmm held h⟩

/-- Of 32 pages only 1 and 3 are free. -/
def scatteredPmm : Pmm := ⟨fun _ => 0xFFFFFFF5#32, 1, 32, 2⟩

def scatteredStart : System := startState (fun _ => 0) scatteredPmm []

def afterOr (s : System) : Except Fault (ℕ × System) → System
  | .ok r => r.2
  | .error _ => s

theorem afterOr_eq (s : System) {r : Except Fault (ℕ × System)} (h : r.toOption.isSome) :
    .ok (afterOr s r) = r.map Prod.snd := by
  cases r with
  | ok r => rfl
  | error f => cases h

def scatteredAfter : System := afterOr scatteredStart (perform 0 scatteredStart (.kmalloc 5000))

theorem scattered_step : Step 0 (.ok scatteredStart) (.kmalloc 5000) (.ok scatteredAfter) :=
  ⟨trivial, afterOr_eq scatteredStart (by decide +kernel)⟩

/-- A request for two pages takes pages 1 and 3 and makes a block of pages 1 and 2. -/
theorem scattered_pages_joined :
    Run (Step 0) (.ok (startState (fun _ => 0) scatteredPmm [])) [(.kmalloc 5000, .ok scatteredAfter)] ∧
    ¬ Along (Correct 0 (availablePages scatteredPmm [])) (.ok (startState (fun _ => 0) scatteredPmm []))
      [(.kmalloc 5000, .ok scatteredAfter)] := by
  refine ⟨⟨scattered_step, trivial⟩, fun h => ?_⟩
  have hstart : scatteredAfter.heap.heapStart = 4096 := by decide +kernel
  have hsize : sizeAt scatteredAfter.heap.mem 4096 = 5000 := by decide +kernel
  have hpages : scatteredAfter.heap.pages = [3*4096, 4096] := by decide +kernel
  have hin : InList scatteredAfter.heap 4096 := ⟨by decide, [], hstart⟩
  obtain ⟨p, hp, hlo, hhi⟩ := (h.1.1 scatteredAfter rfl).bytes 4096 hin 4096 (by rw [hsize]; decide)
  rw [hpages] at hp
  have hw : wrap (4096+4096) = 8192 := by decide
  rw [hw] at hlo hhi
  unfold pageSize at hhi
  simp only [List.mem_cons, List.not_mem_nil, or_false] at hp
  omega

/-- The pages 1, 2 and 3 are free. -/
def joinedPmm : Pmm := ⟨fun _ => 0xFFFFFFF1#32, 1, 32, 3⟩

def joinedStart : System := startState (fun _ => 0) joinedPmm []

def joinedAfter : System := afterOr joinedStart (perform 0 joinedStart (.kmalloc 5000))

theorem joinedPmm_startup : Startup joinedPmm [] where
  padded := ⟨by decide, fun p h1 h2 => by
    change 32 ≤ p at h1
    change p < 32 at h2
    omega, by decide⟩
  zero h := by
    have hset : PackedBits.bit joinedPmm.bitmap 0 = true := by decide +kernel
    have hclear := h.2
    rw [hset] at hclear
    cases hclear
  owners p hp := by cases hp
  distinct := List.nodup_nil

theorem joinedPmm_run : FreeRun joinedPmm 1 2 := by
  have hbits : ∀ p < 32, PackedBits.bit joinedPmm.bitmap p = false → 1 ≤ p := by decide +kernel
  constructor
  · intro p hp
    exact hbits p hp.1 hp.2
  · intro p hp
    rw [Set.mem_Ico] at hp
    have h12 : p = 1 ∨ p = 2 := by omega
    rcases h12 with rfl | rfl
    · exact ⟨by decide, by decide +kernel⟩
    · exact ⟨by decide, by decide +kernel⟩

theorem blocks_stay_owned_sample :
    Along (Correct 0 (availablePages joinedPmm [])) (.ok (startState (fun _ => 0) joinedPmm []))
      [(.kmalloc 5000, .ok joinedAfter)] :=
  blocks_stay_owned 0 (fun _ => 0) joinedPmm [] joinedPmm_startup [(.kmalloc 5000, .ok joinedAfter)]
    ⟨⟨trivial, afterOr_eq joinedStart (by decide +kernel)⟩, trivial⟩
    ⟨Or.inr (Or.inr (Or.inr ⟨by decide, 1, joinedPmm_run⟩)), trivial⟩

end Dionnex.HeapOwnership
