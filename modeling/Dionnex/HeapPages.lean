import Dionnex.HeapBlocks

/-!
# The pages of the heap

The heap takes its pages one by one and treats what it gets as one range.
That is right when the pages it needs are consecutive from the least free
page on: then the calls return exactly these pages, and a new heap is one
free block over them.
-/

set_option autoImplicit false

namespace Dionnex.HeapPages
open ByteMemory FirstFit Dionnex.PmmBitmap Dionnex.KernelHeap Dionnex.HeapBlocks

/-- The `n` pages from `f` on are free, and no free page lies below them. -/
structure FreeRun (pmm : Pmm) (f n : ℕ) : Prop where
  least : f ∈ lowerBounds (freeSet pmm)
  free : Set.Ico f (f+n) ⊆ freeSet pmm

/-- What the heap's calls of `pmm_alloc_page` for the pages `[f, f+n)` leave. -/
structure Took (h h' : Heap) (f n : ℕ) : Prop where
  mem : h'.mem = h.mem
  start : h'.heapStart = h.heapStart
  free : freeSet h'.pmm = freeSet h.pmm \ Set.Ico f (f+n)
  padded : Padded h'.pmm
  total : h'.pmm.totalPages = h.pmm.totalPages
  pages : ∀ a, a ∈ h'.pages ↔ a ∈ h.pages ∨ ∃ p ∈ Set.Ico f (f+n), a = p*pageSize

theorem takeHeapPage_took {h : Heap} {f n : ℕ} (hp : Padded h.pmm) (hf : 0 < f)
    (hr : FreeRun h.pmm f (n+1)) :
    (takeHeapPage h).1 = f*pageSize ∧ Took h (takeHeapPage h).2 f 1 ∧
      FreeRun (takeHeapPage h).2.pmm (f+1) n := by
  have hmem : f ∈ freeSet h.pmm := hr.free ⟨le_rfl, by omega⟩
  have halloc := alloc_least h.pmm hp f ⟨hmem, hr.least⟩
  have hone : Set.Ico f (f+1) = {f} := by
    ext x
    simp only [Set.mem_Ico, Set.mem_singleton_iff]
    omega
  have hfree : freeSet (takeHeapPage h).2.pmm = freeSet h.pmm \ Set.Ico f (f+1) := by
    change freeSet (pmmAllocPage h.pmm).2 = _
    rw [halloc, takePage_free, hone]
  have hne : f*pageSize ≠ 0 := Nat.mul_ne_zero (Nat.ne_of_gt hf) (by decide)
  refine ⟨by rw [takeHeapPage, halloc], ⟨rfl, rfl, hfree, alloc_padded _ hp, alloc_totalPages _, ?_⟩,
    ?_, ?_⟩
  · intro a
    have hpages : (takeHeapPage h).2.pages = f*pageSize :: h.pages := by
      rw [takeHeapPage, halloc]
      exact if_neg hne
    rw [hpages, hone, List.mem_cons]
    constructor
    · intro ha
      rcases ha with ha | ha
      · exact Or.inr ⟨f, rfl, ha⟩
      · exact Or.inl ha
    · rintro (ha | ⟨p, rfl, ha⟩)
      · exact Or.inr ha
      · exact Or.inl ha
  · intro q hq
    rw [hfree] at hq
    have hge := hr.least hq.1
    by_contra hlt
    exact hq.2 ⟨hge, by omega⟩
  · intro q hq
    rw [hfree]
    simp only [Set.mem_Ico] at hq
    refine ⟨hr.free ?_, ?_⟩
    · simp only [Set.mem_Ico]
      omega
    · simp only [Set.mem_Ico]
      omega

theorem Took.refl {h : Heap} (f : ℕ) (hp : Padded h.pmm) : Took h h f 0 where
  mem := rfl
  start := rfl
  free := by simp
  padded := hp
  total := rfl
  pages a := by simp

theorem Took.append {h h' h'' : Heap} {f n k : ℕ} (h1 : Took h h' f n) (h2 : Took h' h'' (f+n) k) :
    Took h h'' f (n+k) where
  mem := h2.mem.trans h1.mem
  start := h2.start.trans h1.start
  free := by
    rw [h2.free, h1.free]
    ext x
    simp only [Set.mem_sdiff, Set.mem_Ico]
    constructor
    · rintro ⟨⟨hx, h3⟩, h4⟩
      exact ⟨hx, by omega⟩
    · rintro ⟨hx, h3⟩
      exact ⟨⟨hx, by omega⟩, by omega⟩
  padded := h2.padded
  total := h2.total.trans h1.total
  pages a := by
    rw [h2.pages, h1.pages]
    simp only [Set.mem_Ico]
    constructor
    · rintro ((ha | ⟨p, hp, ha⟩) | ⟨p, hp, ha⟩)
      · exact Or.inl ha
      · exact Or.inr ⟨p, by omega, ha⟩
      · exact Or.inr ⟨p, by omega, ha⟩
    · rintro (ha | ⟨p, hp, ha⟩)
      · exact Or.inl (Or.inl ha)
      · by_cases hlt : p < f+n
        · exact Or.inl (Or.inr ⟨p, by omega, ha⟩)
        · exact Or.inr ⟨p, by omega, ha⟩

theorem growPages_took {n : ℕ} {h : Heap} {f : ℕ} (hp : Padded h.pmm) (hf : 0 < f)
    (hr : FreeRun h.pmm f n) : Took h (growPages n h) f n := by
  induction n generalizing h f with
  | zero => exact Took.refl f hp
  | succ n ih =>
    obtain ⟨-, htook, hrun⟩ := takeHeapPage_took hp hf hr
    have hrest := ih htook.padded (Nat.succ_pos f) hrun
    have hall := htook.append hrest
    rw [Nat.add_comm 1 n] at hall
    exact hall

theorem initPages_took {n : ℕ} {h : Heap} {f : ℕ} (hp : Padded h.pmm) (hf : 0 < f)
    (hr : FreeRun h.pmm f n) : initPages n h = .ok (growPages n h) := by
  induction n generalizing h f with
  | zero => rfl
  | succ n ih =>
    obtain ⟨hpage, htook, hrun⟩ := takeHeapPage_took hp hf hr
    have hne : (takeHeapPage h).1 ≠ 0 := by
      rw [hpage]
      exact Nat.mul_ne_zero (Nat.ne_of_gt hf) (by decide)
    rw [initPages, if_neg hne]
    exact ih htook.padded (Nat.succ_pos f) hrun

/-- The largest initial size whose page count does not wrap. -/
def maxInitSize : ℕ := 0xFFFFF000

theorem initSize_pages {size : ℕ} (h : initSize size ≤ maxInitSize) :
    256 ≤ pagesFor (initSize size) ∧ pagesFor (initSize size) ≤ 1048575 := by
  have hmin : 0x100000 ≤ initSize size := by
    unfold initSize
    split
    · exact le_rfl
    · omega
  unfold maxInitSize at h
  unfold pagesFor wrap pageSize
  omega

theorem freeRun_space {pmm : Pmm} {f n : ℕ} (hp : Padded pmm) (hn : 0 < n) (hr : FreeRun pmm f n) :
    (f+n)*pageSize ≤ 4294967296 := by
  have hlast : f+n-1 ∈ freeSet pmm := hr.free ⟨by omega, by omega⟩
  have hlt := freeSet_lt pmm hlast
  have haddr := hp.addressable
  unfold pageSize at *
  omega

/-- A written header on its own is a list of one block. -/
theorem writeHeader_seg {m : Mem} {b : Block} (hlow : pageSize ≤ b.addr)
    (hb : b.stop headerSize ≤ 4294967296) :
    HeapSeg (writeHeader m b.addr b.size (if b.free = true then 1 else 0) 0) b.addr [b] 0 ∧
    SameOff (headerRange b.addr) m
      (writeHeader m b.addr b.size (if b.free = true then 1 else 0) 0) := by
  obtain ⟨hh, hnext, hoff⟩ := new_header m b 0 (fun _ => 0) hb (fun _ _ => rfl) (fun _ => b.size)
    (fun _ _ => rfl)
  have h0 : b.addr ≠ 0 := by
    unfold pageSize at hlow
    omega
  exact ⟨heapSeg_cons.mpr ⟨rfl, h0, hh, heapSeg_nil.mpr hnext⟩, hoff⟩

theorem freeRun_block {f n : ℕ} (hf : 0 < f) (hn : 0 < n) (hspace : (f+n)*pageSize ≤ 4294967296)
    (free : Bool) :
    pageSize ≤ (⟨f*pageSize, n*pageSize - headerSize, free⟩ : Block).addr ∧
    (⟨f*pageSize, n*pageSize - headerSize, free⟩ : Block).stop headerSize = (f+n)*pageSize ∧
    sub32 (n*pageSize) headerSize = n*pageSize - headerSize := by
  have hroom : headerSize ≤ n*pageSize := by
    unfold headerSize pageSize
    omega
  rw [Nat.add_mul] at hspace ⊢
  refine ⟨Nat.le_mul_of_pos_left pageSize hf, ?_, ?_⟩
  · change f*pageSize + headerSize + (n*pageSize - headerSize) = f*pageSize + n*pageSize
    omega
  · refine sub32_of_le hroom ?_
    have hlow : pageSize ≤ f*pageSize := Nat.le_mul_of_pos_left pageSize hf
    unfold pageSize at *
    omega

/-- On consecutive pages `heap_init` makes one free block of all of them. -/
theorem heapInit_blocks {h : Heap} (defaultStart start : ℕ) {f size : ℕ} (hp : Padded h.pmm) (hf : 0 < f)
    (hsize : initSize size ≤ maxInitSize) (hr : FreeRun h.pmm f (pagesFor (initSize size))) :
    ∃ h', heapInit defaultStart h start size = .ok h' ∧
      Represents h' [⟨f*pageSize, pagesFor (initSize size)*pageSize - headerSize, true⟩] ∧
      Took h { h' with mem := h.mem, heapStart := h.heapStart } f (pagesFor (initSize size)) := by
  obtain ⟨hmin, hmax⟩ := initSize_pages hsize
  have htook := growPages_took hp hf hr
  have hspace := freeRun_space hp (by omega) hr
  have hpage : (takeHeapPage h).1 = f*pageSize := by
    obtain ⟨n, hn⟩ := Nat.exists_eq_succ_of_ne_zero (show pagesFor (initSize size) ≠ 0 by omega)
    rw [hn] at hr
    exact (takeHeapPage_took hp hf hr).1
  have hne : pagesFor (initSize size) ≠ 0 := by omega
  obtain ⟨hlow, hstop, hsub⟩ := freeRun_block hf (show 0 < pagesFor (initSize size) by omega) hspace true
  unfold heapInit
  dsimp only
  rw [if_neg hne, hpage, initPages_took hp hf hr, hsub]
  refine ⟨_, rfl, ?_, ?_⟩
  · exact (writeHeader_seg hlow (hstop.trans_le hspace)).1
  · exact ⟨rfl, rfl, htook.free, htook.padded, htook.total, htook.pages⟩

theorem lastAddr_append (l : List Block) (x : Block) (last : ℕ) : lastAddr last (l++[x]) = x.addr := by
  simp [lastAddr]

/-- Linking a block behind the list. -/
theorem link_seg {m : Mem} {p : ℕ} {bs : List Block} {nb : Block} (h : HeapSeg m p bs 0)
    (hspace : InSpace bs) (hapart : Apart headerSize bs) (hnb : HeapSeg m nb.addr [nb] 0)
    (hclear : ∀ b ∈ bs, Clear headerSize b nb) (hstop : nb.stop headerSize ≤ 4294967296) :
    HeapSeg (if lastAddr 0 bs = 0 then m else setNext m (lastAddr 0 bs) nb.addr)
      (if lastAddr 0 bs = 0 then nb.addr else p) (bs++[nb]) 0 ∧
    SameOff (headers bs) m (if lastAddr 0 bs = 0 then m else setNext m (lastAddr 0 bs) nb.addr) := by
  rcases List.eq_nil_or_concat bs with rfl | ⟨l, x, rfl⟩
  · exact ⟨hnb, SameOff.refl _ m⟩
  · rw [List.concat_eq_append] at *
    have hx0 : x.addr ≠ 0 := by
      have hlow := (hspace x (by simp)).1
      unfold pageSize at hlow
      omega
    rw [lastAddr_append, if_neg hx0, if_neg hx0]
    have hltX : x.addr+headerSize ≤ 4294967296 := space_header hspace (by simp)
    have hltN : nb.addr+headerSize ≤ 4294967296 := by
      unfold Block.stop at hstop
      omega
    have hoff : SameOff (headerRange x.addr) m (setNext m x.addr nb.addr) := setNext_off hltX
    obtain ⟨h1, h2, h3, h4⟩ := setNext_fields (m := m) (v := nb.addr) hltX
    obtain ⟨c, hl, hxs⟩ := heapSeg_append.mp h
    obtain ⟨rfl, -, hx, -⟩ := heapSeg_cons.mp hxs
    have hcross := (apart_append.mp hapart).2.2
    have hnb' : HeapSeg (setNext m x.addr nb.addr) nb.addr [nb] 0 := by
      refine seg_off hoff ?_ hnb
      intro b hb
      rw [List.mem_singleton] at hb
      subst hb
      exact ⟨(clear_headers (hclear x (by simp))).symm, hltN⟩
    refine ⟨?_, hoff.mono (fun y hy => ⟨x, by simp, hy⟩)⟩
    rw [List.append_assoc]
    refine heapSeg_append.mpr ⟨x.addr, seg_off hoff ?_ hl, heapSeg_cons.mpr ⟨rfl, hx0, ?_, ?_⟩⟩
    · intro b hb
      exact ⟨clear_headers (hcross b hb x (by simp)), space_header hspace (by simp [hb])⟩
    · exact ⟨h1.trans hx.magic, h2.trans hx.size, h3.trans hx.free⟩
    · rw [h4, wrap_of_lt (by unfold headerSize at hltN; omega)]
      exact hnb'

/-- The block that a growth for `req` bytes adds before it is split. -/
def grownBlock (f req : ℕ) : Block :=
  ⟨f*pageSize, pagesFor (wrap (req+headerSize))*pageSize - headerSize, false⟩

theorem pagesFor_room {req : ℕ} (h : req+headerSize+4095 < 4294967296) :
    0 < pagesFor (wrap (req+headerSize)) ∧ req+headerSize ≤ pagesFor (wrap (req+headerSize))*pageSize ∧
    pagesFor (wrap (req+headerSize)) = (req+headerSize+4095)/pageSize := by
  have hw : wrap (req+headerSize) = req+headerSize := wrap_of_lt (by omega)
  rw [hw, pagesFor, wrap_of_lt h]
  unfold pageSize headerSize
  omega

theorem growPages_pred {n : ℕ} {h : Heap} (hn : 0 < n) :
    growPages (n-1) (takeHeapPage h).2 = growPages n h := by
  obtain ⟨k, rfl⟩ := Nat.exists_eq_succ_of_ne_zero (Nat.ne_of_gt hn)
  rfl

/-- Splitting the last block of a list, which is in use. -/
theorem split_last {m : Mem} {p req : ℕ} {bs : List Block} {nb : Block}
    (h : HeapSeg m p (bs++[nb]) 0) (hspace : InSpace bs) (hapart : Apart headerSize bs)
    (hclear : ∀ b ∈ bs, Clear headerSize b nb) (hlow : pageSize ≤ nb.addr)
    (hstop : nb.stop headerSize ≤ 4294967296) (hreq : req ≤ nb.size) (hfree : nb.free = false) :
    HeapSeg (splitBlock m nb.addr req (fun _ => 0)) p (bs ++ carve headerSize 16 req nb) 0 ∧
    SameOff (Set.Ico nb.addr (nb.stop headerSize)) m (splitBlock m nb.addr req (fun _ => 0)) := by
  obtain ⟨c, -, hc⟩ := heapSeg_append.mp h
  obtain ⟨rfl, h0, hh, hnext⟩ := heapSeg_cons.mp hc
  have hnext0 := heapSeg_nil.mp hnext
  obtain ⟨hcarved, hflag, hoff⟩ := splitBlock_carved (n := fun _ => 0) (q := 0) hh.magic hh.size hlow
    hstop hreq (by decide) (fun _ => hnext0) (fun _ _ => rfl)
  have hfree0 : freeAt (splitBlock m nb.addr req (fun _ => 0)) nb.addr = 0 := by
    rw [hflag, hh.free, hfree]
    rfl
  have hmid : HeapSeg (splitBlock m nb.addr req (fun _ => 0)) nb.addr (carve headerSize 16 req nb)
      (nextAt m nb.addr) := by
    rw [hnext0]
    exact carved_seg hcarved hfree0 h0
  have hall := seg_replace (r := []) h ?_ ?_ hoff hmid
  · rw [List.append_nil] at hall
    exact ⟨hall, hoff⟩
  · refine apart_append.mpr ⟨hapart, List.pairwise_singleton _ _, ?_⟩
    intro b hb x hx
    rw [List.mem_singleton] at hx
    subst hx
    exact hclear b hb
  · intro x hx
    rcases List.mem_append.mp hx with hx | hx
    · exact hspace x hx
    · rw [List.mem_singleton] at hx
      subst hx
      exact ⟨hlow, hstop⟩

theorem grownBlock_facts {f req : ℕ} {pmm : Pmm} (hp : Padded pmm) (hf : 0 < f)
    (hreq : req+headerSize+4095 < 4294967296) (hr : FreeRun pmm f (pagesFor (wrap (req+headerSize)))) :
    pageSize ≤ (grownBlock f req).addr ∧
    (grownBlock f req).stop headerSize = (f + pagesFor (wrap (req+headerSize)))*pageSize ∧
    (grownBlock f req).stop headerSize ≤ 4294967296 ∧ req ≤ (grownBlock f req).size ∧
    wrap (f*pageSize+headerSize) = f*pageSize+headerSize ∧
    sub32 (pagesFor (wrap (req+headerSize))*pageSize) headerSize = (grownBlock f req).size := by
  obtain ⟨hn, hroom, -⟩ := pagesFor_room hreq
  have hspace := freeRun_space hp hn hr
  obtain ⟨hlow, hstop, hsub⟩ := freeRun_block hf hn hspace false
  refine ⟨hlow, hstop, hstop.trans_le hspace, ?_, ?_, hsub⟩
  · change req ≤ pagesFor (wrap (req+headerSize))*pageSize - headerSize
    omega
  · refine wrap_of_lt ?_
    rw [Nat.add_mul] at hspace
    unfold pageSize headerSize at *
    omega

theorem growPages_same (n : ℕ) (h : Heap) :
    (growPages n h).mem = h.mem ∧ (growPages n h).heapStart = h.heapStart := by
  induction n generalizing h with
  | zero => exact ⟨rfl, rfl⟩
  | succ n ih => exact ih (takeHeapPage h).2

/-- Pages in a row lie clear of blocks that cover no free page. -/
theorem grown_clear {pmm : Pmm} {bs : List Block} {f req : ℕ} (hp : Padded pmm) (hf : 0 < f)
    (hreq : req+headerSize+4095 < 4294967296) (hr : FreeRun pmm f (pagesFor (wrap (req+headerSize))))
    (hout : ∀ x ∈ extent headerSize bs, x/pageSize ∉ freeSet pmm) :
    ∀ b ∈ bs, Clear headerSize b (grownBlock f req) := by
  obtain ⟨-, hstop, -⟩ := grownBlock_facts hp hf hreq hr
  intro b hb
  apply clear_of_disjoint (by decide)
  rw [Set.disjoint_left]
  rintro x ⟨b', hb', hbx⟩ ⟨nb, hnb, hlo, hhi⟩
  rw [List.mem_singleton] at hb' hnb
  subst hb' hnb
  rw [hstop] at hhi
  apply hout x ⟨b', hb, hbx⟩
  apply hr.free
  change f*pageSize ≤ x at hlo
  unfold pageSize at *
  rw [Set.mem_Ico]
  omega

/-- The page allocator after a growth of `n` pages, which always takes one. -/
def grownPages (h : Heap) (n : ℕ) : Heap := growPages (n-1) (takeHeapPage h).2

/-- The growth path takes what it gets as one range, appends it as a block and splits it. -/
theorem growHeap_list {h : Heap} {bs : List Block} {req : ℕ} {nb : Block} (hrep : Represents h bs)
    (hspace : InSpace bs) (hapart : Apart headerSize bs) (hpage : (takeHeapPage h).1 = nb.addr)
    (hsize : sub32 (pagesFor (wrap (req+headerSize))*pageSize) headerSize = nb.size)
    (hfree : nb.free = false) (hlow : pageSize ≤ nb.addr) (hstop : nb.stop headerSize ≤ 4294967296)
    (hlt : nb.addr+headerSize < 4294967296) (hreq : req ≤ nb.size)
    (hclear : ∀ b ∈ bs, Clear headerSize b nb) :
    ∃ h', growHeap h req (lastAddr 0 bs) = (nb.addr+headerSize, h') ∧
      Represents h' (bs ++ carve headerSize 16 req nb) ∧
      SameOff (headers bs ∪ Set.Ico nb.addr (nb.stop headerSize)) h.mem h'.mem ∧
      h'.pmm = (grownPages h (pagesFor (wrap (req+headerSize)))).pmm ∧
      h'.pages = (grownPages h (pagesFor (wrap (req+headerSize)))).pages := by
  have hne : nb.addr ≠ 0 := by
    unfold pageSize at hlow
    omega
  obtain ⟨hm, hs⟩ := growPages_same (pagesFor (wrap (req+headerSize)) - 1) (takeHeapPage h).2
  have hm0 : (takeHeapPage h).2.mem = h.mem := rfl
  have hs0 : (takeHeapPage h).2.heapStart = h.heapStart := rfl
  unfold growHeap
  dsimp only
  rw [hpage, if_neg hne, hsize, hm, hs, hm0, hs0, wrap_of_lt hlt]
  obtain ⟨hseg, hoff⟩ := writeHeader_seg (m := h.mem) hlow hstop
  rw [hfree, if_neg Bool.false_ne_true] at hseg hoff
  have hold : HeapSeg (writeHeader h.mem nb.addr nb.size 0 0) h.heapStart bs 0 :=
    seg_off hoff (fun b hb => ⟨clear_headers (hclear b hb), space_header hspace hb⟩) hrep
  obtain ⟨hlink, hlinkOff⟩ := link_seg hold hspace hapart hseg hclear hstop
  obtain ⟨hsplit, hsplitOff⟩ := split_last hlink hspace hapart hclear hlow hstop hreq hfree
  refine ⟨_, rfl, hsplit, ?_, rfl, rfl⟩
  have hown : headerRange nb.addr ⊆ Set.Ico nb.addr (nb.stop headerSize) := by
    unfold headerRange Block.stop
    exact Set.Ico_subset_Ico le_rfl (by omega)
  exact ((hoff.mono (hown.trans Set.subset_union_right)).trans
    (hlinkOff.mono Set.subset_union_left)).trans (hsplitOff.mono Set.subset_union_right)

/-- On consecutive pages the growth path appends one block and splits it. -/
theorem growHeap_blocks {h : Heap} {bs : List Block} {f req : ℕ} (hrep : Represents h bs)
    (hspace : InSpace bs) (hapart : Apart headerSize bs) (hp : Padded h.pmm) (hf : 0 < f)
    (hreq : req+headerSize+4095 < 4294967296)
    (hr : FreeRun h.pmm f (pagesFor (wrap (req+headerSize))))
    (hclear : ∀ b ∈ bs, Clear headerSize b (grownBlock f req)) :
    ∃ h', growHeap h req (lastAddr 0 bs) = (f*pageSize+headerSize, h') ∧
      Represents h' (bs ++ carve headerSize 16 req (grownBlock f req)) ∧
      Took h { h' with mem := h.mem, heapStart := h.heapStart } f (pagesFor (wrap (req+headerSize))) := by
  obtain ⟨hlow, -, hstop, hsize, hptr, hsub⟩ := grownBlock_facts hp hf hreq hr
  have hn := (pagesFor_room hreq).1
  have htook := growPages_took hp hf hr
  have hpage : (takeHeapPage h).1 = f*pageSize := by
    obtain ⟨k, hk⟩ := Nat.exists_eq_succ_of_ne_zero (Nat.ne_of_gt hn)
    rw [hk] at hr
    exact (takeHeapPage_took hp hf hr).1
  have hlt : (grownBlock f req).addr+headerSize < 4294967296 := by
    change f*pageSize+headerSize < 4294967296
    rw [← hptr]
    exact wrap_lt _
  obtain ⟨h', hg, hblocks, -, hpmm, hpages⟩ :=
    growHeap_list hrep hspace hapart hpage hsub rfl hlow hstop hlt hsize hclear
  rw [grownPages, growPages_pred hn] at hpmm hpages
  refine ⟨h', hg, hblocks, rfl, rfl, ?_, ?_, ?_, ?_⟩
  · exact (congrArg freeSet hpmm).trans htook.free
  · exact (show h'.pmm = _ from hpmm) ▸ htook.padded
  · exact (congrArg Pmm.totalPages hpmm).trans htook.total
  · intro a
    change a ∈ h'.pages ↔ _
    rw [hpages]
    exact htook.pages a

end Dionnex.HeapPages
