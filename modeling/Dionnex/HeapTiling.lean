import Dionnex.HeapPages
import Dionnex.LabelledRuns

/-!
# Runs of the heap inside one region

As long as no call asks the page allocator for more memory, the blocks tile
the region the heap started with. Beside the heap a run keeps the live
allocations with the sizes they were made for; between calls the owners of
live allocations may write to their bytes. A call that ends in a panic or
never ends has no next state but an error, and no such error is reached.
-/

set_option autoImplicit false

namespace Dionnex.HeapTiling
open ByteMemory LabelledRuns FirstFit Dionnex.PmmBitmap Dionnex.KernelHeap Dionnex.HeapBlocks
  Dionnex.HeapPages

structure System where
  heap : Heap
  live : List (ℕ × ℕ)

inductive Event where
  | kmalloc (size : ℕ)
  | kcalloc (count size : ℕ)
  | krealloc (ptr size : ℕ)
  | kfree (ptr : ℕ)
  | write (mem : Mem)

def without (ptr : ℕ) (live : List (ℕ × ℕ)) : List (ℕ × ℕ) := live.filter (fun a => a.1 ≠ ptr)

/-- The live allocations after a call for `size` bytes that returned `ret`. -/
def granted (live : List (ℕ × ℕ)) (ret size : ℕ) : List (ℕ × ℕ) :=
  if ret = 0 then live else (ret, size)::live

/-- A failed reallocation leaves the old allocation alone, one to zero bytes releases it. -/
def moved (live : List (ℕ × ℕ)) (ptr ret size : ℕ) : List (ℕ × ℕ) :=
  if ret = 0 ∧ size ≠ 0 then live else granted (without ptr live) ret size

def perform (s : System) : Event → Except Fault System
  | .kmalloc size =>
    (KernelHeap.kmalloc s.heap size).map (fun r => ⟨r.2, granted s.live r.1 size⟩)
  | .kcalloc count size =>
    (KernelHeap.kcalloc s.heap count size).map (fun r => ⟨r.2, granted s.live r.1 (wrap (count*size))⟩)
  | .krealloc ptr size =>
    (KernelHeap.krealloc s.heap ptr size).map (fun r => ⟨r.2, moved s.live ptr r.1 size⟩)
  | .kfree ptr => (KernelHeap.kfree s.heap ptr).map (fun h => ⟨h, without ptr s.live⟩)
  | .write mem => .ok { s with heap := { s.heap with mem := mem } }

def Live (s : System) (ptr : ℕ) : Prop := ∃ a ∈ s.live, a.1 = ptr

/-- `kmalloc` would get a page for this request. -/
def Grows (h : Heap) (size : ℕ) : Prop :=
  size ≠ 0 ∧ (∃ last, findFit h.mem (alignUp4 size) loopBound h.heapStart 0 = .ok (.missing last)) ∧
    (pmmAllocPage h.pmm).1 ≠ 0

/-- Reallocations that reach `kmalloc`. -/
def Reallocates (h : Heap) (ptr size : ℕ) : Prop := ptr = 0 ∨ sizeAt h.mem (sub32 ptr headerSize) < size

def Allowed (s : System) : Event → Prop
  | .kmalloc size => size ≤ maxRequest ∧ ¬ Grows s.heap size
  | .kcalloc count size => wrap (count*size) ≤ maxRequest ∧ ¬ Grows s.heap (wrap (count*size))
  | .krealloc ptr size => (ptr = 0 ∨ Live s ptr) ∧ size ≤ maxRequest ∧
      (Reallocates s.heap ptr size → ¬ Grows s.heap size)
  | .kfree ptr => ptr = 0 ∨ Live s ptr
  | .write mem => SameOff {x | ∃ a ∈ s.live, a.1 ≤ x ∧ x < a.1+a.2} s.heap.mem mem

def Step : Except Fault System → Event → Except Fault System → Prop
  | .ok s, e, t => Allowed s e ∧ t = perform s e
  | .error _, _, _ => False

/-- The data bytes of the block behind a pointer. -/
def dataRange (h : Heap) (ptr : ℕ) : Set ℕ :=
  Set.Ico ptr (ptr + sizeAt h.mem (sub32 ptr headerSize))

structure Tiled (base total : ℕ) (s : System) (bs : List Block) : Prop where
  linked : LinkedChain.Chain (nextAt s.heap.mem) s.heap.heapStart (bs.map Block.addr)
  headers : ∀ b ∈ bs, magicAt s.heap.mem b.addr = heapMagic ∧ sizeAt s.heap.mem b.addr = b.size ∧
    (freeAt s.heap.mem b.addr ≠ 0 ↔ b.free = true)
  tiles : Tiles headerSize base bs (base+total)
  capacity : ∀ a ∈ s.live, ∃ b ∈ bs, a.1 = b.addr+headerSize ∧ b.free = false ∧ a.2 ≤ b.size
  disjoint : s.live.Pairwise (fun a b => Disjoint (dataRange s.heap a.1) (dataRange s.heap b.1))
  offHeaders : ∀ a ∈ s.live, ∀ b ∈ bs, Disjoint (dataRange s.heap a.1) (headerRange b.addr)
  account : ∃ free used, heapGetFree s.heap = .ok free ∧ heapGetUsed s.heap = .ok used ∧
    free + used + headerSize*bs.length = total

/-- No fault, and the blocks tile the region. -/
def Sound (base total : ℕ) (t : Except Fault System) : Prop := ∃ s bs, t = .ok s ∧ Tiled base total s bs

/-- A heap that is one free block. -/
structure FreshRegion (base total : ℕ) (h : Heap) : Prop where
  low : pageSize ≤ base
  high : base+total ≤ 4294967296
  room : headerSize ≤ total
  blocks : Represents h [⟨base, total-headerSize, true⟩]

structure Inv (base total : ℕ) (s : System) (bs : List Block) : Prop where
  low : pageSize ≤ base
  high : base+total ≤ 4294967296
  blocks : Represents s.heap bs
  tiles : Tiles headerSize base bs (base+total)
  distinct : (s.live.map Prod.fst).Nodup
  capacity : ∀ a ∈ s.live, ∃ b ∈ bs, a.1 = b.addr+headerSize ∧ b.free = false ∧ 0 < a.2 ∧ a.2 ≤ b.size

/-- Merged as far as it goes, and every block in use belongs to a live allocation. -/
structure Packed (s : System) (bs : List Block) : Prop where
  nopair : NoFreePair bs
  owned : ∀ b ∈ bs, b.free = false → Live s (b.addr+headerSize)

variable {base total : ℕ} {s : System} {bs : List Block}

theorem Inv.space (hi : Inv base total s bs) : InSpace bs := by
  intro b hb
  have hin := tiles_mem hi.tiles hb
  exact ⟨hi.low.trans hin.1, hin.2.trans hi.high⟩

theorem Inv.apart (hi : Inv base total s bs) : Apart headerSize bs := tiles_apart hi.tiles

/-- The block behind a live pointer. -/
theorem Inv.block (hi : Inv base total s bs) {a : ℕ × ℕ} (ha : a ∈ s.live) :
    ∃ b ∈ bs, a.1 = b.addr+headerSize ∧ b.free = false ∧ a.2 ≤ b.size ∧
      b.addr+headerSize < 4294967296 ∧ dataRange s.heap a.1 = Set.Ico (b.addr+headerSize) (b.stop headerSize) := by
  obtain ⟨b, hb, hp, hfree, hpos, hle⟩ := hi.capacity a ha
  have hstop := (hi.space b hb).2
  have hlt : b.addr+headerSize < 4294967296 := by
    unfold Block.stop at hstop
    omega
  refine ⟨b, hb, hp, hfree, hle, hlt, ?_⟩
  rw [dataRange, hp, ptr_block hlt, (hi.blocks.2 b hb).size]
  rfl

theorem data_clear {a b : Block} (h : Clear headerSize a b) :
    Disjoint (Set.Ico (a.addr+headerSize) (a.stop headerSize))
      (Set.Ico (b.addr+headerSize) (b.stop headerSize)) := by
  rw [Set.Ico_disjoint_Ico]
  unfold Clear Block.stop at *
  omega

theorem Inv.tiled (hi : Inv base total s bs) : Tiled base total s bs where
  linked := hi.blocks.1
  headers b hb := by
    have h := hi.blocks.2 b hb
    exact ⟨h.magic, h.size, flag_iff h⟩
  tiles := hi.tiles
  capacity a ha := by
    obtain ⟨b, hb, hp, hfree, -, hle⟩ := hi.capacity a ha
    exact ⟨b, hb, hp, hfree, hle⟩
  disjoint := by
    have hpair := List.pairwise_map.mp hi.distinct
    refine hpair.imp_of_mem ?_
    intro a b ha hb hab
    obtain ⟨x, hx, hpx, -, -, -, hdx⟩ := hi.block ha
    obtain ⟨y, hy, hpy, -, -, -, hdy⟩ := hi.block hb
    rw [hdx, hdy]
    refine data_clear (apart_clear hi.apart hx hy ?_)
    intro hxy
    exact hab (by rw [hpx, hpy, hxy])
  offHeaders a ha b hb := by
    obtain ⟨x, hx, -, -, -, -, hdx⟩ := hi.block ha
    rw [hdx]
    exact (data_header hi.apart hx hb).symm
  account := by
    have htotal := tiles_total hi.tiles
    have hhigh := hi.high
    have hlow := hi.low
    unfold pageSize at hlow
    obtain ⟨free, used, hf, hu, hsum⟩ := heapGet_blocks hi.blocks hi.space (by omega)
    exact ⟨free, used, hf, hu, by omega⟩

theorem fresh_inv {h : Heap} (hf : FreshRegion base total h) :
    Inv base total ⟨h, []⟩ [⟨base, total-headerSize, true⟩] where
  low := hf.low
  high := hf.high
  blocks := hf.blocks
  tiles := by
    have hroom := hf.room
    refine ⟨rfl, ?_⟩
    simp only [Tiles, Block.stop]
    omega
  distinct := List.nodup_nil
  capacity a ha := by cases ha

/-- What `kmalloc` does to a tiled heap when it does not grow. -/
theorem kmalloc_tiled {h : Heap} {e size : ℕ} (hr : Represents h bs) (ht : Tiles headerSize base bs e)
    (hs : InSpace bs) (hmax : size ≤ maxRequest) (hg : ¬ Grows h size) :
    (∃ h', kmalloc h size = .ok (0, h') ∧ Represents h' bs) ∨
    (∃ m' bs' c, kmalloc h size = .ok (c.addr+headerSize, { h with mem := m' }) ∧
      Represents { h with mem := m' } bs' ∧ place headerSize 16 (alignUp4 size) bs = some (c.addr, bs') ∧
      c ∈ bs' ∧ c.free = false ∧ size ≤ c.size ∧ 0 < size ∧
      ∀ x ∈ bs, x.free = false → x ∈ bs' ∧ x.addr ≠ c.addr) := by
  by_cases h0 : size = 0
  · exact Or.inl ⟨h, by rw [kmalloc, if_pos h0], hr⟩
  cases hp : place headerSize 16 (alignUp4 size) bs with
  | none =>
    have hm := kmalloc_missing hr hs h0 hp
    have hnopage : (pmmAllocPage h.pmm).1 = 0 := by
      by_contra hpage
      exact hg ⟨h0, ⟨_, findFit_missing hr (place_none.mp hp) (represents_length hr hs)⟩, hpage⟩
    refine Or.inl ⟨(takeHeapPage h).2, ?_, hr⟩
    rw [hm, growHeap_null hnopage]
  | some r =>
    obtain ⟨p, bs'⟩ := r
    obtain ⟨m', b, hk, hrep, hb, hfit, rfl, -⟩ := kmalloc_found hr (tiles_apart ht) hs h0 hmax hp
    obtain ⟨c, hc, hcb, hcfree, hreq⟩ := place_taken hp
    refine Or.inr ⟨m', bs', c, hcb ▸ hk, hrep, by rw [hcb], hc, hcfree,
      (alignUp4_ge hmax).1.trans hreq, Nat.pos_of_ne_zero h0, ?_⟩
    intro x hx hfree
    refine ⟨place_kept hp hx (used_not_fits hfree), ?_⟩
    rw [hcb]
    intro hxb
    have hsame := apart_mem (by decide) (tiles_apart ht) hx hb hxb
    subst hsame
    rw [hfit.1] at hfree
    cases hfree

theorem kfree_tiled {h : Heap} {e : ℕ} {b : Block} (hr : Represents h bs)
    (ht : Tiles headerSize base bs e) (hs : InSpace bs) (hb : b ∈ bs)
    (hlt : b.addr+headerSize < 4294967296) :
    ∃ m' bs', kfree h (b.addr+headerSize) = .ok { h with mem := m' } ∧
      Represents { h with mem := m' } bs' ∧ Tiles headerSize base bs' e ∧ NoFreePair bs' ∧
      (∀ x ∈ bs, x ≠ b → x.free = false → x ∈ bs') ∧
      ∀ x ∈ bs', x.free = false → x ∈ bs ∧ x.addr ≠ b.addr := by
  obtain ⟨l, r, rfl⟩ := List.append_of_mem hb
  have ht' : Tiles headerSize base (l ++ { b with free := true }::r) e := by
    have hone := tiles_replace (c := [{ b with free := true }]) ht ⟨rfl, rfl⟩
    rw [List.append_assoc] at hone
    exact hone
  obtain ⟨m', hk, hrep, -⟩ := kfree_blocks hr (tiles_apart ht) hs (ptr_block hlt)
    (by unfold headerSize; omega)
  obtain ⟨-, hbr, hcross⟩ := apart_append.mp (tiles_apart ht)
  refine ⟨m', _, hk, hrep, tiles_coalesce ht', noFreePair_coalesce _, ?_, ?_⟩
  · intro x hx hne hfree
    apply coalesce_used _ hfree
    rcases List.mem_append.mp hx with hx | hx
    · exact List.mem_append_left _ hx
    · rcases List.mem_cons.mp hx with hx | hx
      · exact (hne hx).elim
      · exact List.mem_append_right l (List.mem_cons_of_mem _ hx)
  · intro x hx hfree
    have hold := (coalesce_used_iff hfree).mp hx
    rcases List.mem_append.mp hold with hx | hx
    · exact ⟨List.mem_append_left _ hx, clear_addr (by decide) (hcross x hx b List.mem_cons_self)⟩
    · rcases List.mem_cons.mp hx with rfl | hx
      · cases hfree
      · have hclear := (List.pairwise_cons.mp hbr).1 x hx
        exact ⟨List.mem_append_right l (List.mem_cons_of_mem b hx), (clear_addr (by decide) hclear).symm⟩

theorem mem_without {ptr : ℕ} {live : List (ℕ × ℕ)} {a : ℕ × ℕ} :
    a ∈ without ptr live ↔ a ∈ live ∧ a.1 ≠ ptr := by
  simp [without]

theorem without_nodup {ptr : ℕ} {live : List (ℕ × ℕ)} (h : (live.map Prod.fst).Nodup) :
    ((without ptr live).map Prod.fst).Nodup :=
  h.sublist (List.Sublist.map Prod.fst List.filter_sublist)

theorem Inv.ptr_ne_zero (hi : Inv base total s bs) {a : ℕ × ℕ} (ha : a ∈ s.live) : a.1 ≠ 0 := by
  obtain ⟨b, -, hp, -⟩ := hi.capacity a ha
  rw [hp]
  unfold headerSize
  omega

theorem Inv.without_zero (hi : Inv base total s bs) : without 0 s.live = s.live :=
  List.filter_eq_self.mpr (fun a ha => by simpa using hi.ptr_ne_zero ha)

/-- New blocks with the old live allocations, or fewer of them. -/
theorem Inv.update (hi : Inv base total s bs) {h' : Heap} {bs' : List Block} {live : List (ℕ × ℕ)}
    (hr : Represents h' bs') (ht : Tiles headerSize base bs' (base+total))
    (hnodup : (live.map Prod.fst).Nodup)
    (hlive : ∀ a ∈ live, a ∈ s.live ∧ ∀ b ∈ bs, a.1 = b.addr+headerSize → b.free = false → b ∈ bs') :
    Inv base total ⟨h', live⟩ bs' where
  low := hi.low
  high := hi.high
  blocks := hr
  tiles := ht
  distinct := hnodup
  capacity a ha := by
    obtain ⟨hold, hkeep⟩ := hlive a ha
    obtain ⟨b, hb, hp, hfree, hsize⟩ := hi.capacity a hold
    exact ⟨b, hkeep b hb hp hfree, hp, hfree, hsize⟩

/-- One more allocation, made of a block that no live pointer points to. -/
theorem Inv.grant {h' : Heap} {bs' : List Block} {live : List (ℕ × ℕ)} {c : Block} {size : ℕ}
    (hi : Inv base total ⟨h', live⟩ bs') (hc : c ∈ bs') (hfree : c.free = false) (hsize : size ≤ c.size)
    (hpos : 0 < size) (hnew : ∀ a ∈ live, a.1 ≠ c.addr+headerSize) :
    Inv base total ⟨h', (c.addr+headerSize, size)::live⟩ bs' where
  low := hi.low
  high := hi.high
  blocks := hi.blocks
  tiles := hi.tiles
  distinct := by
    refine List.nodup_cons.mpr ⟨?_, hi.distinct⟩
    intro hmem
    obtain ⟨a, ha, hp⟩ := List.mem_map.mp hmem
    exact hnew a ha hp
  capacity a ha := by
    rcases List.mem_cons.mp ha with rfl | ha
    · exact ⟨c, hc, rfl, hfree, hpos, hsize⟩
    · exact hi.capacity a ha

theorem kmalloc_inv (hi : Inv base total s bs) {size : ℕ} (hmax : size ≤ maxRequest)
    (hg : ¬ Grows s.heap size) :
    ∃ q h' bs', kmalloc s.heap size = .ok (q, h') ∧ Inv base total ⟨h', granted s.live q size⟩ bs' ∧
      (q = 0 ∨ ∃ c ∈ bs', q = c.addr+headerSize ∧ c.free = false ∧ size ≤ c.size ∧ 0 < size) ∧
      (∀ x ∈ bs, x.free = false → x ∈ bs' ∧ q ≠ x.addr+headerSize) ∧
      (Packed s bs → Packed ⟨h', granted s.live q size⟩ bs') := by
  rcases kmalloc_tiled hi.blocks hi.tiles hi.space hmax hg with
    ⟨h', hk, hr⟩ | ⟨m', bs', c, hk, hr, hp, hc, hfree, hsize, hpos, hused⟩
  · refine ⟨0, h', bs, hk, ?_, Or.inl rfl, ?_, ?_⟩
    · rw [granted, if_pos rfl]
      exact hi.update hr hi.tiles hi.distinct (fun a ha => ⟨ha, fun b hb _ _ => hb⟩)
    · intro x hx hxfree
      refine ⟨hx, ?_⟩
      unfold headerSize
      omega
    · intro hpk
      rw [granted, if_pos rfl]
      exact ⟨hpk.nopair, hpk.owned⟩
  · have hq : c.addr+headerSize ≠ 0 := by
      unfold headerSize
      omega
    refine ⟨_, _, bs', hk, ?_, Or.inr ⟨c, hc, rfl, hfree, hsize, hpos⟩, ?_, ?_⟩
    · rw [granted, if_neg hq]
      refine Inv.grant (hi.update hr (tiles_place hi.tiles hp) hi.distinct ?_) hc hfree hsize hpos ?_
      · intro a ha
        exact ⟨ha, fun b hb _ hbfree => (hused b hb hbfree).1⟩
      · intro a ha hac
        obtain ⟨b, hb, hp, hbfree, -⟩ := hi.capacity a ha
        exact (hused b hb hbfree).2 (Nat.add_right_cancel (hp.symm.trans hac))
    · intro x hx hxfree
      refine ⟨(hused x hx hxfree).1, ?_⟩
      intro hqx
      exact (hused x hx hxfree).2 (Nat.add_right_cancel hqx.symm)
    · intro hpk
      rw [granted, if_neg hq]
      refine ⟨noFreePair_place hpk.nopair hp, ?_⟩
      intro x hx hxfree
      rcases place_used hp hx hxfree with hold | hnew
      · obtain ⟨a, ha, hax⟩ := hpk.owned x hold hxfree
        exact ⟨a, List.mem_cons_of_mem _ ha, hax⟩
      · exact ⟨_, List.mem_cons_self, by rw [hnew]⟩

theorem kfree_inv (hi : Inv base total s bs) {ptr : ℕ} (hp : ptr = 0 ∨ Live s ptr) :
    ∃ h' bs', kfree s.heap ptr = .ok h' ∧ Inv base total ⟨h', without ptr s.live⟩ bs' ∧
      (Packed s bs → Packed ⟨h', without ptr s.live⟩ bs') := by
  rcases hp with rfl | ⟨a, ha, rfl⟩
  · refine ⟨s.heap, bs, by rw [kfree, if_pos rfl], ?_⟩
    rw [hi.without_zero]
    exact ⟨hi, id⟩
  · obtain ⟨b, hb, hpb, hfree, -, hlt, -⟩ := hi.block ha
    obtain ⟨m', bs', hk, hr, ht, hnp, hused, hold⟩ := kfree_tiled hi.blocks hi.tiles hi.space hb hlt
    rw [hpb]
    refine ⟨_, bs', hk, hi.update hr ht (without_nodup hi.distinct) ?_, fun hpk => ⟨hnp, ?_⟩⟩
    · intro x hx
      obtain ⟨hxlive, hne⟩ := mem_without.mp hx
      refine ⟨hxlive, fun y hy hpy hyfree => hused y hy ?_ hyfree⟩
      rintro rfl
      exact hne hpy
    · intro x hx hxfree
      obtain ⟨hxold, hne⟩ := hold x hx hxfree
      obtain ⟨y, hy, hyx⟩ := hpk.owned x hxold hxfree
      refine ⟨y, mem_without.mpr ⟨hy, ?_⟩, hyx⟩
      rw [hyx]
      exact fun h => hne (Nat.add_right_cancel h)

theorem kcalloc_inv (hi : Inv base total s bs) {count size : ℕ} (hmax : wrap (count*size) ≤ maxRequest)
    (hg : ¬ Grows s.heap (wrap (count*size))) :
    ∃ s' bs', perform s (.kcalloc count size) = .ok s' ∧ Inv base total s' bs' ∧
      (Packed s bs → Packed s' bs') := by
  obtain ⟨q, h', bs', hk, hinv, hq, -, hpk⟩ := kmalloc_inv hi hmax hg
  have hperf : perform s (.kcalloc count size) =
      (kmalloc s.heap (wrap (count*size))).map (fun r =>
        let r := if r.1 = 0 then r else (r.1, { r.2 with mem := memset r.2.mem r.1 0 (wrap (count*size)) })
        ⟨r.2, granted s.live r.1 (wrap (count*size))⟩) := by
    rw [perform, kcalloc]
    cases kmalloc s.heap (wrap (count*size)) with
    | error f => rfl
    | ok r => rfl
  rw [hperf, hk]
  rcases hq with rfl | ⟨c, hc, rfl, hfree, hsize, -⟩
  · exact ⟨_, bs', rfl, hinv, hpk⟩
  · have h0 : c.addr+headerSize ≠ 0 := by
      unfold headerSize
      omega
    refine ⟨_, bs', rfl, ?_⟩
    dsimp only
    rw [if_neg h0]
    have hr := data_write hinv.blocks hinv.apart hinv.space hc hsize
      (memset_off h'.mem (c.addr+headerSize) 0 (wrap (count*size)))
    exact ⟨⟨hinv.low, hinv.high, hr, hinv.tiles, hinv.distinct, hinv.capacity⟩,
      fun h => ⟨(hpk h).nopair, (hpk h).owned⟩⟩

theorem kmalloc_event (hi : Inv base total s bs) {size : ℕ} (ha : Allowed s (.kmalloc size)) :
    ∃ s' bs', perform s (.kmalloc size) = .ok s' ∧ Inv base total s' bs' ∧
      (Packed s bs → Packed s' bs') := by
  obtain ⟨q, h', bs', hk, hinv, -, -, hpk⟩ := kmalloc_inv hi ha.1 ha.2
  refine ⟨⟨h', granted s.live q size⟩, bs', ?_, hinv, hpk⟩
  rw [perform, hk]
  rfl

theorem kfree_event (hi : Inv base total s bs) {ptr : ℕ} (ha : Allowed s (.kfree ptr)) :
    ∃ s' bs', perform s (.kfree ptr) = .ok s' ∧ Inv base total s' bs' ∧
      (Packed s bs → Packed s' bs') := by
  obtain ⟨h', bs', hk, hinv⟩ := kfree_inv hi ha
  refine ⟨⟨h', without ptr s.live⟩, bs', ?_, hinv⟩
  rw [perform, hk]
  rfl

theorem write_event (hi : Inv base total s bs) {mem : Mem} (ha : Allowed s (.write mem)) :
    ∃ s' bs', perform s (.write mem) = .ok s' ∧ Inv base total s' bs' ∧
      (Packed s bs → Packed s' bs') := by
  have hr : Represents { s.heap with mem := mem } bs := by
    refine represents_write hi.blocks hi.space ha ?_
    intro b hb
    rw [Set.disjoint_right]
    rintro x ⟨a, halive, hlo, hhi⟩
    obtain ⟨c, hc, hp, -, hle, -⟩ := hi.block halive
    refine Set.disjoint_right.mp (data_header hi.apart hc hb) ⟨by omega, ?_⟩
    unfold Block.stop
    omega
  exact ⟨_, bs, rfl, ⟨hi.low, hi.high, hr, hi.tiles, hi.distinct, hi.capacity⟩,
    fun h => ⟨h.nopair, h.owned⟩⟩

/-- A reallocation that cannot stay in place copies and releases the old block. -/
theorem krealloc_move (hi : Inv base total s bs) {a : ℕ × ℕ} {size : ℕ} (hlive : a ∈ s.live)
    (hmax : size ≤ maxRequest) (h0 : size ≠ 0)
    (hsmall : sizeAt s.heap.mem (sub32 a.1 headerSize) < size) (hg : ¬ Grows s.heap size) :
    ∃ s' bs', perform s (.krealloc a.1 size) = .ok s' ∧ Inv base total s' bs' ∧
      (Packed s bs → Packed s' bs') := by
  obtain ⟨b, hb, hpb, hfree, -, hlt, -⟩ := hi.block hlive
  have hh := hi.blocks.2 b hb
  rw [hpb, ptr_block hlt, hh.size] at hsmall
  obtain ⟨q, h', bs', hk, hinv, hq, hkeep, hpk⟩ := kmalloc_inv hi hmax hg
  obtain ⟨hb', hqb⟩ := hkeep b hb hfree
  have hstart := krealloc_small hh hlt hsmall
  rw [← hpb] at hstart
  rw [perform, hstart, hk]
  rcases hq with rfl | ⟨c, hc, rfl, hcfree, hsize, hpos⟩
  · refine ⟨⟨h', s.live⟩, bs', ?_, ?_⟩
    · simp only [Except.bind, Except.map, if_true, moved, h0, ne_eq, not_false_eq_true, and_self]
    · rw [granted, if_pos rfl] at hinv hpk
      exact ⟨hinv, hpk⟩
  · have hq0 : c.addr+headerSize ≠ 0 := by
      unfold headerSize
      omega
    have hbsize : sizeAt h'.mem b.addr = b.size := (hinv.blocks.2 b hb').size
    have hcopy : b.size ≤ c.size := by omega
    have hr := data_write hinv.blocks hinv.apart hinv.space hc hcopy
      (memcpy_off h'.mem (c.addr+headerSize) a.1 b.size)
    have hcopied : Inv base total ⟨{ h' with mem := memcpy h'.mem (c.addr+headerSize) a.1 b.size },
        granted s.live (c.addr+headerSize) size⟩ bs' :=
      ⟨hinv.low, hinv.high, hr, hinv.tiles, hinv.distinct, hinv.capacity⟩
    have hstill : Live ⟨{ h' with mem := memcpy h'.mem (c.addr+headerSize) a.1 b.size },
        granted s.live (c.addr+headerSize) size⟩ a.1 := by
      refine ⟨a, ?_, rfl⟩
      rw [granted, if_neg hq0]
      exact List.mem_cons_of_mem _ hlive
    obtain ⟨h'', bs'', hkf, hfin, hpf⟩ := kfree_inv hcopied (Or.inr hstill)
    refine ⟨⟨h'', granted (without a.1 s.live) (c.addr+headerSize) size⟩, bs'', ?_, ?_⟩
    · simp only [Except.bind, hbsize, if_neg hq0]
      rw [hkf]
      simp only [Except.map, moved, if_neg (fun h : c.addr+headerSize = 0 ∧ size ≠ 0 => hq0 h.1)]
    · have hne : c.addr+headerSize ≠ a.1 := by
        rw [hpb]
        exact hqb
      rw [granted, if_neg hq0] at hfin hpf hpk ⊢
      have hfilter : without a.1 ((c.addr+headerSize, size)::s.live) =
          (c.addr+headerSize, size)::without a.1 s.live :=
        List.filter_cons_of_pos (by simpa using hne)
      rw [hfilter] at hfin hpf
      exact ⟨hfin, fun h => hpf ⟨(hpk h).nopair, (hpk h).owned⟩⟩

theorem krealloc_event (hi : Inv base total s bs) {ptr size : ℕ} (ha : Allowed s (.krealloc ptr size)) :
    ∃ s' bs', perform s (.krealloc ptr size) = .ok s' ∧ Inv base total s' bs' ∧
      (Packed s bs → Packed s' bs') := by
  obtain ⟨hptr, hmax, hg⟩ := ha
  by_cases hp0 : ptr = 0
  · subst hp0
    obtain ⟨q, h', bs', hk, hinv, -, -, hpk⟩ := kmalloc_inv hi hmax (hg (Or.inl rfl))
    refine ⟨_, bs', by rw [perform, krealloc, if_pos rfl, hk]; rfl, ?_⟩
    dsimp only
    rw [moved, hi.without_zero]
    by_cases hnull : q = 0 ∧ size ≠ 0
    · rw [if_pos hnull]
      rw [granted, if_pos hnull.1] at hinv hpk
      exact ⟨hinv, hpk⟩
    · rw [if_neg hnull]
      exact ⟨hinv, hpk⟩
  · obtain ⟨a, hlive, rfl⟩ := hptr.resolve_left hp0
    by_cases h0 : size = 0
    · subst h0
      obtain ⟨h', bs', hk, hinv⟩ := kfree_inv hi (Or.inr ⟨a, hlive, rfl⟩)
      refine ⟨⟨h', without a.1 s.live⟩, bs', ?_, hinv⟩
      rw [perform, krealloc, if_neg hp0, if_pos rfl, hk]
      rfl
    · by_cases hsmall : sizeAt s.heap.mem (sub32 a.1 headerSize) < size
      · exact krealloc_move hi hlive hmax h0 hsmall (hg (Or.inr hsmall))
      · obtain ⟨b, hb, hpb, hfree, -, hlt, -⟩ := hi.block hlive
        have hh := hi.blocks.2 b hb
        rw [hpb, ptr_block hlt, hh.size] at hsmall
        have hstays := krealloc_stays hh hlt h0 (Nat.not_lt.mp hsmall)
        rw [← hpb] at hstays
        refine ⟨⟨s.heap, granted (without a.1 s.live) a.1 size⟩, bs, ?_, ?_⟩
        · rw [perform, hstays]
          simp only [Except.map, moved, if_neg (fun h : a.1 = 0 ∧ size ≠ 0 => hp0 h.1)]
        · rw [granted, if_neg hp0, hpb]
          refine ⟨Inv.grant (hi.update hi.blocks hi.tiles (without_nodup hi.distinct) ?_) hb hfree
            (Nat.not_lt.mp hsmall) (Nat.pos_of_ne_zero h0) ?_, fun hpk => ⟨hpk.nopair, ?_⟩⟩
          · intro x hx
            exact ⟨(mem_without.mp hx).1, fun y hy _ _ => hy⟩
          · intro x hx
            exact (mem_without.mp hx).2
          · intro x hx hxfree
            obtain ⟨y, hy, hyx⟩ := hpk.owned x hx hxfree
            by_cases hyp : y.1 = b.addr+headerSize
            · exact ⟨_, List.mem_cons_self, hyp.symm.trans hyx⟩
            · exact ⟨y, List.mem_cons_of_mem _ (mem_without.mpr ⟨hy, hyp⟩), hyx⟩

theorem perform_inv (hi : Inv base total s bs) {e : Event} (ha : Allowed s e) :
    ∃ s' bs', perform s e = .ok s' ∧ Inv base total s' bs' ∧ (Packed s bs → Packed s' bs') := by
  cases e with
  | kmalloc size => exact kmalloc_event hi ha
  | kcalloc count size => exact kcalloc_inv hi ha.1 ha.2
  | krealloc ptr size => exact krealloc_event hi ha
  | kfree ptr => exact kfree_event hi ha
  | write mem => exact write_event hi ha

/-- Every run of calls that do not grow the heap keeps the region tiled, without a fault. -/
theorem heap_stays_tiled (base total : ℕ) (h : Heap) (hf : FreshRegion base total h)
    (tr : List (Event × Except Fault System)) (hr : Run Step (.ok ⟨h, []⟩) tr) :
    Along (fun _ _ t => Sound base total t) (.ok ⟨h, []⟩) tr := by
  refine along_mono (fun s e t h => h.2) _ _
    (run_invariant (I := fun t => ∃ s bs, t = .ok s ∧ Inv base total s bs) ?_ _ tr
      ⟨_, _, rfl, fresh_inv hf⟩ hr)
  rintro _ e t ⟨s, bs, rfl, hi⟩ ⟨ha, rfl⟩
  obtain ⟨s', bs', hs', hi', -⟩ := perform_inv hi ha
  exact ⟨⟨s', bs', hs', hi'⟩, s', bs', hs', hi'.tiled⟩

/-- `heap_init` on consecutive pages starts such runs. -/
theorem heapInit_fresh {h : Heap} {f size : ℕ} (defaultStart start : ℕ) (hp : Padded h.pmm) (hf : 0 < f)
    (hsize : initSize size ≤ maxInitSize) (hr : FreeRun h.pmm f (pagesFor (initSize size))) :
    ∃ h', heapInit defaultStart h start size = .ok h' ∧
      FreshRegion (f*pageSize) (pagesFor (initSize size)*pageSize) h' := by
  obtain ⟨h', hinit, hblocks, -⟩ := heapInit_blocks defaultStart start hp hf hsize hr
  obtain ⟨hmin, -⟩ := initSize_pages hsize
  have hspace := freeRun_space hp (by omega) hr
  rw [Nat.add_mul] at hspace
  refine ⟨h', hinit, ⟨Nat.le_mul_of_pos_left pageSize hf, hspace, ?_, hblocks⟩⟩
  unfold headerSize pageSize
  omega

/-- Page 0 is taken and 1023 pages are free. -/
def samplePmm : Pmm := ⟨fun i => if i = 0 then 1#32 else 0#32, 32, 1024, 1023⟩

def sampleHeap : Heap := ⟨fun _ => 0, 0, 0, samplePmm, []⟩

def resultOr {α : Type} (a : α) : Except Fault α → α
  | .ok b => b
  | .error _ => a

theorem eq_resultOr {α : Type} (a : α) {r : Except Fault α} (h : r.toOption.isSome) :
    .ok (resultOr a r) = r := by
  cases r with
  | ok b => rfl
  | error f => cases h

def sampleInit : Heap := resultOr sampleHeap (heapInit 0 sampleHeap 0 0)

def sampleStart : System := ⟨sampleInit, []⟩

def sampleFirst : System := resultOr sampleStart (perform sampleStart (.kmalloc 100))

def sampleSecond : System := resultOr sampleStart (perform sampleFirst (.krealloc 4109 200))

def sampleThird : System := resultOr sampleStart (perform sampleSecond (.kfree 4222))

def sampleRun : List (Event × Except Fault System) :=
  [(.kmalloc 100, .ok sampleFirst), (.krealloc 4109 200, .ok sampleSecond),
    (.kfree 4222, .ok sampleThird)]

theorem samplePmm_padded : Padded samplePmm where
  covered := by decide
  padding p h1 h2 := by
    change 1024 ≤ p at h1
    change p < 1024 at h2
    omega
  addressable := by decide

theorem samplePmm_run : FreeRun samplePmm 1 256 := by
  have hbits : ∀ p < 1024, p ≠ 0 → PackedBits.bit samplePmm.bitmap p = false := by decide +kernel
  have hzero : PackedBits.bit samplePmm.bitmap 0 = true := by decide +kernel
  constructor
  · intro p hp
    by_contra h
    have h0 : p = 0 := by omega
    subst h0
    have hclear := hp.2
    rw [hzero] at hclear
    cases hclear
  · intro p hp
    rw [Set.mem_Ico] at hp
    refine ⟨?_, hbits p (by omega) (by omega)⟩
    change p < 1024
    omega

theorem sampleInit_fresh : FreshRegion (1*pageSize) (pagesFor (initSize 0)*pageSize) sampleInit := by
  obtain ⟨h', hinit, hf⟩ := heapInit_fresh (h := sampleHeap) (f := 1) 0 0 samplePmm_padded
    (by decide) (show initSize 0 ≤ maxInitSize by decide) samplePmm_run
  have hstart : sampleInit = h' := by rw [sampleInit, hinit, resultOr]
  rw [hstart]
  exact hf

theorem found_not_grows {h : Heap} {size p : ℕ}
    (hfind : findFit h.mem (alignUp4 size) loopBound h.heapStart 0 = .ok (.found p)) :
    ¬ Grows h size := by
  rintro ⟨-, ⟨last, hl⟩, -⟩
  rw [hfind] at hl
  cases hl

theorem sampleRun_runs : Run Step (.ok sampleStart) sampleRun := by
  -- one evaluation for all the facts about the states of the run
  have heval : (sampleFirst.live = [(4109, 100)] ∧ sampleSecond.live = [(4222, 200)]) ∧
      (findFit sampleStart.heap.mem (alignUp4 100) loopBound sampleStart.heap.heapStart 0 = .ok (.found 4096) ∧
      findFit sampleFirst.heap.mem (alignUp4 200) loopBound sampleFirst.heap.heapStart 0 = .ok (.found 4209)) ∧
      (perform sampleStart (.kmalloc 100)).toOption.isSome ∧
      (perform sampleFirst (.krealloc 4109 200)).toOption.isSome ∧
      (perform sampleSecond (.kfree 4222)).toOption.isSome := by decide +kernel
  obtain ⟨⟨h1, h2⟩, ⟨hfit, hrefit⟩, hmalloc, hrealloc, hfree⟩ := heval
  refine ⟨⟨⟨by decide, found_not_grows hfit⟩, eq_resultOr _ hmalloc⟩,
    ⟨⟨Or.inr ⟨(4109, 100), ?_, rfl⟩, by decide, fun _ => found_not_grows hrefit⟩, eq_resultOr _ hrealloc⟩,
    ⟨Or.inr ⟨(4222, 200), ?_, rfl⟩, eq_resultOr _ hfree⟩, trivial⟩
  · rw [h1]
    exact List.mem_singleton_self _
  · rw [h2]
    exact List.mem_singleton_self _

/-- A request, its move to a larger block, and its release. -/
theorem heap_stays_tiled_sample :
    Along (fun _ _ t => Sound (1*pageSize) (pagesFor (initSize 0)*pageSize) t)
      (.ok ⟨sampleInit, []⟩) sampleRun :=
  heap_stays_tiled _ _ sampleInit sampleInit_fresh sampleRun sampleRun_runs

end Dionnex.HeapTiling
