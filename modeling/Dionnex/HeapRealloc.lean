import Dionnex.HeapPages

/-!
# Reallocation keeps the data

Headers and data lie in one memory: a request rewrites the header of a free
block or of new memory, a link and perhaps the header of the rest, the copy
writes into the new block, and the release rewrites headers all over the
list. None of these reaches the data of a block in use other than the new
one, whether or not the free neighbours that the release merges are
neighbours in memory.
-/

set_option autoImplicit false

namespace Dionnex.HeapRealloc
open ByteMemory FirstFit Dionnex.PmmBitmap Dionnex.KernelHeap Dionnex.HeapBlocks Dionnex.HeapPages

/-- Blocks of the list that are apart and in the address space. -/
structure WellFormed (h : Heap) (bs : List Block) : Prop where
  blocks : Represents h bs
  apart : Apart headerSize bs
  space : InSpace bs

def data (b : Block) : Set ℕ := Set.Ico (b.addr+headerSize) (b.stop headerSize)

/-- The data bytes of the block are the same in both memories. -/
def Kept (m m' : Mem) (b : Block) : Prop := ∀ x ∈ data b, m' x = m x

/-- The header at `a` read as a block. -/
def recorded (m : Mem) (a : ℕ) : Block := ⟨a, sizeAt m a, decide (freeAt m a ≠ 0)⟩

/-- What the growth path of `kmalloc` takes, the block it returns and the rest behind it, lies in the
address space and clear of the blocks of the list. -/
def GrowsClear (h : Heap) (bs : List Block) (size : ℕ) : Prop :=
  ∀ q h', kmalloc h size = .ok (q, h') → q ≠ 0 → (∀ b ∈ bs, ¬ Fits (alignUp4 size) b) →
    ∀ a, a = sub32 q headerSize ∨ (a = nextAt h'.mem (sub32 q headerSize) ∧ a ≠ 0) →
      (recorded h'.mem a).stop headerSize ≤ 4294967296 ∧
      ∀ b ∈ bs, Clear headerSize b (recorded h'.mem a)

/-- What `krealloc` may do to the live block `b`: refuse, keep it in place, or move it. -/
def Reallocated (h : Heap) (bs : List Block) (b : Block) (size : ℕ) (r : Except Fault (ℕ × Heap)) :
    Prop :=
  ∃ q h' bs', r = .ok (q, h') ∧ Represents h' bs' ∧
    (∀ x ∈ bs, x.free = false → x ≠ b → x ∈ bs' ∧ Kept h.mem h'.mem x) ∧
    (q = 0 → b ∈ bs' ∧ Kept h.mem h'.mem b) ∧
    (q ≠ 0 → (∃ c ∈ bs', q = c.addr+headerSize ∧ c.free = false ∧ size ≤ c.size) ∧
      (∀ i < min b.size size, h'.mem (q+i) = h.mem (b.addr+headerSize+i)) ∧
      (q ≠ b.addr+headerSize → ∀ x ∈ bs', x.free = false → x.addr ≠ b.addr))

/-- The outcome of a request that is met: the new block `c` and the list with it. -/
structure Requested (h : Heap) (bs : List Block) (size : ℕ) (h' : Heap) (bs' : List Block)
    (c : Block) : Prop where
  heap : WellFormed h' bs'
  new : c ∈ bs'
  used : c.free = false
  size : size ≤ c.size
  pointer : c.addr+headerSize < 4294967296
  fresh : ∀ x ∈ bs, x.free = false → x.addr ≠ c.addr
  kept : ∀ x ∈ bs, x.free = false → x ∈ bs' ∧ Kept h.mem h'.mem x
  old : ∀ x ∈ bs', x.free = false → x ∈ bs ∨ x = c

variable {h h' : Heap} {bs bs' : List Block} {b c : Block} {size : ℕ}

theorem kept_off {R : Set ℕ} {m m' : Mem} (h : SameOff R m m') (hd : Disjoint (data b) R) :
    Kept m m' b := fun x hx => h x (Set.disjoint_left.mp hd hx)

theorem Kept.trans {m m' m'' : Mem} (h : Kept m m' b) (g : Kept m' m'' b) : Kept m m'' b :=
  fun x hx => (g x hx).trans (h x hx)

theorem data_clear {a : Block} (h : Clear headerSize a b) :
    Disjoint (data a) (Set.Ico b.addr (b.stop headerSize)) := by
  unfold data
  rw [Set.Ico_disjoint_Ico]
  unfold Clear Block.stop at *
  omega

theorem data_headers (hapart : Apart headerSize bs) (hb : b ∈ bs) : Disjoint (data b) (headers bs) := by
  rw [Set.disjoint_right]
  rintro x ⟨c, hc, hx⟩
  exact Set.disjoint_left.mp (data_header hapart hb hc) hx

theorem used_ne (hb : b.free = true) (hc : c.free = false) : c ≠ b := by
  rintro rfl
  rw [hb] at hc
  cases hc

/-- A request served from the list. -/
theorem kmalloc_found_requested (hw : WellFormed h bs) (h0 : size ≠ 0) (hmax : size ≤ maxRequest) {p : ℕ}
    (hp : place headerSize 16 (alignUp4 size) bs = some (p, bs')) :
    ∃ h' c, kmalloc h size = .ok (c.addr+headerSize, h') ∧
      (∃ x ∈ bs, x.addr = c.addr ∧ size ≤ x.size) ∧ Requested h bs size h' bs' c := by
  obtain ⟨m', b, hk, hrep, hb, hfit, hpb, hoff⟩ := kmalloc_found hw.blocks hw.apart hw.space h0 hmax hp
  obtain ⟨c, hc, hcp, hcfree, hreq⟩ := place_taken hp
  have hapart := apart_place hw.apart hp
  have hspace := space_place hw.space hp
  have hsize : size ≤ c.size := (alignUp4_ge hmax).1.trans hreq
  have hclear : ∀ x ∈ bs, x.free = false → Clear headerSize x b := fun x hx hfree =>
    apart_clear hw.apart hx hb (used_ne hfit.1 hfree)
  have hfits : ∃ x ∈ bs, x.addr = c.addr ∧ size ≤ x.size :=
    ⟨b, hb, hpb.symm.trans hcp.symm, (alignUp4_ge hmax).1.trans hfit.2⟩
  refine ⟨{ h with mem := m' }, c, by rw [hk, hcp], hfits, ⟨hrep, hapart, hspace⟩, hc, hcfree, hsize,
    ?_, ?_, ?_, ?_⟩
  · have hstop := (hspace c hc).2
    unfold Block.stop at hstop
    omega
  · intro x hx hfree
    rw [hcp, hpb]
    exact clear_addr (by decide) (hclear x hx hfree)
  · intro x hx hfree
    exact ⟨place_kept hp hx (used_not_fits hfree), kept_off hoff (data_clear (hclear x hx hfree))⟩
  · intro x hx hfree
    rcases place_used hp hx hfree with hold | hnew
    · exact Or.inl hold
    · exact Or.inr (apart_mem (by decide) hapart hx hc (hnew.trans hcp.symm))

/-- A request served with new memory, `nb` before it is split. -/
theorem kmalloc_grown_requested (hw : WellFormed h bs) (h0 : size ≠ 0) (hmax : size ≤ maxRequest)
    (hnone : ∀ x ∈ bs, ¬ Fits (alignUp4 size) x) {nb : Block} (hpage : (takeHeapPage h).1 = nb.addr)
    (hsize : sub32 (pagesFor (wrap (alignUp4 size + headerSize))*pageSize) headerSize = nb.size)
    (hfree : nb.free = false) (hlow : pageSize ≤ nb.addr) (hstop : nb.stop headerSize ≤ 4294967296)
    (hreq : alignUp4 size ≤ nb.size) (hclear : ∀ x ∈ bs, Clear headerSize x nb) :
    ∃ h' bs' c, kmalloc h size = .ok (c.addr+headerSize, h') ∧ c.addr = nb.addr ∧
      h'.pmm = (grownPages h (pagesFor (wrap (alignUp4 size + headerSize)))).pmm ∧
      Requested h bs size h' bs' c := by
  have hge := (alignUp4_ge hmax).1
  have hlt : nb.addr+headerSize < 4294967296 := by
    unfold Block.stop at hstop
    omega
  obtain ⟨h', hg, hrep, hoff, hpmm, -⟩ := growHeap_list hw.blocks hw.space hw.apart hpage hsize hfree
    hlow hstop hlt hreq hclear
  have hfirst : ∃ c ∈ carve headerSize 16 (alignUp4 size) nb,
      c.addr = nb.addr ∧ c.free = false ∧ alignUp4 size ≤ c.size := carve_first hreq
  obtain ⟨c, hc, hca, hcfree, hcsize⟩ := hfirst
  have hin : ∀ x ∈ carve headerSize 16 (alignUp4 size) nb,
      nb.addr ≤ x.addr ∧ x.stop headerSize ≤ nb.stop headerSize := fun x hx => carve_within hreq hx
  have hapart : Apart headerSize (bs ++ carve headerSize 16 (alignUp4 size) nb) :=
    apart_grown hw.apart hclear hreq
  have hspace : InSpace (bs ++ carve headerSize 16 (alignUp4 size) nb) := by
    intro x hx
    rcases List.mem_append.mp hx with hx | hx
    · exact hw.space x hx
    · exact ⟨hlow.trans (hin x hx).1, (hin x hx).2.trans hstop⟩
  refine ⟨h', _, c, ?_, hca, hpmm, ⟨hrep, hapart, hspace⟩, List.mem_append_right bs hc, hcfree,
    hge.trans hcsize, hca ▸ hlt, ?_, ?_, ?_⟩
  · rw [kmalloc_missing hw.blocks hw.space h0 (place_none.mpr hnone), hg, hca]
  · intro x hx _
    rw [hca]
    exact clear_addr (by decide) (hclear x hx)
  · intro x hx _
    refine ⟨List.mem_append_left _ hx, kept_off hoff ?_⟩
    rw [Set.disjoint_union_right]
    exact ⟨data_headers hw.apart hx, data_clear (hclear x hx)⟩
  · intro x hx hxfree
    rcases List.mem_append.mp hx with hold | hnew
    · exact Or.inl hold
    · have haddr := carve_used hnew hxfree
      exact Or.inr (apart_mem (by decide) hapart hx (List.mem_append_right bs hc) (haddr.trans hca.symm))

/-- The copy into the new block changes no other data. -/
theorem copy_kept (hw : WellFormed h bs) (hc : c ∈ bs) {src n : ℕ} (hn : n ≤ c.size) :
    Represents { h with mem := memcpy h.mem (c.addr+headerSize) src n } bs ∧
    ∀ x ∈ bs, x ≠ c → Kept h.mem (memcpy h.mem (c.addr+headerSize) src n) x := by
  have hoff := memcpy_off h.mem (c.addr+headerSize) src n
  refine ⟨data_write hw.blocks hw.apart hw.space hc hn hoff, ?_⟩
  intro x hx hne
  apply kept_off hoff
  have hstop := (hw.space c hc).2
  unfold Block.stop at hstop
  rw [span_eq (by omega)]
  refine (data_clear (apart_clear hw.apart hx hc hne)).mono_right ?_
  unfold Block.stop
  exact Set.Ico_subset_Ico (by omega) (by omega)

/-- Every byte of the old block arrives at the start of the new one. -/
theorem copy_arrives (hw : WellFormed h bs) (hb : b ∈ bs) (hc : c ∈ bs) (hne : b ≠ c)
    (hsize : b.size ≤ c.size) {i : ℕ} (hi : i < b.size) :
    memcpy h.mem (c.addr+headerSize) (b.addr+headerSize) b.size (c.addr+headerSize+i) =
      h.mem (b.addr+headerSize+i) := by
  have hbstop := (hw.space b hb).2
  have hcstop := (hw.space c hc).2
  have hclear := apart_clear hw.apart hb hc hne
  unfold Clear Block.stop at *
  have hd : Disjoint (span (c.addr+headerSize) b.size) (span (b.addr+headerSize) b.size) := by
    rw [span_eq (by omega), span_eq (by omega), Set.Ico_disjoint_Ico]
    omega
  have hcopy := @memcpy_copied h.mem _ _ _ i (by omega) hd hi
  rw [wrap_of_lt (by omega), wrap_of_lt (by omega)] at hcopy
  exact hcopy

/-- The part of `krealloc` after a request that is met: copy, then release of the old block. -/
theorem krealloc_moved (hw : WellFormed h bs) (hb : b ∈ bs) (hused : b.free = false)
    (hp : b.addr+headerSize < 4294967296) (hsmall : b.size < size)
    (hk : kmalloc h size = .ok (c.addr+headerSize, h')) (hr : Requested h bs size h' bs' c) :
    ∃ m bs'', krealloc h (b.addr+headerSize) size = .ok (c.addr+headerSize, { h' with mem := m }) ∧
      Represents { h' with mem := m } bs'' ∧ c ∈ bs'' ∧
      (∀ x ∈ bs, x.free = false → x ≠ b → x ∈ bs'' ∧ Kept h.mem m x) ∧
      (∀ x ∈ bs'', x.free = false → x.addr ≠ b.addr) ∧
      ∀ i < b.size, m (c.addr+headerSize+i) = h.mem (b.addr+headerSize+i) := by
  obtain ⟨hb', hbkept⟩ := hr.kept b hb hused
  have hbc : b ≠ c := fun he => hr.fresh b hb hused (congrArg Block.addr he)
  have hsize : b.size ≤ c.size := hsmall.le.trans hr.size
  have hne : c.addr+headerSize ≠ 0 := by
    unfold headerSize
    omega
  obtain ⟨hcopy, hcopyKept⟩ := @copy_kept _ _ _ hr.heap hr.new (b.addr+headerSize) _ hsize
  have harrives := fun i (hi : i < b.size) => copy_arrives hr.heap hb' hr.new hbc hsize hi
  obtain ⟨l, r, rfl⟩ := List.append_of_mem hb'
  obtain ⟨m, hkf, hrep, hoff⟩ := kfree_blocks hcopy hr.heap.apart hr.heap.space (ptr_block hp)
    (by unfold headerSize; omega)
  have hheaders : ∀ x ∈ l++b::r, Disjoint (data x) (headers (l++b::r)) := fun x hx =>
    data_headers hr.heap.apart hx
  have hmerged : ∀ x : Block, x.free = false →
      (x ∈ coalesce headerSize (l ++ { b with free := true }::r) ↔ x ∈ l ∨ x ∈ r) := by
    intro x hx
    rw [coalesce_used_iff hx, List.mem_append, List.mem_cons]
    have hmark : x ≠ { b with free := true } := used_ne rfl hx
    simp [hmark]
  have hother : ∀ x ∈ l++b::r, x ≠ b → x ∈ l ∨ x ∈ r := by
    intro x hx hxb
    simpa [hxb] using hx
  refine ⟨m, _, ?_, hrep, (hmerged c hr.used).mpr (hother c hr.new hbc.symm), ?_, ?_, ?_⟩
  · rw [krealloc_small (hw.blocks.2 b hb) hp hsmall, hk]
    simp only [Except.bind, if_neg hne]
    rw [(hr.heap.blocks.2 b hb').size, hkf]
    rfl
  · intro x hx hfree hxb
    obtain ⟨hx', hkept⟩ := hr.kept x hx hfree
    have hxc : x ≠ c := fun he => hr.fresh x hx hfree (congrArg Block.addr he)
    refine ⟨(hmerged x hfree).mpr (hother x hx' hxb), ?_⟩
    exact (hkept.trans (hcopyKept x hx' hxc)).trans (kept_off hoff (hheaders x hx'))
  · intro x hx hfree hxa
    have hin : x ∈ l ∨ x ∈ r := (hmerged x hfree).mp hx
    obtain ⟨-, hbr, hcross⟩ := apart_append.mp hr.heap.apart
    rcases hin with hin | hin
    · exact clear_addr (by decide) (hcross x hin b List.mem_cons_self) hxa
    · exact clear_addr (by decide) ((List.pairwise_cons.mp hbr).1 x hin) hxa.symm
  · intro i hi
    have hdata : c.addr+headerSize+i ∈ data c := by
      unfold data Block.stop
      exact ⟨by omega, by omega⟩
    have hsrc : b.addr+headerSize+i ∈ data b := by
      unfold data Block.stop
      exact ⟨by omega, by omega⟩
    rw [kept_off hoff (hheaders c hr.new) _ hdata]
    exact (harrives i hi).trans (hbkept _ hsrc)

/-- The header of a block that is split, whatever its rest is. -/
theorem splitBlock_split {m : Mem} {a req : ℕ} {n : Mem → ℕ} (ha : a+headerSize ≤ 4294967296)
    (hreq : req < 4294967296) (hs : wrap (req+headerSize+16) ≤ sizeAt m a) :
    sizeAt (splitBlock m a req n) a = req ∧
    nextAt (splitBlock m a req n) a = wrap (a+headerSize+req) := by
  unfold splitBlock
  rw [if_pos hs]
  dsimp only
  generalize setNext (setFree (setSize (setMagic m (wrap (a+headerSize+req)) heapMagic)
    (wrap (a+headerSize+req)) _) (wrap (a+headerSize+req)) 1) (wrap (a+headerSize+req)) _ = m4
  obtain ⟨-, hsize, -, -⟩ := setSize_fields (m := m4) (v := req) ha
  obtain ⟨-, hkeep, -, hnext⟩ :=
    setNext_fields (m := setSize m4 a req) (v := wrap (a+headerSize+req)) ha
  refine ⟨?_, ?_⟩
  · rw [hkeep, hsize, wrap_of_lt hreq]
  · rw [hnext, wrap_of_lt (wrap_lt _)]

/-- The recorded size of a rest that does not run past the address space. -/
theorem splitBlock_rest {m : Mem} {a req : ℕ} {n : Mem → ℕ}
    (ha : a+headerSize+req+headerSize ≤ 4294967296) (hs : wrap (req+headerSize+16) ≤ sizeAt m a) :
    sizeAt (splitBlock m a req n) (a+headerSize+req) =
      sub32 (sub32 (sizeAt m a) req) headerSize := by
  have hr : wrap (a+headerSize+req) = a+headerSize+req := by
    unfold headerSize at *
    exact wrap_of_lt (by omega)
  have hlt : a+headerSize ≤ 4294967296 := by omega
  have hd : Disjoint (headerRange a) (headerRange (a+headerSize+req)) :=
    headerRange_disjoint (Or.inl (by omega))
  have hmagic : sizeAt (setMagic m (a+headerSize+req) heapMagic) a = sizeAt m a :=
    sizeAt_off (setMagic_off ha) hd hlt
  unfold splitBlock
  rw [if_pos hs, hr]
  dsimp only
  rw [sizeAt_off (setNext_off hlt) hd.symm ha, sizeAt_off (setSize_off hlt) hd.symm ha,
    (setNext_fields ha).2.1, (setFree_fields ha).2.1, (setSize_fields ha).2.1, hmagic]
  exact wrap_of_lt (wrap_lt _)

/-- Memory on the growth path before the split: the new header, and the link from the last block. -/
def linkedMem (h : Heap) (req last : ℕ) : Mem :=
  let block := (takeHeapPage h).1
  let m := writeHeader h.mem block (sub32 (pagesFor (wrap (req+headerSize))*pageSize) headerSize) 0 0
  if last = 0 then m else setNext m last block

theorem page_header (h : Heap) : (takeHeapPage h).1 + headerSize < 4294967296 := by
  have hroom := (alloc_page_room h.pmm).2
  change (pmmAllocPage h.pmm).1 + headerSize < 4294967296
  unfold pageSize headerSize at *
  omega

theorem page_ptr (h : Heap) : sub32 ((takeHeapPage h).1 + headerSize) headerSize = (takeHeapPage h).1 :=
  @ptr_block ⟨(takeHeapPage h).1, 0, false⟩ (page_header h)

theorem growHeap_memory {req last : ℕ} (hne : (takeHeapPage h).1 ≠ 0) :
    ∃ h', growHeap h req last = ((takeHeapPage h).1 + headerSize, h') ∧
      h'.mem = splitBlock (linkedMem h req last) (takeHeapPage h).1 req (fun _ => 0) ∧
      h'.pmm = (grownPages h (pagesFor (wrap (req+headerSize)))).pmm := by
  obtain ⟨hm, hs⟩ := growPages_same (pagesFor (wrap (req+headerSize)) - 1) (takeHeapPage h).2
  unfold growHeap
  dsimp only
  rw [if_neg hne, wrap_of_lt (page_header h), hm]
  exact ⟨_, rfl, rfl, rfl⟩

theorem linkedMem_header {req last : ℕ}
    (hlast : last ≠ 0 → Disjoint (headerRange (takeHeapPage h).1) (headerRange last) ∧
      last+headerSize ≤ 4294967296) :
    sizeAt (linkedMem h req last) (takeHeapPage h).1 =
      sub32 (pagesFor (wrap (req+headerSize))*pageSize) headerSize ∧
    nextAt (linkedMem h req last) (takeHeapPage h).1 = 0 := by
  have ha := (page_header h).le
  have hwritten : ∀ m s, sizeAt (writeHeader m (takeHeapPage h).1 s 0 0) (takeHeapPage h).1 = wrap s ∧
      nextAt (writeHeader m (takeHeapPage h).1 s 0 0) (takeHeapPage h).1 = 0 := by
    intro m s
    unfold writeHeader
    rw [(setNext_fields ha).2.1, (setFree_fields ha).2.1, (setSize_fields ha).2.1, (setNext_fields ha).2.2.2]
    exact ⟨rfl, rfl⟩
  unfold linkedMem
  dsimp only
  by_cases h0 : last = 0
  · rw [if_pos h0, (hwritten _ _).1, (hwritten _ _).2]
    exact ⟨wrap_of_lt (wrap_lt _), rfl⟩
  · obtain ⟨hd, hl⟩ := hlast h0
    rw [if_neg h0, sizeAt_off (setNext_off hl) hd ha, nextAt_off (setNext_off hl) hd ha,
      (hwritten _ _).1, (hwritten _ _).2]
    exact ⟨wrap_of_lt (wrap_lt _), rfl⟩

theorem lastAddr_mem (bs : List Block) : lastAddr 0 bs ≠ 0 → ∃ x ∈ bs, lastAddr 0 bs = x.addr := by
  intro h
  rcases List.eq_nil_or_concat bs with rfl | ⟨l, x, rfl⟩
  · exact (h rfl).elim
  · rw [List.concat_eq_append, lastAddr_append] at *
    exact ⟨x, by simp, rfl⟩

theorem alignUp4_facts {n : ℕ} : alignUp4 n % 4 = 0 ∧ alignUp4 n < 4294967296 := by
  unfold alignUp4 wrap
  omega

/-- The size that the growth path records first, unless a sum wraps. -/
theorem grownSize_eq {req : ℕ} (h : req+headerSize+4095 < 4294967296) :
    req ≤ sub32 (pagesFor (wrap (req+headerSize))*pageSize) headerSize := by
  obtain ⟨-, hroom, hcount⟩ := pagesFor_room h
  have hle : pagesFor (wrap (req+headerSize))*pageSize < 4294967296 := by
    rw [hcount]
    unfold pageSize at *
    omega
  rw [sub32_of_le (by omega) hle]
  omega

/-- A grown block that is split: its two parts, clear of the list, are clear of it together. -/
theorem grown_split {m : Mem} {a req : ℕ} (hlow : pageSize ≤ a) (hpage : a % pageSize = 0)
    (ha : a+headerSize < 4294967296) (haligned : req % 4 = 0) (hlt : req < 4294967296)
    (hsize : sizeAt m a = sub32 (pagesFor (wrap (req+headerSize))*pageSize) headerSize)
    (hs : wrap (req+headerSize+16) ≤ sizeAt m a)
    (hnew : ∀ x, x = a ∨ (x = nextAt (splitBlock m a req (fun _ => 0)) a ∧ x ≠ 0) →
      (recorded (splitBlock m a req (fun _ => 0)) x).stop headerSize ≤ 4294967296 ∧
      ∀ b ∈ bs, Clear headerSize b (recorded (splitBlock m a req (fun _ => 0)) x)) :
    a+headerSize + sizeAt m a ≤ 4294967296 ∧ req ≤ sizeAt m a ∧
      ∀ b ∈ bs, Clear headerSize b ⟨a, sizeAt m a, false⟩ := by
  obtain ⟨hreqSize, hrest⟩ := @splitBlock_split m a req (fun _ => 0) ha.le hlt hs
  obtain ⟨hstop, hclear⟩ := hnew a (Or.inl rfl)
  simp only [recorded, Block.stop, hreqSize] at hstop
  have hnowrap : req+headerSize+4095 < 4294967296 := by
    unfold pageSize headerSize at *
    omega
  have hin : a+headerSize+req < 4294967296 := by
    unfold pageSize headerSize at *
    omega
  have hfit := grownSize_eq hnowrap
  rw [wrap_of_lt hin] at hrest
  obtain ⟨hrstop, hrclear⟩ := hnew (a+headerSize+req) (Or.inr ⟨hrest.symm, by unfold headerSize; omega⟩)
  have hrlt : a+headerSize+req+headerSize ≤ 4294967296 := by
    simp only [recorded, Block.stop] at hrstop
    omega
  have hrsize := @splitBlock_rest m a req (fun _ => 0) hrlt hs
  have htotal : sizeAt m a < 4294967296 := load32_lt m (a+4)
  rw [← hsize] at hfit
  rw [wrap_of_lt (by unfold headerSize at *; omega)] at hs
  rw [sub32_of_le hfit htotal, sub32_of_le (by omega) (by omega)] at hrsize
  simp only [recorded, Block.stop, hrsize] at hrstop
  refine ⟨by omega, hfit, ?_⟩
  intro b hb
  have hfirst := hclear b hb
  have hsecond := hrclear b hb
  simp only [Clear, recorded, Block.stop, hreqSize, hrsize] at hfirst hsecond ⊢
  unfold headerSize at *
  omega

/-- A grown block that stays whole. -/
theorem grown_whole {m : Mem} {a req : ℕ} (hlow : pageSize ≤ a) (hlt : req < 4294967296)
    (hsize : sizeAt m a = sub32 (pagesFor (wrap (req+headerSize))*pageSize) headerSize)
    (hs : ¬ wrap (req+headerSize+16) ≤ sizeAt m a) (hstop : a+headerSize + sizeAt m a ≤ 4294967296) :
    req ≤ sizeAt m a := by
  rw [hsize] at hs hstop ⊢
  apply grownSize_eq
  unfold sub32 pagesFor wrap pageSize headerSize at *
  omega

/-- A grown block that keeps clear of the list was made without a sum that wraps. -/
theorem grown_block (hw : WellFormed h bs) (h0 : size ≠ 0)
    (hnone : ∀ x ∈ bs, ¬ Fits (alignUp4 size) x) (hg : GrowsClear h bs size)
    (hne : (takeHeapPage h).1 ≠ 0) :
    ∃ nb : Block, (takeHeapPage h).1 = nb.addr ∧
      sub32 (pagesFor (wrap (alignUp4 size + headerSize))*pageSize) headerSize = nb.size ∧
      nb.free = false ∧ pageSize ≤ nb.addr ∧ nb.stop headerSize ≤ 4294967296 ∧
      alignUp4 size ≤ nb.size ∧ ∀ x ∈ bs, Clear headerSize x nb := by
  obtain ⟨haligned, hlt⟩ := @alignUp4_facts size
  have hlow : pageSize ≤ (takeHeapPage h).1 := alloc_page_low h.pmm hne
  have hpage : (takeHeapPage h).1 % pageSize = 0 := (alloc_page_room h.pmm).1
  have ha := page_header h
  obtain ⟨h', hgrow, hmem, -⟩ := @growHeap_memory h (alignUp4 size) (lastAddr 0 bs) hne
  have hk : kmalloc h size = .ok ((takeHeapPage h).1 + headerSize, h') :=
    (kmalloc_missing hw.blocks hw.space h0 (place_none.mpr hnone)).trans (congrArg Except.ok hgrow)
  have hnew := hg _ h' hk (by unfold headerSize; omega) hnone
  rw [page_ptr, hmem] at hnew
  obtain ⟨hstop, hclear⟩ := hnew _ (Or.inl rfl)
  obtain ⟨hsize, -⟩ := @linkedMem_header h (alignUp4 size) (lastAddr 0 bs) (by
    intro hl
    obtain ⟨x, hx, hlast⟩ := lastAddr_mem bs hl
    rw [hlast]
    exact ⟨(clear_headers (hclear x hx)).symm, space_header hw.space hx⟩)
  generalize (takeHeapPage h).1 = a at *
  generalize linkedMem h (alignUp4 size) (lastAddr 0 bs) = m at *
  refine ⟨⟨a, sizeAt m a, false⟩, rfl, hsize.symm, rfl, hlow, ?_⟩
  by_cases hs : wrap (alignUp4 size + headerSize+16) ≤ sizeAt m a
  · exact grown_split hlow hpage ha haligned hlt hsize hs hnew
  · have hsame : splitBlock m a (alignUp4 size) (fun _ => 0) = m := by
      unfold splitBlock
      exact if_neg hs
    rw [hsame] at hstop hclear
    exact ⟨hstop, grown_whole hlow hlt hsize hs hstop, hclear⟩

/-- A move is what `krealloc` may do. -/
theorem moved_reallocated (hw : WellFormed h bs) (hb : b ∈ bs) (hlive : b.free = false)
    (hp : b.addr+headerSize < 4294967296) (hsmall : b.size < size)
    (hk : kmalloc h size = .ok (c.addr+headerSize, h')) (hr : Requested h bs size h' bs' c) :
    Reallocated h bs b size (krealloc h (b.addr+headerSize) size) := by
  obtain ⟨m, bs'', hkr, hrep, hc, hothers, hreleased, hcopied⟩ :=
    krealloc_moved hw hb hlive hp hsmall hk hr
  refine ⟨_, _, bs'', hkr, hrep, hothers, ?_, ?_⟩
  · intro h0
    unfold headerSize at h0
    omega
  · intro _
    refine ⟨⟨c, hc, rfl, hr.used, hr.size⟩, ?_, fun _ => hreleased⟩
    intro i hi
    exact hcopied i (by omega)

theorem refused_reallocated (hw : WellFormed h bs) (hb : b ∈ bs) (hp : b.addr+headerSize < 4294967296)
    (hsmall : b.size < size) (hnone : ∀ x ∈ bs, ¬ Fits (alignUp4 size) x)
    (hpage : (takeHeapPage h).1 = 0) :
    Reallocated h bs b size (krealloc h (b.addr+headerSize) size) := by
  have hk : kmalloc h size = .ok (0, (takeHeapPage h).2) := by
    rw [kmalloc_missing hw.blocks hw.space (Nat.ne_of_gt (Nat.zero_lt_of_lt hsmall))
      (place_none.mpr hnone), growHeap_null hpage]
  have hkr : krealloc h (b.addr+headerSize) size = .ok (0, (takeHeapPage h).2) := by
    rw [krealloc_small (hw.blocks.2 b hb) hp hsmall, hk]
    rfl
  refine ⟨0, _, bs, hkr, hw.blocks, ?_, ?_, ?_⟩
  · exact fun x hx _ _ => ⟨hx, fun _ _ => rfl⟩
  · exact fun _ => ⟨hb, fun _ _ => rfl⟩
  · exact fun h => (h rfl).elim

theorem stays_reallocated (hw : WellFormed h bs) (hb : b ∈ bs) (hlive : b.free = false)
    (hp : b.addr+headerSize < 4294967296) (h0 : size ≠ 0) (hbig : size ≤ b.size) :
    Reallocated h bs b size (krealloc h (b.addr+headerSize) size) := by
  refine ⟨_, h, bs, krealloc_stays (hw.blocks.2 b hb) hp h0 hbig, hw.blocks, ?_, ?_, ?_⟩
  · exact fun x hx _ _ => ⟨hx, fun _ _ => rfl⟩
  · intro hnull
    unfold headerSize at hnull
    omega
  · intro _
    exact ⟨⟨b, hb, rfl, hlive, hbig⟩, fun _ _ => rfl, fun h => (h rfl).elim⟩

/-- For every well-formed heap whose growth keeps clear of it, `krealloc` of a live pointer keeps the
data it must keep. -/
theorem krealloc_keeps_data {h : Heap} {bs : List Block} {b : Block} {size : ℕ} (hw : WellFormed h bs)
    (hb : b ∈ bs) (hlive : b.free = false) (hp : b.addr+headerSize < 4294967296) (h0 : 0 < size)
    (hmax : size ≤ maxRequest) (hg : GrowsClear h bs size) :
    Reallocated h bs b size (krealloc h (b.addr+headerSize) size) := by
  have hne : size ≠ 0 := Nat.ne_of_gt h0
  by_cases hbig : size ≤ b.size
  · exact stays_reallocated hw hb hlive hp hne hbig
  have hsmall : b.size < size := Nat.not_le.mp hbig
  cases hplace : place headerSize 16 (alignUp4 size) bs with
  | some r =>
    obtain ⟨p, bs'⟩ := r
    obtain ⟨h', c, hk, -, hr⟩ := kmalloc_found_requested hw hne hmax hplace
    exact moved_reallocated hw hb hlive hp hsmall hk hr
  | none =>
    have hnone := place_none.mp hplace
    by_cases hpage : (takeHeapPage h).1 = 0
    · exact refused_reallocated hw hb hp hsmall hnone hpage
    · obtain ⟨nb, haddr, hsize, hfree, hlow, hstop, hreq, hclear⟩ := grown_block hw hne hnone hg hpage
      obtain ⟨h', bs', c, hk, -, -, hr⟩ := kmalloc_grown_requested hw hne hmax hnone haddr hsize hfree
        hlow hstop hreq hclear
      exact moved_reallocated hw hb hlive hp hsmall hk hr

/-- A block in use before a free one. -/
def pairBlocks : List Block := [⟨4096, 100, false⟩, ⟨4209, 500, true⟩]

def pairHeap : Heap :=
  ⟨writeHeader (writeHeader (fun _ => 0) 4096 100 0 4209) 4209 500 1 0, 4096, 8192, ⟨fun _ => 0, 0, 0, 0⟩, []⟩

theorem pairHeap_wellFormed : WellFormed pairHeap pairBlocks where
  blocks := by
    have heval : (magicAt pairHeap.mem 4096 = heapMagic ∧ sizeAt pairHeap.mem 4096 = 100 ∧
        freeAt pairHeap.mem 4096 = 0 ∧ nextAt pairHeap.mem 4096 = 4209) ∧
        magicAt pairHeap.mem 4209 = heapMagic ∧ sizeAt pairHeap.mem 4209 = 500 ∧
        freeAt pairHeap.mem 4209 = 1 ∧ nextAt pairHeap.mem 4209 = 0 := by decide +kernel
    obtain ⟨⟨m1, s1, f1, n1⟩, m2, s2, f2, n2⟩ := heval
    refine heapSeg_cons.mpr ⟨rfl, by decide, ⟨m1, s1, f1⟩, ?_⟩
    exact heapSeg_cons.mpr ⟨n1, by decide, ⟨m2, s2, f2⟩, heapSeg_nil.mpr n2⟩
  apart := tiles_apart (s := 4096) (e := 4722) ⟨rfl, rfl, rfl⟩
  space b hb := by
    rcases List.mem_pair.mp hb with rfl | rfl
    · exact ⟨by decide, by decide⟩
    · exact ⟨by decide, by decide⟩

theorem krealloc_keeps_data_sample :
    Reallocated pairHeap pairBlocks ⟨4096, 100, false⟩ 200 (krealloc pairHeap 4109 200) :=
  krealloc_keeps_data pairHeap_wellFormed (by simp [pairBlocks]) rfl (by decide) (by decide) (by decide)
    (fun _ _ _ _ hnone => (hnone ⟨4209, 500, true⟩ (by simp [pairBlocks]) (by decide)).elim)

end Dionnex.HeapRealloc
