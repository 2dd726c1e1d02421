import Dionnex.HeapPages

/-!
# What the heap writes

Where `kmalloc` and `kfree` store, whether or not the blocks of the list
are neighbours in memory. A release writes to headers of the list alone. A
request writes to one block of the list, or to the last header and to two
headers counted from the first page of a growth; the second of them can lie
in a page that the heap was not given.
-/

set_option autoImplicit false

namespace Dionnex.HeapWrites
open ByteMemory LinkedChain FirstFit Dionnex.PmmBitmap Dionnex.KernelHeap Dionnex.HeapBlocks Dionnex.HeapPages

/-- Headers that lie apart, each leading to another or to the end. -/
structure Linked (m : Mem) (A : Set ℕ) : Prop where
  links : ∀ a ∈ A, nextAt m a = 0 ∨ nextAt m a ∈ A
  apart : ∀ a ∈ A, ∀ b ∈ A, a ≠ b → Disjoint (headerRange a) (headerRange b)
  space : ∀ a ∈ A, a+headerSize ≤ 4294967296

def headersAt (A : Set ℕ) : Set ℕ := {x | ∃ a ∈ A, x ∈ headerRange a}

variable {m m' : Mem} {A : Set ℕ} {a v : ℕ}

theorem Linked.write (h : Linked m A) (ha : a ∈ A) (hoff : SameOff (headerRange a) m m')
    (hnext : nextAt m' a = 0 ∨ nextAt m' a ∈ A) : Linked m' A where
  links b hb := by
    by_cases hab : b = a
    · rw [hab]
      exact hnext
    · rw [nextAt_off hoff (h.apart b hb a ha hab) (h.space b hb)]
      exact h.links b hb
  apart := h.apart
  space := h.space

theorem Linked.setSize (h : Linked m A) (ha : a ∈ A) : Linked (setSize m a v) A := by
  refine h.write ha (setSize_off (h.space a ha)) ?_
  rw [(setSize_fields (h.space a ha)).2.2.2]
  exact h.links a ha

theorem Linked.setFree (h : Linked m A) (ha : a ∈ A) : Linked (setFree m a v) A := by
  refine h.write ha (setFree_off (h.space a ha)) ?_
  rw [(setFree_fields (h.space a ha)).2.2.2]
  exact h.links a ha

theorem Linked.setNext (h : Linked m A) (ha : a ∈ A) (hv : wrap v = 0 ∨ wrap v ∈ A) :
    Linked (setNext m a v) A := by
  refine h.write ha (setNext_off (h.space a ha)) ?_
  rw [(setNext_fields (h.space a ha)).2.2.2]
  exact hv

theorem coalesceLoop_off {fuel curr : ℕ} (h : Linked m A) (hc : curr = 0 ∨ curr ∈ A)
    (hr : coalesceLoop fuel m curr = .ok m') : SameOff (headersAt A) m m' ∧ Linked m' A := by
  induction fuel generalizing m curr with
  | zero => cases hr
  | succ fuel ih =>
    rw [coalesceLoop] at hr
    by_cases h0 : curr = 0
    · rw [if_pos h0] at hr
      cases hr
      exact ⟨SameOff.refl _ _, h⟩
    have ha := hc.resolve_left h0
    have hown : headerRange curr ⊆ headersAt A := fun x hx => ⟨curr, ha, hx⟩
    rw [if_neg h0] at hr
    by_cases hend : nextAt m curr = 0
    · rw [if_pos hend] at hr
      cases hr
      exact ⟨SameOff.refl _ _, h⟩
    rw [if_neg hend] at hr
    split at hr
    · cases hr
    split at hr
    · split at hr
      · cases hr
      · -- the merge: a new size and then a new link, both in the header of `curr`
        dsimp only at hr
        have hsize := h.setSize (v := sizeAt m curr + (headerSize + sizeAt m (nextAt m curr))) ha
        have hnext := (setSize_fields (m := m) (v := sizeAt m curr + (headerSize + sizeAt m (nextAt m curr)))
          (h.space curr ha)).2.2.2
        have hoff := setSize_off (m := m) (v := sizeAt m curr + (headerSize + sizeAt m (nextAt m curr)))
          (h.space curr ha)
        generalize setSize m curr (sizeAt m curr + (headerSize + sizeAt m (nextAt m curr))) = u at *
        have hin : nextAt u curr ∈ A := by
          rw [hnext]
          exact (h.links curr ha).resolve_left hend
        have hlink := hsize.links _ hin
        rw [← wrap_of_lt (nextAt_lt u (nextAt u curr))] at hlink
        obtain ⟨hlast, hlinked⟩ := ih (hsize.setNext ha hlink) (Or.inr ha) hr
        exact ⟨(hoff.mono hown).trans (((setNext_off (h.space curr ha)).mono hown).trans hlast), hlinked⟩
    · exact ih h (h.links curr ha) hr

theorem kfree_off {h h' : Heap} {ptr : ℕ} (hl : Linked h.mem A) (hs : h.heapStart = 0 ∨ h.heapStart ∈ A)
    (hp : ptr = 0 ∨ sub32 ptr headerSize ∈ A) (hr : kfree h ptr = .ok h') :
    h' = { h with mem := h'.mem } ∧ SameOff (headersAt A) h.mem h'.mem ∧ Linked h'.mem A := by
  rw [kfree] at hr
  by_cases h0 : ptr = 0
  · rw [if_pos h0] at hr
    cases hr
    exact ⟨rfl, SameOff.refl _ _, hl⟩
  have ha := hp.resolve_left h0
  have hown : headerRange (sub32 ptr headerSize) ⊆ headersAt A := fun x hx => ⟨_, ha, hx⟩
  rw [if_neg h0] at hr
  dsimp only at hr
  split at hr
  · cases hr
  unfold heapCoalesce at hr
  dsimp only at hr
  cases hloop : coalesceLoop loopBound (setFree h.mem (sub32 ptr headerSize) 1) h.heapStart with
  | error e =>
    rw [hloop] at hr
    cases hr
  | ok u =>
    rw [hloop] at hr
    cases hr
    obtain ⟨hoff, hlinked⟩ := coalesceLoop_off (hl.setFree ha) hs hloop
    exact ⟨rfl, ((setFree_off (hl.space _ ha)).mono hown).trans hoff, hlinked⟩

theorem linked_represents {h : Heap} {bs : List Block} (hr : Represents h bs)
    (hapart : Apart headerSize bs) (hspace : InSpace bs) :
    Linked h.mem {a | ∃ b ∈ bs, b.addr = a} ∧
      (h.heapStart = 0 ∨ h.heapStart ∈ {a | ∃ b ∈ bs, b.addr = a}) := by
  have hmem : ∀ a, a ∈ bs.map Block.addr ↔ ∃ b ∈ bs, b.addr = a := fun a => List.mem_map
  refine ⟨⟨?_, ?_, ?_⟩, ?_⟩
  · intro a ha
    by_cases h0 : nextAt h.mem a = 0
    · exact Or.inl h0
    · right
      obtain ⟨hne, l, hl⟩ := (chain_reach hr.1).mp ((hmem a).mpr ha)
      refine (hmem _).mp ((chain_reach hr.1).mpr ⟨h0, l++[a], seg_append.mpr ⟨a, hl, rfl, hne, rfl⟩⟩)
  · rintro a ⟨b, hb, rfl⟩ c ⟨d, hd, rfl⟩ hne
    exact clear_headers (apart_clear hapart hb hd (fun he => hne (congrArg Block.addr he)))
  · rintro a ⟨b, hb, rfl⟩
    exact space_header hspace hb
  · by_cases h0 : h.heapStart = 0
    · exact Or.inl h0
    · exact Or.inr ((hmem _).mp (chain_head hr.1 h0))

/-! ## Growth -/

theorem writeHeader_off {size free next : ℕ} (ha : a+headerSize ≤ 4294967296) :
    SameOff (headerRange a) m (writeHeader m a size free next) := by
  unfold writeHeader
  refine SameOff.trans ?_ (setNext_off ha)
  refine SameOff.trans ?_ (setFree_off ha)
  exact SameOff.trans (setMagic_off ha) (setSize_off ha)

theorem splitBlock_off {req : ℕ} {next : Mem → ℕ} (ha : a+headerSize ≤ 4294967296)
    (hrest : wrap (a+headerSize+req) + headerSize ≤ 4294967296) :
    SameOff (headerRange a ∪ headerRange (wrap (a+headerSize+req))) m (splitBlock m a req next) := by
  unfold splitBlock
  split
  · dsimp only
    refine SameOff.trans ?_ (SameOff.mono (setNext_off ha) Set.subset_union_left)
    refine SameOff.trans ?_ (SameOff.mono (setSize_off ha) Set.subset_union_left)
    refine SameOff.trans ?_ (SameOff.mono (setNext_off hrest) Set.subset_union_right)
    refine SameOff.trans ?_ (SameOff.mono (setFree_off hrest) Set.subset_union_right)
    refine SameOff.trans ?_ (SameOff.mono (setSize_off hrest) Set.subset_union_right)
    exact SameOff.mono (setMagic_off hrest) Set.subset_union_right
  · exact SameOff.refl _ _

theorem growPages_mem (n : ℕ) (h : Heap) : (growPages n h).mem = h.mem := by
  induction n generalizing h with
  | zero => rfl
  | succ n ih => exact ih (takeHeapPage h).2

theorem growHeap_ptr (h : Heap) (req last : ℕ) : (growHeap h req last).1 =
    if (pmmAllocPage h.pmm).1 = 0 then 0 else wrap ((pmmAllocPage h.pmm).1+headerSize) := by
  unfold growHeap
  dsimp only
  rw [show (takeHeapPage h).1 = (pmmAllocPage h.pmm).1 from rfl]
  split
  · rfl
  · rfl

/-- The headers that a growth writes: of the new block, of the rest behind it, and of the block before. -/
def grownHeaders (h : Heap) (req last : ℕ) : Set ℕ :=
  headerRange (pmmAllocPage h.pmm).1 ∪ headerRange (wrap ((pmmAllocPage h.pmm).1+headerSize+req)) ∪
    {x | last ≠ 0 ∧ x ∈ headerRange last}

theorem growHeap_off {h : Heap} {req last : ℕ} (hpage : (pmmAllocPage h.pmm).1+headerSize ≤ 4294967296)
    (hrest : wrap ((pmmAllocPage h.pmm).1+headerSize+req) + headerSize ≤ 4294967296)
    (hlast : last ≠ 0 → last+headerSize ≤ 4294967296) :
    SameOff (grownHeaders h req last) h.mem (growHeap h req last).2.mem := by
  have hblock : headerRange (pmmAllocPage h.pmm).1 ⊆ grownHeaders h req last :=
    fun x hx => Or.inl (Or.inl hx)
  unfold growHeap
  dsimp only
  rw [show (takeHeapPage h).1 = (pmmAllocPage h.pmm).1 from rfl]
  split
  · exact SameOff.refl _ _
  · dsimp only
    refine SameOff.trans ?_ (SameOff.mono (splitBlock_off hpage hrest) Set.subset_union_left)
    rw [growPages_mem, show (takeHeapPage h).2.mem = h.mem from rfl]
    split
    · exact SameOff.mono (writeHeader_off hpage) hblock
    · rename_i h0
      refine SameOff.trans (SameOff.mono (writeHeader_off hpage) hblock) (SameOff.mono (setNext_off (hlast h0)) ?_)
      exact fun x hx => Or.inr ⟨h0, hx⟩

/-- The headers that a request can write outside the blocks of the list. -/
def spill (pmm : Pmm) (req : ℕ) : Set ℕ :=
  {x | ∃ k ∈ freeSet pmm, x ∈ headerRange (k*pageSize) ∨ x ∈ headerRange (wrap (k*pageSize+headerSize+req))}

/-- A request writes to the blocks of the list and to the headers of a growth; a refused one writes nothing. -/
theorem kmalloc_off {h h' : Heap} {bs : List Block} {size ptr : ℕ} (hr : Represents h bs)
    (hapart : Apart headerSize bs) (hspace : InSpace bs) (hp : Padded h.pmm) (h0 : 0 ∉ freeSet h.pmm)
    (hsize : size ≠ 0) (hmax : size ≤ maxRequest) (hroom : (headerSize + alignUp4 size) % 4096 ≤ 4083)
    (hk : kmalloc h size = .ok (ptr, h')) :
    SameOff (extent headerSize bs ∪ spill h.pmm (alignUp4 size)) h.mem h'.mem ∧ (ptr = 0 → h' = h) := by
  cases hplace : place headerSize 16 (alignUp4 size) bs with
  | some r =>
    obtain ⟨p, bs'⟩ := r
    obtain ⟨m', b, hk', -, hb, -, -, hoff⟩ := kmalloc_found hr hapart hspace hsize hmax hplace
    obtain ⟨rfl, rfl⟩ := Prod.mk.inj (Except.ok.inj (hk.symm.trans hk'))
    refine ⟨SameOff.mono hoff (fun x hx => Or.inl ⟨b, hb, hx⟩), fun hzero => ?_⟩
    unfold headerSize at hzero
    omega
  | none =>
    have hgrow := Except.ok.inj (hk.symm.trans (kmalloc_missing hr hspace hsize hplace))
    have hmem : h'.mem = (growHeap h (alignUp4 size) (lastAddr 0 bs)).2.mem := by rw [← hgrow]
    have hres : ptr = (growHeap h (alignUp4 size) (lastAddr 0 bs)).1 := by rw [← hgrow]
    rcases alloc_cases h.pmm hp with ⟨he, halloc⟩ | ⟨k, hk, halloc⟩
    · rw [growHeap_refused halloc] at hgrow
      obtain ⟨-, rfl⟩ := Prod.mk.inj hgrow
      exact ⟨SameOff.refl _ _, fun _ => rfl⟩
    · have hlt := freeSet_lt h.pmm hk.1
      have haddr := hp.addressable
      have hpage : (pmmAllocPage h.pmm).1+headerSize ≤ 4294967296 := by
        rw [halloc]
        unfold pageSize headerSize at *
        dsimp only
        omega
      have hrest : wrap ((pmmAllocPage h.pmm).1+headerSize+alignUp4 size) + headerSize ≤ 4294967296 := by
        rw [halloc]
        unfold wrap pageSize headerSize at *
        dsimp only
        omega
      have hin : lastAddr 0 bs ≠ 0 → ∃ b ∈ bs, b.addr = lastAddr 0 bs := by
        rcases List.eq_nil_or_concat bs with rfl | ⟨l, x, rfl⟩
        · exact fun h => absurd rfl h
        · rw [List.concat_eq_append, lastAddr_append]
          exact fun _ => ⟨x, by simp, rfl⟩
      have hoff := growHeap_off hpage hrest (fun h => by
        obtain ⟨b, hb, he⟩ := hin h
        rw [← he]
        exact space_header hspace hb)
      rw [hmem]
      refine ⟨SameOff.mono hoff ?_, fun hzero => ?_⟩
      · rintro x ((hx | hx) | ⟨hne, hx⟩)
        · rw [halloc] at hx
          exact Or.inr ⟨k, hk.1, Or.inl hx⟩
        · rw [halloc] at hx
          exact Or.inr ⟨k, hk.1, Or.inr hx⟩
        · obtain ⟨b, hb, he⟩ := hin hne
          rw [← he] at hx
          refine Or.inl ⟨b, hb, hx.1, hx.2.trans_le ?_⟩
          unfold Block.stop
          omega
      · have hk0 : k ≠ 0 := fun he => h0 (he ▸ hk.1)
        rw [hres, growHeap_ptr, halloc, if_neg (Nat.mul_ne_zero hk0 (by decide))] at hzero
        unfold wrap pageSize headerSize at *
        dsimp only at hzero
        omega

/-- Where the data of a new block starts: in a block of the list or in a page from the pool. -/
theorem kmalloc_block {h h' : Heap} {bs : List Block} {size ptr : ℕ} (hr : Represents h bs)
    (hapart : Apart headerSize bs) (hspace : InSpace bs) (hp : Padded h.pmm) (hsize : size ≠ 0)
    (hmax : size ≤ maxRequest) (hk : kmalloc h size = .ok (ptr, h')) : ptr = 0 ∨
    (∃ b ∈ bs, size ≤ b.size ∧ ptr = b.addr+headerSize) ∨ ∃ k ∈ freeSet h.pmm, ptr = k*pageSize+headerSize := by
  cases hplace : place headerSize 16 (alignUp4 size) bs with
  | some r =>
    obtain ⟨p, bs'⟩ := r
    obtain ⟨m', b, hk', -, hb, hfit, hpb, -⟩ := kmalloc_found hr hapart hspace hsize hmax hplace
    obtain ⟨rfl, -⟩ := Prod.mk.inj (Except.ok.inj (hk.symm.trans hk'))
    exact Or.inr (Or.inl ⟨b, hb, (alignUp4_ge hmax).1.trans hfit.2, by rw [hpb]⟩)
  | none =>
    have hgrow := Except.ok.inj (hk.symm.trans (kmalloc_missing hr hspace hsize hplace))
    have hptr : ptr = (growHeap h (alignUp4 size) (lastAddr 0 bs)).1 := by rw [← hgrow]
    rw [growHeap_ptr] at hptr
    rcases alloc_cases h.pmm hp with ⟨-, halloc⟩ | ⟨k, hk, halloc⟩
    · rw [halloc, if_pos rfl] at hptr
      exact Or.inl hptr
    · rw [halloc] at hptr
      split at hptr
      · exact Or.inl hptr
      · have hlt := freeSet_lt h.pmm hk.1
        have haddr := hp.addressable
        refine Or.inr (Or.inr ⟨k, hk.1, hptr.trans (wrap_of_lt ?_)⟩)
        unfold pageSize headerSize at *
        dsimp only
        omega

end Dionnex.HeapWrites
