import Mathlib.Data.Set.Card
import Dionnex.PmmSafety

/-!
# The free page counter

`free_pages` is kept by hand beside the bitmap: the release passes add one
for each bit they clear, the reservation passes and the allocator subtract
one for each bit they set, and a free adds one for a page that was in use.
The books balance when the counter is the number of clear bits below the
page count. Every step on a page of the map keeps them balanced. The one
step that leaves the map is the last of the bitmap reservation, which runs
up to and including the page where the bitmap ends.
-/

set_option autoImplicit false

namespace Dionnex.PmmCounter
open PackedBits LabelledRuns Dionnex.PmmBitmap Dionnex.PmmInit

/-- The allocator without word skipping: the pages are tried one after the other. -/
def plainScan (s : Pmm) : Option ℕ :=
  (List.range s.totalPages).find? (fun p => !bitmapTest s p)

def plainAlloc (s : Pmm) : ℕ × Pmm :=
  match plainScan s with
  | none => (0, s)
  | some page => (page*pageSize % 4294967296, takePage s page)

inductive Event where
  | allocPage (ret : ℕ)
  | freePage (addr : UInt32)

def Step (s : Pmm) : Event → Pmm → Prop
  | .allocPage ret, t => (ret, t) = pmmAllocPage s
  | .freePage addr, t => t = pmmFreePage s addr.toNat

/-- The counter is the number of free pages and the padding bits are set. -/
structure Balanced (s : Pmm) : Prop where
  counter : s.freePages = (freeSet s).ncard
  padding : ∀ p, s.totalPages ≤ p → p < 32*s.bitmapSize → bit s.bitmap p = true

/-- An allocation is the plain scan's, and every step leaves balanced books. -/
def Sound (s : Pmm) : Event → Pmm → Prop
  | .allocPage ret, t => (ret, t) = plainAlloc s ∧ Balanced t
  | .freePage _, t => Balanced t

/-- The reservation of the bitmap reaches a page that the map has no bit for:
the bitmap fills the last pages up to the end, the page count leaves no
padding, the word behind the map has that bit clear, and there is a free
page for the counter to lose. -/
def StrayReservation (k : KernelImage) (before : Words) (mbi : Option MultibootInfo) : Prop :=
  (bitmapAddr k).toNat + 4*bitmapSizeOf mbi = totalPagesOf mbi * pageSize ∧
  totalPagesOf mbi = 32*bitmapSizeOf mbi ∧
  bit before (totalPagesOf mbi) = false ∧
  ∃ p < totalPagesOf mbi, Claimed mbi p ∧ ¬ Reserved k mbi p

theorem plainScan_some (s : Pmm) (p : ℕ) (h : IsLeast (freeSet s) p) : plainScan s = some p := by
  rw [plainScan, List.find?_range_eq_some]
  refine ⟨by simpa [bitmapTest_eq] using h.1.2, by simpa using h.1.1, fun q hq => ?_⟩
  by_contra hclear
  have hmem : q ∈ freeSet s := ⟨hq.trans h.1.1, by simpa [bitmapTest_eq] using hclear⟩
  exact absurd (h.2 hmem) (by omega)

theorem plainScan_none (s : Pmm) (h : freeSet s = ∅) : plainScan s = none := by
  rw [plainScan, List.find?_range_eq_none]
  intro q hq
  have hmem : q ∉ freeSet s := by simp [h]
  simpa [mem_freeSet, hq, bitmapTest_eq] using hmem

/-- Skipping full words does not change what is found. -/
theorem alloc_plain (s : Pmm) (hs : Padded s) : pmmAllocPage s = plainAlloc s := by
  rcases alloc_cases s hs with ⟨he, ha⟩ | ⟨p, hp, ha⟩
  · rw [ha, plainAlloc, plainScan_none s he]
  · have hmod : p*pageSize % 4294967296 = p*pageSize := by
      have hlt := freeSet_lt s hp.1
      have haddr := hs.addressable
      unfold pageSize
      omega
    rw [ha, plainAlloc, plainScan_some s p hp]
    simp only [hmod]

/-! ## What one page step does to the books -/

/-- The counter agrees with the map. -/
def Books (s : Pmm) : Prop := s.freePages = (freeSet s).ncard

theorem ncard_pos_of_mem (s : Pmm) {p : ℕ} (h : p ∈ freeSet s) : 0 < (freeSet s).ncard :=
  (Set.ncard_pos (freeSet_finite s)).mpr ⟨p, h⟩

theorem take_books (s : Pmm) (p : ℕ) (h : Books s) (hp : p ∈ freeSet s) :
    Books (takePage s p) := by
  have hpos := ncard_pos_of_mem s hp
  have hcard := Set.ncard_sdiff_singleton_of_mem hp
  have hnext : (takePage s p).freePages = s.freePages-1 := by
    rw [Books] at h
    simp [takePage, h, hpos]
  rw [Books, takePage_free, hcard, hnext, h]

theorem give_free (s : Pmm) (p : ℕ) (hp : p < s.totalPages) :
    freeSet (givePage s p) = insert p (freeSet s) := by
  ext q
  simp only [mem_freeSet, givePage_bit, givePage_totalPages, Set.mem_insert_iff]
  by_cases hq : q = p
  · subst hq; simp [hp]
  · simp [hq]

theorem give_books (s : Pmm) (p : ℕ) (h : Books s) (hp : p < s.totalPages)
    (hused : bit s.bitmap p = true) : Books (givePage s p) := by
  have hmem : p ∉ freeSet s := fun hf => by simp [hf.2] at hused
  rw [Books, give_free s p hp, Set.ncard_insert_of_notMem hmem (freeSet_finite s), ← h]
  rfl

theorem release_books (s : Pmm) (p : ℕ) (h : Books s) : Books (releasePage s p) := by
  unfold releasePage
  split
  · next hp => exact give_books s p h hp.1 (by rw [← bitmapTest_eq]; exact hp.2)
  · exact h

/-- Off the map the counter goes down although no counted bit is set. -/
theorem take_off_map (s : Pmm) (p : ℕ) (h : Books s) (hp : s.totalPages ≤ p) :
    Books (takePage s p) ↔ freeSet s = ∅ := by
  have hnot : p ∉ freeSet s := fun hf => absurd hf.1 (by omega)
  rw [Books, takePage_free, Set.sdiff_singleton_eq_self hnot]
  rw [Books] at h
  constructor
  · intro hb
    rw [← Set.ncard_eq_zero (freeSet_finite s)]
    simp only [takePage, h] at hb
    split at hb <;> omega
  · intro he
    simp [takePage, h, he]

theorem reserve_books (s : Pmm) (p : ℕ) (hs : Padded s) (h : Books s)
    (hp : p < 32*s.bitmapSize ∨ freeSet s = ∅) : Books (reservePage s p) := by
  unfold reservePage
  rw [bitmapTest_eq]
  split
  · exact h
  · next hbit =>
    rcases Nat.lt_or_ge p s.totalPages with hlt | hge
    · exact take_books s p h ⟨hlt, by simpa using hbit⟩
    · refine (take_off_map s p h hge).mpr (hp.resolve_left fun hlt => ?_)
      exact hbit (hs.padding p hge hlt)

theorem reserve_free_subset (s : Pmm) (p : ℕ) : freeSet (reservePage s p) ⊆ freeSet s := by
  intro q hq
  simp only [mem_freeSet, reservePage_bit, (reserve_shape s p).totalPages,
    Bool.or_eq_false_iff] at hq
  exact ⟨hq.1, hq.2.1⟩

theorem fold_reserve_books (ps : List ℕ) (s : Pmm) (hs : Padded s) (h : Books s)
    (hp : (∀ p ∈ ps, p < 32*s.bitmapSize) ∨ freeSet s = ∅) : Books (ps.foldl reservePage s) := by
  induction ps generalizing s with
  | nil => exact h
  | cons p ps ih =>
    have hshape := reserve_shape s p
    refine ih (reservePage s p) (hshape.padded hs)
      (reserve_books s p hs h (hp.imp_left fun hb => hb p List.mem_cons_self)) ?_
    rw [hshape.bitmapSize]
    refine hp.imp (fun hb q hq => hb q (List.mem_cons_of_mem _ hq)) fun he => ?_
    exact Set.subset_eq_empty (reserve_free_subset s p) he

theorem reserveRange_books (s : Pmm) (first last : ℕ) (hs : Padded s) (h : Books s)
    (hp : last < 32*s.bitmapSize ∨ freeSet s = ∅) : Books (reserveRange s first last) := by
  refine fold_reserve_books _ s hs h (hp.imp_left fun hlast p hmem => ?_)
  rw [List.mem_range'_1] at hmem
  omega

/-! ## Boot -/

theorem fold_release_books (ps : List ℕ) (s : Pmm) (h : Books s) :
    Books (ps.foldl releasePage s) := by
  induction ps generalizing s with
  | nil => exact h
  | cons p ps ih => exact ih _ (release_books s p h)

theorem fold_give_books (ps : List ℕ) (s : Pmm) (h : Books s) (hn : ps.Nodup)
    (hp : ∀ p ∈ ps, p < s.totalPages ∧ bit s.bitmap p = true) :
    Books (ps.foldl givePage s) := by
  induction ps generalizing s with
  | nil => exact h
  | cons p ps ih =>
    obtain ⟨hlt, hused⟩ := hp p List.mem_cons_self
    obtain ⟨hfresh, hn⟩ := List.nodup_cons.mp hn
    refine ih (givePage s p) (give_books s p h hlt hused) hn fun q hq => ?_
    have hne : q ≠ p := fun he => hfresh (he ▸ hq)
    obtain ⟨hqlt, hqused⟩ := hp q (List.mem_cons_of_mem _ hq)
    exact ⟨hqlt, by simp [givePage_bit, hqused, hne]⟩

theorem marked_free (before : Words) (mbi : Option MultibootInfo) :
    freeSet (markedPmm before mbi) = ∅ := by
  ext p
  simp only [mem_freeSet, Set.mem_empty_iff_false, iff_false, not_and, Bool.not_eq_false]
  intro hp
  apply marked_bit
  have hcov := (marked_padded before mbi).covered
  change p < totalPagesOf mbi at hp
  change totalPagesOf mbi ≤ 32*bitmapSizeOf mbi at hcov
  omega

theorem marked_books (before : Words) (mbi : Option MultibootInfo) :
    Books (markedPmm before mbi) := by
  rw [Books, marked_free, Set.ncard_empty]
  rfl

theorem fallback_books (before : Words) (mbi : Option MultibootInfo) :
    Books (releaseFallback (markedPmm before mbi)) := by
  refine fold_give_books _ _ (marked_books before mbi) List.nodup_range' fun p hp => ?_
  rw [List.mem_range'_1, fallback_first] at hp
  have hlt : p < (markedPmm before mbi).totalPages := by omega
  have hcov := (marked_padded before mbi).covered
  exact ⟨hlt, marked_bit before mbi p (lt_of_lt_of_le hlt hcov)⟩

theorem released_books (before : Words) (mbi : Option MultibootInfo) :
    Books (releasedPmm before mbi) := by
  cases mbi with
  | none => exact fallback_books before none
  | some mbi =>
    cases h : hasMmap mbi with
    | true =>
      rw [released_map before mbi h, release_entries]
      exact fold_release_books _ _ (marked_books before (some mbi))
    | false =>
      rw [released_fallback before mbi h]
      exact fallback_books before (some mbi)

/-- `x & ~(PAGE_SIZE - 1)` clears the offset within the page. -/
theorem page_mask (x : BitVec 32) : (x &&& ~~~4095#32).toNat = x.toNat/4096*4096 := by
  have hones : ∀ i < 32, (~~~4095#32).getLsbD i = decide (12 ≤ i) := by decide
  have hshift : x &&& ~~~4095#32 = (x >>> 12) <<< 12 := by
    apply BitVec.eq_of_getLsbD_eq
    intro i hi
    rw [BitVec.getLsbD_and, hones i hi, BitVec.getLsbD_shiftLeft, BitVec.getLsbD_ushiftRight]
    by_cases h : 12 ≤ i
    · simp [h, hi, show ¬ i < 12 by omega, show 12+(i-12) = i by omega]
    · simp [h, show i < 12 by omega]
  have hlt := x.isLt
  rw [hshift, BitVec.toNat_shiftLeft, BitVec.toNat_ushiftRight, Nat.shiftRight_eq_div_pow,
    Nat.shiftLeft_eq]
  omega

/-- Below the wrap the bitmap starts at the first page boundary from `_kernel_end` on. -/
theorem bitmapAddr_eq (k : KernelImage) (h : k.kernelEnd.toNat ≤ 4294963200) :
    (bitmapAddr k).toNat = (k.kernelEnd.toNat+4095)/4096*4096 := by
  have hsum : (k.kernelEnd + 4096 - 1).toNat = k.kernelEnd.toNat+4095 := by
    simp only [UInt32.toNat_sub, UInt32.toNat_add, UInt32.reduceToNat]
    omega
  rw [← hsum]
  exact page_mask (k.kernelEnd + 4096 - 1).toBitVec

/-- The state before the bitmap itself is reserved. -/
def kernelReserved (k : KernelImage) (before : Words) (mbi : Option MultibootInfo) : Pmm :=
  reserveRange (reservePage (releasedPmm before mbi) 0) (kstartPage k) (kendPage k)

theorem init_eq (k : KernelImage) (before : Words) (mbi : Option MultibootInfo) :
    pmmInit k before mbi = reserveRange (kernelReserved k before mbi) (bstartPage k)
      (bendPage k (kernelReserved k before mbi).bitmapSize) := rfl

theorem kernelReserved_shape (k : KernelImage) (before : Words) (mbi : Option MultibootInfo) :
    SameShape (markedPmm before mbi) (kernelReserved k before mbi) :=
  ((released_shape before mbi).trans (reserve_shape _ 0)).trans (reserveRange_shape _ _ _)

/-- The kernel image and the bitmap lie below the last page counted. -/
structure Below (k : KernelImage) (mbi : Option MultibootInfo) : Prop where
  kernel : k.kernelEnd.toNat ≤ totalPagesOf mbi * pageSize
  bitmap : (bitmapAddr k).toNat + 4*bitmapSizeOf mbi ≤ totalPagesOf mbi * pageSize

theorem totalPages_covered (mbi : Option MultibootInfo) :
    totalPagesOf mbi ≤ 32*bitmapSizeOf mbi := (marked_padded (fun _ => 0) mbi).covered

theorem kernel_in_map (k : KernelImage) (mbi : Option MultibootInfo) (h : Below k mbi)
    (ht : 0 < totalPagesOf mbi) : kendPage k < 32*bitmapSizeOf mbi := by
  have hcov := totalPages_covered mbi
  have hlt := PmmSafety.totalPages_lt mbi
  obtain ⟨hk, hb⟩ := h
  unfold pageSize at hk hb
  rw [bitmapAddr_eq k (by omega)] at hb
  unfold kendPage pageIndex pageSize
  omega

theorem bend_page (k : KernelImage) (mbi : Option MultibootInfo) (h : Below k mbi) :
    bendPage k (bitmapSizeOf mbi) = ((bitmapAddr k).toNat + 4*bitmapSizeOf mbi)/4096 := by
  have hlt := PmmSafety.totalPages_lt mbi
  have hb := h.bitmap
  unfold pageSize at hb
  rw [bendPage, Nat.mod_eq_of_lt (by omega), mul_comm]
  rfl

theorem kernelReserved_books (k : KernelImage) (before : Words) (mbi : Option MultibootInfo)
    (h : Below k mbi) : Books (kernelReserved k before mbi) := by
  have hreleased := released_shape before mbi
  have hzero := hreleased.trans (reserve_shape (releasedPmm before mbi) 0)
  have hpadded := hreleased.padded (marked_padded before mbi)
  have hinside : ∀ s, SameShape (markedPmm before mbi) s → ∀ p,
      (0 < totalPagesOf mbi → p < 32*bitmapSizeOf mbi) → p < 32*s.bitmapSize ∨ freeSet s = ∅ := by
    intro s hs p hp
    have hsize : s.bitmapSize = bitmapSizeOf mbi := hs.bitmapSize
    have htotal : s.totalPages = totalPagesOf mbi := hs.totalPages
    rcases Nat.eq_zero_or_pos (totalPagesOf mbi) with h0 | hpos
    · right
      ext q
      simp [mem_freeSet, htotal, h0]
    · exact Or.inl (hsize ▸ hp hpos)
  have hbooks := reserve_books _ 0 hpadded (released_books before mbi)
    (hinside _ hreleased 0 fun hpos => lt_of_lt_of_le hpos (totalPages_covered mbi))
  exact reserveRange_books _ _ _ (hzero.padded (marked_padded before mbi)) hbooks
    (hinside _ hzero _ (kernel_in_map k mbi h))

/-- Until the bitmap is reserved nothing behind the map has changed. -/
theorem kernelReserved_behind (k : KernelImage) (before : Words) (mbi : Option MultibootInfo)
    (h : Below k mbi) (ht : 0 < totalPagesOf mbi) (q : ℕ) (hq : 32*bitmapSizeOf mbi ≤ q) :
    bit (kernelReserved k before mbi).bitmap q = bit before q := by
  have hcov := totalPages_covered mbi
  have hkernel := kernel_in_map k mbi h ht
  have hmarked : bit (markedPmm before mbi).bitmap q = bit before q := by
    have hword : ¬ q/32 < bitmapSizeOf mbi := by omega
    simp [bit, markedPmm, markAll, hword]
  have hfall : bit (releaseFallback (markedPmm before mbi)).bitmap q = bit before q := by
    have htotal : (markedPmm before mbi).totalPages = totalPagesOf mbi := rfl
    have hout : q ∉ List.range' (pageIndex 0x100000)
        ((markedPmm before mbi).totalPages - pageIndex 0x100000) := by
      rw [List.mem_range'_1, htotal, fallback_first]
      omega
    rw [releaseFallback, fold_give_bit, hmarked]
    simp [hout]
  have hreleased : bit (releasedPmm before mbi).bitmap q = bit before q := by
    cases mbi with
    | none => exact hfall
    | some mbi =>
      cases hm : hasMmap mbi with
      | true =>
        have hout : ¬ q < (markedPmm before (some mbi)).totalPages :=
          not_lt.mpr (hcov.trans hq)
        rw [released_map before mbi hm, release_entries, fold_release_bit, hmarked]
        simp [hout]
      | false =>
        rw [released_fallback before mbi hm]
        exact hfall
  rw [kernelReserved, reserveRange_bit, reservePage_bit, hreleased]
  have h0 : q ≠ 0 := by omega
  have hk : ¬ (kstartPage k ≤ q ∧ q ≤ kendPage k) := by omega
  simp [h0, hk]

theorem reserveRange_succ (s : Pmm) (first last : ℕ) (h : first ≤ last+1) :
    reserveRange s first (last+1) = reservePage (reserveRange s first last) (last+1) := by
  have hlen : last+1+1-first = (last+1-first)+1 := by omega
  have hend : first+(last+1-first) = last+1 := by omega
  rw [reserveRange, hlen, List.range'_1_concat, List.foldl_append, hend]
  rfl

/-- A page that is free after boot, in terms of the map and the reservations. -/
theorem init_free_nonempty (k : KernelImage) (before : Words) (mbi : Option MultibootInfo) :
    (∃ p < totalPagesOf mbi, Claimed mbi p ∧ ¬ Reserved k mbi p) ↔
      freeSet (pmmInit k before mbi) ≠ ∅ := by
  rw [← Set.nonempty_iff_ne_empty]
  constructor
  · rintro ⟨p, hp⟩
    exact ⟨p, (init_freeSet k before mbi p).mpr hp⟩
  · rintro ⟨p, hp⟩
    exact ⟨p, (init_freeSet k before mbi p).mp hp⟩

/-- The bitmap ends on the boundary behind its own map, and the counter goes
wrong exactly when the bit there is clear and a page is free. -/
theorem init_books_edge (k : KernelImage) (before : Words) (mbi : Option MultibootInfo)
    (h : Below k mbi) (last : ℕ) (hend : bendPage k (bitmapSizeOf mbi) = last+1)
    (htotal : totalPagesOf mbi = last+1) (hwords : 32*bitmapSizeOf mbi = last+1) :
    Books (pmmInit k before mbi) ↔
      ¬ (bit before (totalPagesOf mbi) = false ∧ freeSet (pmmInit k before mbi) ≠ ∅) := by
  have hshape := kernelReserved_shape k before mbi
  have hsize : (kernelReserved k before mbi).bitmapSize = bitmapSizeOf mbi := hshape.bitmapSize
  have hpadded := hshape.padded (marked_padded before mbi)
  have hrange := hshape.trans (reserveRange_shape (kernelReserved k before mbi) (bstartPage k) last)
  have hstart : bstartPage k ≤ last+1 := by
    rw [← hend, bend_page k mbi h]
    exact Nat.div_le_div_right (Nat.le_add_right _ _)
  have hinit : pmmInit k before mbi =
      reservePage (reserveRange (kernelReserved k before mbi) (bstartPage k) last) (last+1) := by
    rw [init_eq, hsize, hend, reserveRange_succ _ _ _ hstart]
  have hbooks : Books (reserveRange (kernelReserved k before mbi) (bstartPage k) last) := by
    refine reserveRange_books _ _ _ hpadded (kernelReserved_books k before mbi h) (Or.inl ?_)
    rw [hsize]
    omega
  have hbit : bit (reserveRange (kernelReserved k before mbi) (bstartPage k) last).bitmap (last+1) =
      bit before (totalPagesOf mbi) := by
    rw [reserveRange_bit, kernelReserved_behind k before mbi h (by omega) _ (by omega), htotal]
    simp
  have hout : (reserveRange (kernelReserved k before mbi) (bstartPage k) last).totalPages ≤
      last+1 := by
    rw [hrange.totalPages]
    exact htotal.le
  rw [hinit]
  cases hb : bit before (totalPagesOf mbi) with
  | true =>
    rw [reservePage, bitmapTest_eq, hbit, hb]
    simpa using hbooks
  | false =>
    have hnot : last+1 ∉
        freeSet (reserveRange (kernelReserved k before mbi) (bstartPage k) last) :=
      fun hf => absurd hf.1 (by omega)
    rw [reservePage, bitmapTest_eq, hbit, hb]
    simp only [Bool.false_eq_true, if_false, true_and, not_not, takePage_free,
      Set.sdiff_singleton_eq_self hnot]
    exact take_off_map _ _ hbooks hout

/-- The counter is right after boot exactly when no stray page is reserved. -/
theorem init_books (k : KernelImage) (before : Words) (mbi : Option MultibootInfo)
    (h : Below k mbi) : Books (pmmInit k before mbi) ↔ ¬ StrayReservation k before mbi := by
  have hcov := totalPages_covered mbi
  have hshape := kernelReserved_shape k before mbi
  have hsize : (kernelReserved k before mbi).bitmapSize = bitmapSizeOf mbi := hshape.bitmapSize
  have hpadded := hshape.padded (marked_padded before mbi)
  have hend := bend_page k mbi h
  have hbelow := h.bitmap
  unfold StrayReservation
  rw [init_free_nonempty k before mbi]
  rw [show pageSize = 4096 from rfl] at hbelow ⊢
  rcases Nat.lt_or_ge (bendPage k (bitmapSizeOf mbi)) (32*bitmapSizeOf mbi) with hin | hout
  · have hbooks : Books (pmmInit k before mbi) := by
      rw [init_eq, hsize]
      exact reserveRange_books _ _ _ hpadded (kernelReserved_books k before mbi h)
        (Or.inl (by rw [hsize]; exact hin))
    refine iff_of_true hbooks ?_
    rintro ⟨hfull, hwords, -, -⟩
    omega
  · have hfull : (bitmapAddr k).toNat + 4*bitmapSizeOf mbi = totalPagesOf mbi*4096 := by omega
    have hwords : totalPagesOf mbi = 32*bitmapSizeOf mbi := by omega
    have hlast : bendPage k (bitmapSizeOf mbi) = totalPagesOf mbi := by omega
    cases htotal : totalPagesOf mbi with
    | zero =>
      have hempty : ∀ s, s.totalPages = totalPagesOf mbi → freeSet s = ∅ := by
        intro s hs
        ext q
        simp [mem_freeSet, hs, htotal]
      refine iff_of_true ?_ fun hs => hs.2.2.2 (hempty _ (init_totalPages k before mbi))
      exact reserveRange_books _ _ _ hpadded (kernelReserved_books k before mbi h)
        (Or.inr (hempty _ hshape.totalPages))
    | succ last =>
      rw [init_books_edge k before mbi h last (hlast.trans htotal) htotal
        (hwords.symm.trans htotal), htotal]
      have hwords' : last+1 = 32*bitmapSizeOf mbi := htotal ▸ hwords
      simp [hfull, htotal, ← hwords']

/-! ## Runs -/

/-- What a run keeps. -/
structure Inv (s : Pmm) : Prop where
  padded : Padded s
  books : Books s

theorem Inv.balanced {s : Pmm} (h : Inv s) : Balanced s := ⟨h.books, h.padded.padding⟩

theorem alloc_books (s : Pmm) (h : Inv s) : Books (pmmAllocPage s).2 := by
  rcases alloc_cases s h.padded with ⟨-, ha⟩ | ⟨p, hp, ha⟩
  · rw [ha]; exact h.books
  · rw [ha]; exact take_books s p h.books hp.1

theorem step_inv (s : Pmm) (e : Event) (t : Pmm) (hs : Inv s) (h : Step s e t) : Inv t ∧ Sound s e t := by
  cases e with
  | allocPage ret =>
    have ht : t = (pmmAllocPage s).2 := congrArg Prod.snd h
    have hinv : Inv t := by
      rw [ht]
      exact ⟨alloc_padded s hs.padded, alloc_books s hs⟩
    exact ⟨hinv, h.trans (alloc_plain s hs.padded), hinv.balanced⟩
  | freePage addr =>
    have hinv : Inv t := by
      rw [show t = pmmFreePage s addr.toNat from h]
      exact ⟨free_padded s _ hs.padded, release_books s _ hs.books⟩
    exact ⟨hinv, hinv.balanced⟩

end Dionnex.PmmCounter
