import Dionnex.PmmBitmap

/-!
# Building the page bitmap from the boot memory map

Every page starts used. A first pass over the map finds the highest
address, a second one releases the pages of each available region, and
three passes then reserve page zero, the kernel image and the bitmap. The
map is the list of the entries the walk visits; it lies apart from the
bitmap, so both passes see the same entries. Both passes read only the low
words of an entry.
-/

set_option autoImplicit false

namespace Dionnex.PmmInit
open PackedBits Dionnex.PmmBitmap

structure MmapEntry where
  size : UInt32
  addrLow : UInt32
  addrHigh : UInt32
  lenLow : UInt32
  lenHigh : UInt32
  type : UInt32
  deriving DecidableEq, Repr

structure MultibootInfo where
  flags : UInt32
  memUpper : UInt32
  mmapLength : UInt32
  mmap : List MmapEntry

/-- The linker's `_kernel_start` and `_kernel_end`. -/
structure KernelImage where
  kernelStart : UInt32
  kernelEnd : UInt32

def hasMmap (mbi : MultibootInfo) : Bool :=
  decide (mbi.flags &&& ((1 : UInt32) <<< 6) ≠ 0 ∧ mbi.mmapLength > 0)

def entryMax (maxAddr : UInt32) (entry : MmapEntry) : UInt32 :=
  if entry.type = 1 then
    if entry.addrLow + entry.lenLow > maxAddr then entry.addrLow + entry.lenLow else maxAddr
  else maxAddr

def maxAddr : Option MultibootInfo → UInt32
  | some mbi =>
    if hasMmap mbi then mbi.mmap.foldl entryMax 0x1000000
    else if mbi.flags &&& ((1 : UInt32) <<< 0) ≠ 0 then (mbi.memUpper + 1024) * 1024
    else 0x1000000
  | none => 0x1000000

def totalPagesOf (mbi : Option MultibootInfo) : ℕ := (maxAddr mbi / 4096).toNat

def bitmapSizeOf (mbi : Option MultibootInfo) : ℕ := (totalPagesOf mbi + 31)/32

/-- `ALIGN_UP(&_kernel_end, PAGE_SIZE)`. -/
def bitmapAddr (k : KernelImage) : UInt32 := (k.kernelEnd + 4096 - 1) &&& ~~~(4096 - 1)

def markAll (before : Words) (n : ℕ) : Words := fun i => if i < n then 0xFFFFFFFF#32 else before i

def startPage (entry : MmapEntry) : ℕ := pageIndex entry.addrLow.toNat

def pageCount (entry : MmapEntry) : ℕ := entry.lenLow.toNat / pageSize

def releaseEntry (s : Pmm) (entry : MmapEntry) : Pmm :=
  if entry.type = 1 then
    (List.range (pageCount entry)).foldl (fun t p => releasePage t (startPage entry + p)) s
  else s

/-- The fallback without a map: everything from 1 MiB up is free. -/
def releaseFallback (s : Pmm) : Pmm :=
  (List.range' (pageIndex 0x100000) (s.totalPages - pageIndex 0x100000)).foldl givePage s

def reservePage (s : Pmm) (page : ℕ) : Pmm := if bitmapTest s page then s else takePage s page

/-- `for (p = first; p <= last; p++)`. -/
def reserveRange (s : Pmm) (first last : ℕ) : Pmm :=
  (List.range' first (last+1-first)).foldl reservePage s

def kstartPage (k : KernelImage) : ℕ := pageIndex k.kernelStart.toNat

def kendPage (k : KernelImage) : ℕ := pageIndex k.kernelEnd.toNat

def bstartPage (k : KernelImage) : ℕ := pageIndex (bitmapAddr k).toNat

def bendPage (k : KernelImage) (bitmapSize : ℕ) : ℕ :=
  pageIndex (((bitmapAddr k).toNat + bitmapSize*4) % 4294967296)

/-- The state after the marking loop; `before` is what memory held there. -/
def markedPmm (before : Words) (mbi : Option MultibootInfo) : Pmm where
  bitmap := markAll before (bitmapSizeOf mbi)
  bitmapSize := bitmapSizeOf mbi
  totalPages := totalPagesOf mbi
  freePages := 0

def releasedPmm (before : Words) : Option MultibootInfo → Pmm
  | some mbi =>
    if hasMmap mbi then mbi.mmap.foldl releaseEntry (markedPmm before (some mbi))
    else releaseFallback (markedPmm before (some mbi))
  | none => releaseFallback (markedPmm before none)

def pmmInit (k : KernelImage) (before : Words) (mbi : Option MultibootInfo) : Pmm :=
  let s0 := reservePage (releasedPmm before mbi) 0
  let s1 := reserveRange s0 (kstartPage k) (kendPage k)
  reserveRange s1 (bstartPage k) (bendPage k s1.bitmapSize)

/-- The pages that the release pass clears. -/
def Claimed : Option MultibootInfo → ℕ → Prop
  | some mbi, p =>
    if hasMmap mbi then
      ∃ e ∈ mbi.mmap, e.type = 1 ∧ startPage e ≤ p ∧ p < startPage e + pageCount e
    else 256 ≤ p
  | none, p => 256 ≤ p

/-- The pages that the three reservation passes set. -/
def Reserved (k : KernelImage) (mbi : Option MultibootInfo) (p : ℕ) : Prop :=
  p = 0 ∨ (kstartPage k ≤ p ∧ p ≤ kendPage k) ∨
    (bstartPage k ≤ p ∧ p ≤ bendPage k (bitmapSizeOf mbi))

/-- What one pass keeps: the size of the map and the padding bits. -/
structure SameShape (s t : Pmm) : Prop where
  totalPages : t.totalPages = s.totalPages
  bitmapSize : t.bitmapSize = s.bitmapSize
  padded : Padded s → Padded t

theorem SameShape.refl (s : Pmm) : SameShape s s := ⟨rfl, rfl, id⟩

theorem SameShape.trans {s t u : Pmm} (h : SameShape s t) (g : SameShape t u) : SameShape s u :=
  ⟨g.totalPages.trans h.totalPages, g.bitmapSize.trans h.bitmapSize, fun p => g.padded (h.padded p)⟩

theorem release_shape (s : Pmm) (p : ℕ) : SameShape s (releasePage s p) :=
  ⟨by simp, by simp, releasePage_padded s p⟩

theorem reserve_shape (s : Pmm) (p : ℕ) : SameShape s (reservePage s p) := by
  unfold reservePage
  split
  · exact SameShape.refl s
  · exact ⟨rfl, rfl, takePage_padded s p⟩

theorem reservePage_bit (s : Pmm) (p q : ℕ) :
    bit (reservePage s p).bitmap q = (bit s.bitmap q || decide (q = p)) := by
  unfold reservePage
  rw [bitmapTest_eq]
  split
  · next h =>
    by_cases hq : q = p
    · subst hq; simp [h]
    · simp [hq]
  · exact takePage_bit s p q

/-- A pass made of shape-keeping page steps keeps the shape. -/
theorem fold_shape {β : Type*} (f : Pmm → β → Pmm) (hf : ∀ s b, SameShape s (f s b))
    (bs : List β) (s : Pmm) : SameShape s (bs.foldl f s) := by
  induction bs generalizing s with
  | nil => exact SameShape.refl s
  | cons b bs ih => exact (hf s b).trans (ih _)

theorem fold_release_bit (ps : List ℕ) (s : Pmm) (q : ℕ) :
    bit (ps.foldl releasePage s).bitmap q =
      (bit s.bitmap q && !decide (q ∈ ps ∧ q < s.totalPages)) := by
  induction ps generalizing s with
  | nil => simp
  | cons p ps ih =>
    rw [List.foldl_cons, ih, releasePage_bit, releasePage_totalPages]
    by_cases hp : q = p
    · subst hp
      by_cases hq : q < s.totalPages <;> simp [hq]
    · simp [hp]

theorem fold_reserve_bit (ps : List ℕ) (s : Pmm) (q : ℕ) :
    bit (ps.foldl reservePage s).bitmap q = (bit s.bitmap q || decide (q ∈ ps)) := by
  induction ps generalizing s with
  | nil => simp
  | cons p ps ih =>
    rw [List.foldl_cons, ih, reservePage_bit]
    by_cases hp : q = p <;> simp [hp]

theorem fold_give_bit (ps : List ℕ) (s : Pmm) (q : ℕ) :
    bit (ps.foldl givePage s).bitmap q = (bit s.bitmap q && !decide (q ∈ ps)) := by
  induction ps generalizing s with
  | nil => simp
  | cons p ps ih =>
    rw [List.foldl_cons, ih, givePage_bit]
    by_cases hp : q = p <;> simp [hp]

theorem fold_give_sizes (ps : List ℕ) (s : Pmm) :
    (ps.foldl givePage s).totalPages = s.totalPages ∧
      (ps.foldl givePage s).bitmapSize = s.bitmapSize := by
  induction ps generalizing s with
  | nil => exact ⟨rfl, rfl⟩
  | cons p ps ih => simpa using ih (givePage s p)

def entryPages (entry : MmapEntry) : List ℕ :=
  if entry.type = 1 then (List.range (pageCount entry)).map (fun p => startPage entry + p) else []

theorem releaseEntry_eq (s : Pmm) (entry : MmapEntry) :
    releaseEntry s entry = (entryPages entry).foldl releasePage s := by
  unfold releaseEntry entryPages
  split
  · rw [List.foldl_map]
  · rfl

theorem mem_entryPages (entry : MmapEntry) (p : ℕ) :
    p ∈ entryPages entry ↔
      entry.type = 1 ∧ startPage entry ≤ p ∧ p < startPage entry + pageCount entry := by
  unfold entryPages
  split
  · next h =>
    simp only [List.mem_map, List.mem_range, h, true_and]
    constructor
    · rintro ⟨i, hi, rfl⟩
      omega
    · rintro ⟨h1, h2⟩
      exact ⟨p - startPage entry, by omega, by omega⟩
  · next h => simp [h]

theorem release_entries (es : List MmapEntry) (s : Pmm) :
    es.foldl releaseEntry s = (es.flatMap entryPages).foldl releasePage s := by
  induction es generalizing s with
  | nil => rfl
  | cons e es ih =>
    rw [List.foldl_cons, ih, List.flatMap_cons, List.foldl_append, releaseEntry_eq]

theorem entry_shape (s : Pmm) (entry : MmapEntry) : SameShape s (releaseEntry s entry) := by
  rw [releaseEntry_eq]
  exact fold_shape releasePage release_shape _ s

theorem marked_bit (before : Words) (mbi : Option MultibootInfo) (q : ℕ)
    (hq : q < 32*bitmapSizeOf mbi) : bit (markedPmm before mbi).bitmap q = true := by
  apply filled_bit
  have hw : q/32 < bitmapSizeOf mbi := by omega
  simp [markedPmm, markAll, hw]

theorem marked_padded (before : Words) (mbi : Option MultibootInfo) :
    Padded (markedPmm before mbi) where
  covered := by
    change totalPagesOf mbi ≤ 32*bitmapSizeOf mbi
    unfold bitmapSizeOf
    omega
  padding q _ hb := marked_bit before mbi q hb
  addressable := by
    change (maxAddr mbi / 4096).toNat ≤ 1048576
    have h := (maxAddr mbi).toNat_lt
    rw [UInt32.toNat_div, show UInt32.toNat 4096 = 4096 from rfl]
    omega

/-- The fallback loop stays below the page count, so padding bits stay set. -/
theorem fallback_shape (s : Pmm) : SameShape s (releaseFallback s) := by
  obtain ⟨ht, hb⟩ := fold_give_sizes
    (List.range' (pageIndex 0x100000) (s.totalPages - pageIndex 0x100000)) s
  refine ⟨ht, hb, fun hs => ⟨?_, ?_, ?_⟩⟩
  · exact (by rw [releaseFallback, ht, hb]; exact hs.covered)
  · intro q hq hlt
    rw [releaseFallback, ht] at hq
    rw [releaseFallback, hb] at hlt
    rw [releaseFallback, fold_give_bit, hs.padding q hq hlt]
    simp only [Bool.true_and, Bool.not_eq_true', decide_eq_false_iff_not, List.mem_range'_1]
    omega
  · exact (by rw [releaseFallback, ht]; exact hs.addressable)

theorem released_map (before : Words) (mbi : MultibootInfo) (h : hasMmap mbi = true) :
    releasedPmm before (some mbi) = mbi.mmap.foldl releaseEntry (markedPmm before (some mbi)) := by
  simp only [releasedPmm, h, if_true]

theorem released_fallback (before : Words) (mbi : MultibootInfo) (h : hasMmap mbi = false) :
    releasedPmm before (some mbi) = releaseFallback (markedPmm before (some mbi)) := by
  simp only [releasedPmm, h, Bool.false_eq_true, if_false]

theorem released_shape (before : Words) (mbi : Option MultibootInfo) :
    SameShape (markedPmm before mbi) (releasedPmm before mbi) := by
  cases mbi with
  | none => exact fallback_shape _
  | some mbi =>
    cases h : hasMmap mbi with
    | true =>
      rw [released_map before mbi h]
      exact fold_shape releaseEntry entry_shape _ _
    | false =>
      rw [released_fallback before mbi h]
      exact fallback_shape _

theorem reserveRange_shape (s : Pmm) (first last : ℕ) : SameShape s (reserveRange s first last) :=
  fold_shape reservePage reserve_shape _ s

theorem init_shape (k : KernelImage) (before : Words) (mbi : Option MultibootInfo) :
    SameShape (markedPmm before mbi) (pmmInit k before mbi) :=
  (((released_shape before mbi).trans (reserve_shape _ 0)).trans
    (reserveRange_shape _ _ _)).trans (reserveRange_shape _ _ _)

/-- Whatever the map says, the initial bitmap is well formed. -/
theorem init_padded (k : KernelImage) (before : Words) (mbi : Option MultibootInfo) :
    Padded (pmmInit k before mbi) := (init_shape k before mbi).padded (marked_padded before mbi)

theorem init_totalPages (k : KernelImage) (before : Words) (mbi : Option MultibootInfo) :
    (pmmInit k before mbi).totalPages = totalPagesOf mbi := (init_shape k before mbi).totalPages

theorem fallback_first : pageIndex 0x100000 = 256 := by norm_num [pageIndex, pageSize]

theorem fallback_bit (s : Pmm) (q : ℕ) (hq : q < s.totalPages) :
    bit (releaseFallback s).bitmap q = (bit s.bitmap q && !decide (256 ≤ q)) := by
  have hmem : q ∈ List.range' 256 (s.totalPages-256) ↔ 256 ≤ q := by
    rw [List.mem_range'_1]
    omega
  rw [releaseFallback, fold_give_bit, fallback_first]
  simp only [hmem]

theorem released_bit (before : Words) (mbi : Option MultibootInfo) (q : ℕ)
    (hq : q < totalPagesOf mbi) :
    bit (releasedPmm before mbi).bitmap q = false ↔ Claimed mbi q := by
  have hm : bit (markedPmm before mbi).bitmap q = true :=
    marked_bit before mbi q (by unfold bitmapSizeOf; omega)
  have hfall : bit (releaseFallback (markedPmm before mbi)).bitmap q = false ↔ 256 ≤ q := by
    rw [fallback_bit _ q hq, hm]
    simp
  cases mbi with
  | none => exact hfall
  | some mbi =>
    cases h : hasMmap mbi with
    | true =>
      have ht : q < (markedPmm before (some mbi)).totalPages := hq
      rw [released_map before mbi h, release_entries, fold_release_bit, hm]
      simp only [Bool.true_and, Bool.not_eq_false', decide_eq_true_iff, ht, and_true,
        List.mem_flatMap, mem_entryPages, Claimed, h, if_true]
    | false =>
      rw [released_fallback before mbi h, hfall]
      simp only [Claimed, h, Bool.false_eq_true, if_false]

theorem reserveRange_bit (s : Pmm) (first last q : ℕ) :
    bit (reserveRange s first last).bitmap q =
      (bit s.bitmap q || decide (first ≤ q ∧ q ≤ last)) := by
  rw [reserveRange, fold_reserve_bit]
  congr 1
  rw [decide_eq_decide, List.mem_range'_1]
  omega

/-- The exact free set after initialisation: what the map claims and the
reservation passes leave. -/
theorem init_freeSet (k : KernelImage) (before : Words) (mbi : Option MultibootInfo) (q : ℕ) :
    q ∈ freeSet (pmmInit k before mbi) ↔
      q < totalPagesOf mbi ∧ Claimed mbi q ∧ ¬ Reserved k mbi q := by
  rw [mem_freeSet, init_totalPages]
  refine and_congr_right fun hq => ?_
  have hsize : (reserveRange (reservePage (releasedPmm before mbi) 0)
      (kstartPage k) (kendPage k)).bitmapSize = bitmapSizeOf mbi :=
    (((released_shape before mbi).trans (reserve_shape _ 0)).trans
      (reserveRange_shape _ _ _)).bitmapSize
  rw [pmmInit, reserveRange_bit, reserveRange_bit, reservePage_bit, hsize]
  simp only [Bool.or_eq_false_iff, decide_eq_false_iff_not, released_bit before mbi q hq, Reserved]
  tauto

end Dionnex.PmmInit
