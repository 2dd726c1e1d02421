import Dionnex.PackedBits

/-!
# The physical page allocator

The bitmap, its page count and the two public operations of the physical
memory manager. A set bit is a used page. The allocator skips full words,
takes the first clear bit of the first word that has one and gives up when
that bit lies past the last page. Abstractly it is a pool of free pages
that always hands out the least one; `freeSet` is that pool.
-/

set_option autoImplicit false

namespace Dionnex.PmmBitmap
open PackedBits

def pageSize : ℕ := 4096

structure Pmm where
  bitmap : Words
  bitmapSize : ℕ
  totalPages : ℕ
  freePages : ℕ

def pageIndex (addr : ℕ) : ℕ := addr / pageSize

def bitmapSet (s : Pmm) (page : ℕ) : Pmm := { s with bitmap := setBit s.bitmap page }

def bitmapClear (s : Pmm) (page : ℕ) : Pmm := { s with bitmap := clearBit s.bitmap page }

def bitmapTest (s : Pmm) (page : ℕ) : Bool :=
  decide ((s.bitmap (page/32) >>> (page%32)) &&& 1#32 ≠ 0#32)

/-- `bitmap_set` followed by the guarded decrement of `free_pages`. -/
def takePage (s : Pmm) (page : ℕ) : Pmm :=
  { bitmapSet s page with freePages := if s.freePages > 0 then s.freePages-1 else s.freePages }

/-- `bitmap_clear` followed by the increment of `free_pages`. -/
def givePage (s : Pmm) (page : ℕ) : Pmm :=
  { bitmapClear s page with freePages := s.freePages+1 }

def scanWord (w : BitVec 32) : Option ℕ :=
  (List.range 32).findSome? (fun j => if w &&& (1#32 <<< j) = 0#32 then some j else none)

def scan (s : Pmm) : Option ℕ :=
  (List.range s.bitmapSize).findSome? (fun i =>
    if s.bitmap i ≠ 0xFFFFFFFF#32 then (scanWord (s.bitmap i)).map (fun j => i*32+j) else none)

def pmmAllocPage (s : Pmm) : ℕ × Pmm :=
  match scan s with
  | none => (0, s)
  | some page =>
    if page ≥ s.totalPages then (0, s) else (page*pageSize % 4294967296, takePage s page)

/-- The guarded release shared by `pmm_free_page` and the map loop of `pmm_init`. -/
def releasePage (s : Pmm) (page : ℕ) : Pmm :=
  if page < s.totalPages ∧ bitmapTest s page then givePage s page else s

def pmmFreePage (s : Pmm) (addr : ℕ) : Pmm := releasePage s (pageIndex addr)

def pmmGetFreeCount (s : Pmm) : ℕ := s.freePages

def pmmGetTotalCount (s : Pmm) : ℕ := s.totalPages

theorem bitmapTest_eq (s : Pmm) (page : ℕ) : bitmapTest s page = bit s.bitmap page := by
  rw [Bool.eq_iff_iff, bitmapTest, decide_eq_true_iff, shift_test]
  rfl

def freeSet (s : Pmm) : Set ℕ := {p | p < s.totalPages ∧ bit s.bitmap p = false}

theorem freeSet_finite (s : Pmm) : (freeSet s).Finite :=
  (Set.finite_lt_nat s.totalPages).subset (fun _ h => h.1)

theorem page_mul_injective {p q : ℕ} (h : p*pageSize = q*pageSize) : p = q :=
  Nat.eq_of_mul_eq_mul_right (by decide) h

theorem mem_freeSet (s : Pmm) (p : ℕ) :
    p ∈ freeSet s ↔ p < s.totalPages ∧ bit s.bitmap p = false := Iff.rfl

/-- The bits past the last page are set, and the pages fit the address space. -/
structure Padded (s : Pmm) : Prop where
  covered : s.totalPages ≤ 32*s.bitmapSize
  padding : ∀ p, s.totalPages ≤ p → p < 32*s.bitmapSize → bit s.bitmap p = true
  addressable : s.totalPages ≤ 1048576

theorem scanWord_some (w : BitVec 32) (j : ℕ) (h : scanWord w = some j) :
    j < 32 ∧ w.getLsbD j = false ∧ ∀ k < j, w.getLsbD k = true := by
  obtain ⟨i, hi, hf, hk⟩ := findSome_range_some 32 _ j h
  have hm : w &&& (1#32 <<< i) = 0#32 ∧ i = j := by simpa using hf
  obtain ⟨hz, rfl⟩ := hm
  refine ⟨hi, (shift_mask w i hi).mp hz, fun k hki => ?_⟩
  have hn : ¬ (w &&& (1#32 <<< k) = 0#32) := by simpa using hk k hki
  rw [shift_mask w k (by omega)] at hn
  simpa using hn

theorem scanWord_none (w : BitVec 32) (h : scanWord w = none) : w = 0xFFFFFFFF#32 := by
  rw [all_ones_bit]
  intro j hj
  have hn := (findSome_range_none 32 _).mp h j hj
  have hm : ¬ (w &&& (1#32 <<< j) = 0#32) := by simpa using hn
  rw [shift_mask w j hj] at hm
  simpa using hm

/-- The word-skipping scan finds the least clear bit of the whole map. -/
theorem scan_some (s : Pmm) (p : ℕ) (h : scan s = some p) :
    p < 32*s.bitmapSize ∧ bit s.bitmap p = false ∧ ∀ q < p, bit s.bitmap q = true := by
  obtain ⟨i, hi, hf, hk⟩ := findSome_range_some s.bitmapSize _ p h
  split at hf
  · obtain ⟨j, hj, rfl⟩ := Option.map_eq_some_iff.mp hf
    obtain ⟨hj32, hclear, hbelow⟩ := scanWord_some _ j hj
    have hdiv : (i*32+j)/32 = i := by omega
    have hmod : (i*32+j)%32 = j := by omega
    refine ⟨by omega, by rw [bit, hdiv, hmod]; exact hclear, fun q hq => ?_⟩
    by_cases hqi : q/32 = i
    · rw [bit, hqi]
      exact hbelow _ (by omega)
    · have hw := hk (q/32) (by omega)
      apply filled_bit
      by_contra hne
      rw [if_pos hne, Option.map_eq_none_iff] at hw
      exact hne (scanWord_none _ hw)
  · cases hf

theorem scan_none (s : Pmm) (h : scan s = none) :
    ∀ q < 32*s.bitmapSize, bit s.bitmap q = true := by
  intro q hq
  have hw := (findSome_range_none s.bitmapSize _).mp h (q/32) (by omega)
  apply filled_bit
  by_contra hne
  rw [if_pos hne, Option.map_eq_none_iff] at hw
  exact hne (scanWord_none _ hw)

theorem takePage_bit (s : Pmm) (p q : ℕ) :
    bit (takePage s p).bitmap q = (bit s.bitmap q || decide (q = p)) := bit_setBit _ _ _

theorem givePage_bit (s : Pmm) (p q : ℕ) :
    bit (givePage s p).bitmap q = (bit s.bitmap q && decide (q ≠ p)) := bit_clearBit _ _ _

@[simp] theorem takePage_totalPages (s : Pmm) (p : ℕ) :
    (takePage s p).totalPages = s.totalPages := rfl

@[simp] theorem takePage_bitmapSize (s : Pmm) (p : ℕ) :
    (takePage s p).bitmapSize = s.bitmapSize := rfl

@[simp] theorem givePage_totalPages (s : Pmm) (p : ℕ) :
    (givePage s p).totalPages = s.totalPages := rfl

@[simp] theorem givePage_bitmapSize (s : Pmm) (p : ℕ) :
    (givePage s p).bitmapSize = s.bitmapSize := rfl

theorem takePage_free (s : Pmm) (p : ℕ) : freeSet (takePage s p) = freeSet s \ {p} := by
  ext q
  simp only [mem_freeSet, Set.mem_sdiff, Set.mem_singleton_iff, takePage_bit,
    takePage_totalPages, Bool.or_eq_false_iff, decide_eq_false_iff_not]
  tauto

theorem takePage_padded (s : Pmm) (p : ℕ) (h : Padded s) : Padded (takePage s p) where
  covered := h.covered
  padding q hq hb := by
    rw [takePage_bit, h.padding q hq hb]
    rfl
  addressable := h.addressable

theorem freeSet_lt (s : Pmm) {p : ℕ} (h : p ∈ freeSet s) : p < s.totalPages := h.1

/-- Page addresses are those of whole pages. -/
theorem alloc_page_room (s : Pmm) :
    (pmmAllocPage s).1 % pageSize = 0 ∧ (pmmAllocPage s).1 + pageSize ≤ 4294967296 := by
  unfold pmmAllocPage pageSize
  split
  · simp
  · split
    · simp
    · dsimp only
      omega

/-- A page handed out is not page 0. -/
theorem alloc_page_low (s : Pmm) (h : (pmmAllocPage s).1 ≠ 0) : pageSize ≤ (pmmAllocPage s).1 := by
  have haligned := (alloc_page_room s).1
  unfold pageSize at *
  omega

/-- The allocator hands out the least free page. -/
theorem alloc_least (s : Pmm) (hs : Padded s) (p : ℕ) (hp : IsLeast (freeSet s) p) :
    pmmAllocPage s = (p*pageSize, takePage s p) := by
  have hlt := freeSet_lt s hp.1
  have hpclear := hp.1.2
  have hcov := hs.covered
  have haddr := hs.addressable
  unfold pmmAllocPage
  cases hscan : scan s with
  | none => simp [scan_none s hscan p (by omega)] at hpclear
  | some q =>
    obtain ⟨-, hqclear, hbelow⟩ := scan_some s q hscan
    have hqp : ¬ p < q := fun h => by simp [hbelow p h] at hpclear
    have hq : q ∈ freeSet s := ⟨by omega, hqclear⟩
    have hpq := hp.2 hq
    obtain rfl : q = p := by omega
    have hmod : q*pageSize % 4294967296 = q*pageSize := by
      unfold pageSize
      omega
    simp [hmod, Nat.not_le.mpr hlt]

theorem alloc_empty (s : Pmm) (he : freeSet s = ∅) : pmmAllocPage s = (0, s) := by
  unfold pmmAllocPage
  cases hscan : scan s with
  | none => rfl
  | some q =>
    obtain ⟨hq, hqclear, -⟩ := scan_some s q hscan
    have hge : q ≥ s.totalPages := by
      by_contra hlt
      exact Set.eq_empty_iff_forall_notMem.mp he q ⟨by omega, hqclear⟩
    simp [hge]

/-- Either no page is free and nothing happens, or the least free page is taken. -/
theorem alloc_cases (s : Pmm) (hs : Padded s) :
    (freeSet s = ∅ ∧ pmmAllocPage s = (0, s)) ∨
    ∃ p, IsLeast (freeSet s) p ∧ pmmAllocPage s = (p*pageSize, takePage s p) := by
  classical
  by_cases he : freeSet s = ∅
  · exact Or.inl ⟨he, alloc_empty s he⟩
  · have hne : (freeSet s).Nonempty := Set.nonempty_iff_ne_empty.mpr he
    have hleast : IsLeast (freeSet s) (sInf (freeSet s)) :=
      ⟨Nat.sInf_mem hne, fun q hq => Nat.sInf_le hq⟩
    exact Or.inr ⟨_, hleast, alloc_least s hs _ hleast⟩

theorem alloc_padded (s : Pmm) (hs : Padded s) : Padded (pmmAllocPage s).2 := by
  rcases alloc_cases s hs with ⟨-, h⟩ | ⟨p, -, h⟩
  · rw [h]; exact hs
  · rw [h]; exact takePage_padded s p hs

@[simp] theorem alloc_totalPages (s : Pmm) :
    (pmmAllocPage s).2.totalPages = s.totalPages := by
  unfold pmmAllocPage
  split
  · rfl
  · split <;> rfl

@[simp] theorem releasePage_totalPages (s : Pmm) (p : ℕ) :
    (releasePage s p).totalPages = s.totalPages := by
  unfold releasePage
  split <;> rfl

@[simp] theorem releasePage_bitmapSize (s : Pmm) (p : ℕ) :
    (releasePage s p).bitmapSize = s.bitmapSize := by
  unfold releasePage
  split <;> rfl

theorem releasePage_bit (s : Pmm) (p q : ℕ) :
    bit (releasePage s p).bitmap q =
      (bit s.bitmap q && !decide (q = p ∧ p < s.totalPages)) := by
  unfold releasePage
  rw [bitmapTest_eq]
  split
  · next h => simp [givePage_bit, h.1]
  · next h =>
    by_cases hq : q = p ∧ p < s.totalPages
    · obtain ⟨rfl, hlt⟩ := hq
      have hb : bit s.bitmap q = false := by simpa [hlt] using h
      simp [hb]
    · simp [hq]

/-- Releases are guarded by the page count, so padding bits stay set. -/
theorem releasePage_padded (s : Pmm) (p : ℕ) (hs : Padded s) : Padded (releasePage s p) where
  covered := by simpa using hs.covered
  addressable := by simpa using hs.addressable
  padding q hq hb := by
    simp only [releasePage_totalPages, releasePage_bitmapSize] at hq hb
    rw [releasePage_bit, hs.padding q hq hb]
    simp only [Bool.true_and, Bool.not_eq_true', decide_eq_false_iff_not]
    omega

theorem free_padded (s : Pmm) (a : ℕ) (hs : Padded s) : Padded (pmmFreePage s a) :=
  releasePage_padded s _ hs

@[simp] theorem free_totalPages (s : Pmm) (a : ℕ) :
    (pmmFreePage s a).totalPages = s.totalPages := releasePage_totalPages s _

theorem free_freeSet (s : Pmm) (a : ℕ) (ha : pageIndex a < s.totalPages) :
    freeSet (pmmFreePage s a) = insert (pageIndex a) (freeSet s) := by
  ext q
  simp only [pmmFreePage, mem_freeSet, releasePage_bit, releasePage_totalPages,
    Set.mem_insert_iff, Bool.and_eq_false_iff, Bool.not_eq_false', decide_eq_true_iff]
  constructor
  · rintro ⟨hq, hb | hb⟩
    · exact Or.inr ⟨hq, hb⟩
    · exact Or.inl hb.1
  · rintro (rfl | ⟨hq, hb⟩)
    · exact ⟨ha, Or.inr ⟨rfl, ha⟩⟩
    · exact ⟨hq, Or.inl hb⟩

end Dionnex.PmmBitmap
