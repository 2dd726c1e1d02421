import Dionnex.LabelledRuns
import Dionnex.PmmInit

/-!
# Runs of the page allocator

Callers take pages and give back only pages they hold. Along any such run
after initialisation the clear bits are exactly the pages that
initialisation left free and nobody holds, so no page is handed out twice
and no reserved page is handed out at all.
-/

set_option autoImplicit false

namespace Dionnex.PmmSafety
open PackedBits LabelledRuns Dionnex.PmmBitmap Dionnex.PmmInit

structure Callers where
  pmm : Pmm
  held : List ℕ

inductive Event where
  | allocPage (ret : ℕ)
  | freePage (addr : ℕ)

def Step (s : Callers) : Event → Callers → Prop
  | .allocPage ret, t => (ret, t.pmm) = pmmAllocPage s.pmm ∧
      t.held = if ret = 0 then s.held else ret::s.held
  | .freePage addr, t => addr ∈ s.held ∧ t.pmm = pmmFreePage s.pmm addr ∧
      t.held = s.held.erase addr

def booted (k : KernelImage) (before : Words) (mbi : Option MultibootInfo) : Callers :=
  ⟨pmmInit k before mbi, []⟩

/-- `x` is a byte of the kernel image. -/
def InKernel (k : KernelImage) (x : ℕ) : Prop := k.kernelStart.toNat ≤ x ∧ x < k.kernelEnd.toNat

/-- `x` is a byte of the bitmap. -/
def InBitmap (k : KernelImage) (mbi : Option MultibootInfo) (x : ℕ) : Prop :=
  (bitmapAddr k).toNat ≤ x ∧ x < (bitmapAddr k).toNat + 4*bitmapSizeOf mbi

/-- The free pages as the callers see them: left free at boot, held by nobody. -/
def Available (free : Set ℕ) (held : List ℕ) : Set ℕ := {p | p ∈ free ∧ p*pageSize ∉ held}

/-- What a call of `pmm_alloc_page` owes its caller. -/
structure Granted (k : KernelImage) (mbi : Option MultibootInfo) (free : Set ℕ)
    (s : Callers) (ret : ℕ) : Prop where
  aligned : ret ≠ 0 → ret % pageSize = 0
  below : ret ≠ 0 → ret < totalPagesOf mbi * pageSize
  fresh : ret ≠ 0 → ret ∉ s.held
  notFirst : ret ≠ 0 → pageIndex ret ≠ 0
  notKernel : ret ≠ 0 → ∀ x, pageIndex x = pageIndex ret → ¬ InKernel k x
  notBitmap : ret ≠ 0 → ∀ x, pageIndex x = pageIndex ret → ¬ InBitmap k mbi x
  exhausted : ret = 0 ↔ Available free s.held = ∅
  scanned : ret = 0 ↔ freeSet s.pmm = ∅

def Sound (k : KernelImage) (mbi : Option MultibootInfo) (free : Set ℕ) (s : Callers) :
    Event → Callers → Prop
  | .allocPage ret, _ => Granted k mbi free s ret
  | .freePage _, _ => True

structure Inv (total : ℕ) (free : Set ℕ) (s : Callers) : Prop where
  padded : Padded s.pmm
  totalPages : s.pmm.totalPages = total
  nodup : s.held.Nodup
  fromFree : ∀ a ∈ s.held, ∃ p ∈ free, a = p*pageSize
  bits : freeSet s.pmm = Available free s.held

theorem booted_inv (k : KernelImage) (before : Words) (mbi : Option MultibootInfo) :
    Inv (totalPagesOf mbi) (freeSet (pmmInit k before mbi)) (booted k before mbi) where
  padded := init_padded k before mbi
  totalPages := init_totalPages k before mbi
  nodup := List.nodup_nil
  fromFree a ha := by cases ha
  bits := by ext p; simp [Available, booted]

theorem pageIndex_mul (p : ℕ) : pageIndex (p*pageSize) = p :=
  Nat.mul_div_cancel p (by decide)

/-- Taking the least free page makes it held and leaves the books balanced. -/
theorem alloc_inv (total : ℕ) (free : Set ℕ) (hfree : 0 ∉ free) (s t : Callers) (ret : ℕ)
    (hs : Inv total free s) (h : Step s (.allocPage ret) t) : Inv total free t := by
  obtain ⟨hret, hheld⟩ := h
  rcases alloc_cases s.pmm hs.padded with ⟨-, ha⟩ | ⟨p, hp, ha⟩
  · rw [ha] at hret
    obtain ⟨rfl, hpmm⟩ := Prod.mk.inj hret
    rw [if_pos rfl] at hheld
    exact ⟨hpmm ▸ hs.padded, hpmm ▸ hs.totalPages, hheld ▸ hs.nodup, hheld ▸ hs.fromFree,
      by rw [hpmm, hheld]; exact hs.bits⟩
  · rw [ha] at hret
    obtain ⟨rfl, hpmm⟩ := Prod.mk.inj hret
    have hav : p ∈ Available free s.held := hs.bits ▸ hp.1
    have hp0 : p ≠ 0 := by rintro rfl; exact hfree hav.1
    have hne : p*pageSize ≠ 0 := Nat.mul_ne_zero hp0 (by decide)
    rw [if_neg hne] at hheld
    refine ⟨?_, ?_, ?_, ?_, ?_⟩
    · rw [hpmm]; exact takePage_padded s.pmm p hs.padded
    · rw [hpmm]; exact hs.totalPages
    · rw [hheld]; exact List.nodup_cons.mpr ⟨hav.2, hs.nodup⟩
    · rw [hheld]
      intro a ha
      rcases List.mem_cons.mp ha with rfl | ha
      · exact ⟨p, hav.1, rfl⟩
      · exact hs.fromFree a ha
    · rw [hpmm, takePage_free, hs.bits, hheld]
      ext q
      have hq : q*pageSize = p*pageSize ↔ q = p := ⟨page_mul_injective, fun e => by rw [e]⟩
      simp only [Available, Set.mem_sdiff, Set.mem_ofPred_eq, Set.mem_singleton_iff,
        List.mem_cons, hq]
      constructor
      · rintro ⟨⟨h1, h2⟩, h3⟩
        exact ⟨h1, fun h => h.elim h3 h2⟩
      · rintro ⟨h1, h2⟩
        exact ⟨⟨h1, fun h => h2 (Or.inr h)⟩, fun h => h2 (Or.inl h)⟩

theorem free_inv (total : ℕ) (free : Set ℕ) (hfree : ∀ p ∈ free, p < total) (s t : Callers)
    (addr : ℕ) (hs : Inv total free s) (h : Step s (.freePage addr) t) : Inv total free t := by
  obtain ⟨hmem, hpmm, hheld⟩ := h
  obtain ⟨p, hp, rfl⟩ := hs.fromFree addr hmem
  refine ⟨?_, ?_, ?_, ?_, ?_⟩
  · rw [hpmm]; exact free_padded s.pmm _ hs.padded
  · rw [hpmm, free_totalPages]; exact hs.totalPages
  · rw [hheld]; exact hs.nodup.erase _
  · rw [hheld]
    exact fun a ha => hs.fromFree a (List.mem_of_mem_erase ha)
  · have hlt : pageIndex (p*pageSize) < s.pmm.totalPages := by
      rw [pageIndex_mul, hs.totalPages]; exact hfree p hp
    rw [hpmm, free_freeSet s.pmm _ hlt, pageIndex_mul, hs.bits, hheld]
    ext q
    simp only [Available, Set.mem_insert_iff, Set.mem_ofPred_eq, hs.nodup.mem_erase_iff]
    constructor
    · rintro (rfl | ⟨h1, h2⟩)
      · exact ⟨hp, fun h => h.1 rfl⟩
      · exact ⟨h1, fun h => h2 h.2⟩
    · rintro ⟨h1, h2⟩
      by_cases hq : q = p
      · exact Or.inl hq
      · exact Or.inr ⟨h1, fun h => h2 ⟨fun e => hq (page_mul_injective e), h⟩⟩

/-- A page outside the reserved ranges has no byte in the kernel image. -/
theorem not_kernel (k : KernelImage) (mbi : Option MultibootInfo) (p x : ℕ)
    (hp : ¬ Reserved k mbi p) (hx : pageIndex x = p) : ¬ InKernel k x := by
  rintro ⟨h1, h2⟩
  apply hp
  subst hx
  refine Or.inr (Or.inl ⟨Nat.div_le_div_right h1, Nat.div_le_div_right (le_of_lt h2)⟩)

theorem not_bitmap (k : KernelImage) (mbi : Option MultibootInfo) (p x : ℕ)
    (hb : (bitmapAddr k).toNat + 4*bitmapSizeOf mbi ≤ totalPagesOf mbi * pageSize)
    (ht : totalPagesOf mbi < 1048576)
    (hp : ¬ Reserved k mbi p) (hx : pageIndex x = p) : ¬ InBitmap k mbi x := by
  rintro ⟨h1, h2⟩
  apply hp
  subst hx
  rw [show pageSize = 4096 from rfl] at hb
  have hmod : ((bitmapAddr k).toNat + bitmapSizeOf mbi*4) % 4294967296 =
      (bitmapAddr k).toNat + 4*bitmapSizeOf mbi := by
    rw [Nat.mod_eq_of_lt (by omega)]
    omega
  refine Or.inr (Or.inr ⟨Nat.div_le_div_right h1, ?_⟩)
  rw [bendPage, hmod]
  exact Nat.div_le_div_right (le_of_lt h2)

theorem totalPages_lt (mbi : Option MultibootInfo) : totalPagesOf mbi < 1048576 := by
  unfold totalPagesOf
  have h := (maxAddr mbi).toNat_lt
  rw [UInt32.toNat_div, show UInt32.toNat 4096 = 4096 from rfl]
  omega

theorem alloc_granted (k : KernelImage) (before : Words) (mbi : Option MultibootInfo)
    (hb : (bitmapAddr k).toNat + 4*bitmapSizeOf mbi ≤ totalPagesOf mbi * pageSize)
    (s t : Callers) (ret : ℕ)
    (hs : Inv (totalPagesOf mbi) (freeSet (pmmInit k before mbi)) s)
    (h : Step s (.allocPage ret) t) :
    Granted k mbi (freeSet (pmmInit k before mbi)) s ret := by
  obtain ⟨hret, -⟩ := h
  rcases alloc_cases s.pmm hs.padded with ⟨he, ha⟩ | ⟨p, hp, ha⟩
  · rw [ha] at hret
    obtain ⟨rfl, -⟩ := Prod.mk.inj hret
    exact ⟨fun h => absurd rfl h, fun h => absurd rfl h, fun h => absurd rfl h,
      fun h => absurd rfl h, fun h => absurd rfl h, fun h => absurd rfl h,
      by simp [← hs.bits, he], by simp [he]⟩
  · rw [ha] at hret
    obtain ⟨rfl, -⟩ := Prod.mk.inj hret
    have hav : p ∈ Available (freeSet (pmmInit k before mbi)) s.held := hs.bits ▸ hp.1
    obtain ⟨hlt, -, hres⟩ := (init_freeSet k before mbi p).mp hav.1
    have hidx : pageIndex (p*pageSize) = p := pageIndex_mul p
    have hp0 : p ≠ 0 := by rintro rfl; exact hres (Or.inl rfl)
    have hne : p*pageSize ≠ 0 := Nat.mul_ne_zero hp0 (by decide)
    refine ⟨fun _ => ?_, fun _ => ?_, fun _ => hav.2, fun _ => ?_, fun _ x hx => ?_,
      fun _ x hx => ?_, ?_, ?_⟩
    · exact Nat.mul_mod_left p pageSize
    · exact Nat.mul_lt_mul_of_pos_right hlt (by decide)
    · rw [hidx]; exact hp0
    · exact not_kernel k mbi p x hres (hx.trans hidx)
    · exact not_bitmap k mbi p x hb (totalPages_lt mbi) hres (hx.trans hidx)
    · exact iff_of_false hne (Set.nonempty_iff_ne_empty.mp ⟨p, hav⟩)
    · exact iff_of_false hne (Set.nonempty_iff_ne_empty.mp ⟨p, hp.1⟩)

/-- Every run of allocations and of frees of held pages is sound. -/
theorem alloc_runs_sound (k : KernelImage) (before : Words) (mbi : Option MultibootInfo)
    (hb : (bitmapAddr k).toNat + 4*bitmapSizeOf mbi ≤ totalPagesOf mbi * pageSize)
    (tr : List (Event × Callers)) (hr : Run Step (booted k before mbi) tr) :
    Along (Sound k mbi (freeSet (pmmInit k before mbi))) (booted k before mbi) tr := by
  have hzero : 0 ∉ freeSet (pmmInit k before mbi) := fun h =>
    ((init_freeSet k before mbi 0).mp h).2.2 (Or.inl rfl)
  have hlt : ∀ p ∈ freeSet (pmmInit k before mbi), p < totalPagesOf mbi := fun p h =>
    ((init_freeSet k before mbi p).mp h).1
  refine along_mono (fun s e t h => h.2) _ _ (run_invariant ?_ _ _ (booted_inv k before mbi) hr)
  intro s e t hs h
  cases e with
  | allocPage ret => exact ⟨alloc_inv _ _ hzero s t ret hs h, alloc_granted k before mbi hb s t ret hs h⟩
  | freePage addr => exact ⟨free_inv _ _ hlt s t addr hs h, trivial⟩

def allocCall (s : Callers) : Event × Callers :=
  (.allocPage (pmmAllocPage s.pmm).1,
    ⟨(pmmAllocPage s.pmm).2,
      if (pmmAllocPage s.pmm).1 = 0 then s.held else (pmmAllocPage s.pmm).1::s.held⟩)

theorem allocCall_step (s : Callers) : Step s (allocCall s).1 (allocCall s).2 := ⟨rfl, rfl⟩

def sampleImage : KernelImage := ⟨0x100000, 0x130000⟩

def sampleMap : MultibootInfo := ⟨64, 0, 24, [⟨20, 0x100000, 0, 0xF00000, 0, 1⟩]⟩

def sampleBoot : Callers := booted sampleImage (fun _ => 0) (some sampleMap)

theorem alloc_runs_sound_sample :
    Along (Sound sampleImage (some sampleMap)
        (freeSet (pmmInit sampleImage (fun _ => 0) (some sampleMap))))
      (booted sampleImage (fun _ => 0) (some sampleMap))
      [allocCall sampleBoot, allocCall (allocCall sampleBoot).2] :=
  alloc_runs_sound sampleImage (fun _ => 0) (some sampleMap) (by decide) _
    ⟨allocCall_step _, allocCall_step _, trivial⟩

end Dionnex.PmmSafety
