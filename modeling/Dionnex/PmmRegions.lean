import Dionnex.PmmInit

/-!
# What the boot map promises and what the bitmap takes from it

The map describes available memory by 64-bit intervals. The release pass
rounds the low word of the base down to a page and drops both high words.
An entry whose base is page aligned and below 4 GiB is read faithfully;
only the other entries can put a page into the free pool that the firmware
never offered.
-/

set_option autoImplicit false

namespace Dionnex.PmmRegions
open PackedBits Dionnex.PmmBitmap Dionnex.PmmInit

def baseAddr (e : MmapEntry) : ℕ := e.addrLow.toNat + 4294967296*e.addrHigh.toNat

def byteLength (e : MmapEntry) : ℕ := e.lenLow.toNat + 4294967296*e.lenHigh.toNat

/-- Byte `x` lies in the union of the available regions. -/
def InAvailable (es : List MmapEntry) (x : ℕ) : Prop :=
  ∃ e ∈ es, e.type = 1 ∧ baseAddr e ≤ x ∧ x < baseAddr e + byteLength e

def PageAvailable (es : List MmapEntry) (p : ℕ) : Prop := ∀ x, pageIndex x = p → InAvailable es x

/-- No page is left free that the map does not offer as a whole. -/
def OnlyAvailable (k : KernelImage) (before : Words) (mbi : MultibootInfo) : Prop :=
  ∀ p ∈ freeSet (pmmInit k before (some mbi)), PageAvailable mbi.mmap p

/-- The base survives the reading of its low word as a page number. -/
def Faithful (e : MmapEntry) : Prop := e.addrLow.toNat % pageSize = 0 ∧ e.addrHigh = 0

/-- A page that the release pass may leave free: below the page count and not reserved. -/
def Exposed (k : KernelImage) (mbi : MultibootInfo) (p : ℕ) : Prop :=
  p < totalPagesOf (some mbi) ∧ ¬ Reserved k (some mbi) p

/-- With a map, the exposed pages under each misread available entry are
offered by other entries. Without one, everything exposed from 1 MiB up is offered. -/
def Harmless (k : KernelImage) (mbi : MultibootInfo) : Prop :=
  if hasMmap mbi then
    ∀ e ∈ mbi.mmap, e.type = 1 → ¬ Faithful e →
      ∀ p, startPage e ≤ p → p < startPage e + pageCount e → Exposed k mbi p →
        PageAvailable mbi.mmap p
  else ∀ p, 256 ≤ p → Exposed k mbi p → PageAvailable mbi.mmap p

theorem faithful_pages (es : List MmapEntry) (e : MmapEntry) (he : e ∈ es) (ht : e.type = 1)
    (hf : Faithful e) (p : ℕ) (hp : startPage e ≤ p) (hp' : p < startPage e + pageCount e) :
    PageAvailable es p := by
  intro x hx
  obtain ⟨halign, hhigh⟩ := hf
  have hbase : baseAddr e = e.addrLow.toNat := by simp [baseAddr, hhigh]
  have hlen : e.lenLow.toNat ≤ byteLength e := Nat.le_add_right _ _
  refine ⟨e, he, ht, ?_, ?_⟩
  · simp only [startPage, pageIndex, pageCount, pageSize] at *
    omega
  · simp only [startPage, pageIndex, pageCount, pageSize] at *
    omega

/-- The pool holds only offered memory exactly when every misread entry is harmless. -/
theorem only_available_iff (k : KernelImage) (before : Words) (mbi : MultibootInfo) :
    OnlyAvailable k before mbi ↔ Harmless k mbi := by
  unfold OnlyAvailable Harmless
  cases hm : hasMmap mbi with
  | true =>
    simp only [if_true]
    constructor
    · intro h e he ht _ p hp hp' hx
      refine h p ((init_freeSet k before (some mbi) p).mpr ⟨hx.1, ?_, hx.2⟩)
      simp only [Claimed, hm, if_true]
      exact ⟨e, he, ht, hp, hp'⟩
    · intro h p hp
      obtain ⟨hlt, hclaim, hres⟩ := (init_freeSet k before (some mbi) p).mp hp
      simp only [Claimed, hm, if_true] at hclaim
      obtain ⟨e, he, ht, hp, hp'⟩ := hclaim
      by_cases hf : Faithful e
      · exact faithful_pages mbi.mmap e he ht hf p hp hp'
      · exact h e he ht hf p hp hp' ⟨hlt, hres⟩
  | false =>
    simp only [Bool.false_eq_true, if_false]
    constructor
    · intro h p hp hx
      refine h p ((init_freeSet k before (some mbi) p).mpr ⟨hx.1, ?_, hx.2⟩)
      simpa only [Claimed, hm, Bool.false_eq_true, if_false] using hp
    · intro h p hp
      obtain ⟨hlt, hclaim, hres⟩ := (init_freeSet k before (some mbi) p).mp hp
      simp only [Claimed, hm, Bool.false_eq_true, if_false] at hclaim
      exact h p hclaim ⟨hlt, hres⟩

/-- A machine with RAM above 4 GiB: the high region is read as one that
starts at address zero, and the firmware's page 0xF0 ends up in the pool. -/
theorem high_region_misread :
    ¬ OnlyAvailable ⟨0x100000, 0x130000⟩ (fun _ => 0)
      ⟨64, 0, 48, [⟨20, 0x100000, 0, 0x7F00000, 0, 1⟩, ⟨20, 0, 1, 0x40000000, 0, 1⟩]⟩ := by
  intro h
  have hfree := h 0xF0 ((init_freeSet _ _ _ 0xF0).mpr
    ⟨by decide, ⟨⟨20, 0, 1, 0x40000000, 0, 1⟩, by simp, rfl, by decide, by decide⟩, by
      unfold Reserved
      decide⟩)
  obtain ⟨e, he, -, hlo, hhi⟩ := hfree 0xF0000 (by decide)
  simp only [List.mem_cons, List.not_mem_nil, or_false] at he
  rcases he with rfl | rfl
  · exact absurd hlo (by decide)
  · exact absurd hlo (by decide)

end Dionnex.PmmRegions
