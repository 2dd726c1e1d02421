import Dionnex.PmmSafety
import Dionnex.VmmCalls

/-!
# When no frame is left for a table

`vmm_map_page` does not look at the answer of the page allocator, so a
refused table is the frame 0, which is cleared and entered into the
directory. With a frame granted, a call moves its own page only; without
one it always changes memory, and two refused regions share their table.
Between the calls other code takes and gives back pages and writes where no
table is, so the pool may run dry at any point.
-/

set_option autoImplicit false

namespace Dionnex.VmmExhaustion
open ByteMemory LabelledRuns PageTables PackedBits Dionnex.PmmBitmap Dionnex.Vmm Dionnex.VmmCalls

inductive Event where
  | mapPage (virt phys flags : ℕ)
  | allocPage
  | freePage (addr : ℕ)
  | write

def Step (s : VmState) : Event → VmState → Prop
  | .mapPage virt phys flags, t => virt < 4294967296 ∧ phys < 4294967296 ∧ flags < 4294967296 ∧
      t = vmmMapPage s virt phys flags
  | .allocPage, t => t = { s with pmm := (pmmAllocPage s.pmm).2 }
  | .freePage addr, t => frameOf addr ∉ kernelFrames s ∧ t = { s with pmm := pmmFreePage s.pmm addr }
  | .write, t => t.pageDirectory = s.pageDirectory ∧ t.pmm = s.pmm ∧
      SameOff {x | frameOf x ∉ kernelFrames s} s.mem t.mem

/-- Page tables as the code builds them: each in a frame of its own that is
not in the pool. The frame 0 of a refused table may be among them. -/
structure WellFormed (s : VmState) : Prop where
  space : Space s
  padded : Padded s.pmm
  used : ∀ p ∈ freeSet s.pmm, p ≠ 0 → p*pageSize ∉ kernelFrames s

/-- Only the page of the call may move, and without a table frame nothing does. -/
structure Contained (s : VmState) (virt : ℕ) (t : VmState) : Prop where
  others : ∀ wa < 4294967296, wa/4096 ≠ virt/4096 →
    PageTables.translate t.mem t.pageDirectory wa = PageTables.translate s.mem s.pageDirectory wa
  refused : NeedsTable s virt → (pmmAllocPage s.pmm).1 = 0 → t.mem = s.mem

def Sound (s : VmState) : Event → VmState → Prop
  | .mapPage virt _ _, t => Contained s virt t
  | _, _ => True

/-- The call finds a table or is granted a frame for one. -/
def Granted (s : VmState) : Event → VmState → Prop
  | .mapPage virt _ _, _ => NeedsTable s virt → (pmmAllocPage s.pmm).1 ≠ 0
  | _, _ => True

theorem alloc_pool {s : Pmm} (hs : Padded s) :
    freeSet (pmmAllocPage s).2 ⊆ freeSet s ∧
      ((pmmAllocPage s).1 ≠ 0 → ∃ p ∈ freeSet s, p ≠ 0 ∧ (pmmAllocPage s).1 = p*pageSize ∧
        p ∉ freeSet (pmmAllocPage s).2) := by
  rcases alloc_cases s hs with ⟨-, ha⟩ | ⟨p, hp, ha⟩
  · rw [ha]
    exact ⟨subset_rfl, fun h => absurd rfl h⟩
  · rw [ha, takePage_free]
    refine ⟨Set.sdiff_subset, fun h => ⟨p, hp.1, ?_, rfl, fun hmem => hmem.2 rfl⟩⟩
    rintro rfl
    exact h (Nat.zero_mul pageSize)

theorem granted_fresh {s : VmState} (hs : WellFormed s) (h : (pmmAllocPage s.pmm).1 ≠ 0) :
    FreshFrame s (pmmAllocPage s.pmm).1 := by
  obtain ⟨p, hp, hp0, he, -⟩ := (alloc_pool hs.padded).2 h
  have hout := hs.used p hp hp0
  rw [he]
  exact ⟨fun hd => hout (hd ▸ Set.mem_insert _ _), fun ht => hout (Set.mem_insert_of_mem _ ht)⟩

theorem map_wellFormed {s : VmState} {virt : ℕ} (phys flags : ℕ) (hs : WellFormed s)
    (hv : virt < 4294967296) (hg : NeedsTable s virt → (pmmAllocPage s.pmm).1 ≠ 0) :
    WellFormed (vmmMapPage s virt phys flags) := by
  have hm := map_stored phys flags hs.space hv (fun hn => granted_fresh hs (hg hn))
  refine ⟨hm.space, ?_, ?_⟩
  · rw [hm.pmm]
    split
    · exact alloc_padded s.pmm hs.padded
    · exact hs.padded
  · intro p hp hp0
    rw [kernelFrames, hm.directory, hm.tables]
    rw [hm.pmm] at hp
    by_cases hn : NeedsTable s virt
    · rw [if_pos hn] at hp ⊢
      obtain ⟨hpool, htaken⟩ := alloc_pool hs.padded
      obtain ⟨q, -, -, he, hq⟩ := htaken (hg hn)
      have hout := hs.used p (hpool hp) hp0
      have hne : p*pageSize ≠ (pmmAllocPage s.pmm).1 := by
        rw [he]
        exact fun h => hq (page_mul_injective h ▸ hp)
      rw [kernelFrames, Set.mem_insert_iff] at hout
      simp only [Set.mem_insert_iff, hne, false_or]
      exact hout
    · rw [if_neg hn] at hp ⊢
      exact hs.used p hp hp0

theorem free_wellFormed {s : VmState} {addr : ℕ} (hs : WellFormed s)
    (ha : frameOf addr ∉ kernelFrames s) :
    WellFormed { s with pmm := pmmFreePage s.pmm addr } := by
  refine ⟨hs.space, free_padded s.pmm addr hs.padded, fun p hp hp0 => ?_⟩
  change p*pageSize ∉ kernelFrames s
  by_cases hpage : p = pageIndex addr
  · subst hpage
    exact ha
  · refine hs.used p ⟨?_, ?_⟩ hp0
    · exact (free_totalPages s.pmm addr) ▸ hp.1
    · have hbit := hp.2
      change bit (releasePage s.pmm (pageIndex addr)).bitmap p = false at hbit
      rw [releasePage_bit] at hbit
      simpa [hpage] using hbit

theorem write_wellFormed {s t : VmState} (hs : WellFormed s) (hdir : t.pageDirectory = s.pageDirectory)
    (hpmm : t.pmm = s.pmm) (hoff : SameOff {x | frameOf x ∉ kernelFrames s} s.mem t.mem) :
    WellFormed t := by
  have hd : Disjoint {x | frameOf x ∉ kernelFrames s} (footprint s.mem s.pageDirectory) :=
    Set.disjoint_left.mpr fun x hx hfoot => hx hfoot
  obtain ⟨hapart, htables, -⟩ := tables_off hs.space hoff hd
  refine ⟨by rw [Space, hdir]; exact hapart, hpmm ▸ hs.padded, ?_⟩
  rw [hpmm, kernelFrames, tableFrames, hdir, htables]
  exact hs.used

/-- With a table at hand the call moves its own page only. -/
theorem map_contained {s : VmState} {virt : ℕ} (phys flags : ℕ) (hs : WellFormed s)
    (hv : virt < 4294967296) (hg : NeedsTable s virt → (pmmAllocPage s.pmm).1 ≠ 0) :
    Contained s virt (vmmMapPage s virt phys flags) := by
  have hm := map_stored phys flags hs.space hv (fun hn => granted_fresh hs (hg hn))
  refine ⟨fun wa hwa hne => ?_, fun hn he => absurd he (hg hn)⟩
  have hpage := hm.pages wa hwa
  rw [if_neg hne] at hpage
  unfold pageEntryAt at hpage
  rw [PageTables.translate, hpage]
  rfl

/-- The directory entry of the page is present after the call. -/
theorem map_present {s : VmState} {virt phys flags : ℕ} (hd : Aligned s.pageDirectory)
    (hp : phys < 4294967296) (hf : flags < 4294967296) :
    ¬ NeedsTable (vmmMapPage s virt phys flags) virt := by
  change ¬ ¬ Present (dirEntryAt (vmmMapPage s virt phys flags) virt)
  rw [not_not]
  by_cases h : SelfEntry s virt
  · rw [(map_entry_self hd hp hf h).1]
    exact mappedWord_present phys flags
  · rw [(map_entry_apart hd hp hf h).1]
    exact ensure_present s virt flags

/-- So a call that needed a table has changed memory. -/
theorem map_changes {s : VmState} {virt phys flags : ℕ} (hd : Aligned s.pageDirectory)
    (hp : phys < 4294967296) (hf : flags < 4294967296) (hn : NeedsTable s virt) :
    (vmmMapPage s virt phys flags).mem ≠ s.mem := by
  intro he
  have hp' : ¬ NeedsTable (vmmMapPage s virt phys flags) virt := map_present hd hp hf
  apply hp'
  rw [NeedsTable, map_directory, he]
  exact hn

theorem boot_kernelFrames {s : VmState} (hb : VmmTranslation.BootFrames s) {f : ℕ}
    (hf : f ∈ kernelFrames (vmmInit s)) :
    f = (pmmAllocPage s.pmm).1 ∨ f = (pmmAllocPage (pmmAllocPage s.pmm).2).1 := by
  rcases Set.mem_insert_iff.mp hf with rfl | ⟨i, hi, hp, rfl⟩
  · exact Or.inl rfl
  · obtain rfl := (VmmTranslation.init_tables hb hi).mp hp
    exact Or.inr (VmmTranslation.init_frame hb)

/-- `vmm_init` leaves well formed tables when it gets its two frames. -/
theorem boot_wellFormed {s : VmState} (hs : Padded s.pmm) (hb : VmmTranslation.BootFrames s) :
    WellFormed (vmmInit s) := by
  have hmid := alloc_padded s.pmm hs
  obtain ⟨-, hdir⟩ := alloc_pool hs
  obtain ⟨hsub, hfirst⟩ := alloc_pool hmid
  obtain ⟨p, -, -, hpe, hp⟩ := hdir hb.directory
  obtain ⟨q, -, -, hqe, hq⟩ := hfirst hb.first
  refine ⟨(VmmTranslation.init_inv hb).space, alloc_padded _ hmid, fun r hr _ hmem => ?_⟩
  have hfree : r ∈ freeSet (pmmAllocPage (pmmAllocPage s.pmm).2).2 := hr
  rcases boot_kernelFrames hb hmem with h | h
  · rw [hpe] at h
    exact hp (page_mul_injective h ▸ hsub hfree)
  · rw [hqe] at h
    exact hq (page_mul_injective h ▸ hfree)

/-- Two regions whose tables were both refused share the frame 0: the second
mapping shows up in the first region. -/
theorem refused_regions_share {s : VmState} {va wa pa pb fa fb : ℕ} (hd : Aligned s.pageDirectory)
    (h0 : s.pageDirectory ≠ 0) (hempty : freeSet s.pmm = ∅) (hva : NeedsTable s va)
    (hpa : pa < 4294967296) (hfa : fa < 4294967296) (hpb : pb < 4294967296) (hfb : fb < 4294967296)
    (hwa : NeedsTable (vmmMapPage s va pa fa) wa) (htbl : tblIndex va = tblIndex wa) :
    pageEntryAt (vmmMapPage (vmmMapPage s va pa fa) wa pb fb) va = mappedWord pb fb := by
  have halloc : pmmAllocPage s.pmm = (0, s.pmm) := alloc_empty s.pmm hempty
  have hzero : Aligned 0 := ⟨rfl, by decide⟩
  have htable : tableFor s va = 0 := by rw [tableFor, if_pos hva, halloc]
  have hapart : ¬ SelfEntry s va := fun h => h0 (h.1.symm.trans htable)
  have hfirst := (map_entry_apart hd hpa hfa hapart).1
  have hpresent := ensure_present s va fa
  have hframe := ensure_frame s va fa
  rw [← hfirst] at hpresent hframe
  have hdir : (vmmMapPage s va pa fa).pageDirectory = s.pageDirectory := map_directory s va pa fa
  have hpool : (pmmAllocPage (vmmMapPage s va pa fa).pmm).1 = 0 := by
    rw [map_eq, ensure_needs fa hva]
    change (pmmAllocPage (pmmAllocPage s.pmm).2).1 = 0
    rw [halloc, halloc]
  generalize vmmMapPage s va pa fa = t at *
  have hindex : dirIndex va ≠ dirIndex wa := by
    intro he
    refine hwa ?_
    rw [pde, ← he]
    exact hpresent
  have hother : tableFor t wa = 0 := by rw [tableFor, if_pos hwa, hpool]
  have hmem : (vmmMapPage t wa pb fb).mem =
      setEntry (addTable t (dirIndex wa) fb).mem 0 (tblIndex wa) (mappedWord pb fb) := by
    rw [map_mem, hother, ensure_needs fb hwa]
  have hkept : dirEntryAt (vmmMapPage t wa pb fb) va = dirEntryAt t va := by
    have hd' : Aligned t.pageDirectory := hdir ▸ hd
    have h0' : t.pageDirectory ≠ 0 := hdir ▸ h0
    rw [dirEntryAt, map_directory, pde, hmem,
      entry_set_frame _ hzero hd' (tblIndex_lt wa) (dirIndex_lt va) h0', addTable, hpool]
    dsimp only
    rw [entry_set_index _ hd' (dirIndex_lt wa) (dirIndex_lt va) hindex]
    exact entry_off (fill_off hzero _ _ 0 1024 le_rfl) hd' (dirIndex_lt va)
      fun x hx hx0 => h0' (hx.symm.trans hx0)
  rw [← hkept] at hpresent hframe
  unfold dirEntryAt at hpresent hframe
  rw [pageEntryAt, pte, if_pos hpresent, hframe, htable, hmem, htbl, entry_set_same,
    wrap_of_lt (mappedWord_lt hpb hfb)]

/-- A machine of three pages, the first one taken: boot uses up the other two. -/
def smallMachine : VmState := ⟨fun _ => 0, ⟨fun _ => 0xFFFFFFF9#32, 1, 3, 2⟩, 0⟩

theorem small_padded : Padded smallMachine.pmm := by
  have hbits : ∀ p < 32, 3 ≤ p → (0xFFFFFFF9#32).getLsbD p = true := by decide
  refine ⟨by decide, fun p hp hlt => ?_, by decide⟩
  change 3 ≤ p at hp
  change p < 32*1 at hlt
  rw [bit, Nat.mod_eq_of_lt (by omega)]
  exact hbits p (by omega) hp

theorem small_boot : VmmTranslation.BootFrames smallMachine := ⟨by decide, by decide, by decide⟩

theorem small_empty : freeSet (vmmInit smallMachine).pmm = ∅ := by
  have hbits : ∀ p < 3, bit (vmmInit smallMachine).pmm.bitmap p = true := by decide
  refine Set.eq_empty_iff_forall_notMem.mpr fun p hp => ?_
  have hlt : p < 3 := hp.1
  exact absurd (hp.2.symm.trans (hbits p hlt)) (by decide)

def mapCall (s : VmState) (virt phys flags : ℕ) : Event × VmState :=
  (.mapPage virt phys flags, vmmMapPage s virt phys flags)

def firstRefused : VmState := vmmMapPage (vmmInit smallMachine) 0x400000 0x9000 7

def secondRefused : VmState := vmmMapPage firstRefused 0x800000 0xA000 7

def refusedCalls : List (Event × VmState) :=
  [(.mapPage 0x400000 0x9000 7, firstRefused), (.mapPage 0x800000 0xA000 7, secondRefused)]

theorem small_region {virt : ℕ} (h : dirIndex virt ≠ 0) : NeedsTable (vmmInit smallMachine) virt := by
  rw [NeedsTable, pde, VmmTranslation.init_tables small_boot (dirIndex_lt virt)]
  exact h

theorem first_mapped : pageEntryAt firstRefused 0x400000 = mappedWord 0x9000 7 ∧
    NeedsTable firstRefused 0x800000 := by
  have halloc := alloc_empty _ small_empty
  have hspace := (boot_wellFormed small_padded small_boot).space
  have hfresh : FreshFrame (vmmInit smallMachine) (pmmAllocPage (vmmInit smallMachine).pmm).1 := by
    rw [halloc]
    refine ⟨by decide, fun h => ?_⟩
    rcases boot_kernelFrames small_boot (Set.mem_insert_of_mem _ h) with h | h
    · exact absurd h (by decide)
    · exact absurd h (by decide)
  have hm := @map_spec (vmmInit smallMachine) 0x400000 0x9000 7 hspace (by decide) (by decide)
    (by decide) fun _ => hfresh
  constructor
  · exact hm.pages 0x400000 (by decide)
  · have hdir := hm.dirs 0x800000
    rw [if_neg fun h => absurd h.2 (by decide)] at hdir
    change ¬ Present (dirEntryAt firstRefused 0x800000)
    rw [show dirEntryAt firstRefused 0x800000 = _ from hdir]
    exact small_region (by decide)

end Dionnex.VmmExhaustion
