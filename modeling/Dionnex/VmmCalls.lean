import Dionnex.VmmTranslation

/-!
# One call of the virtual memory manager

The equation of `vmm_map_page` on any state and for any flags: which table
it takes, which word it writes and where. What it does to the other pages
follows when the tables are separate and the table it takes is not one of
them.
-/

set_option autoImplicit false

namespace Dionnex.VmmCalls
open ByteMemory PageTables Dionnex.PmmBitmap Dionnex.Vmm

/-- The word that `vmm_map_page` writes into the table. -/
def mappedWord (phys flags : ℕ) : ℕ := (phys &&& 0xFFFFF000) ||| flags ||| vmmPresent

/-- The table that `vmm_map_page` writes: the one in the directory, or the
answer of the page allocator. -/
def tableFor (s : VmState) (virt : ℕ) : ℕ :=
  if NeedsTable s virt then (pmmAllocPage s.pmm).1 else frameOf (dirEntryAt s virt)

theorem tableFor_aligned (s : VmState) (virt : ℕ) : Aligned (tableFor s virt) := by
  unfold tableFor
  split
  · exact alloc_aligned s.pmm
  · exact frameOf_aligned (entry_lt _ _ _)

theorem mappedWord_lt {phys flags : ℕ} (hp : phys < 4294967296) (hf : flags < 4294967296) :
    mappedWord phys flags < 4294967296 := by
  have hframe : phys &&& 0xFFFFF000 < 2^32 := lt_of_le_of_lt Nat.and_le_left hp
  exact Nat.or_lt_two_pow (Nat.or_lt_two_pow hframe hf) (by decide)

theorem mappedWord_present (phys flags : ℕ) : Present (mappedWord phys flags) := present_lor _

theorem ensure_needs {s : VmState} {virt : ℕ} (flags : ℕ) (h : NeedsTable s virt) :
    ensureTable s (dirIndex virt) flags = addTable s (dirIndex virt) flags :=
  if_pos ((not_present_land (pde s.mem s.pageDirectory virt)).mpr h)

theorem ensure_has {s : VmState} {virt : ℕ} (flags : ℕ) (h : ¬ NeedsTable s virt) :
    ensureTable s (dirIndex virt) flags = s :=
  if_neg (fun hp => h ((not_present_land (pde s.mem s.pageDirectory virt)).mp hp))

/-- The directory entry through which the page is written. -/
theorem ensure_entry (s : VmState) (virt flags : ℕ) :
    dirEntryAt (ensureTable s (dirIndex virt) flags) virt =
      if NeedsTable s virt then tableEntry (pmmAllocPage s.pmm).1 flags else dirEntryAt s virt := by
  have hpt := alloc_aligned s.pmm
  by_cases hn : NeedsTable s virt
  · rw [if_pos hn, ensure_needs flags hn, ← wrap_of_lt (tableEntry_lt flags hpt),
      ← tableEntry_eq flags hpt]
    exact entry_set_same _ _ _ _
  · rw [if_neg hn, ensure_has flags hn]

theorem ensure_frame (s : VmState) (virt flags : ℕ) :
    frameOf (dirEntryAt (ensureTable s (dirIndex virt) flags) virt) = tableFor s virt := by
  rw [ensure_entry, tableFor]
  split
  · exact tableEntry_frame flags (alloc_aligned s.pmm)
  · rfl

theorem ensure_present (s : VmState) (virt flags : ℕ) :
    Present (dirEntryAt (ensureTable s (dirIndex virt) flags) virt) := by
  rw [ensure_entry]
  split
  · exact tableEntry_present flags (alloc_aligned s.pmm)
  · next h => exact not_not.mp h

/-- The call is the search for a table followed by one store. -/
theorem map_eq (s : VmState) (virt phys flags : ℕ) :
    vmmMapPage s virt phys flags = { ensureTable s (dirIndex virt) flags with
      mem := setEntry (ensureTable s (dirIndex virt) flags).mem (tableFor s virt) (tblIndex virt)
        (mappedWord phys flags) } := by
  rw [← ensure_frame s virt flags]
  unfold vmmMapPage
  simp only [pageDirIndex_eq, pageTblIndex_eq]
  rw [land_frame (entry_lt _ _ _)]
  rfl

theorem map_mem (s : VmState) (virt phys flags : ℕ) :
    (vmmMapPage s virt phys flags).mem =
      setEntry (ensureTable s (dirIndex virt) flags).mem (tableFor s virt) (tblIndex virt)
        (mappedWord phys flags) := by
  rw [map_eq]

/-- The table is the directory itself and the entry written is the one it was found through. -/
def SelfEntry (s : VmState) (virt : ℕ) : Prop :=
  tableFor s virt = s.pageDirectory ∧ tblIndex virt = dirIndex virt

instance (s : VmState) (virt : ℕ) : Decidable (SelfEntry s virt) := inferInstanceAs (Decidable (_ ∧ _))

/-- The search for a table writes into the directory and the new table only. -/
theorem ensure_off {s : VmState} (virt flags : ℕ) (hd : Aligned s.pageDirectory) :
    SameOff {x | frameOf x = s.pageDirectory ∨ frameOf x = tableFor s virt} s.mem
      (ensureTable s (dirIndex virt) flags).mem := by
  by_cases hn : NeedsTable s virt
  · have hfill := fill_off (alloc_aligned s.pmm) (fun _ => 0) s.mem 0 1024 le_rfl
    rw [ensure_needs flags hn, tableFor, if_pos hn]
    refine (hfill.mono fun x hx => Or.inr hx).trans ?_
    exact (setEntry_frame _ _ hd (dirIndex_lt virt)).mono fun x hx => Or.inl hx
  · rw [ensure_has flags hn]
    exact SameOff.refl _ _

/-- The two entries of the page after the call. -/
theorem map_entry_apart {s : VmState} {virt phys flags : ℕ} (hd : Aligned s.pageDirectory)
    (hp : phys < 4294967296) (hf : flags < 4294967296) (h : ¬ SelfEntry s virt) :
    dirEntryAt (vmmMapPage s virt phys flags) virt =
        dirEntryAt (ensureTable s (dirIndex virt) flags) virt ∧
      pageEntryAt (vmmMapPage s virt phys flags) virt = mappedWord phys flags := by
  have hpt := tableFor_aligned s virt
  have hdir : dirEntryAt (vmmMapPage s virt phys flags) virt =
      dirEntryAt (ensureTable s (dirIndex virt) flags) virt := by
    rw [dirEntryAt, map_directory, pde, map_mem]
    by_cases he : tableFor s virt = s.pageDirectory
    · rw [he, entry_set_index _ hd (tblIndex_lt virt) (dirIndex_lt virt) fun hi => h ⟨he, hi.symm⟩]
      simp [dirEntryAt, pde]
    · rw [entry_set_frame _ hpt hd (tblIndex_lt virt) (dirIndex_lt virt) fun hi => he hi.symm]
      simp [dirEntryAt, pde]
  refine ⟨hdir, ?_⟩
  have hpres := ensure_present s virt flags
  rw [← hdir] at hpres
  have hframe : frameOf (dirEntryAt (vmmMapPage s virt phys flags) virt) = tableFor s virt := by
    rw [hdir, ensure_frame]
  unfold dirEntryAt at hpres hframe
  rw [pageEntryAt, pte, if_pos hpres, hframe, map_mem, entry_set_same,
    wrap_of_lt (mappedWord_lt hp hf)]

theorem map_entry_self {s : VmState} {virt phys flags : ℕ} (hd : Aligned s.pageDirectory)
    (hp : phys < 4294967296) (hf : flags < 4294967296) (h : SelfEntry s virt) :
    dirEntryAt (vmmMapPage s virt phys flags) virt = mappedWord phys flags ∧
      pageEntryAt (vmmMapPage s virt phys flags) virt =
        if frameOf (mappedWord phys flags) = s.pageDirectory then mappedWord phys flags
        else entry s.mem (frameOf (mappedWord phys flags)) (tblIndex virt) := by
  obtain ⟨htable, hindex⟩ := h
  have hword := wrap_of_lt (mappedWord_lt hp hf)
  have hmem : (vmmMapPage s virt phys flags).mem =
      setEntry (ensureTable s (dirIndex virt) flags).mem s.pageDirectory (tblIndex virt)
        (mappedWord phys flags) := by
    rw [map_mem, htable]
  have hdir : dirEntryAt (vmmMapPage s virt phys flags) virt = mappedWord phys flags := by
    rw [dirEntryAt, map_directory, pde, hmem, ← hindex, entry_set_same, hword]
  refine ⟨hdir, ?_⟩
  have hpres := mappedWord_present phys flags
  rw [← hdir] at hpres
  unfold dirEntryAt at hpres hdir
  rw [pageEntryAt, pte, if_pos hpres, hdir, hmem]
  split
  · next hself => rw [hself, entry_set_same, hword]
  · next hother =>
    have hframe := frameOf_aligned (mappedWord_lt hp hf)
    rw [entry_set_frame _ hd hframe (tblIndex_lt virt) (tblIndex_lt virt) hother]
    refine entry_off (ensure_off virt flags hd) hframe (tblIndex_lt virt) fun x hx hin => ?_
    rw [htable] at hin
    exact hother (hx.symm.trans (hin.elim id id))

/-- The tables after a call, for any flags. -/
structure Stored (s : VmState) (virt phys flags : ℕ) (t : VmState) : Prop where
  space : Space t
  directory : t.pageDirectory = s.pageDirectory
  pages : ∀ wa < 4294967296, pageEntryAt t wa =
    if wa/4096 = virt/4096 then wrap (mappedWord phys flags) else pageEntryAt s wa
  tables : tableFrames t =
    if NeedsTable s virt then insert (pmmAllocPage s.pmm).1 (tableFrames s) else tableFrames s
  pmm : t.pmm = if NeedsTable s virt then (pmmAllocPage s.pmm).2 else s.pmm

theorem map_stored {s : VmState} {virt : ℕ} (phys flags : ℕ) (hs : Space s)
    (hv : virt < 4294967296) (hfresh : NeedsTable s virt → FreshFrame s (pmmAllocPage s.pmm).1) :
    Stored s virt phys flags (vmmMapPage s virt phys flags) := by
  obtain ⟨hspace, hpres, hpages, -, htables, hpmm, -⟩ := ensureTable_spec virt flags hs hfresh
  obtain ⟨hapart, htab, hpde, hpte⟩ := set_pte (mappedWord phys flags) hspace hpres hv
  have hframe := ensure_frame s virt flags
  unfold dirEntryAt at hframe
  rw [hframe, ← map_mem] at hapart htab hpde hpte
  have hdirectory : (vmmMapPage s virt phys flags).pageDirectory =
      (ensureTable s (dirIndex virt) flags).pageDirectory := by
    rw [map_eq]
  refine ⟨?_, map_directory s virt phys flags, ?_, ?_, ?_⟩
  · rw [Space, hdirectory]
    exact hapart
  · intro wa hwa
    rw [pageEntryAt, hdirectory, hpte wa hwa, ← hpages wa]
    rfl
  · rw [tableFrames, hdirectory, htab, ← htables]
    rfl
  · rw [← hpmm, map_eq]

end Dionnex.VmmCalls
