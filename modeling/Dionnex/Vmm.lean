import Dionnex.PageTables
import Dionnex.PmmBitmap

/-!
# The virtual memory manager

One page directory serves the whole kernel. A page is mapped by writing its
table entry, after a cleared table has been put into the directory where
there was none; the answer of the page allocator is not looked at, so a
refused table is the frame 0. Directory and tables are read and written at
the addresses of their frames.
-/

set_option autoImplicit false

namespace Dionnex.Vmm
open ByteMemory PageTables Dionnex.PmmBitmap

structure VmState where
  mem : Mem
  pmm : Pmm
  pageDirectory : ℕ

def vmmPresent : ℕ := 1
def vmmWritable : ℕ := 2
def vmmUser : ℕ := 4

def pageDirIndex (virt : ℕ) : ℕ := (virt >>> 22) &&& 0x3FF

def pageTblIndex (virt : ℕ) : ℕ := (virt >>> 12) &&& 0x3FF

/-- The two frames it takes are the directory and the table of the first 4 MiB. -/
def vmmInit (s : VmState) : VmState :=
  let pageDirectory := (pmmAllocPage s.pmm).1
  let pmm := (pmmAllocPage s.pmm).2
  let mem := fillEntries s.mem pageDirectory (fun _ => 0) 0 1024
  let firstPt := (pmmAllocPage pmm).1
  let mem := fillEntries mem firstPt (fun i => (i*pageSize) ||| vmmPresent ||| vmmWritable) 0 1024
  { mem := setEntry mem pageDirectory 0 (firstPt ||| vmmPresent ||| vmmWritable)
    pmm := (pmmAllocPage pmm).2
    pageDirectory := pageDirectory }

/-- The table that `vmm_map_page` adds for a directory entry that has none. -/
def addTable (s : VmState) (pdIdx flags : ℕ) : VmState :=
  let newPt := (pmmAllocPage s.pmm).1
  { s with
    mem := setEntry (fillEntries s.mem newPt (fun _ => 0) 0 1024) s.pageDirectory pdIdx
      (newPt ||| vmmPresent ||| vmmWritable ||| (flags &&& vmmUser))
    pmm := (pmmAllocPage s.pmm).2 }

def ensureTable (s : VmState) (pdIdx flags : ℕ) : VmState :=
  if entry s.mem s.pageDirectory pdIdx &&& vmmPresent = 0 then addTable s pdIdx flags else s

def vmmMapPage (s : VmState) (virt phys flags : ℕ) : VmState :=
  let s := ensureTable s (pageDirIndex virt) flags
  let pt := entry s.mem s.pageDirectory (pageDirIndex virt) &&& 0xFFFFF000
  { s with
    mem := setEntry s.mem pt (pageTblIndex virt) ((phys &&& 0xFFFFF000) ||| flags ||| vmmPresent) }

def vmmUnmapPage (s : VmState) (virt : ℕ) : VmState :=
  let pd := entry s.mem s.pageDirectory (pageDirIndex virt)
  if pd &&& vmmPresent ≠ 0 then
    { s with mem := setEntry s.mem (pd &&& 0xFFFFF000) (pageTblIndex virt) 0 }
  else s

def vmmGetPhys (s : VmState) (virt : ℕ) : ℕ :=
  let pd := entry s.mem s.pageDirectory (pageDirIndex virt)
  if pd &&& vmmPresent = 0 then 0
  else
    let e := entry s.mem (pd &&& 0xFFFFF000) (pageTblIndex virt)
    if e &&& vmmPresent = 0 then 0 else (e &&& 0xFFFFF000) ||| (virt &&& 0xFFF)

theorem pageDirIndex_eq (virt : ℕ) : pageDirIndex virt = dirIndex virt := by
  unfold pageDirIndex dirIndex
  rw [Nat.shiftRight_eq_div_pow]
  exact Nat.and_two_pow_sub_one_eq_mod _ 10

theorem pageTblIndex_eq (virt : ℕ) : pageTblIndex virt = tblIndex virt := by
  unfold pageTblIndex tblIndex
  rw [Nat.shiftRight_eq_div_pow]
  exact Nat.and_two_pow_sub_one_eq_mod _ 10

theorem not_present_land (e : ℕ) : e &&& vmmPresent = 0 ↔ ¬ Present e := by
  rw [← present_land]
  exact not_not.symm

/-- What the allocator hands out is the address of a frame. -/
theorem alloc_aligned (s : Pmm) : Aligned (pmmAllocPage s).1 := by
  unfold pmmAllocPage pageSize Aligned
  split
  · exact ⟨rfl, show 0 < 4294967296 by decide⟩
  · split
    · exact ⟨rfl, show 0 < 4294967296 by decide⟩
    · dsimp only
      omega

/-- The directory entry of a new table. -/
def tableEntry (pt flags : ℕ) : ℕ := pt + (3 ||| (flags &&& 4))

theorem tableEntry_flags (flags : ℕ) : 3 ||| (flags &&& 4) < 8 :=
  Nat.or_lt_two_pow (n := 3) (show 3 < 8 by decide)
    (lt_of_le_of_lt Nat.and_le_right (show 4 < 8 by decide))

theorem tableEntry_eq {pt : ℕ} (flags : ℕ) (h : Aligned pt) :
    pt ||| vmmPresent ||| vmmWritable ||| (flags &&& vmmUser) = tableEntry pt flags := by
  rw [Nat.or_assoc, Nat.or_assoc]
  have hlt := tableEntry_flags flags
  rw [show vmmPresent ||| (vmmWritable ||| (flags &&& vmmUser)) = 3 ||| (flags &&& 4) by
    rw [← Nat.or_assoc]; rfl]
  exact lor_flags h (by omega)

theorem tableEntry_frame {pt : ℕ} (flags : ℕ) (h : Aligned pt) :
    frameOf (tableEntry pt flags) = pt := by
  have hlt := tableEntry_flags flags
  exact frameOf_flags h (by omega)

theorem tableEntry_lt {pt : ℕ} (flags : ℕ) (h : Aligned pt) : tableEntry pt flags < 4294967296 := by
  have hlt := tableEntry_flags flags
  unfold Aligned at h
  unfold tableEntry
  omega

theorem tableEntry_present {pt : ℕ} (flags : ℕ) (h : Aligned pt) : Present (tableEntry pt flags) := by
  have hodd : Present (3 ||| (flags &&& 4)) := by
    rw [show 3 ||| (flags &&& 4) = (2 ||| (flags &&& 4)) ||| 1 by
      rw [Nat.or_assoc, Nat.or_comm (flags &&& 4), ← Nat.or_assoc]; rfl]
    exact present_lor _
  unfold Aligned at h
  unfold Present at *
  unfold tableEntry
  omega

/-- The entry of a page mapped to `phys`. -/
def pageEntry (phys flags : ℕ) : ℕ := frameOf phys + (flags ||| 1)

theorem pageEntry_eq {phys flags : ℕ} (hp : phys < 4294967296) (hf : flags < 4096) :
    (phys &&& 0xFFFFF000) ||| flags ||| vmmPresent = pageEntry phys flags := by
  rw [land_frame hp, Nat.or_assoc]
  exact lor_flags (frameOf_aligned hp) (flags_lt hf (by decide))

theorem pageEntry_frame {phys flags : ℕ} (hp : phys < 4294967296) (hf : flags < 4096) :
    frameOf (pageEntry phys flags) = frameOf phys :=
  frameOf_flags (frameOf_aligned hp) (flags_lt hf (by decide))

theorem pageEntry_lt {phys flags : ℕ} (hp : phys < 4294967296) (hf : flags < 4096) :
    pageEntry phys flags < 4294967296 := by
  have ha := frameOf_aligned hp
  have hlt : flags ||| 1 < 4096 := flags_lt hf (by decide)
  unfold Aligned at ha
  unfold pageEntry
  omega

theorem pageEntry_present {phys flags : ℕ} (hp : phys < 4294967296) : Present (pageEntry phys flags) := by
  have ha := frameOf_aligned hp
  have hodd := present_lor flags
  unfold Aligned at ha
  unfold Present at *
  unfold pageEntry
  omega

/-- The table frame that the next mapping may take is neither the directory nor in use as a table. -/
def FreshFrame (s : VmState) (pt : ℕ) : Prop := pt ≠ s.pageDirectory ∧ pt ∉ tables s.mem s.pageDirectory

def NeedsTable (s : VmState) (virt : ℕ) : Prop := ¬ Present (pde s.mem s.pageDirectory virt)

instance (s : VmState) (virt : ℕ) : Decidable (NeedsTable s virt) := inferInstanceAs (Decidable (¬ _))

@[simp] theorem ensureTable_directory (s : VmState) (i flags : ℕ) :
    (ensureTable s i flags).pageDirectory = s.pageDirectory := by
  unfold ensureTable
  split <;> rfl

@[simp] theorem map_directory (s : VmState) (virt phys flags : ℕ) :
    (vmmMapPage s virt phys flags).pageDirectory = s.pageDirectory :=
  ensureTable_directory s _ flags

@[simp] theorem unmap_directory (s : VmState) (virt : ℕ) :
    (vmmUnmapPage s virt).pageDirectory = s.pageDirectory := by
  unfold vmmUnmapPage
  dsimp only
  split <;> rfl

@[simp] theorem unmap_pmm (s : VmState) (virt : ℕ) : (vmmUnmapPage s virt).pmm = s.pmm := by
  unfold vmmUnmapPage
  dsimp only
  split <;> rfl

theorem getPhys_eq (s : VmState) (virt : ℕ) :
    vmmGetPhys s virt = (translate s.mem s.pageDirectory virt).getD 0 := by
  have hoff : virt % 4096 < 4096 := Nat.mod_lt _ (by decide)
  unfold vmmGetPhys PageTables.translate pte
  simp only [not_present_land, pageDirIndex_eq, pageTblIndex_eq]
  change (if ¬ Present (pde s.mem s.pageDirectory virt) then 0 else _) = _
  by_cases hp : Present (pde s.mem s.pageDirectory virt)
  · rw [if_neg (not_not.mpr hp), if_pos hp]
    have hdir : entry s.mem s.pageDirectory (dirIndex virt) &&& 0xFFFFF000 =
        frameOf (pde s.mem s.pageDirectory virt) := land_frame (entry_lt _ _ _)
    rw [hdir]
    have hlt := entry_lt s.mem (frameOf (pde s.mem s.pageDirectory virt)) (tblIndex virt)
    by_cases he : Present (entry s.mem (frameOf (pde s.mem s.pageDirectory virt)) (tblIndex virt))
    · rw [if_neg (not_not.mpr he), if_pos he, land_frame hlt]
      rw [show virt &&& 0xFFF = virt % 4096 from Nat.and_two_pow_sub_one_eq_mod virt 12]
      exact lor_flags (frameOf_aligned hlt) hoff
    · rw [if_pos he, if_neg he]
      rfl
  · rw [if_pos hp, if_neg hp, if_neg (show ¬ Present 0 by decide)]
    rfl

/-! ## What one operation does -/

def Space (s : VmState) : Prop := Apart s.mem s.pageDirectory

def tableFrames (s : VmState) : Set ℕ := tables s.mem s.pageDirectory

def pageEntryAt (s : VmState) (va : ℕ) : ℕ := pte s.mem s.pageDirectory va

def dirEntryAt (s : VmState) (va : ℕ) : ℕ := pde s.mem s.pageDirectory va

/-- The frames that hold the directory and its tables. -/
def kernelFrames (s : VmState) : Set ℕ := insert s.pageDirectory (tableFrames s)

/-- The effect of `vmm_map_page` on the tables, the pool and the rest of memory. -/
structure Mapped (s : VmState) (virt phys flags : ℕ) (t : VmState) : Prop where
  space : Space t
  directory : t.pageDirectory = s.pageDirectory
  pages : ∀ wa < 4294967296, pageEntryAt t wa =
    if wa/4096 = virt/4096 then pageEntry phys flags else pageEntryAt s wa
  dirs : ∀ wa, dirEntryAt t wa =
    if NeedsTable s virt ∧ dirIndex wa = dirIndex virt then tableEntry (pmmAllocPage s.pmm).1 flags
    else dirEntryAt s wa
  tables : tableFrames t =
    if NeedsTable s virt then insert (pmmAllocPage s.pmm).1 (tableFrames s) else tableFrames s
  pmm : t.pmm = if NeedsTable s virt then (pmmAllocPage s.pmm).2 else s.pmm
  off : SameOff {x | frameOf x ∈ kernelFrames t} s.mem t.mem

theorem ensureTable_spec {s : VmState} (virt flags : ℕ) (hs : Space s)
    (hfresh : NeedsTable s virt → FreshFrame s (pmmAllocPage s.pmm).1) :
    let t := ensureTable s (dirIndex virt) flags
    Space t ∧ Present (dirEntryAt t virt) ∧ (∀ wa, pageEntryAt t wa = pageEntryAt s wa) ∧
      (∀ wa, dirEntryAt t wa =
        if NeedsTable s virt ∧ dirIndex wa = dirIndex virt then tableEntry (pmmAllocPage s.pmm).1 flags
        else dirEntryAt s wa) ∧
      tableFrames t = (if NeedsTable s virt then insert (pmmAllocPage s.pmm).1 (tableFrames s)
        else tableFrames s) ∧
      t.pmm = (if NeedsTable s virt then (pmmAllocPage s.pmm).2 else s.pmm) ∧
      SameOff {x | frameOf x ∈ kernelFrames t} s.mem t.mem := by
  intro t
  have hpt := alloc_aligned s.pmm
  by_cases hn : NeedsTable s virt
  · have ht : t = addTable s (dirIndex virt) flags :=
      if_pos ((not_present_land (pde s.mem s.pageDirectory virt)).mpr hn)
    obtain ⟨hdir, hnew⟩ := hfresh hn
    have hadd := add_table (e := tableEntry (pmmAllocPage s.pmm).1 flags) hs (dirIndex_lt virt) hn hpt hdir
      hnew (tableEntry_lt flags hpt) (tableEntry_present flags hpt) (tableEntry_frame flags hpt)
    have hmem : t.mem = setEntry (fillEntries s.mem (pmmAllocPage s.pmm).1 (fun _ => 0) 0 1024)
        s.pageDirectory (dirIndex virt) (tableEntry (pmmAllocPage s.pmm).1 flags) := by
      rw [ht, ← tableEntry_eq flags hpt]
      rfl
    have htdir : t.pageDirectory = s.pageDirectory := by rw [ht]; rfl
    have hpmm : t.pmm = (pmmAllocPage s.pmm).2 := by rw [ht]; rfl
    dsimp only at hadd
    rw [← hmem] at hadd
    obtain ⟨hapart, htables, hdirs, hpages⟩ := hadd
    have hdirs' : ∀ wa, dirEntryAt t wa = if NeedsTable s virt ∧ dirIndex wa = dirIndex virt then
        tableEntry (pmmAllocPage s.pmm).1 flags else dirEntryAt s wa := by
      intro wa
      rw [dirEntryAt, htdir, pde, hdirs _ (dirIndex_lt wa)]
      by_cases hw : dirIndex wa = dirIndex virt
      · rw [if_pos hw, if_pos ⟨hn, hw⟩]
      · rw [if_neg hw, if_neg (fun h => hw h.2)]
        rfl
    refine ⟨?_, ?_, ?_, hdirs', ?_, ?_, ?_⟩
    · rw [Space, htdir]
      exact hapart
    · rw [hdirs' virt, if_pos ⟨hn, rfl⟩]
      exact tableEntry_present flags hpt
    · intro wa
      rw [pageEntryAt, htdir, hpages wa]
      rfl
    · rw [tableFrames, htdir, htables, if_pos hn]
      rfl
    · rw [hpmm, if_pos hn]
    · rw [hmem]
      have hfill := fill_off hpt (fun _ => 0) s.mem 0 1024 (by omega)
      have hset := setEntry_frame (fillEntries s.mem (pmmAllocPage s.pmm).1 (fun _ => 0) 0 1024)
        (tableEntry (pmmAllocPage s.pmm).1 flags) hs.aligned (dirIndex_lt virt)
      have hin : (pmmAllocPage s.pmm).1 ∈ tableFrames t := by
        rw [tableFrames, htdir, htables]
        exact Set.mem_insert _ _
      refine (hfill.mono ?_).trans (hset.mono ?_)
      · intro x hx
        have hx' : frameOf x = (pmmAllocPage s.pmm).1 := hx
        change frameOf x ∈ kernelFrames t
        rw [hx']
        exact Set.mem_insert_of_mem _ hin
      · intro x hx
        have hx' : frameOf x = s.pageDirectory := hx
        change frameOf x ∈ kernelFrames t
        rw [hx', ← htdir]
        exact Set.mem_insert _ _
  · have ht : t = s := if_neg (fun h => hn ((not_present_land (pde s.mem s.pageDirectory virt)).mp h))
    have hp : Present (dirEntryAt s virt) := not_not.mp hn
    rw [ht]
    simp only [hn, false_and, if_false]
    exact ⟨hs, hp, fun _ => trivial, fun _ => trivial, trivial, trivial, SameOff.refl _ _⟩

/-- Mapping a page writes its entry, behind a new table where one is missing. -/
theorem map_spec {s : VmState} {virt phys flags : ℕ} (hs : Space s) (hv : virt < 4294967296)
    (hp : phys < 4294967296) (hf : flags < 4096)
    (hfresh : NeedsTable s virt → FreshFrame s (pmmAllocPage s.pmm).1) :
    Mapped s virt phys flags (vmmMapPage s virt phys flags) := by
  obtain ⟨hspace, hpres, hpages, hdirs, htables, hpmm, hoff⟩ := ensureTable_spec virt flags hs hfresh
  have hmap : vmmMapPage s virt phys flags = { ensureTable s (dirIndex virt) flags with
      mem := setEntry (ensureTable s (dirIndex virt) flags).mem
        (frameOf (dirEntryAt (ensureTable s (dirIndex virt) flags) virt)) (tblIndex virt)
        (pageEntry phys flags) } := by
    unfold vmmMapPage
    simp only [pageDirIndex_eq, pageTblIndex_eq, pageEntry_eq hp hf]
    rw [land_frame (entry_lt _ _ _)]
    rfl
  have hdirectory : (vmmMapPage s virt phys flags).pageDirectory =
      (ensureTable s (dirIndex virt) flags).pageDirectory := by
    rw [hmap]
  generalize ensureTable s (dirIndex virt) flags = t at *
  obtain ⟨hapart, htab, hpde, hpte⟩ := set_pte (pageEntry phys flags) hspace hpres hv
  have hmem : (vmmMapPage s virt phys flags).mem = setEntry t.mem (frameOf (pde t.mem t.pageDirectory virt))
      (tblIndex virt) (pageEntry phys flags) := by
    rw [hmap]
    rfl
  have hpool : (vmmMapPage s virt phys flags).pmm = t.pmm := by rw [hmap]
  rw [← hmem] at hapart htab hpde hpte
  have hkeep : tableFrames (vmmMapPage s virt phys flags) = tableFrames t := by
    rw [tableFrames, hdirectory, htab]
    rfl
  refine ⟨?_, map_directory s virt phys flags, ?_, ?_, ?_, ?_, ?_⟩
  · rw [Space, hdirectory]
    exact hapart
  · intro wa hwa
    rw [pageEntryAt, hdirectory, hpte wa hwa, wrap_of_lt (pageEntry_lt hp hf), ← hpages wa]
    rfl
  · intro wa
    rw [← hdirs wa, dirEntryAt, hdirectory, hpde wa]
    rfl
  · rw [hkeep, htables]
  · rw [hpool, hpmm]
  · have hset := setEntry_frame t.mem (pageEntry phys flags) (tables_aligned (mem_tables hpres))
      (tblIndex_lt virt)
    have hsame : kernelFrames (vmmMapPage s virt phys flags) = kernelFrames t := by
      rw [kernelFrames, hkeep, hdirectory]
      rfl
    rw [hsame, hmem]
    refine hoff.trans (hset.mono (fun x hx => ?_))
    have hx' : frameOf x = frameOf (pde t.mem t.pageDirectory virt) := hx
    change frameOf x ∈ kernelFrames t
    rw [hx']
    exact Set.mem_insert_of_mem _ (mem_tables hpres)

/-- The effect of `vmm_unmap_page`. -/
theorem unmap_spec {s : VmState} {virt : ℕ} (hs : Space s) (hv : virt < 4294967296) :
    Space (vmmUnmapPage s virt) ∧
      (∀ wa < 4294967296, pageEntryAt (vmmUnmapPage s virt) wa =
        if wa/4096 = virt/4096 then 0 else pageEntryAt s wa) ∧
      (∀ wa, dirEntryAt (vmmUnmapPage s virt) wa = dirEntryAt s wa) ∧
      tableFrames (vmmUnmapPage s virt) = tableFrames s ∧
      SameOff {x | frameOf x ∈ kernelFrames s} s.mem (vmmUnmapPage s virt).mem := by
  have hdir := unmap_directory s virt
  by_cases hp : Present (dirEntryAt s virt)
  · have hmap : vmmUnmapPage s virt =
        { s with mem := setEntry s.mem (frameOf (dirEntryAt s virt)) (tblIndex virt) 0 } := by
      unfold vmmUnmapPage
      simp only [pageDirIndex_eq, pageTblIndex_eq]
      have hset : entry s.mem s.pageDirectory (dirIndex virt) &&& vmmPresent ≠ 0 :=
        (present_land (dirEntryAt s virt)).mpr hp
      rw [if_pos hset, land_frame (entry_lt _ _ _)]
      rfl
    obtain ⟨hapart, htab, hpde, hpte⟩ := set_pte 0 hs hp hv
    have hset := setEntry_frame s.mem 0 (tables_aligned (mem_tables hp)) (tblIndex_lt virt)
    rw [hmap]
    refine ⟨hapart, hpte, hpde, htab, hset.mono (fun x hx => ?_)⟩
    have hx' : frameOf x = frameOf (pde s.mem s.pageDirectory virt) := hx
    change frameOf x ∈ kernelFrames s
    rw [hx']
    exact Set.mem_insert_of_mem _ (mem_tables hp)
  · have hmap : vmmUnmapPage s virt = s := by
      unfold vmmUnmapPage
      simp only [pageDirIndex_eq]
      exact if_neg (fun h => hp ((present_land (dirEntryAt s virt)).mp h))
    rw [hmap]
    refine ⟨hs, ?_, fun _ => rfl, rfl, SameOff.refl _ _⟩
    intro wa hwa
    by_cases hw : wa/4096 = virt/4096
    · have hpde : dirEntryAt s wa = dirEntryAt s virt := by
        unfold dirEntryAt pde
        rw [((same_page hv hwa).mpr hw).1]
      rw [← hpde] at hp
      rw [if_pos hw]
      exact if_neg hp
    · rw [if_neg hw]

end Dionnex.Vmm
