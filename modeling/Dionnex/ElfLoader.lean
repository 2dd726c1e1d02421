import Dionnex.PagedAccess

/-!
# The program loader

`elf_load_segments` maps and fills the loadable segments of an image in the
shared page directory; its directory argument is not looked at. Every sum is
a 32-bit one, so that the end of a segment can lie before its start. The
image is input, given relative to its first byte; a load that stores to a
page which is not present is a page fault.
-/

set_option autoImplicit false

namespace Dionnex.ElfLoader
open ByteMemory PageTables Dionnex.PmmBitmap Dionnex.Vmm Dionnex.UserPages Dionnex.UserMemory
open Dionnex.PagedAccess

def elfMagic : ℕ := 0x464C457F

/-- `sizeof(elf32_header_t)`. -/
def elfHeaderSize : ℕ := 52

def ptLoad : ℕ := 1
def pfW : ℕ := 2

def eType (d : Mem) : ℕ := load16 d 16

def eEntry (d : Mem) : ℕ := load32 d 24

def ePhoff (d : Mem) : ℕ := load32 d 28

def ePhnum (d : Mem) : ℕ := load16 d 44

/-- `none` is a null pointer. -/
def elfValidate (data : Option Mem) (size : ℕ) : Bool :=
  match data with
  | none => false
  | some d =>
    if size < elfHeaderSize then false
    else if load32 d 0 ≠ elfMagic then false
    else if load8 d 4 ≠ 1 then false
    else if load8 d 5 ≠ 1 then false
    else if eType d ≠ 2 ∧ eType d ≠ 3 then false
    else true

def elfGetEntry (data : Option Mem) : ℕ :=
  match data with
  | none => 0
  | some d => if elfValidate data elfHeaderSize = false then 0 else eEntry d

structure Phdr where
  pType : ℕ
  pOffset : ℕ
  pVaddr : ℕ
  pFilesz : ℕ
  pMemsz : ℕ
  pFlags : ℕ
  deriving DecidableEq, Repr

/-- The program header at an offset of the image. -/
def phdrAt (d : Mem) (p : ℕ) : Phdr :=
  ⟨load32 d p, load32 d (p+4), load32 d (p+8), load32 d (p+16), load32 d (p+20), load32 d (p+24)⟩

/-- The `n` program headers from `p` on. -/
def phdrsFrom (d : Mem) (p : ℕ) : ℕ → List Phdr
  | 0 => []
  | n+1 => phdrAt d p :: phdrsFrom d (p+32) n

def phdrs (d : Mem) : List Phdr := phdrsFrom d (ePhoff d) (ePhnum d)

def pageStart (ph : Phdr) : ℕ := ph.pVaddr &&& 0xFFFFF000

def pageEnd (ph : Phdr) : ℕ := wrap (ph.pVaddr + ph.pMemsz + 0xFFF) &&& 0xFFFFF000

/-- The loop from `page_start` takes one page at a time and ends at `page_end`, a multiple of 4096. -/
def segmentPages (ph : Phdr) : ℕ := (pageEnd ph - pageStart ph) / 4096

def segmentFlags (ph : Phdr) : ℕ :=
  if ph.pFlags &&& pfW ≠ 0 then vmmPresent ||| vmmUser ||| vmmWritable else vmmPresent ||| vmmUser

/-- Stops at the first page that the pool refuses. -/
def loadPages (s : VmState) (base flags i : ℕ) : ℕ → Bool × VmState
  | 0 => (true, s)
  | n+1 =>
    if (pmmAllocPage s.pmm).1 = 0 then (false, takePmmPage s)
    else
      loadPages (vmmMapPage (takePmmPage s) (wrap (base + i*4096)) (pmmAllocPage s.pmm).1 flags)
        base flags (i+1) n

/-- The file has bytes for the segment. -/
def Copied (ph : Phdr) (size : ℕ) : Prop := 0 < ph.pFilesz ∧ wrap (ph.pOffset + ph.pFilesz) ≤ size

instance (ph : Phdr) (size : ℕ) : Decidable (Copied ph size) := inferInstanceAs (Decidable (_ ∧ _))

def fillSegment (s : VmState) (d : Mem) (size : ℕ) (ph : Phdr) : Option VmState :=
  (memsetAt s ph.pVaddr 0 ph.pMemsz).bind (fun s =>
    if Copied ph size then memcpyAt s ph.pVaddr d ph.pOffset ph.pFilesz else some s)

def loadSegment (s : VmState) (d : Mem) (size : ℕ) (ph : Phdr) : Option (Bool × VmState) :=
  if ph.pType ≠ ptLoad then some (true, s)
  else
    let r := loadPages s (pageStart ph) (segmentFlags ph) 0 (segmentPages ph)
    if r.1 = false then some (false, r.2)
    else (fillSegment r.2 d size ph).map (fun s => (true, s))

def loadSegments (s : VmState) (d : Mem) (size : ℕ) : List Phdr → Option (Bool × VmState)
  | [] => some (true, s)
  | ph::rest =>
    (loadSegment s d size ph).bind (fun r =>
      if r.1 = false then some r else loadSegments r.2 d size rest)

def elfLoadSegments (s : VmState) (data : Option Mem) (size : ℕ) : Option (ℕ × VmState) :=
  match data with
  | none => some (minusOne, s)
  | some d =>
    if elfValidate data size = false then some (minusOne, s)
    else
      (loadSegments s d size (phdrs d)).map (fun r => (if r.1 = true then 0 else minusOne, r.2))

/-- No sum of the segment wraps, and its file bytes fit its memory. -/
structure Tame (ph : Phdr) (size : ℕ) : Prop where
  fits : ph.pVaddr + ph.pMemsz + 0xFFF < 4294967296
  file : Copied ph size → ph.pFilesz ≤ ph.pMemsz

/-- The addresses of the pages of a segment that is loaded. -/
def segmentRun (ph : Phdr) : List ℕ :=
  if ph.pType = ptLoad then pageRun (pageStart ph) 0 (segmentPages ph) else []

/-- A segment whose pages were all granted is filled. -/
theorem loadSegment_filled {s g : VmState} (d : Mem) (size : ℕ) {ph : Phdr} (hl : ph.pType = ptLoad)
    (hpages : loadPages s (pageStart ph) (segmentFlags ph) 0 (segmentPages ph) = (true, g)) :
    loadSegment s d size ph = (fillSegment g d size ph).map (fun s => (true, s)) := by
  unfold loadSegment
  rw [if_neg (not_not.mpr hl), hpages]
  exact if_neg Bool.true_eq_false_eq_False

theorem segmentFlags_lt (ph : Phdr) : segmentFlags ph < 4096 := by
  unfold segmentFlags
  split
  · decide
  · decide

theorem segmentFlags_user (ph : Phdr) : segmentFlags ph &&& 4 = 4 := by
  unfold segmentFlags
  split
  · decide
  · decide

theorem segmentPages_le (ph : Phdr) : segmentPages ph ≤ 1048576 := by
  have hlt := wrap_lt (ph.pVaddr + ph.pMemsz + 0xFFF)
  have hle : pageEnd ph ≤ wrap (ph.pVaddr + ph.pMemsz + 0xFFF) := Nat.and_le_left
  unfold segmentPages
  omega

theorem tame_start {ph : Phdr} {size : ℕ} (h : Tame ph size) : pageStart ph = frameOf ph.pVaddr :=
  land_frame (by have := h.fits; omega)

theorem tame_end {ph : Phdr} {size : ℕ} (h : Tame ph size) :
    pageEnd ph = frameOf (ph.pVaddr + ph.pMemsz + 0xFFF) := by
  unfold pageEnd
  rw [wrap_of_lt h.fits, land_frame h.fits]

/-- Every byte of a tame segment lies in one of its pages. -/
theorem tame_page {ph : Phdr} {size j : ℕ} (h : Tame ph size) (hj : j < ph.pMemsz) :
    ∃ i < segmentPages ph, SamePage (pageAt (pageStart ph) i) (ph.pVaddr+j) := by
  have hfits := h.fits
  unfold segmentPages
  rw [tame_start h, tame_end h]
  refine ⟨(ph.pVaddr+j)/4096 - ph.pVaddr/4096, ?_, ?_⟩
  · unfold frameOf
    omega
  · unfold SamePage pageAt wrap frameOf
    omega

theorem refused_empty {s : Pmm} (hp : Padded s) (h0 : 0 ∉ freeSet s) (h : (pmmAllocPage s).1 = 0) :
    freeSet s = ∅ := by
  rcases alloc_cases s hp with ⟨he, -⟩ | ⟨p, hleast, ha⟩
  · exact he
  · rw [ha] at h
    have hp0 : p = 0 := (Nat.mul_eq_zero.mp h).resolve_right (by decide)
    exact absurd (hp0 ▸ hleast.1) h0

theorem alloc_shrinks {s : Pmm} (hp : Padded s) : freeSet (pmmAllocPage s).2 ⊆ freeSet s := by
  rcases alloc_cases s hp with ⟨-, ha⟩ | ⟨p, -, ha⟩
  · rw [ha]
  · rw [ha, takePage_free]
    exact Set.sdiff_subset

theorem map_pool {s : VmState} (virt phys flags : ℕ) (hp : Padded s.pmm) :
    Padded (vmmMapPage s virt phys flags).pmm ∧ freeSet (vmmMapPage s virt phys flags).pmm ⊆ freeSet s.pmm := by
  have hpmm : (vmmMapPage s virt phys flags).pmm = (ensureTable s (pageDirIndex virt) flags).pmm := rfl
  rw [hpmm]
  unfold ensureTable
  split
  · exact ⟨alloc_padded s.pmm hp, alloc_shrinks hp⟩
  · exact ⟨hp, subset_rfl⟩

/-- Refused pages change nothing, so a load that stops has done what the whole loop would do. -/
theorem loadPages_grant {s : VmState} {base flags i n : ℕ} (hp : Padded s.pmm) (h0 : 0 ∉ freeSet s.pmm) :
    (loadPages s base flags i n).2 = grantPages s base flags i n := by
  induction n generalizing s i with
  | zero => rfl
  | succ n ih =>
    rw [loadPages, grantPages]
    by_cases ha : (pmmAllocPage s.pmm).1 = 0
    · have he := refused_empty hp h0 ha
      have hsame : takePmmPage s = s := by
        unfold takePmmPage
        rw [alloc_empty s.pmm he]
      rw [if_pos ha]
      unfold grantPage
      rw [if_neg (not_not.mpr ha), hsame, grantPages_empty he]
    · have htake : Padded (takePmmPage s).pmm := alloc_padded s.pmm hp
      have hpool := map_pool (s := takePmmPage s) (wrap (base + i*4096)) (pmmAllocPage s.pmm).1 flags htake
      rw [if_neg ha]
      unfold grantPage
      rw [if_pos ha]
      exact ih hpool.1 (fun h => h0 (alloc_shrinks hp (hpool.2 h)))

theorem loadPages_granted {s : VmState} {base flags i n : ℕ} (ha : (pmmAllocPage s.pmm).1 ≠ 0) :
    loadPages s base flags i (n+1) =
      loadPages (grantPage s (pageAt base i) flags) base flags (i+1) n := by
  rw [loadPages, if_neg ha]
  unfold grantPage
  rw [if_pos ha]
  rfl

theorem alloc_ne_zero {s : VmState} {f : ℕ} (hs : Sound s) (hf : f ∈ freeSet s.pmm) :
    (pmmAllocPage s.pmm).1 ≠ 0 := by
  intro h
  rw [refused_empty hs.padded hs.zeroTaken h] at hf
  exact hf

theorem loadPages_empty {s : VmState} {base flags i n : ℕ} (he : freeSet s.pmm = ∅) :
    (loadPages s base flags i n).1 = true ↔ 0 = n := by
  cases n with
  | zero => exact iff_of_true rfl rfl
  | succ n =>
    have ha : (pmmAllocPage s.pmm).1 = 0 := by rw [alloc_empty s.pmm he]
    rw [loadPages, if_pos ha]
    exact iff_of_false Bool.false_ne_true (Nat.succ_ne_zero n).symm

theorem served_refused {s : VmState} {base flags i n : ℕ} (hs : Ready s) (he : freeSet s.pmm = ∅) :
    Served s base flags i n 0 (fun _ => 0) (loadPages s base flags i n).2 := by
  rw [loadPages_grant hs.padded (by rw [he]; exact Set.notMem_empty 0), grantPages_empty he]
  exact served_none hs.space hs.padded (Or.inr he) (Or.inl he) _

/-- A load serves its pages as long as the pool lasts and goes on when it has served every page. -/
theorem loadPages_counted {s : VmState} {base flags i n : ℕ} (hs : Ready s) (hf : flags < 4096)
    (hn : n ≤ 1048576) : ∃ k f, Served s base flags i n k f (loadPages s base flags i n).2 ∧
      ((loadPages s base flags i n).1 = true ↔ k = n) ∧
      ∀ j < n, j < k ↔ framesNeeded s base i j < (freeSet s.pmm).ncard := by
  have hempty : ∀ {s : VmState} {i n : ℕ}, Ready s → freeSet s.pmm = ∅ →
      ∃ k f, Served s base flags i n k f (loadPages s base flags i n).2 ∧
        ((loadPages s base flags i n).1 = true ↔ k = n) ∧
        ∀ j < n, j < k ↔ framesNeeded s base i j < (freeSet s.pmm).ncard := by
    intro s i n hs he
    refine ⟨0, _, served_refused hs he, loadPages_empty he, fun j _ => ?_⟩
    rw [he, Set.ncard_empty]
    omega
  induction n generalizing s i with
  | zero =>
    refine ⟨0, fun _ => 0, served_none hs.space hs.padded (Or.inl rfl) ?_ _, iff_of_true rfl rfl,
      fun j hj => absurd hj (Nat.not_lt_zero j)⟩
    exact hs.next.imp_right And.left
  | succ n ih =>
    rcases hs.next with he | ⟨hsound, hplain⟩
    · exact hempty hs he
    · rcases grant_cases flags hsound (pageAt_lt base i) hf (Or.inl hplain) with ⟨he, -⟩ | ⟨f, hg, hroom⟩
      · exact hempty hs he
      · rw [loadPages_granted (alloc_ne_zero hsound hg.free)]
        generalize grantPage s (pageAt base i) flags = t at *
        have ht : Ready t := by
          refine ⟨hg.space, hg.padded, ?_⟩
          by_cases he : freeSet t.pmm = ∅
          · exact Or.inl he
          · exact Or.inr ⟨hg.sound.resolve_left he, (hg.plain hplain).resolve_left he⟩
        obtain ⟨k, g, h, hall, hcount⟩ := ih (i := i+1) ht (by omega)
        exact ⟨k+1, _, served_cons hsound (by omega) hg h, hall.trans (Nat.succ_inj).symm,
          count_cons hg (fun hle => (hroom hle).2.2) hcount⟩

theorem loadPages_served {s : VmState} {base flags i n : ℕ} (hs : Ready s) (hf : flags < 4096)
    (hn : n ≤ 1048576) : ∃ k f, Served s base flags i n k f (loadPages s base flags i n).2 ∧
      ((loadPages s base flags i n).1 = true ↔ k = n) := by
  obtain ⟨k, f, h, hall, -⟩ := @loadPages_counted _ base _ i _ hs hf hn
  exact ⟨k, f, h, hall⟩

theorem loadPages_full {s : VmState} {base flags i n : ℕ} (hs : Sound s) (hf : flags < 4096)
    (hfree : framesNeeded s base i n ≤ (freeSet s.pmm).ncard) :
    loadPages s base flags i n = (true, grantPages s base flags i n) := by
  refine Prod.ext ?_ (loadPages_grant hs.padded hs.zeroTaken)
  induction n generalizing s i with
  | zero => rfl
  | succ n ih =>
    have hfirst := (framesFor_first s (pageAt base i) (pageRun base (i+1) n)).trans hfree
    rcases grant_cases flags hs (pageAt_lt base i) hf (Or.inr hfirst) with ⟨he, -⟩ | ⟨f, hg, hroom⟩
    · rw [he, Set.ncard_empty] at hfirst
      omega
    · obtain ⟨hsound, -, hcount⟩ := hroom hfirst
      have hneed : framesNeeded s base i (n+1) = framesNeeded _ base (i+1) n + _ := framesFor_granted _ hg
      rw [loadPages_granted (alloc_ne_zero hs hg.free)]
      exact ih hsound (by omega)

/-! ## What a load of tame segments changes -/

/-- The page numbers of a segment that is loaded. -/
def segmentRange (ph : Phdr) : Set ℕ :=
  if ph.pType = ptLoad then runPages (pageStart ph) 0 (segmentPages ph) else ∅

theorem served_translate {s t : VmState} {base flags i n k j : ℕ} {f : ℕ → ℕ} (hf : flags < 4096)
    (hp : Padded s.pmm) (h : Served s base flags i n k f t) (hj : j < k) {wa : ℕ} (hwa : wa < 4294967296)
    (hsame : SamePage (pageAt base (i+j)) wa) : translateAt t wa = some (f j*pageSize + wa % 4096) := by
  have hpres : Present (pageEntryAt t wa) := by
    rw [h.pages j hj wa hwa hsame]
    exact pageEntry_present (page_aligned hp (h.free j hj)).2
  unfold translateAt
  rw [wrap_of_lt hwa, translate_eq, if_pos hpres, served_frame hf hp h hj hwa hsame]

/-- Stores to served pages reach their frames. -/
theorem served_stores {s t : VmState} {base flags i n k va m : ℕ} {f : ℕ → ℕ} (hf : flags < 4096)
    (hp : Padded s.pmm) (h : Served s base flags i n k f t) (hm : va+m ≤ 4294967296)
    (hall : ∀ l < m, ∃ j < k, SamePage (pageAt base (i+j)) (va+l)) :
    Writable t va 0 m ∧ ∀ x ∈ targets t va 0 m, ∃ j < k, frameOf x = f j*pageSize := by
  have hone : ∀ l < m, ∃ x, translateAt t (va+l) = some x ∧ ∃ j < k, frameOf x = f j*pageSize := by
    intro l hl
    obtain ⟨j, hj, hsame⟩ := hall l hl
    refine ⟨_, served_translate hf hp h hj (by omega) hsame, j, hj, ?_⟩
    exact frameOf_flags (page_aligned hp (h.free j hj)) (Nat.mod_lt _ (by decide))
  constructor
  · intro l _ hl
    obtain ⟨x, hx, j, hj, hframe⟩ := hone l (by omega)
    exact ⟨x, hx, hframe ▸ h.plain j hj⟩
  · rintro x ⟨l, -, hl, hx⟩
    obtain ⟨y, hy, hframe⟩ := hone l (by omega)
    obtain rfl := Option.some.inj (hx.symm.trans hy)
    exact hframe

theorem targets_mono {s : VmState} {va n m : ℕ} (h : n ≤ m) : targets s va 0 n ⊆ targets s va 0 m := by
  rintro x ⟨j, hj, hjn, hx⟩
  exact ⟨j, hj, by omega, hx⟩

theorem targets_same {s t : VmState} (h : SameTables s t) (va i n : ℕ) :
    targets t va i n = targets s va i n := by
  ext x
  constructor
  · rintro ⟨j, hj, hjn, hx⟩
    exact ⟨j, hj, hjn, (h.translate _).symm.trans hx⟩
  · rintro ⟨j, hj, hjn, hx⟩
    exact ⟨j, hj, hjn, (h.translate _).trans hx⟩

theorem writable_mono {s t : VmState} {va n m : ℕ} (h : SameTables s t) (hw : Writable s va 0 m)
    (hn : n ≤ m) : Writable t va 0 n := by
  intro j hj hjn
  obtain ⟨x, hx, hp⟩ := hw j hj (by omega)
  exact ⟨x, (h.translate _).trans hx, h.frames ▸ hp⟩

theorem fill_spec {s : VmState} {d : Mem} {size : ℕ} {ph : Phdr} (hs : Space s)
    (hw : Writable s ph.pVaddr 0 ph.pMemsz) (hfile : Copied ph size → ph.pFilesz ≤ ph.pMemsz) :
    ∃ t, fillSegment s d size ph = some t ∧ SameTables s t ∧
      SameOff (targets s ph.pVaddr 0 ph.pMemsz) s.mem t.mem := by
  obtain ⟨t, ht, hsame, hoff⟩ := storeBytes_spec (fun _ => 0) hs hw
  unfold fillSegment memsetAt
  rw [ht, Option.bind_some]
  by_cases hc : Copied ph size
  · have hw' := writable_mono hsame hw (hfile hc)
    obtain ⟨u, hu, hsame', hoff'⟩ := storeBytes_spec (fun i => load8 d (ph.pOffset+i)) hsame.space hw'
    rw [targets_same hsame] at hoff'
    rw [if_pos hc]
    exact ⟨u, hu, hsame.trans hsame', hoff.trans (hoff'.mono (targets_mono (hfile hc)))⟩
  · rw [if_neg hc]
    exact ⟨t, rfl, hsame, hoff⟩

theorem tame_pages {ph : Phdr} {size : ℕ} (h : Tame ph size) :
    ∀ l < ph.pMemsz, ∃ j < segmentPages ph, SamePage (pageAt (pageStart ph) (0+j)) (ph.pVaddr+l) := by
  intro l hl
  obtain ⟨j, hj, hsame⟩ := tame_page h hl
  exact ⟨j, hj, by rw [Nat.zero_add]; exact hsame⟩

/-- A tame segment never faults, whether or not the pool has a frame for each page. -/
theorem segment_lent {s : VmState} (d : Mem) {size : ℕ} {ph : Phdr} (hs : Ready s)
    (ht : ph.pType = ptLoad → Tame ph size) :
    ∃ r, loadSegment s d size ph = some r ∧ Lent s (segmentRange ph) r.2 := by
  unfold loadSegment segmentRange
  by_cases hl : ph.pType = ptLoad
  · have htame := ht hl
    have hfits := htame.fits
    rw [if_neg (not_not.mpr hl), if_pos hl]
    obtain ⟨k, f, hserved, hall⟩ := @loadPages_served _ (pageStart ph) _ 0 _ hs
      (segmentFlags_lt ph) (segmentPages_le ph)
    generalize loadPages s (pageStart ph) (segmentFlags ph) 0 (segmentPages ph) = r at *
    have hlent := served_lent hs (segmentFlags_user ph) hserved
    dsimp only
    by_cases hr : r.1 = false
    · rw [if_pos hr]
      exact ⟨_, rfl, hlent⟩
    · have hk : k = segmentPages ph := hall.mp (Bool.eq_true_of_not_eq_false hr)
      obtain ⟨hw, hframes⟩ := served_stores (segmentFlags_lt ph) hs.padded hserved (by omega)
        (hk ▸ tame_pages htame)
      obtain ⟨t, hfill, hsame, hoff⟩ := fill_spec (d := d) hserved.space hw htame.file
      rw [if_neg hr, hfill]
      refine ⟨(true, t), rfl, hlent.stores hsame hoff (fun x hx => ?_)⟩
      obtain ⟨j, hj, hframe⟩ := hframes x hx
      exact ⟨f j, hserved.free j hj, hserved.taken j hj, hframe⟩
  · rw [if_pos hl, if_neg hl]
    exact ⟨_, rfl, Lent.refl hs _⟩

/-- The page numbers of all segments that are loaded. -/
def imageRange (phs : List Phdr) : Set ℕ := {p | ∃ ph ∈ phs, p ∈ segmentRange ph}

theorem segments_lent {s : VmState} (d : Mem) {size : ℕ} {phs : List Phdr} (hs : Ready s)
    (ht : ∀ ph ∈ phs, ph.pType = ptLoad → Tame ph size) :
    ∃ r, loadSegments s d size phs = some r ∧ Lent s (imageRange phs) r.2 := by
  induction phs generalizing s with
  | nil => exact ⟨_, rfl, Lent.refl hs _⟩
  | cons ph rest ih =>
    obtain ⟨r, hr, hlent⟩ := segment_lent d hs (ht ph List.mem_cons_self)
    have hfirst : segmentRange ph ⊆ imageRange (ph::rest) := fun p hp => ⟨ph, List.mem_cons_self, hp⟩
    rw [loadSegments, hr, Option.bind_some]
    by_cases hstop : r.1 = false
    · rw [if_pos hstop]
      exact ⟨r, rfl, hlent.mono hfirst⟩
    · obtain ⟨u, hu, hlast⟩ := ih hlent.ready (fun ph hph => ht ph (List.mem_cons_of_mem _ hph))
      rw [if_neg hstop]
      refine ⟨u, hu, (hlent.trans hlast).mono (Set.union_subset hfirst ?_)⟩
      rintro p ⟨ph', hph', hp⟩
      exact ⟨ph', List.mem_cons_of_mem _ hph', hp⟩

/-! ## Images with one segment -/

def wordBytes (n : ℕ) : List UInt8 :=
  [UInt8.ofNat n, UInt8.ofNat (n/256), UInt8.ofNat (n/65536), UInt8.ofNat (n/16777216)]

/-- An executable with one program header behind the file header; `rest` follows it. -/
def imageBytes (ph : Phdr) (rest : List UInt8) : List UInt8 :=
  [0x7F, 0x45, 0x4C, 0x46, 1, 1] ++ List.replicate 10 0 ++ [2, 0, 3, 0] ++ wordBytes 1 ++
    wordBytes ph.pVaddr ++ wordBytes 52 ++ List.replicate 8 0 ++ [52, 0, 32, 0, 1, 0] ++ List.replicate 6 0 ++
    wordBytes ph.pType ++ wordBytes ph.pOffset ++ wordBytes ph.pVaddr ++ wordBytes 0 ++
    wordBytes ph.pFilesz ++ wordBytes ph.pMemsz ++ wordBytes ph.pFlags ++ wordBytes 4096 ++ rest

def imageWith (ph : Phdr) (rest : List UInt8) : Mem := fun i => (imageBytes ph rest).getD i 0

/-- One page of cleared memory. -/
def samplePhdr : Phdr := ⟨1, 0, 0x08048000, 0, 4096, 6⟩

def sampleImage : Mem := imageWith samplePhdr []

theorem sampleImage_phdrs : phdrs sampleImage = [samplePhdr] := by decide

theorem sampleImage_valid : elfValidate (some sampleImage) 84 = true := by decide

theorem samplePhdr_tame : Tame samplePhdr 84 := ⟨by decide, by decide⟩

end Dionnex.ElfLoader
