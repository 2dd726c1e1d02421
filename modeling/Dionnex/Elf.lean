import Dionnex.ElfContents
import Dionnex.ElfAccesses

/-!
# The second program loader

`elf_load` takes an image without its size and counts the pages of a segment
from its size alone. It looks at no page that the pool hands out, and makes
every page writable. Where the count is that of the other loader, it does what
that one does to an image whose segments are all writable.
-/

set_option autoImplicit false

namespace Dionnex.Elf
open ByteMemory PageTables Dionnex.PmmBitmap Dionnex.Vmm Dionnex.UserPages Dionnex.UserMemory
open Dionnex.PagedAccess Dionnex.ElfLoader Dionnex.TwinRuns Dionnex.FreshMemory Dionnex.ElfContents
open Dionnex.ElfAccesses

def eMachine (d : Mem) : ℕ := load16 d 18

/-- `none` is a null pointer. -/
def elfValidate (data : Option Mem) : Bool :=
  match data with
  | none => false
  | some d =>
    if load32 d 0 ≠ elfMagic then false
    else if load8 d 4 ≠ 1 then false
    else if load8 d 5 ≠ 1 then false
    else if eMachine d ≠ 3 then false
    else true

def pageCount (ph : Phdr) : ℕ := wrap (ph.pMemsz + 4095) / 4096

/-- Whether the pool had a page is not asked. -/
def mapPages (s : VmState) (virt i : ℕ) : ℕ → VmState
  | 0 => s
  | n+1 =>
    mapPages (vmmMapPage (takePmmPage s) (wrap (virt + i*4096)) (pmmAllocPage s.pmm).1
      (vmmPresent ||| vmmWritable ||| vmmUser)) virt (i+1) n

/-- The bytes of the file, then zeros for the rest. -/
def copySegment (s : VmState) (d : Mem) (ph : Phdr) : Option VmState :=
  (memcpyAt s ph.pVaddr d ph.pOffset ph.pFilesz).bind (fun s =>
    if ph.pFilesz < ph.pMemsz then memsetAt s (wrap (ph.pVaddr + ph.pFilesz)) 0 (ph.pMemsz - ph.pFilesz)
    else some s)

def placeSegment (s : VmState) (d : Mem) (ph : Phdr) : Option VmState :=
  if ph.pType = ptLoad then copySegment (mapPages s ph.pVaddr 0 (pageCount ph)) d ph else some s

def placeSegments (s : VmState) (d : Mem) : List Phdr → Option VmState
  | [] => some s
  | ph::rest => (placeSegment s d ph).bind (fun s => placeSegments s d rest)

/-- The entry that `task_create` is called with, if it is. -/
def elfLoad (s : VmState) (data : Option Mem) : Option (Option ℕ × VmState) :=
  match data with
  | none => some (none, s)
  | some d =>
    if elfValidate data = false then some (none, s)
    else (placeSegments s d (phdrs d)).map (fun s => (some (eEntry d), s))

/-- The addresses that `vmm_map_page` is called with for a segment. -/
def placedRun (ph : Phdr) : List ℕ := if ph.pType = ptLoad then pageRun ph.pVaddr 0 (pageCount ph) else []

/-- The addresses that the run over the headers maps; a fault ends it. -/
def placedPages (s : VmState) (d : Mem) : List Phdr → List ℕ
  | [] => []
  | ph::rest => placedRun ph ++ (placeSegment s d ph).elim [] (fun s => placedPages s d rest)

/-- The page of the address is one of those that were mapped. -/
def OnPages (vas : List ℕ) (wa : ℕ) : Prop := ∃ va ∈ vas, SamePage va wa

/-- The two loaders map the same pages and leave the same bytes in every segment. -/
structure Agree (s : VmState) (d : Mem) (size : ℕ) : Prop where
  pages : ∀ wa, OnPages (placedPages s d (phdrs d)) wa ↔
    OnPages ((traceLoad s d size).1.filterMap Access.mapped) wa
  bytes : ∃ t u, elfLoad s (some d) = some (some (eEntry d), t) ∧ elfLoadSegments s (some d) size = some (0, u) ∧
    ∀ ph ∈ phdrs d, ph.pType = ptLoad → ∀ wa, Covers ph wa → ∃ b, readByte t wa = some b ∧ readByte u wa = some b

/-- No two segments lie on a common page. -/
def ApartPages (phs : List Phdr) : Prop :=
  phs.Pairwise (fun a b => ∀ wa, MapsPage a wa → ¬ MapsPage b wa)

/-! ## The pages of a segment -/

section Pages

variable {s t : VmState} {d : Mem} {size : ℕ} {ph : Phdr}

theorem vmmMapPage_page {va wa : ℕ} (h : SamePage va wa) (s : VmState) (phys flags : ℕ) :
    vmmMapPage s va phys flags = vmmMapPage s wa phys flags := by
  have hdir : pageDirIndex va = pageDirIndex wa := by
    unfold SamePage at h
    rw [pageDirIndex_eq, pageDirIndex_eq]
    unfold dirIndex
    omega
  have htbl : pageTblIndex va = pageTblIndex wa := by
    unfold SamePage at h
    rw [pageTblIndex_eq, pageTblIndex_eq]
    unfold tblIndex
    omega
  unfold vmmMapPage
  rw [hdir, htbl]

/-- Pages that the pool has are mapped as the other loader maps them. -/
theorem mapPages_loaded {virt base i n : ℕ} (hpage : ∀ j, SamePage (pageAt virt j) (pageAt base j))
    (h : (loadPages s base 7 i n).1 = true) : mapPages s virt i n = (loadPages s base 7 i n).2 := by
  induction n generalizing s i with
  | zero => rfl
  | succ n ih =>
    rw [loadPages] at h ⊢
    by_cases ha : (pmmAllocPage s.pmm).1 = 0
    · rw [if_pos ha] at h
      cases h
    · rw [if_neg ha] at h ⊢
      have hfirst := vmmMapPage_page (hpage i) (takePmmPage s) (pmmAllocPage s.pmm).1 7
      unfold pageAt at hfirst
      rw [mapPages, ← ih h, ← hfirst]
      rfl

theorem pageAt_start (hv : ph.pVaddr < 4294967296) (j : ℕ) :
    SamePage (pageAt ph.pVaddr j) (pageAt (pageStart ph) j) := by
  have hstart : pageStart ph = frameOf ph.pVaddr := land_frame hv
  rw [hstart]
  unfold SamePage pageAt wrap frameOf
  omega

/-- From the size alone the count comes out right or one short. -/
theorem pageCount_le (hreg : Regular ph size) : pageCount ph ≤ segmentPages ph := by
  have hfits := hreg.fits
  unfold pageCount segmentPages
  rw [tame_start (regular_tame hreg), tame_end (regular_tame hreg), wrap_of_lt (by omega)]
  unfold frameOf
  omega

theorem onPages_segment (hreg : Regular ph size) (hl : ph.pType = ptLoad) {wa : ℕ} :
    OnPages (segmentRun ph) wa ↔ MapsPage ph wa := by
  have hfits := hreg.fits
  unfold OnPages MapsPage
  rw [run_page hl (by omega), and_iff_right hl]

theorem onPages_placed (hreg : Regular ph size) (hl : ph.pType = ptLoad) {wa : ℕ} :
    OnPages (placedRun ph) wa ↔ ∃ j < pageCount ph, wa/4096 = ph.pVaddr/4096 + j := by
  have hfits := hreg.fits
  have hle := pageCount_le hreg
  have hpages : segmentPages ph ≤ (ph.pVaddr + ph.pMemsz + 0xFFF)/4096 - ph.pVaddr/4096 := by
    unfold segmentPages
    rw [tame_start (regular_tame hreg), tame_end (regular_tame hreg)]
    unfold frameOf
    omega
  unfold OnPages placedRun
  rw [if_pos hl]
  constructor
  · rintro ⟨va, hva, hsame⟩
    obtain ⟨j, hj, rfl⟩ := mem_pageRun.mp hva
    refine ⟨j, hj, ?_⟩
    unfold SamePage pageAt at hsame
    rw [wrap_of_lt (by omega)] at hsame
    omega
  · rintro ⟨j, hj, hwa⟩
    refine ⟨_, mem_pageRun.mpr ⟨j, hj, rfl⟩, ?_⟩
    unfold SamePage pageAt
    rw [wrap_of_lt (by omega)]
    omega

end Pages

/-! ## The bytes of a segment -/

section Bytes

variable {s t u : VmState} {d : Mem} {size : ℕ} {ph : Phdr}

/-- Stores change memory alone. -/
theorem storeBytes_mem {va i n : ℕ} {f : ℕ → ℕ} (h : storeBytes s va f i n = some t) :
    t = { s with mem := t.mem } := by
  induction n generalizing s i with
  | zero =>
    obtain rfl := Option.some.inj h
    rfl
  | succ n ih =>
    obtain ⟨z, hz, hrest⟩ := Option.bind_eq_some_iff.mp h
    obtain ⟨x, -, rfl⟩ := Option.map_eq_some_iff.mp hz
    have hlast := ih hrest
    exact hlast

theorem targets_shift (s : VmState) (va k n : ℕ) : targets s (va+k) 0 n ⊆ targets s va 0 (k+n) := by
  rintro x ⟨j, -, hj, hx⟩
  exact ⟨k+j, Nat.zero_le _, by omega, by rw [← Nat.add_assoc]; exact hx⟩

theorem fillSegment_mem (h : fillSegment s d size ph = some t) : t = { s with mem := t.mem } := by
  obtain ⟨z, hz, hrest⟩ := Option.bind_eq_some_iff.mp h
  have hzero := storeBytes_mem hz
  by_cases hc : Copied ph size
  · rw [if_pos hc] at hrest
    rw [hzero] at hrest
    have hlast := storeBytes_mem hrest
    exact hlast
  · rw [if_neg hc] at hrest
    obtain rfl := Option.some.inj hrest
    exact hzero

/-- Zeros behind the first `k` bytes. -/
theorem tail_bytes {c : VmState} {va k n : ℕ} (hsame : SameTables s c) (hw : Writable s va 0 (k+n))
    (happart : Separate s va (k+n)) :
    ∃ w, memsetAt c (va+k) 0 n = some w ∧ SameOff (targets s (va+k) 0 n) c.mem w.mem ∧
      ∀ l x, k ≤ l → l < k+n → translateAt s (va+l) = some x → w.mem x = UInt8.ofNat 0 := by
  have hwc : Writable c (va+k) 0 n := by
    intro j hj hjn
    obtain ⟨x, hx, hp⟩ := hw (k+j) (Nat.zero_le _) (by omega)
    rw [← Nat.add_assoc] at hx
    exact ⟨x, (hsame.translate _).trans hx, hsame.frames ▸ hp⟩
  obtain ⟨w, hz, -, hoff⟩ := storeBytes_spec (fun _ => 0) hsame.space hwc
  rw [targets_same hsame] at hoff
  refine ⟨w, hz, hoff, ?_⟩
  intro l x hl hln hx
  apply separate_bytes hsame.space hwc (happart.shift.same hsame) hz (l-k) x (by omega)
  rw [hsame.translate, Nat.add_assoc, Nat.add_sub_cancel' hl]
  exact hx

/-- The file bytes, and zeros behind them. -/
theorem copy_bytes (hs : Space s) (hw : Writable s ph.pVaddr 0 ph.pMemsz) (hreg : Regular ph size)
    (hsize : size < 4294967296) (happart : Separate s ph.pVaddr ph.pMemsz) :
    ∃ w, copySegment s d ph = some w ∧ w = { s with mem := w.mem } ∧
      SameOff (targets s ph.pVaddr 0 ph.pMemsz) s.mem w.mem ∧
      ∀ k x, k < ph.pMemsz → translateAt s (ph.pVaddr+k) = some x → w.mem x = imageByte d ph (ph.pVaddr+k) := by
  have hstart := hreg.start
  have hfits := hreg.fits
  have hw' := writable_mono (SameTables.refl hs) hw hstart
  obtain ⟨c, hc, hsame, hoff⟩ := storeBytes_spec (fun i => load8 d (ph.pOffset+i)) hs hw'
  have hfile := file_bytes hs hw' hreg hsize (happart.mono hstart) hc
  unfold copySegment memcpyAt
  rw [hc, Option.bind_some]
  by_cases hrest : ph.pFilesz < ph.pMemsz
  · have hlen : ph.pFilesz + (ph.pMemsz - ph.pFilesz) = ph.pMemsz := by omega
    obtain ⟨w, hz, hoffz, hzero⟩ := tail_bytes hsame (hlen.symm ▸ hw) (hlen.symm ▸ happart)
    have hsub := targets_shift s ph.pVaddr ph.pFilesz (ph.pMemsz - ph.pFilesz)
    rw [hlen] at hsub hzero
    rw [if_pos hrest, wrap_of_lt (by omega)]
    refine ⟨w, hz, ?_, (hoff.mono (targets_mono hstart)).trans (hoffz.mono hsub), ?_⟩
    · have hfirst := storeBytes_mem hc
      have hlast := storeBytes_mem hz
      rw [hfirst] at hlast
      exact hlast
    · intro k x hk hx
      by_cases hkf : k < ph.pFilesz
      · rw [hoffz x, hfile k x hkf hx]
        rintro ⟨l, -, hl, hxl⟩
        rw [Nat.add_assoc] at hxl
        have hkl := happart k (ph.pFilesz+l) x hk (by omega) hx hxl
        omega
      · rw [hzero k x (by omega) hk hx, imageByte_zero hkf]
  · rw [if_neg hrest]
    refine ⟨c, rfl, storeBytes_mem hc, hoff.mono (targets_mono hstart), ?_⟩
    intro k x hk hx
    exact hfile k x (by omega) hx

/-- Zeros first and file bytes over them leave the same memory. -/
theorem copy_fill (hs : Space s) (hw : Writable s ph.pVaddr 0 ph.pMemsz) (hreg : Regular ph size)
    (hsize : size < 4294967296) (happart : Separate s ph.pVaddr ph.pMemsz) :
    copySegment s d ph = fillSegment s d size ph := by
  obtain ⟨z, hz, -, hoff⟩ := fill_spec (d := d) hs hw (regular_tame hreg).file
  have hfill := fill_bytes (d := d) hs hw hreg hsize happart hz
  obtain ⟨w, hcopy, hmem, hoffw, hbytes⟩ := copy_bytes (d := d) hs hw hreg hsize happart
  have hsame : w.mem = z.mem := by
    funext x
    by_cases hx : x ∈ targets s ph.pVaddr 0 ph.pMemsz
    · obtain ⟨k, -, hk, hxk⟩ := hx
      rw [hbytes k x (by omega) hxk, hfill k x (by omega) hxk]
    · rw [hoffw x hx, hoff x hx]
  rw [hcopy, hz, hmem, fillSegment_mem hz, hsame]

end Bytes

/-! ## The image with writable segments -/

def writable (ph : Phdr) : Phdr := { ph with pFlags := pfW }

section Writables

variable {s t : VmState} {d : Mem} {size : ℕ} {ph : Phdr} {phs : List Phdr}

theorem writable_flags (ph : Phdr) : segmentFlags (writable ph) = 7 := by
  have hw : pfW &&& pfW ≠ 0 := by decide
  exact if_pos hw

theorem writable_regular (h : Regular ph size) : Regular (writable ph) size := ⟨h.file, h.start, h.fits⟩

theorem writables_regular (hreg : ∀ ph ∈ phs, ph.pType = ptLoad → Regular ph size) :
    ∀ ph ∈ phs.map writable, ph.pType = ptLoad → Regular ph size := by
  intro q hq hl
  obtain ⟨ph, hph, rfl⟩ := List.mem_map.mp hq
  exact writable_regular (hreg ph hph hl)

theorem writables_run (phs : List Phdr) : imageRun (phs.map writable) = imageRun phs := by
  induction phs with
  | nil => rfl
  | cons ph rest ih =>
    unfold imageRun at *
    rw [List.map_cons, List.flatMap_cons, List.flatMap_cons, ih]
    rfl

/-- A segment whose pages are counted right is placed as the other loader places it when it is writable. -/
theorem segment_placed (hs : Sound s) (hl : ph.pType = ptLoad) (hreg : Regular ph size)
    (hsize : size < 4294967296) (hcount : pageCount ph = segmentPages ph)
    (hfree : framesFor s (segmentRun ph) ≤ (freeSet s.pmm).ncard)
    (ht : loadSegment s d size (writable ph) = some (true, t)) : placeSegment s d ph = some t := by
  have hfits := hreg.fits
  obtain ⟨g, hpages, hspace, hw, happart⟩ := @segment_pages s size (writable ph) hs hl (writable_regular hreg) hfree
  have hsame : mapPages s ph.pVaddr 0 (pageCount ph) = g := by
    rw [hcount]
    have hseven : loadPages s (pageStart ph) 7 0 (segmentPages ph) = (true, g) := by
      rw [← writable_flags ph]
      exact hpages
    have hstart := pageAt_start (lt_of_le_of_lt (Nat.le_add_right _ _) (lt_of_le_of_lt (Nat.le_add_right _ _) hfits))
    rw [mapPages_loaded hstart (congrArg Prod.fst hseven), hseven]
  have hcopy := copy_fill (d := d) hspace hw (writable_regular hreg) hsize happart
  rw [@loadSegment_filled s g d size (writable ph) hl hpages] at ht
  obtain ⟨z, hfill, hz⟩ := Option.map_eq_some_iff.mp ht
  obtain rfl : z = t := congrArg Prod.snd hz
  unfold placeSegment
  rw [if_pos hl, hsame]
  exact hcopy.trans hfill

theorem segments_placed (hs : Sound s) (hplain : Plain s) (hsize : size < 4294967296)
    (hreg : ∀ ph ∈ phs, ph.pType = ptLoad → Regular ph size)
    (hcount : ∀ ph ∈ phs, ph.pType = ptLoad → pageCount ph = segmentPages ph)
    (hfree : framesFor s (imageRun phs) ≤ (freeSet s.pmm).ncard) :
    ∃ t, placeSegments s d phs = some t ∧ loadSegments s d size (phs.map writable) = some (true, t) ∧
      placedPages s d phs = phs.flatMap placedRun := by
  induction phs generalizing s with
  | nil => exact ⟨s, rfl, rfl, rfl⟩
  | cons ph rest ih =>
    have hregs := fun q hq => hreg q (List.mem_cons_of_mem _ hq)
    have hcounts := fun q hq => hcount q (List.mem_cons_of_mem _ hq)
    rw [placeSegments, List.map_cons, loadSegments, placedPages, List.flatMap_cons]
    by_cases hl : ph.pType = ptLoad
    · have hfirst := hreg ph List.mem_cons_self hl
      have hroomFirst := (framesFor_append s (segmentRun ph) _).trans hfree
      obtain ⟨W, t, h, hroom⟩ :=
        @segment_delivered s d size (writable ph) hs hplain hl (regular_tame (writable_regular hfirst)) hroomFirst
      have hload : loadSegment s d size (writable ph) = some (true, t) := by
        rw [← loadSegments_one]
        exact (h.uniform ∅ (Set.empty_disjoint _)).result
      have hplace := segment_placed hs hl hfirst hsize (hcount ph List.mem_cons_self hl) hroomFirst hload
      obtain ⟨u, hu, hlast, hpages⟩ := ih h.sound h.plain hregs hcounts (hroom _ hfree)
      rw [hplace, hload]
      refine ⟨u, hu, hlast, ?_⟩
      rw [Option.elim_some, hpages]
    · have hrun : imageRun (ph::rest) = imageRun rest := by
        unfold imageRun segmentRun
        rw [List.flatMap_cons, if_neg hl, List.nil_append]
      have hskip : placeSegment s d ph = some s := if_neg hl
      have hload : loadSegment s d size (writable ph) = some (true, s) := if_pos hl
      rw [hrun] at hfree
      obtain ⟨u, hu, hlast, hpages⟩ := ih hs hplain hregs hcounts hfree
      rw [hskip, hload]
      refine ⟨u, hu, hlast, ?_⟩
      rw [Option.elim_some, hpages]

/-- Nothing but pages of the segments is mapped. -/
theorem placedPages_subset {va : ℕ} (h : va ∈ placedPages s d phs) : ∃ ph ∈ phs, va ∈ placedRun ph := by
  induction phs generalizing s with
  | nil => cases h
  | cons ph rest ih =>
    rw [placedPages] at h
    rcases List.mem_append.mp h with h | h
    · exact ⟨ph, List.mem_cons_self, h⟩
    · cases hp : placeSegment s d ph with
      | none =>
        rw [hp] at h
        cases h
      | some t =>
        rw [hp, Option.elim_some] at h
        obtain ⟨q, hq, hva⟩ := ih h
        exact ⟨q, List.mem_cons_of_mem _ hq, hva⟩

end Writables

/-! ## Both loaders -/

section Both

variable {s t : VmState} {d : Mem} {size p n : ℕ} {ph : Phdr} {phs : List Phdr}

/-- A segment that is loaded has its pages mapped, and no others. -/
theorem traceSegment_mapped (h : (traceSegment s d size p).2 = some (true, t)) :
    (traceSegment s d size p).1.filterMap Access.mapped = segmentRun (phdrAt d p) := by
  have hfill : ∀ (s : VmState) (ph : Phdr), (traceFill s d size ph).1.filterMap Access.mapped = [] := by
    intro s ph
    unfold traceFill
    split
    · rfl
    · split
      · rfl
      · rfl
  unfold traceSegment segmentRun at *
  dsimp only at *
  by_cases hl : (phdrAt d p).pType = ptLoad
  · rw [if_neg (not_not.mpr hl)] at *
    rw [if_pos hl]
    by_cases hr : (tracePages s p (pageStart (phdrAt d p)) (segmentFlags (phdrAt d p)) 0
        (segmentPages (phdrAt d p))).2.1 = false
    · rw [if_pos hr] at h
      cases h
    · have hall := tracePages_mapped (Bool.eq_true_of_not_eq_false hr)
      rw [if_neg hr, List.filterMap_append, List.filterMap_append, hall, hfill, List.append_nil]
      rfl
  · rw [if_pos hl, if_neg hl]
    rfl

/-- A load that goes through has mapped the pages of every segment. -/
theorem traceSegments_mapped (h : (traceSegments s d size p n).2 = some (true, t)) :
    (traceSegments s d size p n).1.filterMap Access.mapped = imageRun (phdrsFrom d p n) := by
  induction n generalizing s p with
  | zero => rfl
  | succ n ih =>
    have hrun : imageRun (phdrsFrom d p (n+1)) = segmentRun (phdrAt d p) ++ imageRun (phdrsFrom d (p+32) n) := rfl
    rw [traceSegments] at h ⊢
    rcases hr : (traceSegment s d size p).2 with _ | ⟨_ | _, u⟩
    · rw [hr] at h
      cases h
    · rw [hr] at h
      cases h
    · rw [hr] at h
      dsimp only at h ⊢
      rw [hrun, List.filterMap_append, ih h, ← traceSegment_mapped hr]
      rfl

theorem traceLoad_mapped (hv : ElfLoader.elfValidate (some d) size = true)
    (h : loadSegments s d size (phdrs d) = some (true, t)) :
    (traceLoad s d size).1.filterMap Access.mapped = imageRun (phdrs d) := by
  have hvalid : ¬ ElfLoader.elfValidate (some d) size = false := by rw [hv]; exact Bool.true_eq_false_eq_False
  have hchecks : (traceValidate d size).filterMap Access.mapped = [] := by
    unfold traceValidate
    split
    · rfl
    · split
      · rfl
      · split
        · rfl
        · split
          · rfl
          · rfl
  have hsegments := traceSegments_mapped ((traceSegments_result s d size (ePhoff d) (ePhnum d)).trans h)
  unfold traceLoad
  rw [if_neg hvalid]
  dsimp only
  rw [List.filterMap_append, hchecks, List.nil_append]
  exact hsegments

theorem onPages_flatMap {f : Phdr → List ℕ} {wa : ℕ} :
    OnPages (phs.flatMap f) wa ↔ ∃ ph ∈ phs, OnPages (f ph) wa := by
  constructor
  · rintro ⟨va, hva, hsame⟩
    obtain ⟨ph, hph, hin⟩ := List.mem_flatMap.mp hva
    exact ⟨ph, hph, va, hin, hsame⟩
  · rintro ⟨ph, hph, va, hin, hsame⟩
    exact ⟨va, List.mem_flatMap.mpr ⟨ph, hph, hin⟩, hsame⟩

theorem onPages_segment_any (hreg : ph.pType = ptLoad → Regular ph size) {wa : ℕ} :
    OnPages (segmentRun ph) wa ↔ MapsPage ph wa := by
  by_cases hl : ph.pType = ptLoad
  · exact onPages_segment (hreg hl) hl
  · refine iff_of_false ?_ (fun h => hl h.1)
    rintro ⟨va, hva, -⟩
    unfold segmentRun at hva
    rw [if_neg hl] at hva
    cases hva

/-- The pages counted from the size are pages of the segment. -/
theorem placed_maps (hreg : Regular ph size) (hl : ph.pType = ptLoad) {wa : ℕ} (h : OnPages (placedRun ph) wa) :
    MapsPage ph wa := by
  have hle := pageCount_le hreg
  obtain ⟨j, hj, hwa⟩ := (onPages_placed hreg hl).mp h
  have hlt : j < segmentPages ph := by omega
  unfold MapsPage
  unfold segmentPages at hlt
  rw [tame_start (regular_tame hreg), tame_end (regular_tame hreg)] at *
  unfold frameOf at *
  exact ⟨hl, by omega, by omega⟩

theorem maps_counted (hreg : Regular ph size) (hcount : pageCount ph = segmentPages ph) {wa : ℕ}
    (h : MapsPage ph wa) : OnPages (placedRun ph) wa := by
  obtain ⟨hl, hlo, hhi⟩ := h
  rw [onPages_placed hreg hl, hcount]
  unfold segmentPages
  rw [tame_start (regular_tame hreg), tame_end (regular_tame hreg)] at *
  unfold frameOf at *
  exact ⟨wa/4096 - ph.pVaddr/4096, by omega, by omega⟩

theorem onPages_image (hreg : ∀ ph ∈ phs, ph.pType = ptLoad → Regular ph size) {wa : ℕ} :
    OnPages (imageRun phs) wa ↔ ∃ ph ∈ phs, MapsPage ph wa := by
  unfold imageRun
  rw [onPages_flatMap]
  exact exists_congr (fun ph => and_congr_right (fun hph => onPages_segment_any (hreg ph hph)))

theorem placedRun_load {va : ℕ} (h : va ∈ placedRun ph) : ph.pType = ptLoad := by
  by_contra hl
  unfold placedRun at h
  rw [if_neg hl] at h
  cases h

/-- Where the same pages are mapped, no count is short: the page it leaves out is no other segment's. -/
theorem counted_of_pages (hreg : ∀ ph ∈ phs, ph.pType = ptLoad → Regular ph size) (hapart : ApartPages phs)
    (h : ∀ wa, OnPages (imageRun phs) wa → OnPages (placedPages s d phs) wa) (hph : ph ∈ phs)
    (hl : ph.pType = ptLoad) : pageCount ph = segmentPages ph := by
  have hfirst := hreg ph hph hl
  have hle := pageCount_le hfirst
  by_contra hne
  have hmaps : MapsPage ph ((ph.pVaddr/4096 + pageCount ph)*4096) := by
    have hlt : pageCount ph < segmentPages ph := by omega
    unfold MapsPage
    unfold segmentPages at hlt
    rw [tame_start (regular_tame hfirst), tame_end (regular_tame hfirst)] at *
    unfold frameOf at *
    exact ⟨hl, by omega, by omega⟩
  obtain ⟨va, hva, hsame⟩ := h _ ((onPages_image hreg).mpr ⟨ph, hph, hmaps⟩)
  obtain ⟨q, hq, hin⟩ := placedPages_subset hva
  have hlq := placedRun_load hin
  have hplaced : OnPages (placedRun q) ((ph.pVaddr/4096 + pageCount ph)*4096) := ⟨va, hin, hsame⟩
  by_cases hqp : q = ph
  · subst hqp
    obtain ⟨j, hj, hwa⟩ := (onPages_placed hfirst hl).mp hplaced
    omega
  · have hsymm : Std.Symm (fun a b : Phdr => ∀ wa, MapsPage a wa → ¬ MapsPage b wa) :=
      ⟨fun a b hab wa hb ha => hab wa ha hb⟩
    exact hapart.forall hq hph hqp _ (placed_maps (hreg q hq hlq) hlq hplaced) hmaps

theorem apart_bytes (hreg : ∀ ph ∈ phs, ph.pType = ptLoad → Regular ph size) (hapart : ApartPages phs) :
    ApartBytes phs := by
  apply hapart.imp_of_mem
  intro a b ha hb hpages hla hlb wa hca hcb
  exact hpages wa (covers_maps (hreg a ha hla) hla hca) (covers_maps (hreg b hb hlb) hlb hcb)

theorem apart_undisturbed (hreg : ∀ ph ∈ phs, ph.pType = ptLoad → Regular ph size) (hapart : ApartPages phs) :
    Undisturbed phs := by
  apply hapart.imp_of_mem
  intro a b ha _ hpages hla wa hca
  exact hpages wa (covers_maps (hreg a ha hla) hla hca)

theorem apart_writable (hapart : ApartPages phs) : ApartPages (phs.map writable) := List.pairwise_map.mpr hapart

theorem agree_counted (hs : Sound s) (hplain : Plain s) (hv : ElfLoader.elfValidate (some d) size = true)
    (hreg : ∀ ph ∈ phdrs d, ph.pType = ptLoad → Regular ph size) (hapart : ApartPages (phdrs d))
    (hfree : framesFor s (imageRun (phdrs d)) ≤ (freeSet s.pmm).ncard) (h : Agree s d size) :
    ∀ ph ∈ phdrs d, ph.pType = ptLoad → pageCount ph = segmentPages ph := by
  intro ph hph hl
  obtain ⟨W, u, hu⟩ := segments_delivered d hs hplain (fun ph hph hl => regular_tame (hreg ph hph hl)) hfree
  have hmapped := traceLoad_mapped hv (hu.uniform ∅ (Set.empty_disjoint _)).result
  refine counted_of_pages (s := s) (d := d) hreg hapart (fun wa hwa => ?_) hph hl
  rw [h.pages, hmapped]
  exact hwa

theorem counted_agree (hs : Sound s) (hplain : Plain s) (hv : ElfLoader.elfValidate (some d) size = true)
    (hvalid : elfValidate (some d) = true) (hsize : size < 4294967296)
    (hreg : ∀ ph ∈ phdrs d, ph.pType = ptLoad → Regular ph size) (hapart : ApartPages (phdrs d))
    (hfree : framesFor s (imageRun (phdrs d)) ≤ (freeSet s.pmm).ncard)
    (hcount : ∀ ph ∈ phdrs d, ph.pType = ptLoad → pageCount ph = segmentPages ph) : Agree s d size := by
  have hregw := writables_regular hreg
  have hapartw := apart_writable hapart
  have hfreew : framesFor s (imageRun ((phdrs d).map writable)) ≤ (freeSet s.pmm).ncard := by
    rw [writables_run]
    exact hfree
  obtain ⟨u, hu, hholds⟩ := segments_holds (d := d) hs hplain hsize hreg (apart_bytes hreg hapart) hfree
    (apart_undisturbed hreg hapart)
  obtain ⟨w, hw, hholdsw⟩ := segments_holds (d := d) hs hplain hsize hregw (apart_bytes hregw hapartw) hfreew
    (apart_undisturbed hregw hapartw)
  obtain ⟨t, ht, hload, hpages⟩ := segments_placed hs hplain hsize hreg hcount hfree
  obtain rfl : w = t := congrArg Prod.snd (Option.some.inj (hw.symm.trans hload))
  refine ⟨fun wa => ?_, w, u, ?_, ?_, fun ph hph hl wa hc => ⟨imageByte d ph wa, ?_, hholds ph hph hl wa hc⟩⟩
  · rw [traceLoad_mapped hv hu, hpages, onPages_flatMap, onPages_image hreg]
    constructor
    · rintro ⟨ph, hph, va, hin, hsame⟩
      have hl := placedRun_load hin
      exact ⟨ph, hph, placed_maps (hreg ph hph hl) hl ⟨va, hin, hsame⟩⟩
    · rintro ⟨ph, hph, hm⟩
      exact ⟨ph, hph, maps_counted (hreg ph hph hm.1) (hcount ph hph hm.1) hm⟩
  · unfold elfLoad
    dsimp only
    rw [if_neg (by rw [hvalid]; exact Bool.true_eq_false_eq_False), ht, Option.map_some]
  · rw [load_valid hv, hu]
    rfl
  · exact hholdsw (writable ph) (List.mem_map_of_mem hph) hl wa hc

end Both

/-! ## A whole page, and a page's worth in the middle of one -/

/-- 4096 bytes that lie in two pages. -/
def crossingPhdr : Phdr := ⟨1, 0, 0x08048800, 0, 4096, 6⟩

def crossingImage : Mem := imageWith crossingPhdr []

theorem crossingImage_phdrs : phdrs crossingImage = [crossingPhdr] := by decide

theorem crossingImage_regular : ∀ ph ∈ phdrs crossingImage, ph.pType = ptLoad → Regular ph 84 := by
  rw [crossingImage_phdrs]
  intro ph hph _
  rw [List.mem_singleton.mp hph]
  exact ⟨by decide, by decide, by decide⟩

end Dionnex.Elf
