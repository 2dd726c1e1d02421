import Dionnex.TwinRuns

/-!
# What the loader reads and writes

The loader is run once more with a record of what it reads of the image, which
pages it maps and where it writes. It looks at neither the bounds of the
headers nor those of a segment, so it keeps to the image and to the pages it
has mapped, and refuses the images for which it cannot, under conditions on
the image and on the number of free frames alone.
-/

set_option autoImplicit false

namespace Dionnex.ElfAccesses
open ByteMemory PageTables Dionnex.PmmBitmap Dionnex.Vmm Dionnex.UserPages Dionnex.UserMemory
open Dionnex.PagedAccess Dionnex.ElfLoader Dionnex.TwinRuns

/-- A write comes with the pages mapped for its segment. -/
inductive Access where
  | read (offset len : ℕ)
  | map (page : ℕ)
  | write (pages : List ℕ) (va len : ℕ)

/-- The checks stop at the first that fails. -/
def traceValidate (d : Mem) (size : ℕ) : List Access :=
  if size < elfHeaderSize then []
  else if load32 d 0 ≠ elfMagic then [.read 0 4]
  else if load8 d 4 ≠ 1 then [.read 0 4, .read 4 1]
  else if load8 d 5 ≠ 1 then [.read 0 4, .read 4 1, .read 5 1]
  else [.read 0 4, .read 4 1, .read 5 1, .read 16 2]

/-- `p_flags` of the header at `p` is read for each page. -/
def tracePages (s : VmState) (p base flags i : ℕ) : ℕ → List Access × Bool × VmState
  | 0 => ([], true, s)
  | n+1 =>
    if (pmmAllocPage s.pmm).1 = 0 then ([], false, takePmmPage s)
    else
      let r := tracePages (vmmMapPage (takePmmPage s) (wrap (base + i*4096)) (pmmAllocPage s.pmm).1 flags)
        p base flags (i+1) n
      (.read (p+24) 4 :: .map (wrap (base + i*4096)) :: r.1, r.2)

def traceFill (s : VmState) (d : Mem) (size : ℕ) (ph : Phdr) : List Access × Option VmState :=
  match memsetAt s ph.pVaddr 0 ph.pMemsz with
  | none => ([.write (segmentRun ph) ph.pVaddr ph.pMemsz], none)
  | some s =>
    if Copied ph size then
      ([.write (segmentRun ph) ph.pVaddr ph.pMemsz, .read ph.pOffset ph.pFilesz,
        .write (segmentRun ph) ph.pVaddr ph.pFilesz], memcpyAt s ph.pVaddr d ph.pOffset ph.pFilesz)
    else ([.write (segmentRun ph) ph.pVaddr ph.pMemsz], some s)

/-- The segment of the header at `p`; its type is read first, then `p_offset`, `p_vaddr`, `p_filesz`, `p_memsz`. -/
def traceSegment (s : VmState) (d : Mem) (size p : ℕ) : List Access × Option (Bool × VmState) :=
  let ph := phdrAt d p
  if ph.pType ≠ ptLoad then ([.read p 4], some (true, s))
  else
    let r := tracePages s p (pageStart ph) (segmentFlags ph) 0 (segmentPages ph)
    let fields := [.read p 4, .read (p+4) 8, .read (p+16) 8]
    if r.2.1 = false then (fields ++ r.1, some (false, r.2.2))
    else
      let f := traceFill r.2.2 d size ph
      (fields ++ r.1 ++ f.1, f.2.map (fun s => (true, s)))

/-- `e_phnum` is read before each header, `e_entry` after the last. -/
def traceSegments (s : VmState) (d : Mem) (size p : ℕ) : ℕ → List Access × Option (Bool × VmState)
  | 0 => ([.read 44 2, .read 24 4], some (true, s))
  | n+1 =>
    let r := traceSegment s d size p
    match r.2 with
    | none => (.read 44 2 :: r.1, none)
    | some (false, s) => (.read 44 2 :: r.1, some (false, s))
    | some (true, s) =>
      let rest := traceSegments s d size (p+32) n
      (.read 44 2 :: r.1 ++ rest.1, rest.2)

/-- `elf_load_segments` with the record of its accesses. -/
def traceLoad (s : VmState) (d : Mem) (size : ℕ) : List Access × Option (ℕ × VmState) :=
  if elfValidate (some d) size = false then (traceValidate d size, some (minusOne, s))
  else
    let r := traceSegments s d size (ePhoff d) (ePhnum d)
    (traceValidate d size ++ .read 28 4 :: r.1, r.2.map (fun r => (if r.1 = true then 0 else minusOne, r.2)))

/-! ## The record changes nothing -/

section Results

variable {s : VmState} {d : Mem} {size : ℕ}

theorem tracePages_result (s : VmState) (p base flags i n : ℕ) :
    (tracePages s p base flags i n).2 = loadPages s base flags i n := by
  induction n generalizing s i with
  | zero => rfl
  | succ n ih =>
    rw [tracePages, loadPages]
    by_cases ha : (pmmAllocPage s.pmm).1 = 0
    · rw [if_pos ha, if_pos ha]
    · rw [if_neg ha, if_neg ha]
      exact ih _ _

def Access.mapped : Access → Option ℕ
  | .map page => some page
  | _ => none

/-- The pages that a write comes with are those of the record in front of it. -/
theorem tracePages_mapped {s : VmState} {p base flags i n : ℕ} (h : (tracePages s p base flags i n).2.1 = true) :
    (tracePages s p base flags i n).1.filterMap Access.mapped = pageRun base i n := by
  induction n generalizing s i with
  | zero => rfl
  | succ n ih =>
    rw [tracePages] at h ⊢
    by_cases ha : (pmmAllocPage s.pmm).1 = 0
    · rw [if_pos ha] at h
      cases h
    · rw [if_neg ha] at h ⊢
      exact congrArg (List.cons (pageAt base i)) (ih h)

theorem traceFill_result (s : VmState) (d : Mem) (size : ℕ) (ph : Phdr) :
    (traceFill s d size ph).2 = fillSegment s d size ph := by
  unfold traceFill fillSegment
  cases memsetAt s ph.pVaddr 0 ph.pMemsz with
  | none => rfl
  | some t =>
    rw [Option.bind_some]
    by_cases hc : Copied ph size
    · simp only [if_pos hc]
    · simp only [if_neg hc]

theorem traceSegment_result (s : VmState) (d : Mem) (size p : ℕ) :
    (traceSegment s d size p).2 = loadSegment s d size (phdrAt d p) := by
  unfold traceSegment loadSegment
  by_cases hl : (phdrAt d p).pType = ptLoad
  · simp only [hl, ne_eq, not_true_eq_false, if_false, tracePages_result]
    by_cases hr : (loadPages s (pageStart (phdrAt d p)) (segmentFlags (phdrAt d p)) 0
        (segmentPages (phdrAt d p))).1 = false
    · rw [if_pos hr, if_pos hr]
    · rw [if_neg hr, if_neg hr]
      dsimp only
      rw [traceFill_result]
  · simp only [ne_eq, hl, not_false_eq_true, if_true]

theorem traceSegments_result (s : VmState) (d : Mem) (size p n : ℕ) :
    (traceSegments s d size p n).2 = loadSegments s d size (phdrsFrom d p n) := by
  induction n generalizing s p with
  | zero => rfl
  | succ n ih =>
    have hfirst := traceSegment_result s d size p
    rw [traceSegments, phdrsFrom, loadSegments, ← hfirst]
    rcases (traceSegment s d size p).2 with _ | ⟨_ | _, t⟩
    · rfl
    · rfl
    · exact ih t (p+32)

theorem traceLoad_result (s : VmState) (d : Mem) (size : ℕ) :
    (traceLoad s d size).2 = elfLoadSegments s (some d) size := by
  unfold traceLoad elfLoadSegments
  dsimp only
  by_cases hv : elfValidate (some d) size = false
  · rw [if_pos hv, if_pos hv]
  · rw [if_neg hv, if_neg hv]
    dsimp only
    rw [traceSegments_result]
    rfl

end Results

/-! ## What the accesses must keep to -/

/-- The `n` bytes from `offset` on lie in the image. -/
def Readable (size offset n : ℕ) : Prop := ∀ k < n, wrap (offset+k) < size

def SafeAccess (size : ℕ) : Access → Prop
  | .read offset n => Readable size offset n
  | .map _ => True
  | .write pages va n => ∀ k < n, ∃ page ∈ pages, SamePage page (wrap (va+k))

/-- The pool has a frame for each of the pages, when they are taken one after the other. -/
def Lasts (s : VmState) (vas : List ℕ) : Prop := vas = [] ∨ framesFor s vas.dropLast < (freeSet s.pmm).ncard

/-- The pages of the segment reach as far as its memory and the bytes copied to it, and those bytes
do not run past the end of the address space. -/
structure Confinable (ph : Phdr) (size : ℕ) : Prop where
  memory : ph.pMemsz = 0 ∨ ph.pVaddr + ph.pMemsz + 0xFFF < 4294967296
  source : Copied ph size → ph.pOffset + ph.pFilesz < 4294967296
  target : Copied ph size → ph.pVaddr + ph.pFilesz ≤ pageEnd ph

/-- The `n` headers from `p` on are safe to follow, as far as the pool lasts; `before` are the pages
of the segments in front of them. -/
def Careful (s : VmState) (d : Mem) (size : ℕ) : List ℕ → ℕ → ℕ → Prop
  | _, _, 0 => True
  | before, p, n+1 => Readable size p 4 ∧
    ((phdrAt d p).pType ≠ ptLoad → Careful s d size before (p+32) n) ∧
    ((phdrAt d p).pType = ptLoad → Readable size (p+4) 8 ∧ Readable size (p+16) 8 ∧
      (0 < segmentPages (phdrAt d p) → Lasts s (before ++ [pageAt (pageStart (phdrAt d p)) 0]) →
        Readable size (p+24) 4) ∧
      (Lasts s (before ++ segmentRun (phdrAt d p)) → Confinable (phdrAt d p) size ∧
        Careful s d size (before ++ segmentRun (phdrAt d p)) (p+32) n))

/-- The file bytes and the address range of a segment are in bounds. -/
structure Within (ph : Phdr) (size : ℕ) : Prop where
  file : 0 < ph.pFilesz → ph.pOffset + ph.pFilesz ≤ size
  start : ph.pFilesz ≤ ph.pMemsz
  range : ph.pVaddr + ph.pMemsz ≤ 4294967296

/-- The image can be loaded without a look outside it. -/
structure WellFormed (d : Mem) (size : ℕ) : Prop where
  valid : elfValidate (some d) size = true
  headers : 0 < ePhnum d → ePhoff d + 32*ePhnum d ≤ size
  segments : ∀ ph ∈ phdrs d, ph.pType = ptLoad → Within ph size

/-- The loader keeps to the image and to the pages it maps, and refuses images for which it cannot. -/
structure Confined (s : VmState) (d : Mem) (size : ℕ) : Prop where
  safe : ∀ a ∈ (traceLoad s d size).1, SafeAccess size a
  refused : ¬ WellFormed d size → ∃ t, elfLoadSegments s (some d) size = some (minusOne, t)

/-! ## Pages of a segment -/

section Ranges

variable {ph : Phdr} {d : Mem} {size p n : ℕ}

theorem mem_pageRun {base i n x : ℕ} : x ∈ pageRun base i n ↔ ∃ j < n, x = pageAt base (i+j) := by
  induction n generalizing i with
  | zero => simp [pageRun]
  | succ n ih =>
    rw [pageRun, List.mem_cons, ih]
    constructor
    · rintro (rfl | ⟨j, hj, rfl⟩)
      · exact ⟨0, by omega, rfl⟩
      · exact ⟨j+1, by omega, by rw [Nat.add_assoc, Nat.add_comm 1 j]⟩
    · rintro ⟨j, hj, rfl⟩
      cases j with
      | zero => exact Or.inl rfl
      | succ j => exact Or.inr ⟨j, by omega, by rw [Nat.add_assoc, Nat.add_comm 1 j]⟩

theorem pageEnd_frame (ph : Phdr) : pageEnd ph = frameOf (wrap (ph.pVaddr + ph.pMemsz + 0xFFF)) :=
  land_frame (wrap_lt _)

theorem run_page (hl : ph.pType = ptLoad) (hv : ph.pVaddr < 4294967296) {wa : ℕ} :
    (∃ page ∈ segmentRun ph, SamePage page wa) ↔ pageStart ph ≤ wa ∧ wa < pageEnd ph := by
  have hstart : pageStart ph = frameOf ph.pVaddr := land_frame hv
  have hlt := wrap_lt (ph.pVaddr + ph.pMemsz + 0xFFF)
  unfold segmentRun
  rw [if_pos hl]
  unfold segmentPages
  rw [hstart, pageEnd_frame]
  unfold SamePage frameOf
  constructor
  · rintro ⟨page, hpage, hsame⟩
    obtain ⟨j, hj, rfl⟩ := mem_pageRun.mp hpage
    unfold pageAt at hsame
    rw [wrap_of_lt (by omega)] at hsame
    omega
  · rintro ⟨hlo, hhi⟩
    refine ⟨_, mem_pageRun.mpr ⟨wa/4096 - ph.pVaddr/4096, by omega, rfl⟩, ?_⟩
    unfold pageAt
    rw [wrap_of_lt (by omega)]
    omega

theorem write_safe (hl : ph.pType = ptLoad) (hv : ph.pVaddr < 4294967296) :
    SafeAccess size (.write (segmentRun ph) ph.pVaddr n) ↔ n = 0 ∨ ph.pVaddr + n ≤ pageEnd ph := by
  have hstart : pageStart ph = frameOf ph.pVaddr := land_frame hv
  have hend : pageEnd ph < 4294967296 := by
    have hlt := wrap_lt (ph.pVaddr + ph.pMemsz + 0xFFF)
    rw [pageEnd_frame]
    unfold frameOf
    omega
  have hiff : SafeAccess size (.write (segmentRun ph) ph.pVaddr n) ↔
      ∀ k < n, pageStart ph ≤ wrap (ph.pVaddr+k) ∧ wrap (ph.pVaddr+k) < pageEnd ph := by
    constructor
    · intro h k hk
      exact (run_page hl hv).mp (h k hk)
    · intro h k hk
      exact (run_page hl hv).mpr (h k hk)
  rw [hiff, hstart]
  constructor
  · intro h
    by_contra hout
    by_cases hle : ph.pVaddr ≤ pageEnd ph
    · have hlast := (h (pageEnd ph - ph.pVaddr) (by omega)).2
      rw [Nat.add_sub_cancel' hle, wrap_of_lt hend] at hlast
      omega
    · have hfirst := (h 0 (by omega)).2
      rw [Nat.add_zero, wrap_of_lt hv] at hfirst
      omega
  · intro h k hk
    rw [wrap_of_lt (by omega)]
    unfold frameOf
    omega

theorem memory_reach : ph.pMemsz = 0 ∨ ph.pVaddr + ph.pMemsz ≤ pageEnd ph ↔
    ph.pMemsz = 0 ∨ ph.pVaddr + ph.pMemsz + 0xFFF < 4294967296 := by
  rw [pageEnd_frame]
  unfold frameOf wrap
  omega

theorem source_safe (hsize : size < 4294967296) (hoff : ph.pOffset < 4294967296) (hc : Copied ph size) :
    Readable size ph.pOffset ph.pFilesz ↔ ph.pOffset + ph.pFilesz < 4294967296 := by
  obtain ⟨hpos, hle⟩ := hc
  constructor
  · intro h
    by_contra hwrap
    have hlast := h (4294967295 - ph.pOffset) (by omega)
    rw [Nat.add_sub_cancel' (by omega), wrap_of_lt (by omega)] at hlast
    omega
  · intro hlt k hk
    rw [wrap_of_lt hlt] at hle
    rw [wrap_of_lt (by omega)]
    omega

/-- The pages cover the first `m` bytes of the segment. -/
theorem reach_pages (hl : ph.pType = ptLoad) (hv : ph.pVaddr < 4294967296) {m : ℕ}
    (hm : m = 0 ∨ ph.pVaddr + m ≤ pageEnd ph) :
    ∀ l < m, ∃ j < segmentPages ph, SamePage (pageAt (pageStart ph) (0+j)) (ph.pVaddr+l) := by
  intro l hlm
  have hstart : pageStart ph = frameOf ph.pVaddr := land_frame hv
  have hin : ∃ page ∈ segmentRun ph, SamePage page (ph.pVaddr+l) := by
    apply (run_page hl hv).mpr
    rw [hstart]
    unfold frameOf
    omega
  obtain ⟨page, hpage, hsame⟩ := hin
  unfold segmentRun at hpage
  rw [if_pos hl] at hpage
  obtain ⟨j, hj, rfl⟩ := mem_pageRun.mp hpage
  exact ⟨j, hj, hsame⟩

theorem pageEnd_lt (ph : Phdr) : pageEnd ph < 4294967296 := by
  have hlt := wrap_lt (ph.pVaddr + ph.pMemsz + 0xFFF)
  rw [pageEnd_frame]
  unfold frameOf
  omega

theorem phdrAt_lt (d : Mem) (p : ℕ) : (phdrAt d p).pOffset < 4294967296 ∧ (phdrAt d p).pVaddr < 4294967296 :=
  ⟨load32_lt d (p+4), load32_lt d (p+8)⟩

end Ranges

/-! ## How far the pool lasts -/

section Pool

variable {s t u : VmState} {base flags i n : ℕ} {vas was : List ℕ}

theorem pageRun_dropLast (base i n : ℕ) : (pageRun base i (n+1)).dropLast = pageRun base i n := by
  induction n generalizing i with
  | zero => rfl
  | succ n ih =>
    have hne : pageRun base (i+1) (n+1) ≠ [] := List.cons_ne_nil _ _
    rw [pageRun, List.dropLast_cons_of_ne_nil hne, ih]
    rfl

theorem lasts_append (h : Lasts s (vas ++ was)) : Lasts s vas := by
  by_cases hvas : vas = []
  · exact Or.inl hvas
  · by_cases hwas : was = []
    · rwa [hwas, List.append_nil] at h
    · have hlt := h.resolve_left (List.append_ne_nil_of_left_ne_nil hvas was)
      rw [List.dropLast_append_of_ne_nil hwas] at hlt
      have hmore := framesFor_append s vas was.dropLast
      have hlast := framesFor_append s vas.dropLast [vas.getLast hvas]
      rw [List.dropLast_append_getLast] at hlast
      exact Or.inr (by omega)

theorem lasts_loaded (hs : Ready s) (hf : flags < 4096) (hn : n ≤ 1048576) :
    (loadPages s base flags i n).1 = true ↔ Lasts s (pageRun base i n) := by
  obtain ⟨k, f, h, hall, hcount⟩ := @loadPages_counted s base flags i n hs hf hn
  have hlen := h.length
  cases n with
  | zero => exact iff_of_true rfl (Or.inl rfl)
  | succ n =>
    have hlast := hcount n (Nat.lt_succ_self n)
    have hne : pageRun base i (n+1) ≠ [] := List.cons_ne_nil _ _
    unfold Lasts
    rw [pageRun_dropLast, or_iff_right hne, hall]
    unfold framesNeeded at hlast
    rw [← hlast]
    omega

theorem lasts_first (hs : Ready s) : (pmmAllocPage s.pmm).1 ≠ 0 ↔ Lasts s [pageAt base i] := by
  have hone := @lasts_loaded s base 0 i 1 hs (by decide) (by decide)
  rw [show pageRun base i 1 = [pageAt base i] from rfl] at hone
  rw [← hone, loadPages]
  by_cases ha : (pmmAllocPage s.pmm).1 = 0
  · rw [if_pos ha]
    exact iff_of_false (not_not.mpr ha) Bool.false_ne_true
  · rw [if_neg ha]
    exact iff_of_true ha rfl

/-- What a pool that has served a run of pages still lasts for. -/
theorem lasts_after (hs : Ready s) (hf : flags < 4096) (hn : n ≤ 1048576)
    (hall : (loadPages s base flags i n).1 = true) :
    Lasts s (pageRun base i n ++ vas) ↔ Lasts (loadPages s base flags i n).2 vas := by
  by_cases hvas : vas = []
  · rw [hvas, List.append_nil]
    exact iff_of_true ((lasts_loaded hs hf hn).mp hall) (Or.inl rfl)
  · unfold Lasts
    rw [or_iff_right hvas, or_iff_right (List.append_ne_nil_of_right_ne_nil _ hvas),
      List.dropLast_append_of_ne_nil hvas]
    rcases hs.next with he | ⟨hsound, hplain⟩
    · have hn0 := (loadPages_empty he).mp hall
      subst hn0
      exact Iff.rfl
    · rw [loadPages_grant hs.padded hsound.zeroTaken]
      by_cases hfree : framesNeeded s base i n ≤ (freeSet s.pmm).ncard
      · obtain ⟨f, -, -, -, hcount⟩ := @grantPages_full s base flags i n hsound hf hn hfree
        have hsum := hcount vas.dropLast
        omega
      · have hempty := @grantPages_short s base flags i n hsound hplain hf hn (by omega)
        have hmore := framesFor_append s (pageRun base i n) vas.dropLast
        unfold framesNeeded at hfree
        rw [hempty, Set.ncard_empty]
        omega

theorem lasts_same (h : SameTables s t) : Lasts t vas ↔ Lasts s vas := by
  unfold Lasts
  rw [framesFor_same h.dirs, h.pmm]

/-- The state reached from `s` when the pages of `before` have been mapped. -/
structure Reach (s : VmState) (before : List ℕ) (t : VmState) : Prop where
  ready : Ready t
  lasts : ∀ vas, Lasts s (before ++ vas) ↔ Lasts t vas

end Pool

/-! ## One segment -/

section Segment

variable {s t : VmState} {d : Mem} {size p : ℕ} {ph : Phdr} {before : List ℕ}

theorem fill_confined (hl : ph.pType = ptLoad) (hv : ph.pVaddr < 4294967296) {f : ℕ → ℕ} (hs : Ready s)
    (h : Served s (pageStart ph) (segmentFlags ph) 0 (segmentPages ph) (segmentPages ph) f t)
    (hconf : Confinable ph size) :
    ∃ u A, fillSegment t d size ph = some u ∧ SameTables t u ∧ SameOff A t.mem u.mem ∧
      ∀ x ∈ A, frameOf x ∈ taken s t := by
  have hflags := segmentFlags_lt ph
  have hend := pageEnd_lt ph
  have hstores : ∀ m, (m = 0 ∨ ph.pVaddr + m ≤ pageEnd ph) →
      Writable t ph.pVaddr 0 m ∧ ∀ x ∈ targets t ph.pVaddr 0 m, frameOf x ∈ taken s t := by
    intro m hm
    obtain ⟨hw, hframes⟩ := served_stores hflags hs.padded h (by omega) (reach_pages hl hv hm)
    refine ⟨hw, fun x hx => ?_⟩
    obtain ⟨j, hj, hframe⟩ := hframes x hx
    exact ⟨f j, h.free j hj, h.taken j hj, hframe⟩
  obtain ⟨hw, htaken⟩ := hstores ph.pMemsz (memory_reach.mpr hconf.memory)
  obtain ⟨z, hz, hsame, hoff⟩ := storeBytes_spec (fun _ => 0) h.space hw
  unfold fillSegment memsetAt
  rw [hz, Option.bind_some]
  by_cases hc : Copied ph size
  · obtain ⟨hw', htaken'⟩ := hstores ph.pFilesz (Or.inr (hconf.target hc))
    obtain ⟨u, hu, hsame', hoff'⟩ :=
      storeBytes_spec (fun i => load8 d (ph.pOffset+i)) hsame.space (writable_mono hsame hw' le_rfl)
    rw [targets_same hsame] at hoff'
    rw [if_pos hc]
    refine ⟨u, _, hu, hsame.trans hsame', (hoff.mono Set.subset_union_left).trans
      (hoff'.mono Set.subset_union_right), ?_⟩
    rintro x (hx | hx)
    · exact htaken x hx
    · exact htaken' x hx
  · rw [if_neg hc]
    exact ⟨z, _, rfl, hsame, hoff, htaken⟩

theorem segment_refused (hs : Ready t) (hl : ph.pType = ptLoad) (hlasts : ¬ Lasts t (segmentRun ph)) :
    ∃ u, loadSegment t d size ph = some (false, u) := by
  unfold segmentRun at hlasts
  rw [if_pos hl, ← lasts_loaded hs (segmentFlags_lt ph) (segmentPages_le ph), Bool.not_eq_true] at hlasts
  unfold loadSegment
  rw [if_neg (not_not.mpr hl), if_pos hlasts]
  exact ⟨_, rfl⟩

theorem segment_confined (hr : Reach s before t) (hl : ph.pType = ptLoad) (hv : ph.pVaddr < 4294967296)
    (hlasts : Lasts t (segmentRun ph)) (hconf : Confinable ph size) :
    ∃ u, loadSegment t d size ph = some (true, u) ∧ Reach s (before ++ segmentRun ph) u := by
  have hs := hr.ready
  have hflags := segmentFlags_lt ph
  have hrun : segmentRun ph = pageRun (pageStart ph) 0 (segmentPages ph) := if_pos hl
  rw [hrun] at hlasts ⊢
  have hall := (lasts_loaded hs hflags (segmentPages_le ph)).mpr hlasts
  have hafter : ∀ vas, Lasts t (pageRun (pageStart ph) 0 (segmentPages ph) ++ vas) ↔
      Lasts (loadPages t (pageStart ph) (segmentFlags ph) 0 (segmentPages ph)).2 vas :=
    fun vas => lasts_after hs hflags (segmentPages_le ph) hall
  obtain ⟨k, f, h, hk⟩ := @loadPages_served t (pageStart ph) _ 0 _ hs hflags (segmentPages_le ph)
  obtain rfl := hk.mp hall
  have hlent := served_lent hs (segmentFlags_user ph) h
  obtain ⟨u, A, hfill, hsame, hoff, htaken⟩ := fill_confined (d := d) hl hv hs h hconf
  refine ⟨u, ?_, (hlent.stores hsame hoff htaken).ready, fun vas => ?_⟩
  · rw [loadSegment_filled d size hl (Prod.ext hall rfl), hfill, Option.map_some]
  · rw [List.append_assoc, hr.lasts, hafter, lasts_same hsame]

/-! ## The accesses of one segment -/

theorem pages_safe {base flags i n : ℕ} (hs : Ready s) :
    (∀ a ∈ (tracePages s p base flags i n).1, SafeAccess size a) ↔
      (0 < n → Lasts s [pageAt base i] → Readable size (p+24) 4) := by
  have hone : Readable size (p+24) 4 → ∀ (n i : ℕ) (s : VmState),
      ∀ a ∈ (tracePages s p base flags i n).1, SafeAccess size a := by
    intro hread n
    induction n with
    | zero =>
      intro i s a ha
      cases ha
    | succ n ih =>
      intro i s a ha
      rw [tracePages] at ha
      by_cases hfirst : (pmmAllocPage s.pmm).1 = 0
      · rw [if_pos hfirst] at ha
        cases ha
      · rw [if_neg hfirst] at ha
        rcases List.mem_cons.mp ha with rfl | ha
        · exact hread
        · rcases List.mem_cons.mp ha with rfl | ha
          · trivial
          · exact ih _ _ a ha
  cases n with
  | zero => exact iff_of_true (fun a ha => by cases ha) (fun h => absurd h (Nat.lt_irrefl 0))
  | succ n =>
    constructor
    · intro h _ hlasts
      apply h (.read (p+24) 4)
      rw [tracePages, if_neg ((lasts_first hs).mpr hlasts)]
      exact List.mem_cons_self
    · intro h
      by_cases hfirst : (pmmAllocPage s.pmm).1 = 0
      · rw [tracePages, if_pos hfirst]
        intro a ha
        cases ha
      · exact hone (h (Nat.succ_pos n) ((lasts_first hs).mp hfirst)) (n+1) i s

theorem fill_safe (hl : ph.pType = ptLoad) (hv : ph.pVaddr < 4294967296) (hoff : ph.pOffset < 4294967296)
    (hsize : size < 4294967296) {f : ℕ → ℕ} (hs : Ready s)
    (h : Served s (pageStart ph) (segmentFlags ph) 0 (segmentPages ph) (segmentPages ph) f t) :
    (∀ a ∈ (traceFill t d size ph).1, SafeAccess size a) ↔ Confinable ph size := by
  have hmemory : SafeAccess size (.write (segmentRun ph) ph.pVaddr ph.pMemsz) ↔
      ph.pMemsz = 0 ∨ ph.pVaddr + ph.pMemsz + 0xFFF < 4294967296 :=
    (write_safe hl hv).trans memory_reach
  by_cases hm : ph.pMemsz = 0 ∨ ph.pVaddr + ph.pMemsz + 0xFFF < 4294967296
  · have hend := pageEnd_lt ph
    have hreach := memory_reach.mpr hm
    obtain ⟨hw, -⟩ := served_stores (segmentFlags_lt ph) hs.padded h (by omega) (reach_pages hl hv hreach)
    obtain ⟨z, hz, -, -⟩ := storeBytes_spec (fun _ => 0) h.space hw
    unfold traceFill memsetAt
    rw [hz]
    dsimp only
    by_cases hc : Copied ph size
    · have htarget : SafeAccess size (.write (segmentRun ph) ph.pVaddr ph.pFilesz) ↔
          ph.pVaddr + ph.pFilesz ≤ pageEnd ph :=
        (write_safe hl hv).trans (or_iff_right (Nat.pos_iff_ne_zero.mp hc.1))
      have hsource : SafeAccess size (.read ph.pOffset ph.pFilesz) ↔ ph.pOffset + ph.pFilesz < 4294967296 :=
        source_safe hsize hoff hc
      rw [if_pos hc, List.forall_mem_cons, List.forall_mem_cons, List.forall_mem_singleton, hmemory, htarget,
        hsource]
      constructor
      · rintro ⟨-, hs, ht⟩
        exact ⟨hm, fun _ => hs, fun _ => ht⟩
      · intro hconf
        exact ⟨hm, hconf.source hc, hconf.target hc⟩
    · rw [if_neg hc, List.forall_mem_singleton, hmemory]
      exact iff_of_true hm ⟨hm, fun h => absurd h hc, fun h => absurd h hc⟩
  · refine iff_of_false (fun h => hm (hmemory.mp (h _ ?_))) (fun h => hm h.memory)
    unfold traceFill
    cases memsetAt t ph.pVaddr 0 ph.pMemsz with
    | none => exact List.mem_cons_self
    | some z =>
      dsimp only
      split
      · exact List.mem_cons_self
      · exact List.mem_cons_self

theorem skipped_safe (hl : (phdrAt d p).pType ≠ ptLoad) :
    (∀ a ∈ (traceSegment t d size p).1, SafeAccess size a) ↔ Readable size p 4 := by
  unfold traceSegment
  dsimp only
  rw [if_pos hl, List.forall_mem_singleton]
  rfl

theorem segment_safe (hr : Reach s before t) (hl : (phdrAt d p).pType = ptLoad) (hsize : size < 4294967296) :
    (∀ a ∈ (traceSegment t d size p).1, SafeAccess size a) ↔
      Readable size p 4 ∧ Readable size (p+4) 8 ∧ Readable size (p+16) 8 ∧
        (0 < segmentPages (phdrAt d p) → Lasts s (before ++ [pageAt (pageStart (phdrAt d p)) 0]) →
          Readable size (p+24) 4) ∧
        (Lasts s (before ++ segmentRun (phdrAt d p)) → Confinable (phdrAt d p) size) := by
  obtain ⟨hoff, hv⟩ := phdrAt_lt d p
  have hs := hr.ready
  have hpages := @pages_safe t size p (pageStart (phdrAt d p)) (segmentFlags (phdrAt d p)) 0
    (segmentPages (phdrAt d p)) hs
  have hflags := segmentFlags_lt (phdrAt d p)
  have hloaded := @lasts_loaded t (pageStart (phdrAt d p)) _ 0 _ hs hflags (segmentPages_le (phdrAt d p))
  have hrun : segmentRun (phdrAt d p) = pageRun (pageStart (phdrAt d p)) 0 (segmentPages (phdrAt d p)) := if_pos hl
  rw [← hrun] at hloaded
  have hfields : ∀ rest : List Access, (∀ a ∈ [.read p 4, .read (p+4) 8, .read (p+16) 8] ++ rest, SafeAccess size a) ↔
      Readable size p 4 ∧ Readable size (p+4) 8 ∧ Readable size (p+16) 8 ∧ ∀ a ∈ rest, SafeAccess size a := by
    intro rest
    rw [List.cons_append, List.forall_mem_cons, List.cons_append, List.forall_mem_cons, List.cons_append,
      List.forall_mem_cons, List.nil_append]
    rfl
  unfold traceSegment
  dsimp only
  rw [if_neg (not_not.mpr hl), tracePages_result, hr.lasts, hr.lasts]
  by_cases hlasts : Lasts t (segmentRun (phdrAt d p))
  · have hall := hloaded.mpr hlasts
    obtain ⟨k, f, h, hk⟩ := @loadPages_served t (pageStart (phdrAt d p)) _ 0 _ hs hflags (segmentPages_le (phdrAt d p))
    obtain rfl := hk.mp hall
    have hfill := fill_safe (d := d) hl hv hoff hsize hs h
    rw [hall, if_neg Bool.true_eq_false_eq_False, List.append_assoc, hfields, List.forall_mem_append, hpages, hfill]
    simp only [hlasts, forall_const]
  · have hrefused : (loadPages t (pageStart (phdrAt d p)) (segmentFlags (phdrAt d p)) 0
        (segmentPages (phdrAt d p))).1 = false := Bool.eq_false_iff.mpr (fun h => hlasts (hloaded.mp h))
    rw [if_pos hrefused, hfields, hpages]
    simp only [hlasts, false_implies, and_true]

end Segment

/-! ## All segments -/

section Image

variable {s t : VmState} {d : Mem} {size p n : ℕ} {before : List ℕ}

/-- The accesses of the first segment are made whatever comes of it. -/
theorem first_recorded {a : Access} (h : a ∈ (traceSegment t d size p).1) :
    a ∈ (traceSegments t d size p (n+1)).1 := by
  have hmem : a ∈ .read 44 2 :: (traceSegment t d size p).1 := List.mem_cons_of_mem _ h
  rw [traceSegments]
  split
  · exact hmem
  · exact hmem
  · exact List.mem_append_left _ hmem

theorem segments_careful (hr : Reach s before t) (hsize : size < 4294967296)
    (hnum : SafeAccess size (.read 44 2)) (hentry : SafeAccess size (.read 24 4)) :
    (∀ a ∈ (traceSegments t d size p n).1, SafeAccess size a) ↔ Careful s d size before p n := by
  induction n generalizing t p before with
  | zero =>
    refine iff_of_true ?_ trivial
    rw [traceSegments, List.forall_mem_cons, List.forall_mem_singleton]
    exact ⟨hnum, hentry⟩
  | succ n ih =>
    have hstep : ∀ rest : List Access,
        (∀ a ∈ .read 44 2 :: (traceSegment t d size p).1 ++ rest, SafeAccess size a) ↔
          (∀ a ∈ (traceSegment t d size p).1, SafeAccess size a) ∧ ∀ a ∈ rest, SafeAccess size a := by
      intro rest
      rw [List.forall_mem_append, List.forall_mem_cons, and_iff_right hnum]
    have hresult := traceSegment_result t d size p
    rw [Careful]
    by_cases hl : (phdrAt d p).pType = ptLoad
    · have hfirst := segment_safe (d := d) hr hl hsize
      rw [and_iff_right (fun hskip => absurd hl hskip), forall_prop_of_true hl]
      by_cases hlasts : Lasts s (before ++ segmentRun (phdrAt d p))
      · rw [forall_prop_of_true hlasts] at hfirst ⊢
        by_cases hconf : Confinable (phdrAt d p) size
        · obtain ⟨u, hu, hnext⟩ := segment_confined hr hl (phdrAt_lt d p).2 ((hr.lasts _).mp hlasts) hconf
          rw [traceSegments, hresult, hu]
          dsimp only
          rw [hstep, hfirst, ih hnext]
          simp only [and_assoc]
        · have hunsafe : ¬ ∀ a ∈ (traceSegment t d size p).1, SafeAccess size a :=
            fun h => hconf (hfirst.mp h).2.2.2.2
          refine iff_of_false (fun h => hunsafe (fun a ha => h a (first_recorded ha))) (fun h => hconf ?_)
          exact h.2.2.2.2.1
      · have hnot : ¬ Lasts _ (segmentRun _) := fun h => hlasts ((hr.lasts _).mpr h)
        obtain ⟨u, hu⟩ := @segment_refused t d size _ hr.ready hl hnot
        rw [traceSegments, hresult, hu]
        dsimp only
        rw [List.forall_mem_cons, and_iff_right hnum, hfirst]
        simp only [hlasts, false_implies, and_true]
    · rw [traceSegments, hresult, loadSegment, if_pos hl]
      dsimp only
      rw [hstep, skipped_safe hl, ih hr, and_iff_left (fun hload => absurd hload hl), forall_prop_of_true hl]

/-- A careful load ends, and is refused only for want of frames. -/
theorem segments_result (hr : Reach s before t) (hc : Careful s d size before p n) :
    ∃ r, loadSegments t d size (phdrsFrom d p n) = some r ∧
      (r.1 = true ↔ Lasts s (before ++ imageRun (phdrsFrom d p n))) := by
  induction n generalizing t p before with
  | zero =>
    refine ⟨(true, t), rfl, iff_of_true rfl ?_⟩
    rw [hr.lasts]
    exact Or.inl rfl
  | succ n ih =>
    have hrun : imageRun (phdrsFrom d p (n+1)) = segmentRun (phdrAt d p) ++ imageRun (phdrsFrom d (p+32) n) := rfl
    obtain ⟨-, hskip, hload⟩ := hc
    rw [hrun, ← List.append_assoc, phdrsFrom, loadSegments]
    by_cases hl : (phdrAt d p).pType = ptLoad
    · by_cases hlasts : Lasts s (before ++ segmentRun (phdrAt d p))
      · obtain ⟨hconf, hrest⟩ := (hload hl).2.2.2 hlasts
        obtain ⟨u, hu, hnext⟩ := segment_confined hr hl (phdrAt_lt d p).2 ((hr.lasts _).mp hlasts) hconf
        rw [hu]
        exact ih hnext hrest
      · have hnot : ¬ Lasts _ (segmentRun _) := fun h => hlasts ((hr.lasts _).mpr h)
        obtain ⟨u, hu⟩ := @segment_refused t d size _ hr.ready hl hnot
        rw [hu]
        exact ⟨(false, u), rfl, iff_of_false Bool.false_ne_true (fun h => hlasts (lasts_append h))⟩
    · have hempty : segmentRun (phdrAt d p) = [] := if_neg hl
      rw [hempty, List.append_nil, loadSegment, if_pos hl]
      exact ih hr (hskip hl)

theorem validate_safe (d : Mem) (size : ℕ) : ∀ a ∈ traceValidate d size, SafeAccess size a := by
  have hread : ∀ offset n, ¬ size < elfHeaderSize → offset + n ≤ 52 → SafeAccess size (.read offset n) := by
    intro offset n hsize hin k hk
    unfold elfHeaderSize at hsize
    rw [wrap_of_lt (by omega)]
    omega
  unfold traceValidate
  by_cases hsize : size < elfHeaderSize
  · rw [if_pos hsize]
    intro a ha
    cases ha
  · have hmagic := hread 0 4 hsize (by decide)
    have hclass := hread 4 1 hsize (by decide)
    have hdata := hread 5 1 hsize (by decide)
    have htype := hread 16 2 hsize (by decide)
    rw [if_neg hsize]
    split
    · simp [hmagic]
    · split
      · simp [hmagic, hclass]
      · split
        · simp [hmagic, hclass, hdata]
        · simp [hmagic, hclass, hdata, htype]

theorem valid_size (hv : elfValidate (some d) size = true) : 52 ≤ size := by
  unfold elfValidate elfHeaderSize at hv
  dsimp only at hv
  by_contra hsize
  rw [if_pos (by omega)] at hv
  cases hv

end Image

/-! ## An image without its headers -/

theorem sampleImage_careful : Careful sampleKernel sampleImage 84 [] 52 1 := by
  have hphdr : phdrAt sampleImage 52 = samplePhdr := by decide
  have hcopied : ¬ Copied samplePhdr 84 := by decide
  have hread : ∀ offset n, offset + n ≤ 84 → Readable 84 offset n := by
    intro offset n hin k hk
    rw [wrap_of_lt (by omega)]
    omega
  rw [Careful, hphdr]
  refine ⟨hread 52 4 (by decide), fun h => absurd rfl h, fun _ => ⟨hread 56 8 (by decide), hread 68 8 (by decide),
    fun _ _ => hread 76 4 (by decide), fun _ => ⟨⟨Or.inr (by decide), ?_, ?_⟩, trivial⟩⟩⟩
  · exact fun h => absurd h hcopied
  · exact fun h => absurd h hcopied

theorem sampleImage_wellFormed : WellFormed sampleImage 84 where
  valid := sampleImage_valid
  headers _ := by decide
  segments ph hph _ := by
    rw [sampleImage_phdrs, List.mem_singleton] at hph
    subst hph
    exact ⟨by decide, by decide, by decide⟩

end Dionnex.ElfAccesses
