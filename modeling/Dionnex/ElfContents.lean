import Dionnex.FreshMemory

/-!
# What a loaded image holds

Each segment maps fresh frames over its pages before it writes, so a later
segment takes a shared page away from an earlier one together with what was
written there. Images whose segments keep to disjoint bytes are loaded right,
whatever the free frames held before, exactly when no segment maps a page in
which an earlier one has bytes.
-/

set_option autoImplicit false

namespace Dionnex.ElfContents
open ByteMemory PageTables Dionnex.PmmBitmap Dionnex.Vmm Dionnex.UserPages Dionnex.UserMemory
open Dionnex.PagedAccess Dionnex.ElfLoader Dionnex.TwinRuns Dionnex.FreshMemory

/-- The byte that a segment has for one of its addresses. -/
def imageByte (d : Mem) (ph : Phdr) (wa : ℕ) : UInt8 :=
  if wa - ph.pVaddr < ph.pFilesz then d (ph.pOffset + (wa - ph.pVaddr)) else 0

/-- The bytes of the file, then zeros. -/
def Holds (t : VmState) (d : Mem) (ph : Phdr) : Prop :=
  ∀ wa, Covers ph wa → readByte t wa = some (imageByte d ph wa)

/-- File bytes for the start of the segment, and no sum that wraps. -/
structure Regular (ph : Phdr) (size : ℕ) : Prop where
  file : ph.pOffset + ph.pFilesz ≤ size
  start : ph.pFilesz ≤ ph.pMemsz
  fits : ph.pVaddr + ph.pMemsz + 0xFFF < 4294967296

/-- No two segments have a byte in common. -/
def ApartBytes (phs : List Phdr) : Prop :=
  phs.Pairwise (fun a b => a.pType = ptLoad → b.pType = ptLoad → ∀ wa, Covers a wa → ¬ Covers b wa)

/-- No segment maps a page in which an earlier one has bytes. -/
def Undisturbed (phs : List Phdr) : Prop :=
  phs.Pairwise (fun a b => a.pType = ptLoad → ∀ wa, Covers a wa → ¬ MapsPage b wa)

section Segments

variable {ph q : Phdr} {size wa : ℕ} {phs : List Phdr}

theorem regular_tame (h : Regular ph size) : Tame ph size := ⟨h.fits, fun _ => h.start⟩

theorem regular_copied (h : Regular ph size) (hsize : size < 4294967296) :
    Copied ph size ↔ 0 < ph.pFilesz := by
  have hfile := h.file
  unfold Copied
  rw [wrap_of_lt (by omega)]
  exact and_iff_left hfile

theorem covers_lt (h : Regular ph size) (hc : Covers ph wa) : wa < 4294967296 := by
  have hfits := h.fits
  unfold Covers at hc
  omega

theorem covers_maps (h : Regular ph size) (hl : ph.pType = ptLoad) (hc : Covers ph wa) : MapsPage ph wa := by
  rw [tame_maps (regular_tame h) hl (covers_lt h hc)]
  obtain ⟨hlo, hhi⟩ := hc
  obtain ⟨j, hj, hsame⟩ := tame_pages (regular_tame h) (wa - ph.pVaddr) (by omega)
  rw [Nat.add_sub_cancel' hlo] at hsame
  exact ⟨j, hj, hsame⟩

theorem lastSegment_none : lastSegment phs wa = none ↔ ∀ b ∈ phs, ¬ MapsPage b wa := by
  induction phs with
  | nil => simp [lastSegment]
  | cons a rest ih =>
    rw [lastSegment, Option.or_eq_none_iff, ih, List.forall_mem_cons, and_comm]
    by_cases hm : MapsPage a wa
    · simp [hm]
    · simp [hm]

theorem lastSegment_some (h : lastSegment phs wa = some q) : q ∈ phs ∧ MapsPage q wa := by
  induction phs with
  | nil => cases h
  | cons a rest ih =>
    rw [lastSegment] at h
    cases hrest : lastSegment rest wa with
    | some q' =>
      rw [hrest, Option.some_or] at h
      obtain rfl := Option.some.inj h
      obtain ⟨hq, hm⟩ := ih hrest
      exact ⟨List.mem_cons_of_mem _ hq, hm⟩
    | none =>
      rw [hrest, Option.none_or] at h
      by_cases hm : MapsPage a wa
      · rw [if_pos hm] at h
        obtain rfl := Option.some.inj h
        exact ⟨List.mem_cons_self, hm⟩
      · rw [if_neg hm] at h
        cases h

/-- The last segment on a page owns the bytes of all segments in it. -/
theorem undisturbed_last (hreg : ∀ ph ∈ phs, ph.pType = ptLoad → Regular ph size) (hapart : ApartBytes phs) :
    Undisturbed phs ↔
      ∀ ph ∈ phs, ph.pType = ptLoad → ∀ wa, Covers ph wa → ∀ q, lastSegment phs wa = some q → Covers q wa := by
  induction phs with
  | nil => exact iff_of_true List.Pairwise.nil (fun ph hph => by cases hph)
  | cons a rest ih =>
    obtain ⟨hfirst, hrest⟩ := List.pairwise_cons.mp hapart
    have hlater := ih (fun ph hph => hreg ph (List.mem_cons_of_mem _ hph)) hrest
    unfold Undisturbed at hlater ⊢
    rw [List.pairwise_cons, hlater, List.forall_mem_cons]
    have hkept : ∀ ph ∈ rest, ph.pType = ptLoad → ∀ wa, Covers ph wa →
        lastSegment (a::rest) wa = lastSegment rest wa := by
      intro ph hph hl wa hc
      have hmaps := covers_maps (hreg ph (List.mem_cons_of_mem _ hph) hl) hl hc
      cases hlast : lastSegment rest wa with
      | none => exact (lastSegment_none.mp hlast ph hph hmaps).elim
      | some q => rw [lastSegment, hlast, Option.some_or]
    have hrestIff : (∀ ph ∈ rest, ph.pType = ptLoad → ∀ wa, Covers ph wa → ∀ q,
        lastSegment (a::rest) wa = some q → Covers q wa) ↔
        ∀ ph ∈ rest, ph.pType = ptLoad → ∀ wa, Covers ph wa → ∀ q, lastSegment rest wa = some q → Covers q wa := by
      constructor
      · intro h ph hph hl wa hc q hq
        exact h ph hph hl wa hc q ((hkept ph hph hl wa hc).trans hq)
      · intro h ph hph hl wa hc q hq
        exact h ph hph hl wa hc q ((hkept ph hph hl wa hc).symm.trans hq)
    rw [hrestIff]
    refine and_congr ?_ Iff.rfl
    constructor
    · intro h hl wa hc q hq
      have hnone : lastSegment rest wa = none := lastSegment_none.mpr (fun b hb => h b hb hl wa hc)
      rw [lastSegment, hnone, Option.none_or] at hq
      by_cases hm : MapsPage a wa
      · rw [if_pos hm] at hq
        obtain rfl := Option.some.inj hq
        exact hc
      · rw [if_neg hm] at hq
        cases hq
    · intro h b hb hl wa hc hm
      cases hlast : lastSegment rest wa with
      | none => exact lastSegment_none.mp hlast b hb hm
      | some q =>
        obtain ⟨hq, hmq⟩ := lastSegment_some hlast
        have hcover := h hl wa hc q (by rw [lastSegment, hlast, Option.some_or])
        exact hfirst q hq hl hmq.1 wa hc hcover

theorem covers_unique (hapart : ApartBytes phs) (hp : ph ∈ phs) (hq : q ∈ phs) (hl : ph.pType = ptLoad)
    (hlq : q.pType = ptLoad) (hc : Covers ph wa) (hcq : Covers q wa) : q = ph := by
  by_contra hne
  have hsymm : Std.Symm (fun a b : Phdr => a.pType = ptLoad → b.pType = ptLoad →
      ∀ wa, Covers a wa → ¬ Covers b wa) := ⟨fun a b h hb ha wa hcb hca => h ha hb wa hca hcb⟩
  exact hapart.forall hq hp hne hlq hl wa hcq hc

end Segments

/-! ## The bytes of one segment -/

section Contents

variable {s t u : VmState} {d : Mem} {size : ℕ} {ph : Phdr} {phs rest : List Phdr}

theorem served_injective {base flags i n k : ℕ} {f : ℕ → ℕ} (hf : flags < 4096) (hp : Padded s.pmm)
    (h : Served s base flags i n k f t) {wa wb j l x : ℕ} (hwa : wa < 4294967296) (hwb : wb < 4294967296)
    (hj : j < k) (hl : l < k) (hpa : SamePage (pageAt base (i+j)) wa) (hpb : SamePage (pageAt base (i+l)) wb)
    (hxa : translateAt t wa = some x) (hxb : translateAt t wb = some x) : wa = wb := by
  have ha := Option.some.inj ((served_translate hf hp h hj hwa hpa).symm.trans hxa)
  have hb := Option.some.inj ((served_translate hf hp h hl hwb hpb).symm.trans hxb)
  have hframe : f j = f l := by
    unfold pageSize at ha hb
    omega
  obtain rfl := h.distinct j hj l hl hframe
  unfold SamePage at hpa hpb
  omega

/-- No two of the addresses lie in one byte of memory. -/
def Separate (s : VmState) (va n : ℕ) : Prop :=
  ∀ j l x, j < n → l < n → translateAt s (va+j) = some x → translateAt s (va+l) = some x → j = l

theorem Separate.mono {va k n : ℕ} (h : Separate s va n) (hk : k ≤ n) : Separate s va k :=
  fun j l x hj hl => h j l x (by omega) (by omega)

theorem Separate.same {va n : ℕ} (h : Separate s va n) (hsame : SameTables s t) : Separate t va n := by
  intro j l x hj hl hxj hxl
  rw [hsame.translate] at hxj hxl
  exact h j l x hj hl hxj hxl

theorem Separate.shift {va k n : ℕ} (h : Separate s va (k+n)) : Separate s (va+k) n := by
  intro j l x hj hl hxj hxl
  rw [Nat.add_assoc] at hxj hxl
  have hjl := h _ _ x (by omega) (by omega) hxj hxl
  omega

theorem separate_bytes {va n : ℕ} {f : ℕ → ℕ} (hs : Space s) (hw : Writable s va 0 n) (h : Separate s va n)
    (ht : storeBytes s va f 0 n = some t) (k x : ℕ) (hk : k < n) (hx : translateAt s (va+k) = some x) :
    t.mem x = UInt8.ofNat (f k) :=
  storeBytes_bytes hs hw (fun j l x _ hj _ hl => h j l x (by omega) (by omega)) ht k x (Nat.zero_le k) (by omega) hx

/-- The part of a segment that is in the file. -/
theorem file_bytes (hs : Space s) (hw : Writable s ph.pVaddr 0 ph.pFilesz) (hreg : Regular ph size)
    (hsize : size < 4294967296) (happart : Separate s ph.pVaddr ph.pFilesz)
    (ht : memcpyAt s ph.pVaddr d ph.pOffset ph.pFilesz = some t) (k x : ℕ) (hk : k < ph.pFilesz)
    (hx : translateAt s (ph.pVaddr+k) = some x) : t.mem x = imageByte d ph (ph.pVaddr+k) := by
  have hfile := hreg.file
  have hbyte := separate_bytes hs hw happart ht k x hk hx
  unfold imageByte
  rw [Nat.add_sub_cancel_left, if_pos hk, hbyte, load8, UInt8.ofNat_toNat, wrap_of_lt (by omega)]

theorem imageByte_zero {k : ℕ} (hk : ¬ k < ph.pFilesz) : imageByte d ph (ph.pVaddr+k) = UInt8.ofNat 0 := by
  unfold imageByte
  rw [Nat.add_sub_cancel_left, if_neg hk]
  rfl

/-- Zeros, and over them the bytes of the file. -/
theorem fill_bytes (hs : Space s) (hw : Writable s ph.pVaddr 0 ph.pMemsz) (hreg : Regular ph size)
    (hsize : size < 4294967296) (happart : Separate s ph.pVaddr ph.pMemsz)
    (ht : fillSegment s d size ph = some t) (k x : ℕ) (hk : k < ph.pMemsz)
    (hx : translateAt s (ph.pVaddr+k) = some x) : t.mem x = imageByte d ph (ph.pVaddr+k) := by
  have hstart := hreg.start
  obtain ⟨z, hz, hsame, -⟩ := storeBytes_spec (fun _ => 0) hs hw
  have hzero : z.mem x = UInt8.ofNat 0 := separate_bytes hs hw happart hz k x hk hx
  unfold fillSegment memsetAt at ht
  rw [hz, Option.bind_some] at ht
  by_cases hc : Copied ph size
  · rw [if_pos hc] at ht
    have hw' := writable_mono hsame hw hstart
    have hxz : translateAt z (ph.pVaddr+k) = some x := (hsame.translate _).trans hx
    by_cases hkf : k < ph.pFilesz
    · exact file_bytes hsame.space hw' hreg hsize ((happart.mono hstart).same hsame) ht k x hkf hxz
    · obtain ⟨w, hcopy, -, hoff⟩ := storeBytes_spec (fun i => load8 d (ph.pOffset+i)) hsame.space hw'
      obtain rfl := Option.some.inj (hcopy.symm.trans ht)
      rw [imageByte_zero hkf, hoff x, hzero]
      rintro ⟨l, -, hl, hxl⟩
      have hkl := happart k l x hk (by omega) hx ((hsame.translate _).symm.trans hxl)
      omega
  · rw [if_neg hc] at ht
    obtain rfl := Option.some.inj ht
    rw [regular_copied hreg hsize] at hc
    rw [imageByte_zero (by omega), hzero]

/-- The bytes at the addresses whose page was mapped last by a segment that covers them. -/
def Contents (t : VmState) (d : Mem) (phs : List Phdr) : Prop :=
  ∀ wa < 4294967296, ∀ ph, lastSegment phs wa = some ph → Covers ph wa → readByte t wa = some (imageByte d ph wa)

theorem readByte_at {wa x : ℕ} (hwa : wa < 4294967296) (hx : translateAt t wa = some x) :
    readByte t wa = some (t.mem x) := by
  unfold translateAt at hx
  rw [wrap_of_lt hwa] at hx
  unfold readByte
  rw [hx, Option.map_some]

/-- The pages of a segment for which the pool lasts can be written, and no two of its bytes share a place. -/
theorem segment_pages (hs : Sound s) (hl : ph.pType = ptLoad) (hreg : Regular ph size)
    (hfree : framesFor s (segmentRun ph) ≤ (freeSet s.pmm).ncard) :
    ∃ g, loadPages s (pageStart ph) (segmentFlags ph) 0 (segmentPages ph) = (true, g) ∧ Space g ∧
      Writable g ph.pVaddr 0 ph.pMemsz ∧ Separate g ph.pVaddr ph.pMemsz := by
  have hflags := segmentFlags_lt ph
  have htame := regular_tame hreg
  have hfits := hreg.fits
  have hrun : segmentRun ph = pageRun (pageStart ph) 0 (segmentPages ph) := if_pos hl
  rw [hrun] at hfree
  obtain ⟨f, h, -⟩ := @grantPages_full _ _ (segmentFlags ph) _ _ hs hflags (segmentPages_le ph) hfree
  obtain ⟨hw, -⟩ := served_stores hflags hs.padded h (by omega) (tame_pages htame)
  refine ⟨_, @loadPages_full _ _ (segmentFlags ph) _ _ hs hflags hfree, h.space, hw, ?_⟩
  intro j l x hj hl hxj hxl
  obtain ⟨a, ha, hpa⟩ := tame_pages htame j hj
  obtain ⟨b, hb, hpb⟩ := tame_pages htame l hl
  have hsame := served_injective hflags hs.padded h (by omega) (by omega) ha hb hpa hpb hxj hxl
  omega

theorem segment_contents (hs : Sound s) (hl : ph.pType = ptLoad) (hreg : Regular ph size)
    (hsize : size < 4294967296) (hfree : framesFor s (segmentRun ph) ≤ (freeSet s.pmm).ncard)
    (hload : loadSegment s d size ph = some (true, t)) : Contents t d [ph] := by
  obtain ⟨g, hpages, hspace, hw, happart⟩ := segment_pages hs hl hreg hfree
  rw [loadSegment_filled d size hl hpages] at hload
  obtain ⟨z, hfill, hz⟩ := Option.map_eq_some_iff.mp hload
  obtain rfl : z = t := congrArg Prod.snd hz
  obtain ⟨w, hw', hsame, -⟩ := fill_spec (d := d) hspace hw (regular_tame hreg).file
  obtain rfl := Option.some.inj (hw'.symm.trans hfill)
  intro wa hwa q hq hc
  obtain ⟨hmem, -⟩ := lastSegment_some hq
  obtain rfl := List.mem_singleton.mp hmem
  obtain ⟨hlo, hhi⟩ := hc
  have hva : q.pVaddr + (wa - q.pVaddr) = wa := Nat.add_sub_cancel' hlo
  obtain ⟨x, hx, -⟩ := hw (wa - q.pVaddr) (Nat.zero_le _) (by omega)
  have hbyte := fill_bytes hspace hw hreg hsize happart hfill (wa - q.pVaddr) x (by omega) hx
  rw [hva] at hx hbyte
  rw [readByte_at hwa ((hsame.translate wa).trans hx), hbyte]

/-- What a segment wrote stays where no later segment maps the page. -/
theorem contents_cons {W V : Set ℕ} (hs : Sound s) (h : Delivered s d size [ph] W t)
    (g : Delivered t d size rest V u) (hfirst : Contents t d [ph]) (hrest : Contents u d rest) :
    Contents u d (ph::rest) := by
  intro wa hwa q hq hc
  rw [lastSegment] at hq
  cases hl : lastSegment rest wa with
  | some q' =>
    rw [hl, Option.some_or] at hq
    obtain rfl := Option.some.inj hq
    exact hrest wa hwa q' hl hc
  | none =>
    rw [hl, Option.none_or] at hq
    have hone : lastSegment [ph] wa = some q := hq
    obtain ⟨hbits, x, hx, hin, hout, -⟩ := h.pages wa hwa q hone
    have hentry := g.others wa hwa hl
    have hframe : frameOf x ∉ kernelFrames u ∪ taken t u := by
      rintro (hk | hk)
      · rcases g.lent.frames _ hk with hk | h0 | hk
        · exact hout hk
        · exact (taken_reserved hs hin).2 h0
        · exact taken_apart hin hk
      · exact taken_apart hin hk
    have hxu : translateAt u wa = some x := by
      unfold translateAt at *
      rw [wrap_of_lt hwa] at *
      rw [translate_eq] at *
      rw [hentry]
      exact hx
    rw [readByte_at hwa hxu, g.lent.off x hframe, ← readByte_at hwa hx]
    exact hfirst wa hwa q hone hc

theorem segments_contents (hs : Sound s) (hplain : Plain s) (hsize : size < 4294967296)
    (hreg : ∀ ph ∈ phs, ph.pType = ptLoad → Regular ph size)
    (hfree : framesFor s (imageRun phs) ≤ (freeSet s.pmm).ncard) :
    ∃ W t, Delivered s d size phs W t ∧ Contents t d phs := by
  induction phs generalizing s with
  | nil =>
    refine ⟨_, _, delivered_same hs hplain (fun _ => rfl) (fun _ => rfl), ?_⟩
    intro wa _ ph hph
    cases hph
  | cons ph rest ih =>
    have htail : ∀ q ∈ rest, q.pType = ptLoad → Regular q size := fun q hq => hreg q (List.mem_cons_of_mem _ hq)
    by_cases hl : ph.pType = ptLoad
    · have hfirst := hreg ph List.mem_cons_self hl
      have hroomFirst := (framesFor_append s _ _).trans hfree
      obtain ⟨W, t, h, hroom⟩ := segment_delivered d hs hplain hl (regular_tame hfirst) hroomFirst
      have hload : loadSegment s d size ph = some (true, t) := by
        rw [← loadSegments_one]
        exact (h.uniform ∅ (Set.empty_disjoint _)).result
      obtain ⟨V, u, g, hrest⟩ := ih h.sound h.plain htail (hroom _ hfree)
      exact ⟨_, _, delivered_cons hs h g,
        contents_cons hs h g (segment_contents hs hl hfirst hsize hroomFirst hload) hrest⟩
    · have hskip : Delivered s d size [ph] (kernelBytes s) s := by
        refine delivered_same hs hplain (fun m => ?_) (fun wa => ?_)
        · rw [loadSegments_one, loadSegment, if_pos hl]
        · exact if_neg (fun hm => hl hm.1)
      have hrun : imageRun (ph::rest) = imageRun rest := by
        unfold imageRun segmentRun
        rw [List.flatMap_cons, if_neg hl, List.nil_append]
      rw [hrun] at hfree
      obtain ⟨V, u, g, hrest⟩ := ih hs hplain htail hfree
      refine ⟨_, _, delivered_cons hs hskip g, contents_cons hs hskip g ?_ hrest⟩
      intro wa _ q hq
      obtain ⟨hmem, hm⟩ := lastSegment_some hq
      obtain rfl := List.mem_singleton.mp hmem
      exact (hl hm.1).elim

/-- Segments that keep to their own pages hold their bytes in the end. -/
theorem segments_holds (hs : Sound s) (hplain : Plain s) (hsize : size < 4294967296)
    (hreg : ∀ ph ∈ phs, ph.pType = ptLoad → Regular ph size) (hapart : ApartBytes phs)
    (hfree : framesFor s (imageRun phs) ≤ (freeSet s.pmm).ncard) (hund : Undisturbed phs) :
    ∃ t, loadSegments s d size phs = some (true, t) ∧ ∀ ph ∈ phs, ph.pType = ptLoad → Holds t d ph := by
  obtain ⟨W, t, h, hbytes⟩ := segments_contents hs hplain hsize hreg hfree
  refine ⟨t, (h.uniform ∅ (Set.empty_disjoint _)).result, ?_⟩
  intro ph hph hl wa hc
  have hwa := covers_lt (hreg ph hph hl) hc
  have hmaps := covers_maps (hreg ph hph hl) hl hc
  cases hlast : lastSegment phs wa with
  | none => exact (lastSegment_none.mp hlast ph hph hmaps).elim
  | some q =>
    obtain ⟨hq, hmq⟩ := lastSegment_some hlast
    have hcq := (undisturbed_last hreg hapart).mp hund ph hph hl wa hc q hlast
    obtain rfl := covers_unique hapart hph hq hl hmq.1 hc hcq
    exact hbytes wa hwa q hlast hcq

end Contents

/-! ## Images -/

section Images

variable {s : VmState} {d : Mem} {size : ℕ}

theorem load_valid (hv : elfValidate (some d) size = true) (s : VmState) : elfLoadSegments s (some d) size =
    (loadSegments s d size (phdrs d)).map (fun r => (if r.1 = true then 0 else minusOne, r.2)) := by
  unfold elfLoadSegments
  dsimp only
  rw [if_neg (by rw [hv]; exact Bool.true_eq_false_eq_False)]

/-- Memory that differs in the free frames only has the same tables. -/
theorem free_sameTables (hs : Sound s) {m : Mem} (hm : SameOff (freeBytes s) s.mem m) :
    SameTables s { s with mem := m } :=
  sameTables_off hs.space hm (freeBytes_apart hs)

theorem load_holds (hs : Sound s) (hplain : Plain s) (hv : elfValidate (some d) size = true)
    (hsize : size < 4294967296) (hreg : ∀ ph ∈ phdrs d, ph.pType = ptLoad → Regular ph size)
    (hapart : ApartBytes (phdrs d)) (hfree : framesFor s (imageRun (phdrs d)) ≤ (freeSet s.pmm).ncard)
    (hund : Undisturbed (phdrs d)) : ∃ t, elfLoadSegments s (some d) size = some (0, t) ∧
      ∀ ph ∈ phdrs d, ph.pType = ptLoad → Holds t d ph := by
  obtain ⟨t, ht, hholds⟩ := segments_holds (d := d) hs hplain hsize hreg hapart hfree hund
  refine ⟨t, ?_, hholds⟩
  rw [load_valid hv, ht]
  rfl

/-- A byte that the load does not write is what the frame held before. -/
theorem load_disturbed (hs : Sound s) (hplain : Plain s) (hv : elfValidate (some d) size = true)
    (hreg : ∀ ph ∈ phdrs d, ph.pType = ptLoad → Regular ph size)
    (hfree : framesFor s (imageRun (phdrs d)) ≤ (freeSet s.pmm).ncard) {q : Phdr} {wa : ℕ}
    (hwa : wa < 4294967296) (hlast : lastSegment (phdrs d) wa = some q) (hc : ¬ Covers q wa) (v : UInt8) :
    ∃ m, SameOff (freeBytes s) s.mem m ∧ ∀ t, elfLoadSegments { s with mem := m } (some d) size = some (0, t) →
      readByte t wa = some v := by
  obtain ⟨W, t, h⟩ := segments_delivered d hs hplain (fun ph hph hl => regular_tame (hreg ph hph hl)) hfree
  obtain ⟨-, x, hx, ⟨p, hp, -, hframe⟩, -, hcover⟩ := h.pages wa hwa q hlast
  have hout : x ∉ W := fun hW => hc (hcover.mp hW)
  have hm : SameOff (freeBytes s) s.mem (Function.update s.mem x v) := by
    intro y hy
    apply Function.update_of_ne
    rintro rfl
    exact hy ⟨p, hp, hframe⟩
  obtain ⟨m', hrun, hoff, hrest⟩ := (h.uniform _ (freeBytes_apart hs)).twin _ hm
  refine ⟨_, hm, fun u hu => ?_⟩
  have hresult : u = { t with mem := m' } := by
    rw [load_valid hv, hrun] at hu
    exact (congrArg Prod.snd (Option.some.inj hu)).symm
  have hsame : SameTables t { t with mem := m' } :=
    sameTables_off h.lent.ready.space hrest (disjoint_rest h.kernel)
  rw [hresult, readByte_at hwa ((hsame.translate wa).trans hx)]
  change some (m' x) = some v
  rw [hoff x hout, Function.update_self]

/-- An image of segments with disjoint bytes is loaded right, whatever the free frames
held, exactly when no segment maps a page in which an earlier one has bytes. -/
theorem contents_right_iff (hs : Sound s) (hplain : Plain s) (hv : elfValidate (some d) size = true)
    (hsize : size < 4294967296) (hreg : ∀ ph ∈ phdrs d, ph.pType = ptLoad → Regular ph size)
    (hapart : ApartBytes (phdrs d)) (hfree : framesFor s (imageRun (phdrs d)) ≤ (freeSet s.pmm).ncard) :
    (∀ m, SameOff (freeBytes s) s.mem m → ∃ t, elfLoadSegments { s with mem := m } (some d) size = some (0, t) ∧
      ∀ ph ∈ phdrs d, ph.pType = ptLoad → Holds t d ph) ↔ Undisturbed (phdrs d) := by
  constructor
  · intro h
    rw [undisturbed_last hreg hapart]
    intro ph hph hl wa hc q hlast
    by_contra hcq
    have hwa := covers_lt (hreg ph hph hl) hc
    obtain ⟨m, hm, hread⟩ := load_disturbed hs hplain hv hreg hfree hwa hlast hcq (imageByte d ph wa + 1)
    obtain ⟨t, ht, hholds⟩ := h m hm
    have hbyte := (hholds ph hph hl wa hc).symm.trans (hread t ht)
    have hone : (1 : UInt8) = 0 := by simpa using Option.some.inj hbyte
    exact absurd hone (by decide)
  · intro hund m hm
    have hsame := free_sameTables hs hm
    have hplain' : Plain { s with mem := m } := by
      unfold Plain
      rw [hsame.frames]
      exact hplain
    apply load_holds (sound_sameTables hs hsame) hplain' hv hsize hreg hapart ?_ hund
    rw [framesFor_same hsame.dirs]
    exact hfree

end Images

/-! ## Two images -/

theorem sampleKernel_frames : 4 ≤ (freeSet sampleKernel.pmm).ncard := by
  have hsub : (({3, 4, 5, 6} : Finset ℕ) : Set ℕ) ⊆ freeSet sampleKernel.pmm := by
    intro p hp
    have hall : ∀ p ∈ ({3, 4, 5, 6} : Finset ℕ), p < sampleKernel.pmm.totalPages ∧
        PackedBits.bit sampleKernel.pmm.bitmap p = false := by
      decide
    exact hall p hp
  have hcard := Set.ncard_le_ncard hsub (freeSet_finite _)
  rwa [Set.ncard_coe_finset] at hcard

theorem samplePhdr_regular : Regular samplePhdr 84 := ⟨by decide, by decide, by decide⟩

/-- One segment disturbs nothing. -/
theorem contents_right_iff_sample :
    (∀ m, SameOff (freeBytes sampleKernel) sampleKernel.mem m →
      ∃ t, elfLoadSegments { sampleKernel with mem := m } (some sampleImage) 84 = some (0, t) ∧
        ∀ ph ∈ phdrs sampleImage, ph.pType = ptLoad → Holds t sampleImage ph) ↔
      Undisturbed (phdrs sampleImage) := by
  apply contents_right_iff sampleKernel_sound.1 sampleKernel_sound.2 sampleImage_valid (by decide)
  · rw [sampleImage_phdrs]
    intro ph hph _
    rw [List.mem_singleton.mp hph]
    exact samplePhdr_regular
  · rw [sampleImage_phdrs]
    exact List.pairwise_singleton _ _
  · have hlen : (imageRun (phdrs sampleImage)).length = 1 := by decide
    have hle := framesFor_le sampleKernel (imageRun (phdrs sampleImage))
    rw [hlen] at hle
    exact hle.trans sampleKernel_free

def phdrBytes (ph : Phdr) : List UInt8 :=
  wordBytes ph.pType ++ wordBytes ph.pOffset ++ wordBytes ph.pVaddr ++ wordBytes 0 ++
    wordBytes ph.pFilesz ++ wordBytes ph.pMemsz ++ wordBytes ph.pFlags ++ wordBytes 4096

/-- An executable with the program headers behind the file header. -/
def imageOf (phs : List Phdr) : Mem := fun i =>
  ([0x7F, 0x45, 0x4C, 0x46, 1, 1] ++ List.replicate 10 0 ++ [2, 0, 3, 0] ++ wordBytes 1 ++ wordBytes 0 ++
    wordBytes 52 ++ List.replicate 8 0 ++ [52, 0, 32, 0, UInt8.ofNat phs.length, 0] ++ List.replicate 6 0 ++
    phs.flatMap phdrBytes).getD i 0

/-- Four bytes from the file at the start of a page. -/
def frontPhdr : Phdr := ⟨1, 0, 0x08048000, 4, 4, 5⟩

/-- Four cleared bytes in the middle of it. -/
def middlePhdr : Phdr := ⟨1, 0, 0x08048800, 0, 4, 6⟩

def sharedImage : Mem := imageOf [frontPhdr, middlePhdr]

theorem sharedImage_phdrs : phdrs sharedImage = [frontPhdr, middlePhdr] := by decide

theorem sharedImage_regular : ∀ ph ∈ phdrs sharedImage, ph.pType = ptLoad → Regular ph 116 := by
  rw [sharedImage_phdrs]
  intro ph hph _
  rcases List.mem_cons.mp hph with rfl | hph
  · exact ⟨by decide, by decide, by decide⟩
  · rw [List.mem_singleton.mp hph]
    exact ⟨by decide, by decide, by decide⟩

theorem sharedImage_apart : ApartBytes (phdrs sharedImage) := by
  have hfront : frontPhdr.pVaddr = 0x08048000 ∧ frontPhdr.pMemsz = 4 := ⟨rfl, rfl⟩
  have hmiddle : middlePhdr.pVaddr = 0x08048800 ∧ middlePhdr.pMemsz = 4 := ⟨rfl, rfl⟩
  rw [sharedImage_phdrs]
  apply List.pairwise_pair.mpr
  intro _ _ wa hc hcm
  unfold Covers at hc hcm
  omega

/-- The second segment takes the page, and the file bytes of the first are gone. -/
theorem shared_page_lost : ¬ ∀ (s : VmState) (d : Mem) (size : ℕ), Sound s → Plain s →
    elfValidate (some d) size = true → size < 4294967296 →
    (∀ ph ∈ phdrs d, ph.pType = ptLoad → Regular ph size) → ApartBytes (phdrs d) →
    framesFor s (imageRun (phdrs d)) ≤ (freeSet s.pmm).ncard →
    ∀ m, SameOff (freeBytes s) s.mem m → ∃ t, elfLoadSegments { s with mem := m } (some d) size = some (0, t) ∧
      ∀ ph ∈ phdrs d, ph.pType = ptLoad → Holds t d ph := by
  intro hclaim
  have hv : elfValidate (some sharedImage) 116 = true := by decide
  have hlen : (imageRun (phdrs sharedImage)).length = 2 := by decide
  have hfree : framesFor sampleKernel (imageRun (phdrs sharedImage)) ≤ (freeSet sampleKernel.pmm).ncard := by
    have hle := framesFor_le sampleKernel (imageRun (phdrs sharedImage))
    rw [hlen] at hle
    exact hle.trans sampleKernel_frames
  have hlast : lastSegment (phdrs sharedImage) 0x08048000 = some middlePhdr := by
    rw [sharedImage_phdrs]
    decide
  have hout : ¬ Covers middlePhdr 0x08048000 := fun h => absurd h.1 (by decide)
  have hc : Covers frontPhdr 0x08048000 := ⟨by decide, by decide⟩
  have hmem : frontPhdr ∈ phdrs sharedImage := by
    rw [sharedImage_phdrs]
    exact List.mem_cons_self
  obtain ⟨m, hm, hread⟩ := load_disturbed sampleKernel_sound.1 sampleKernel_sound.2 hv sharedImage_regular hfree
    (by decide) hlast hout (imageByte sharedImage frontPhdr 0x08048000 + 1)
  obtain ⟨t, ht, hholds⟩ := hclaim sampleKernel sharedImage 116 sampleKernel_sound.1 sampleKernel_sound.2 hv
    (by decide) sharedImage_regular sharedImage_apart hfree m hm
  have hbyte := (hholds frontPhdr hmem rfl _ hc).symm.trans (hread t ht)
  have hone : (1 : UInt8) = 0 := by simpa using Option.some.inj hbyte
  exact absurd hone (by decide)

end Dionnex.ElfContents
