import Dionnex.ElfLoader

/-!
# Grants and loads on two memories

Page grants and segment loads do the same on every memory that differs from
the given one outside the page tables. For an image that fits the pool this
also says which bytes of the new pages are written: those that the last
segment on the page covers, and no others.
-/

set_option autoImplicit false

namespace Dionnex.TwinRuns
open ByteMemory PageTables Dionnex.PmmBitmap Dionnex.Vmm Dionnex.UserPages Dionnex.UserMemory
open Dionnex.PagedAccess Dionnex.ElfLoader

theorem disjoint_rest {R A B : Set ℕ} (h : A ⊆ B) : Disjoint (R \ B) A :=
  Set.disjoint_left.mpr (fun _ hx ha => hx.2 (h ha))

theorem kernelBytes_mono {s t : VmState} (h : kernelFrames s ⊆ kernelFrames t) :
    kernelBytes s ⊆ kernelBytes t := fun _ hx => h hx

theorem grantPages_lent {s : VmState} {base flags i n : ℕ} (hs : Ready s) (hf : flags < 4096)
    (hu : flags &&& 4 = 4) (hn : n ≤ 1048576) :
    Lent s (runPages base i n) (grantPages s base flags i n) := by
  rcases hs.next with he | ⟨hsound, hplain⟩
  · rw [grantPages_empty he]
    exact Lent.refl hs _
  · obtain ⟨k, f, h, -⟩ := grantPages_served hsound hplain hf hn
    exact served_lent hs hu h

/-- A grant is a loop over one page. -/
theorem grant_lent {s : VmState} {base flags i : ℕ} (hs : Ready s) (hf : flags < 4096)
    (hu : flags &&& 4 = 4) : Lent s (runPages base i 1) (grantPage s (pageAt base i) flags) :=
  grantPages_lent (n := 1) hs hf hu (by decide)

theorem empty_uniform {α : Type} {op : VmState → Option (α × VmState)} {R : Set ℕ} {s : VmState} {a : α}
    (hR : Disjoint R (kernelBytes s)) (hop : ∀ m, op { s with mem := m } = some (a, { s with mem := m })) :
    Uniform op R (kernelBytes s) s a s := by
  have h := ((Uniform.pure R s a).congr (p := op) hop).widen hR
  rwa [Set.empty_union] at h

/-- A grant, and then an operation whose writes include the tables that the grant leaves. -/
theorem grant_then {α : Type} {f : VmState → Option (α × VmState)} {R W : Set ℕ} {s u : VmState}
    {base flags i : ℕ} {a : α} (hs : Ready s) (hsound : Sound s) (hplain : Plain s) (hf : flags < 4096)
    (hu : flags &&& 4 = 4) (hR : Disjoint R (kernelBytes s))
    (hnext : Ready (grantPage s (pageAt base i) flags) →
      Disjoint (R \ kernelBytes (grantPage s (pageAt base i) flags))
        (kernelBytes (grantPage s (pageAt base i) flags)) →
      Uniform f (R \ kernelBytes (grantPage s (pageAt base i) flags)) W
        (grantPage s (pageAt base i) flags) a u)
    (hW : kernelBytes (grantPage s (pageAt base i) flags) ⊆ W) :
    Uniform (fun s => f (grantPage s (pageAt base i) flags)) R W s a u := by
  have hlent := @grant_lent _ base _ i hs hf hu
  have hone := grant_uniform flags hsound (pageAt_lt base i) hf (Or.inl hplain) hR
  have hboth := hone.bind (f := fun _ s => f s) (hnext hlent.ready (disjoint_rest subset_rfl))
  rw [Set.union_eq_self_of_subset_left hW] at hboth
  exact hboth

theorem grantPages_uniform {s : VmState} {R : Set ℕ} {base flags i n : ℕ} (hs : Ready s)
    (hf : flags < 4096) (hu : flags &&& 4 = 4) (hn : n ≤ 1048576) (hR : Disjoint R (kernelBytes s)) :
    Uniform (fun s => some ((), grantPages s base flags i n)) R
      (kernelBytes (grantPages s base flags i n)) s () (grantPages s base flags i n) := by
  induction n generalizing s R i with
  | zero => exact empty_uniform hR (fun _ => rfl)
  | succ n ih =>
    rcases hs.next with he | ⟨hsound, hplain⟩
    · rw [grantPages_empty he]
      exact empty_uniform hR (fun m => by rw [grantPages_empty (s := { s with mem := m }) he])
    · have hlent := @grant_lent _ base _ i hs hf hu
      have hrest := @grantPages_lent _ base _ (i+1) n hlent.ready hf hu (by omega)
      exact grant_then (f := fun s => some ((), grantPages s base flags (i+1) n)) hs hsound hplain hf hu
        hR (fun hready hdis => ih hready (by omega) hdis) (kernelBytes_mono hrest.grows)

theorem loadPages_lent {s : VmState} {base flags i n : ℕ} (hs : Ready s) (hf : flags < 4096)
    (hu : flags &&& 4 = 4) (hn : n ≤ 1048576) :
    Lent s (runPages base i n) (loadPages s base flags i n).2 := by
  obtain ⟨k, f, h, -⟩ := @loadPages_served _ base _ i _ hs hf hn
  exact served_lent hs hu h

theorem loadPages_uniform {s : VmState} {R : Set ℕ} {base flags i n : ℕ} (hs : Ready s)
    (hf : flags < 4096) (hu : flags &&& 4 = 4) (hn : n ≤ 1048576) (hR : Disjoint R (kernelBytes s)) :
    Uniform (fun s => some (loadPages s base flags i n)) R (kernelBytes (loadPages s base flags i n).2) s
      (loadPages s base flags i n).1 (loadPages s base flags i n).2 := by
  induction n generalizing s R i with
  | zero => exact empty_uniform hR (fun _ => rfl)
  | succ n ih =>
    by_cases ha : (pmmAllocPage s.pmm).1 = 0
    · have he : freeSet s.pmm = ∅ := by
        rcases hs.next with he | ⟨hsound, -⟩
        · exact he
        · exact refused_empty hs.padded hsound.zeroTaken ha
      have hstop : ∀ m, loadPages { s with mem := m } base flags i (n+1) =
          (false, { s with mem := m }) := by
        intro m
        rw [loadPages, if_pos ha]
        unfold takePmmPage
        rw [alloc_empty s.pmm he]
      rw [show loadPages s base flags i (n+1) = (false, s) from hstop s.mem]
      exact empty_uniform hR (fun m => congrArg some (hstop m))
    · rcases hs.next with he | ⟨hsound, hplain⟩
      · exact absurd (by rw [alloc_empty s.pmm he]) ha
      · have hlent := @grant_lent _ base _ i hs hf hu
        have hrest := @loadPages_lent _ base _ (i+1) n hlent.ready hf hu (by omega)
        have hstep := grant_then (f := fun s => some (loadPages s base flags (i+1) n)) hs hsound hplain
          hf hu hR (fun hready hdis => ih hready (by omega) hdis) (kernelBytes_mono hrest.grows)
        rw [loadPages_granted ha]
        exact hstep.congr (fun m => by rw [loadPages_granted (s := { s with mem := m }) ha])

theorem fill_uniform {s : VmState} {d : Mem} {size : ℕ} {ph : Phdr} {R : Set ℕ} (hs : Space s)
    (hR : Disjoint R (kernelBytes s)) (hw : Writable s ph.pVaddr 0 ph.pMemsz)
    (hfile : Copied ph size → ph.pFilesz ≤ ph.pMemsz) :
    ∃ t, SameTables s t ∧ Uniform (fun s => (fillSegment s d size ph).map (fun t => (true, t))) R
      (targets s ph.pVaddr 0 ph.pMemsz) s true t := by
  obtain ⟨t, ht, hsame, -⟩ := storeBytes_spec (fun _ => 0) hs hw
  have hset := storeBytes_uniform (fun _ => 0) () hs hR hw ht
  have hR' : Disjoint (R \ targets s ph.pVaddr 0 ph.pMemsz) (kernelBytes t) := by
    unfold kernelBytes
    rw [hsame.frames]
    exact Disjoint.mono_left Set.sdiff_subset hR
  by_cases hc : Copied ph size
  · have hw' := writable_mono hsame hw (hfile hc)
    obtain ⟨u, hu, hsame', -⟩ := storeBytes_spec (fun i => load8 d (ph.pOffset+i)) hsame.space hw'
    have hcopy := storeBytes_uniform _ true hsame.space hR' hw' hu
    rw [targets_same hsame] at hcopy
    have hboth := hset.bind (f := fun _ s => (memcpyAt s ph.pVaddr d ph.pOffset ph.pFilesz).map
      (fun t => (true, t))) hcopy
    rw [Set.union_eq_self_of_subset_right (targets_mono (hfile hc))] at hboth
    refine ⟨u, hsame.trans hsame', hboth.congr (fun m => ?_)⟩
    unfold fillSegment memsetAt
    rw [Option.map_bind, Option.bind_map]
    exact congrArg _ (funext (fun t => by rw [Function.comp, Function.comp, if_pos hc]))
  · have hboth := hset.bind (f := fun _ s => some (true, s)) (Uniform.pure _ t true)
    rw [Set.union_empty] at hboth
    refine ⟨t, hsame, hboth.congr (fun m => ?_)⟩
    unfold fillSegment memsetAt
    rw [Option.map_bind, Option.bind_map]
    exact congrArg _ (funext (fun t => by rw [Function.comp, Function.comp, if_neg hc]; rfl))

/-! ## Images that fit the pool -/

/-- The segment maps the page of the address. -/
def MapsPage (ph : Phdr) (wa : ℕ) : Prop := ph.pType = ptLoad ∧ pageStart ph ≤ wa ∧ wa < pageEnd ph

instance (ph : Phdr) (wa : ℕ) : Decidable (MapsPage ph wa) := inferInstanceAs (Decidable (_ ∧ _))

/-- The last segment that maps the page of the address. -/
def lastSegment : List Phdr → ℕ → Option Phdr
  | [], _ => none
  | ph::rest, wa => (lastSegment rest wa).or (if MapsPage ph wa then some ph else none)

/-- The address is one of the segment's own bytes. -/
def Covers (ph : Phdr) (wa : ℕ) : Prop := ph.pVaddr ≤ wa ∧ wa < ph.pVaddr + ph.pMemsz

def imageRun (phs : List Phdr) : List ℕ := phs.flatMap segmentRun

structure Delivered (s : VmState) (d : Mem) (size : ℕ) (phs : List Phdr) (W : Set ℕ) (t : VmState) : Prop where
  uniform : ∀ R, Disjoint R (kernelBytes s) → Uniform (fun s => loadSegments s d size phs) R W s true t
  lent : Lent s (imageRange phs) t
  sound : Sound t
  plain : Plain t
  kernel : kernelBytes t ⊆ W
  writes : ∀ x ∈ W, frameOf x ∈ kernelFrames t ∪ taken s t
  pages : ∀ wa < 4294967296, ∀ ph, lastSegment phs wa = some ph → UserBits (pageEntryAt t wa) ∧
    ∃ x, translateAt t wa = some x ∧ frameOf x ∈ taken s t ∧ frameOf x ∉ kernelFrames t ∧
      (x ∈ W ↔ Covers ph wa)
  others : ∀ wa < 4294967296, lastSegment phs wa = none → pageEntryAt t wa = pageEntryAt s wa

theorem tame_maps {ph : Phdr} {size wa : ℕ} (h : Tame ph size) (hl : ph.pType = ptLoad)
    (hwa : wa < 4294967296) :
    MapsPage ph wa ↔ ∃ j < segmentPages ph, SamePage (pageAt (pageStart ph) (0+j)) wa := by
  have hfits := h.fits
  unfold MapsPage segmentPages
  rw [tame_start h, tame_end h]
  unfold SamePage pageAt wrap frameOf
  constructor
  · rintro ⟨-, hlo, hhi⟩
    exact ⟨wa/4096 - ph.pVaddr/4096, by omega, by omega⟩
  · rintro ⟨j, hj, hsame⟩
    exact ⟨hl, by omega, by omega⟩

theorem pageEntry_user {f flags : ℕ} (h : Aligned (f*pageSize)) (hu : UserBits (flags ||| 1)) :
    UserBits (pageEntry (f*pageSize) flags) := by
  unfold pageEntry
  rw [aligned_frame h]
  unfold Aligned at h
  unfold UserBits at *
  omega

theorem segmentFlags_bits (ph : Phdr) : UserBits (segmentFlags ph ||| 1) := by
  unfold segmentFlags
  split
  · decide
  · decide

theorem loadSegments_one (s : VmState) (d : Mem) (size : ℕ) (ph : Phdr) :
    loadSegments s d size [ph] = loadSegment s d size ph := by
  rw [loadSegments]
  cases loadSegment s d size ph with
  | none => rfl
  | some r =>
    rw [Option.bind_some]
    by_cases hr : r.1 = false
    · rw [if_pos hr]
    · rw [if_neg hr, loadSegments]
      exact congrArg some (Prod.ext (Bool.eq_true_of_not_eq_false hr).symm rfl)

theorem segment_uniform {s t w : VmState} {d : Mem} {size : ℕ} {ph : Phdr} {R : Set ℕ} (hs : Ready s)
    (hl : ph.pType = ptLoad) (hR : Disjoint R (kernelBytes s)) (htame : Tame ph size)
    (hload : loadPages s (pageStart ph) (segmentFlags ph) 0 (segmentPages ph) = (true, t))
    (hw : Writable t ph.pVaddr 0 ph.pMemsz) (hfill : fillSegment t d size ph = some w) :
    Uniform (fun s => loadSegment s d size ph) R (kernelBytes t ∪ targets t ph.pVaddr 0 ph.pMemsz) s
      true w := by
  have hpages := @loadPages_uniform _ _ (pageStart ph) _ 0 _ hs (segmentFlags_lt ph)
    (segmentFlags_user ph) (segmentPages_le ph) hR
  have hready := (@loadPages_lent _ (pageStart ph) _ 0 _ hs (segmentFlags_lt ph)
    (segmentFlags_user ph) (segmentPages_le ph)).ready
  rw [hload] at hpages hready
  obtain ⟨w', -, hstores⟩ := fill_uniform (d := d) hready.space (disjoint_rest (R := R) subset_rfl) hw
    htame.file
  have hresult := hstores.result
  rw [hfill] at hresult
  obtain rfl : w = w' := congrArg Prod.snd (Option.some.inj hresult)
  have hboth := hpages.bind (f := fun b s =>
    if b = false then some (false, s) else (fillSegment s d size ph).map (fun t => (true, t)))
    (hstores.congr (fun m => if_neg Bool.true_eq_false_eq_False))
  refine hboth.congr (fun m => ?_)
  unfold loadSegment
  rw [if_neg (not_not.mpr hl)]
  rfl

theorem lastSegment_one {ph : Phdr} {wa : ℕ} : lastSegment [ph] wa = if MapsPage ph wa then some ph else none := rfl

/-- On a granted page the bytes that are written are those of the segment. -/
theorem served_covers {s t : VmState} {flags wa j : ℕ} {ph : Phdr} {size : ℕ} {f : ℕ → ℕ} (hflags : flags < 4096)
    (hs : Padded s.pmm) (ht : Tame ph size) (h : Served s (pageStart ph) flags 0 (segmentPages ph) (segmentPages ph) f t)
    (hj : j < segmentPages ph) (hwa : wa < 4294967296) (hpage : SamePage (pageAt (pageStart ph) (0+j)) wa) :
    f j*pageSize + wa % 4096 ∈ kernelBytes t ∪ targets t ph.pVaddr 0 ph.pMemsz ↔ Covers ph wa := by
  have hfits := ht.fits
  have htr := served_translate hflags hs h hj hwa hpage
  have hframe : frameOf (f j*pageSize + wa % 4096) = f j*pageSize :=
    frameOf_flags (page_aligned hs (h.free j hj)) (Nat.mod_lt _ (by decide))
  constructor
  · rintro (hx | ⟨l, -, hl, hx⟩)
    · have hk : frameOf (f j*pageSize + wa % 4096) ∈ kernelFrames t := hx
      rw [hframe] at hk
      exact absurd hk (h.plain j hj)
    · -- two pages with one frame are one page
      obtain ⟨i, hi, hpage'⟩ := tame_pages ht l (by omega)
      have hx' := Option.some.inj ((served_translate hflags hs h hi (by omega) hpage').symm.trans hx)
      have hij : f i = f j := by
        unfold pageSize at hx'
        omega
      obtain rfl := h.distinct i hi j hj hij
      unfold SamePage at hpage hpage'
      unfold Covers
      omega
  · intro hc
    refine Or.inr ⟨wa - ph.pVaddr, Nat.zero_le _, ?_, ?_⟩
    · have hhi := hc.2
      have hlo := hc.1
      omega
    · rw [Nat.add_sub_cancel' hc.1]
      exact htr

/-- A segment whose pages and tables the pool can supply. -/
theorem segment_delivered {s : VmState} (d : Mem) {size : ℕ} {ph : Phdr} (hs : Sound s) (hplain : Plain s)
    (hl : ph.pType = ptLoad) (ht : Tame ph size)
    (hfree : framesFor s (segmentRun ph) ≤ (freeSet s.pmm).ncard) :
    ∃ W t, Delivered s d size [ph] W t ∧ ∀ vas, framesFor s (segmentRun ph ++ vas) ≤ (freeSet s.pmm).ncard →
      framesFor t vas ≤ (freeSet t.pmm).ncard := by
  have hflags := segmentFlags_lt ph
  have hpages := segmentPages_le ph
  have hfits := ht.fits
  have hready : Ready s := ⟨hs.space, hs.padded, Or.inr ⟨hs, hplain⟩⟩
  have hrun : segmentRun ph = pageRun (pageStart ph) 0 (segmentPages ph) := if_pos hl
  rw [hrun] at hfree ⊢
  obtain ⟨f, h, hsound, hkeep, hrest⟩ := @grantPages_full _ _ (segmentFlags ph) _ _ hs hflags hpages hfree
  have hload := @loadPages_full _ _ (segmentFlags ph) _ _ hs hflags hfree
  generalize grantPages s (pageStart ph) (segmentFlags ph) 0 (segmentPages ph) = t at *
  obtain ⟨hw, hframes⟩ := served_stores hflags hs.padded h (by omega) (tame_pages ht)
  obtain ⟨w, hfill, hsame, -⟩ := fill_spec (d := d) h.space hw ht.file
  have hone : loadSegment s d size ph = some (true, w) := by
    unfold loadSegment
    rw [if_neg (not_not.mpr hl), hload]
    dsimp only
    rw [if_neg Bool.true_eq_false_eq_False, hfill]
    rfl
  obtain ⟨r, hr, hlent⟩ := segment_lent d hready (fun _ => ht)
  obtain rfl := Option.some.inj (hone.symm.trans hr)
  have htaken : ∀ j < segmentPages ph, f j*pageSize ∈ taken s w := by
    intro j hj
    refine ⟨f j, h.free j hj, ?_, rfl⟩
    rw [hsame.pmm]
    exact h.taken j hj
  refine ⟨kernelBytes t ∪ targets t ph.pVaddr 0 ph.pMemsz, w, ⟨?_, ?_, ?_, ?_, ?_, ?_, ?_, ?_⟩, ?_⟩
  · intro R hR
    refine (segment_uniform hready hl hR ht hload hw hfill).congr (fun m => ?_)
    exact loadSegments_one _ d size ph
  · refine hlent.mono (fun p hp => ?_)
    exact ⟨ph, List.mem_singleton_self ph, hp⟩
  · exact sound_sameTables hsound hsame
  · unfold Plain
    rw [hsame.frames]
    exact hkeep hplain
  · unfold kernelBytes
    rw [hsame.frames]
    exact Set.subset_union_left
  · rintro x (hx | hx)
    · left
      rw [hsame.frames]
      exact hx
    · obtain ⟨j, hj, hframe⟩ := hframes x hx
      rw [hframe]
      exact Or.inr (htaken j hj)
  · intro wa hwa q hq
    rw [lastSegment_one] at hq
    obtain ⟨hm, he⟩ := Option.ite_none_right_eq_some.mp hq
    cases he
    obtain ⟨j, hj, hpage⟩ := (tame_maps ht hl hwa).mp hm
    have hal := page_aligned hs.padded (h.free j hj)
    have htr := served_translate hflags hs.padded h hj hwa hpage
    have hframe : frameOf (f j*pageSize + wa % 4096) = f j*pageSize :=
      frameOf_flags hal (Nat.mod_lt _ (by decide))
    refine ⟨?_, _, (hsame.translate wa).trans htr, ?_, ?_, served_covers hflags hs.padded ht h hj hwa hpage⟩
    · rw [hsame.pages, h.pages j hj wa hwa hpage]
      exact pageEntry_user hal (segmentFlags_bits ph)
    · rw [hframe]
      exact htaken j hj
    · rw [hframe, hsame.frames]
      exact h.plain j hj
  · intro wa hwa hnone
    refine hlent.kept wa hwa (fun hin => ?_)
    unfold segmentRange at hin
    rw [if_pos hl] at hin
    obtain ⟨j, hj, hpage⟩ := hin
    have hm := (tame_maps ht hl hwa).mpr ⟨j, hj, hpage⟩
    rw [lastSegment_one, if_pos hm] at hnone
    cases hnone
  · intro vas hvas
    have hneed := hrest vas
    rw [framesFor_same hsame.dirs, hsame.pmm]
    omega

theorem delivered_same {s : VmState} {d : Mem} {size : ℕ} {phs : List Phdr} (hs : Sound s)
    (hplain : Plain s) (hop : ∀ m, loadSegments { s with mem := m } d size phs = some (true, { s with mem := m }))
    (hnone : ∀ wa, lastSegment phs wa = none) : Delivered s d size phs (kernelBytes s) s where
  uniform R hR := empty_uniform hR hop
  lent := Lent.refl ⟨hs.space, hs.padded, Or.inr ⟨hs, hplain⟩⟩ _
  sound := hs
  plain := hplain
  kernel := subset_rfl
  writes x hx := Or.inl hx
  pages wa hwa ph h := by
    rw [hnone wa] at h
    cases h
  others wa hwa _ := rfl

/-- A frame that was taken is not free, so what is taken later is another frame. -/
theorem taken_apart {s t u : VmState} {x : ℕ} (h : x ∈ taken s t) : x ∉ taken t u := by
  rintro ⟨p, hp, -, he⟩
  obtain ⟨q, -, hq, rfl⟩ := h
  exact hq (page_mul_injective he ▸ hp)

theorem taken_reserved {s t : VmState} {x : ℕ} (hs : Sound s) (h : x ∈ taken s t) :
    x ∉ kernelFrames s ∧ x ≠ 0 := by
  obtain ⟨p, hp, -, rfl⟩ := h
  refine ⟨hs.reserved p hp, fun h0 => hs.zeroTaken ?_⟩
  have hp0 : p = 0 := (Nat.mul_eq_zero.mp h0).resolve_right (by decide)
  exact hp0 ▸ hp

/-- Segment by segment. -/
theorem delivered_cons {s t u : VmState} {d : Mem} {size : ℕ} {ph : Phdr} {rest : List Phdr} {W V : Set ℕ}
    (hs : Sound s) (h : Delivered s d size [ph] W t) (g : Delivered t d size rest V u) :
    Delivered s d size (ph::rest) (W ∪ V) u where
  uniform R hR := by
    have hfirst := h.uniform R hR
    have hrest := g.uniform (R \ W) (disjoint_rest h.kernel)
    have hone : Uniform (fun s => loadSegment s d size ph) R W s true t :=
      hfirst.congr (fun m => (loadSegments_one _ d size ph).symm)
    refine (hone.bind (f := fun b s => if b = false then some (false, s) else loadSegments s d size rest)
      (hrest.congr (fun m => if_neg Bool.true_eq_false_eq_False))).congr (fun m => ?_)
    rw [loadSegments]
    refine congrArg _ (funext (fun r => ?_))
    by_cases hr : r.1 = false
    · rw [if_pos hr, if_pos hr]
      exact congrArg some (Prod.ext hr rfl)
    · rw [if_neg hr, if_neg hr]
  lent := by
    refine (h.lent.trans g.lent).mono (Set.union_subset ?_ ?_)
    · rintro p ⟨q, hq, hp⟩
      rw [List.mem_singleton] at hq
      exact ⟨ph, List.mem_cons_self, hq ▸ hp⟩
    · rintro p ⟨q, hq, hp⟩
      exact ⟨q, List.mem_cons_of_mem _ hq, hp⟩
  sound := g.sound
  plain := g.plain
  kernel := g.kernel.trans Set.subset_union_right
  writes x hx := by
    obtain ⟨hfirst, hlast⟩ := taken_trans h.lent.pool g.lent.pool
    rcases hx with hx | hx
    · exact (h.writes x hx).imp (fun hk => g.lent.grows hk) (fun hin => hfirst hin)
    · exact (g.writes x hx).imp_right (fun hin => hlast hin)
  pages wa hwa q hq := by
    obtain ⟨hfirst, hlast⟩ := taken_trans h.lent.pool g.lent.pool
    rw [lastSegment] at hq
    cases hl : lastSegment rest wa with
    | some q' =>
      rw [hl, Option.some_or] at hq
      obtain rfl := Option.some.inj hq
      obtain ⟨hbits, x, hx, hin, hout, hcover⟩ := g.pages wa hwa q' hl
      refine ⟨hbits, x, hx, hlast hin, hout, ?_⟩
      rw [← hcover]
      refine or_iff_right (fun hw => ?_)
      rcases h.writes x hw with hk | ht
      · exact (taken_reserved h.sound hin).1 hk
      · exact taken_apart ht hin
    | none =>
      rw [hl, Option.none_or] at hq
      have hone : lastSegment [ph] wa = some q := hq
      obtain ⟨hbits, x, hx, hin, hout, hcover⟩ := h.pages wa hwa q hone
      have hentry := g.others wa hwa hl
      have hframe : frameOf x ∉ kernelFrames u := by
        intro hk
        rcases g.lent.frames _ hk with hk | h0 | hk
        · exact hout hk
        · exact (taken_reserved hs hin).2 h0
        · exact taken_apart hin hk
      refine ⟨hentry ▸ hbits, x, ?_, hfirst hin, hframe, ?_⟩
      · unfold translateAt at *
        rw [wrap_of_lt hwa] at *
        rw [translate_eq] at *
        rw [hentry]
        exact hx
      · rw [← hcover]
        refine or_iff_left (fun hv => ?_)
        exact (g.writes x hv).elim hframe (taken_apart hin)
  others wa hwa hnone := by
    rw [lastSegment, Option.or_eq_none_iff] at hnone
    rw [g.others wa hwa hnone.1, h.others wa hwa hnone.2]

theorem framesFor_append (s : VmState) (vas was : List ℕ) : framesFor s vas ≤ framesFor s (vas++was) := by
  have hsub : missingTables s vas ⊆ missingTables s (vas++was) := by
    intro e he
    obtain ⟨habs, va, hva, hidx⟩ := missingTables_mem.mp he
    exact missingTables_mem.mpr ⟨habs, va, List.mem_append_left _ hva, hidx⟩
  have hcard := Finset.card_le_card hsub
  unfold framesFor
  rw [List.length_append]
  omega

/-- A tame image whose pages and tables the pool can supply. -/
theorem segments_delivered {s : VmState} (d : Mem) {size : ℕ} {phs : List Phdr} (hs : Sound s)
    (hplain : Plain s) (ht : ∀ ph ∈ phs, ph.pType = ptLoad → Tame ph size)
    (hfree : framesFor s (imageRun phs) ≤ (freeSet s.pmm).ncard) :
    ∃ W t, Delivered s d size phs W t := by
  induction phs generalizing s with
  | nil => exact ⟨_, _, delivered_same hs hplain (fun _ => rfl) (fun _ => rfl)⟩
  | cons ph rest ih =>
    have htail : ∀ q ∈ rest, q.pType = ptLoad → Tame q size := fun q hq => ht q (List.mem_cons_of_mem _ hq)
    by_cases hl : ph.pType = ptLoad
    · obtain ⟨W, t, h, hroom⟩ := segment_delivered d hs hplain hl (ht ph List.mem_cons_self hl)
        ((framesFor_append s _ _).trans hfree)
      obtain ⟨V, u, g⟩ := ih h.sound h.plain htail (hroom _ hfree)
      exact ⟨_, _, delivered_cons hs h g⟩
    · have hskip : Delivered s d size [ph] (kernelBytes s) s := by
        refine delivered_same hs hplain (fun m => ?_) (fun wa => ?_)
        · rw [loadSegments_one, loadSegment, if_pos hl]
        · exact if_neg (fun hm => hl hm.1)
      have hrun : imageRun (ph::rest) = imageRun rest := by
        unfold imageRun segmentRun
        rw [List.flatMap_cons, if_neg hl, List.nil_append]
      rw [hrun] at hfree
      obtain ⟨V, u, g⟩ := ih hs hplain htail hfree
      exact ⟨_, _, delivered_cons hs hskip g⟩

end Dionnex.TwinRuns
