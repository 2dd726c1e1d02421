import Dionnex.LabelledRuns
import Dionnex.UserMemory

/-!
# Regions of sys_mmap

`live` records the pages of the regions that `sys_mmap` has returned and
`sys_munmap` has not taken back. The code places every region without an
address at `0x40000000`, passes over refused pages, rounds a large length
to no page and never returns a frame. The contract holds along each run
that stays clear of these four.
-/

set_option autoImplicit false

namespace Dionnex.MmapRegions
open ByteMemory LabelledRuns PageTables Dionnex.PmmBitmap Dionnex.Vmm Dionnex.UserPages Dionnex.UserMemory

structure System where
  vm : VmState
  live : Set ℕ

inductive Event where
  | mmap (addr len ret : ℕ)
  | munmap (addr len : ℕ)

/-- `⌈len / 4096⌉`. -/
def wholePages (len : ℕ) : ℕ := (len+4095) / 4096

/-- The page numbers of `n` pages from `start` on. -/
def regionPages (start n : ℕ) : Set ℕ := {p | ∃ i < n, p = pageAt start i / 4096}

def Step (s : System) : Event → System → Prop
  | .mmap addr len ret, t => addr < 4294967296 ∧ len < 4294967296 ∧
      (ret, t.vm) = sysMmap s.vm addr len ∧
      t.live = if len = 0 then s.live else s.live ∪ regionPages ret (wholePages len)
  | .munmap addr len, t => addr < 4294967296 ∧ len < 4294967296 ∧
      t.vm = (sysMunmap s.vm addr len).2 ∧ t.live = s.live \ regionPages addr (wholePages len)

/-- A page of a new region: user-writable, in a frame that the call took. -/
def FreshPage (s t : System) (va : ℕ) : Prop :=
  UserWritable t.vm va ∧ ∃ f ∈ freeSet s.vm.pmm, f ∉ freeSet t.vm.pmm ∧
    frameOf (pageEntryAt t.vm va) = f*pageSize

/-- The frames behind the live pages that a call of `sys_munmap` names. -/
def releasedFrames (s : System) (addr len : ℕ) : Set ℕ :=
  {f | ∃ va < 4294967296, va/4096 ∈ s.live ∧ va/4096 ∈ regionPages addr (wholePages len) ∧
    Present (pageEntryAt s.vm va) ∧ frameOf (pageEntryAt s.vm va) = f*pageSize}

/-- The contract of one call. -/
def Kept (s : System) : Event → System → Prop
  | .mmap addr len ret, t => addr = 0 → 0 < len →
      (∀ i < wholePages len, FreshPage s t (pageAt ret i)) ∧
      Disjoint (regionPages ret (wholePages len)) s.live ∧
      ∀ va < 4294967296, va/4096 ∈ s.live → readByte t.vm va = readByte s.vm va
  | .munmap addr len, t => freeSet t.vm.pmm = freeSet s.vm.pmm ∪ releasedFrames s addr len

def startOf (addr : ℕ) : ℕ := if addr ≠ 0 then addr else 0x40000000

/-- A region without an address lands on no live page and behind no restricted directory entry. -/
def ClearTarget (s : System) (len : ℕ) : Prop :=
  ∀ i < wholePages len, pageAt 0x40000000 i / 4096 ∉ s.live ∧
    (NeedsTable s.vm (pageAt 0x40000000 i) ∨ dirEntryAt s.vm (pageAt 0x40000000 i) % 8 = 7)

def Harmless (s : System) : Event → System → Prop
  | .mmap addr len _, _ => 0 < len → len ≤ 4294963200 ∧
      framesNeeded s.vm (startOf addr) 0 (wholePages len) ≤ (freeSet s.vm.pmm).ncard ∧
      (addr = 0 → ClearTarget s len)
  | .munmap addr len, _ => Disjoint (regionPages addr (wholePages len)) s.live

/-- Live pages own their frames. -/
structure Inv (s : System) : Prop where
  sound : Sound s.vm
  owned : ∀ va < 4294967296, va/4096 ∈ s.live → Present (pageEntryAt s.vm va) →
    ∃ f, frameOf (pageEntryAt s.vm va) = f*pageSize ∧ f ≠ 0 ∧ f ∉ freeSet s.vm.pmm ∧
      f*pageSize ∉ kernelFrames s.vm

theorem pagesOf_whole {len : ℕ} (h : len ≤ 4294963200) : pagesOf len = wholePages len := by
  unfold pagesOf wholePages wrap
  omega

theorem wholePages_le {len : ℕ} (h : len ≤ 4294963200) : wholePages len ≤ 1048576 := by
  unfold wholePages
  omega

/-- A page outside a region keeps its entry, and its frame stays apart from the tables. -/
theorem owned_kept {s : System} {t : VmState} {base n k : ℕ} {f : ℕ → ℕ} (hi : Inv s)
    (h : Served s.vm base userFlags 0 n k f t) {va : ℕ} (hva : va < 4294967296) (hlive : va/4096 ∈ s.live)
    (hout : ∀ j < k, ¬ SamePage (pageAt base (0+j)) va) :
    pageEntryAt t va = pageEntryAt s.vm va ∧ (Present (pageEntryAt s.vm va) →
      ∃ g, frameOf (pageEntryAt t va) = g*pageSize ∧ g ≠ 0 ∧ g ∉ freeSet t.pmm ∧
        g*pageSize ∉ kernelFrames t) := by
  have hentry := h.kept va hva hout
  refine ⟨hentry, fun hp => ?_⟩
  obtain ⟨g, hg, hg0, hfree, hplain⟩ := hi.owned va hva hlive hp
  rw [hentry]
  refine ⟨g, hg, hg0, fun hin => hfree (h.pool hin), fun hx => ?_⟩
  rcases h.frames _ hx with hx | hx | ⟨p, hp, -, -, hx⟩
  · exact hplain hx
  · unfold pageSize at hx
    omega
  · exact hfree (page_mul_injective hx ▸ hp)

theorem mmap_kept {s t : System} {addr len ret : ℕ} (hi : Inv s) (h : Step s (.mmap addr len ret) t)
    (hok : Harmless s (.mmap addr len ret) t) : Inv t ∧ Kept s (.mmap addr len ret) t := by
  obtain ⟨-, -, hcall, hlive⟩ := h
  by_cases h0 : len = 0
  · unfold sysMmap at hcall
    rw [if_pos h0] at hcall hlive
    obtain ⟨-, hvm⟩ := Prod.mk.inj hcall
    refine ⟨⟨hvm ▸ hi.sound, ?_⟩, fun _ hlen => absurd h0 (Nat.ne_of_gt hlen)⟩
    rw [hvm, hlive]
    exact hi.owned
  · obtain ⟨hlen, hframes, htarget⟩ := hok (Nat.pos_of_ne_zero h0)
    have hpages := pagesOf_whole hlen
    unfold sysMmap at hcall
    rw [if_neg h0] at hcall hlive
    obtain ⟨hret, hvm⟩ := Prod.mk.inj hcall
    have hstart : ret = startOf addr := hret
    change t.vm = grantPages s.vm (startOf addr) userFlags 0 (pagesOf len) at hvm
    rw [hpages] at hvm
    obtain ⟨f, hserved, hsound, -, -⟩ := @grantPages_full _ _ userFlags _ _ hi.sound (by decide)
      (wholePages_le hlen) hframes
    rw [← hvm] at hserved hsound
    have hregion : ∀ va < 4294967296, va/4096 ∈ regionPages ret (wholePages len) ↔
        ∃ j < wholePages len, SamePage (pageAt (startOf addr) (0+j)) va := by
      intro va _
      rw [hstart]
      constructor
      · rintro ⟨j, hj, he⟩
        exact ⟨j, hj, by rw [Nat.zero_add]; exact he⟩
      · rintro ⟨j, hj, he⟩
        rw [Nat.zero_add] at he
        exact ⟨j, hj, he⟩
    constructor
    · refine ⟨hsound, fun va hva hin hp => ?_⟩
      by_cases hnew : va/4096 ∈ regionPages ret (wholePages len)
      · obtain ⟨j, hj, hsame⟩ := (hregion va hva).mp hnew
        refine ⟨f j, served_frame (by decide) hi.sound.padded hserved hj hva hsame, ?_, hserved.taken j hj,
          hserved.plain j hj⟩
        intro hz
        exact hi.sound.zeroTaken (hz ▸ hserved.free j hj)
      · rw [hlive] at hin
        have hold := hin.resolve_right hnew
        have hkept := owned_kept hi hserved hva hold (fun j hj hs =>
          hnew ((hregion va hva).mpr ⟨j, hj, hs⟩))
        exact hkept.2 (hkept.1 ▸ hp)
    · intro ha _
      have htgt := htarget ha
      have hbase : startOf addr = 0x40000000 := by
        rw [ha]
        rfl
      rw [hbase] at hserved hstart
      refine ⟨?_, ?_, ?_⟩
      · intro i hin
        rw [hstart]
        have hva := pageAt_lt 0x40000000 i
        have hsame : SamePage (pageAt 0x40000000 (0+i)) (pageAt 0x40000000 i) := by rw [Nat.zero_add]; rfl
        exact ⟨(served_page hi.sound hserved hin hva hsame).mpr (htgt i hin).2, f i,
          hserved.free i hin, hserved.taken i hin, served_frame (by decide) hi.sound.padded hserved hin hva hsame⟩
      · rw [Set.disjoint_left, hstart]
        rintro p ⟨i, hin, rfl⟩
        exact (htgt i hin).1
      · intro va hva hin
        have hout : ∀ j < wholePages len, ¬ SamePage (pageAt 0x40000000 (0+j)) va := by
          intro j hj hs
          have hno := (htgt j hj).1
          rw [Nat.zero_add] at hs
          unfold SamePage at hs
          rw [← hs] at hno
          exact hno hin
        obtain ⟨hentry, hframe⟩ := owned_kept hi hserved hva hin hout
        refine readByte_same hentry hserved.off (fun hp => ?_)
        obtain ⟨g, hg, -, -, hplain⟩ := hframe hp
        rw [← hentry, hg]
        exact hplain

theorem pagesOf_le_whole (len : ℕ) : pagesOf len ≤ wholePages len := by
  unfold pagesOf wholePages wrap
  omega

theorem munmap_kept {s t : System} {addr len : ℕ} (hi : Inv s) (h : Step s (.munmap addr len) t)
    (hok : Harmless s (.munmap addr len) t) : Inv t ∧ Kept s (.munmap addr len) t := by
  obtain ⟨-, -, hvm, hlive⟩ := h
  have hu := @unmapPages_spec _ addr 0 (pagesOf len) hi.sound.space
  change t.vm = unmapPages s.vm addr 0 (pagesOf len) at hvm
  rw [← hvm] at hu
  constructor
  · refine ⟨⟨hu.space, hu.pmm ▸ hi.sound.padded, hu.pmm ▸ hi.sound.zeroTaken, ?_⟩, ?_⟩
    · rw [hu.pmm, hu.frames]
      exact hi.sound.reserved
    · intro va hva hin hp
      rw [hlive] at hin
      have hout : ∀ j < pagesOf len, ¬ SamePage (pageAt addr (0+j)) va := by
        intro j hj hsame
        rw [Nat.zero_add] at hsame
        exact hin.2 ⟨j, lt_of_lt_of_le hj (pagesOf_le_whole len), hsame⟩
      have hentry := hu.kept va hva hout
      rw [hentry] at hp ⊢
      rw [hu.pmm, hu.frames]
      exact hi.owned va hva hin.1 hp
  · have hnone : releasedFrames s addr len = ∅ := by
      refine Set.eq_empty_iff_forall_notMem.mpr ?_
      rintro f ⟨va, -, hin, hreg, -⟩
      exact Set.disjoint_left.mp hok hreg hin
    change freeSet t.vm.pmm = freeSet s.vm.pmm ∪ releasedFrames s addr len
    rw [hnone, hu.pmm, Set.union_empty]

def mmapCall (s : System) (addr len : ℕ) : Event × System :=
  (.mmap addr len (sysMmap s.vm addr len).1,
    ⟨(sysMmap s.vm addr len).2,
      if len = 0 then s.live
      else s.live ∪ regionPages (sysMmap s.vm addr len).1 (wholePages len)⟩)

theorem mmapCall_step (s : System) {addr len : ℕ} (ha : addr < 4294967296) (hl : len < 4294967296) :
    Step s (mmapCall s addr len).1 (mmapCall s addr len).2 := ⟨ha, hl, rfl, rfl⟩

def sampleSystem : System := ⟨sampleKernel, ∅⟩

theorem sampleSystem_inv : Inv sampleSystem := ⟨sampleKernel_sound.1, fun _ _ h => h.elim⟩

end Dionnex.MmapRegions
