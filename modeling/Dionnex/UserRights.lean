import Dionnex.FreshMemory
import Dionnex.VmmCalls

/-!
# User pages and the right to reach them

Ring 3 reaches a page when both its directory entry and its table entry are
present and open to user mode. `vmm_map_page` writes the flags it is given
into the table entry; the directory entry gets its user bit only from the
call that adds the table. So a user mapping is reachable exactly when its
4 MiB region has no table yet or has one that was added for a user page.
-/

set_option autoImplicit false

namespace Dionnex.UserRights
open ByteMemory LabelledRuns PageTables Dionnex.PmmBitmap Dionnex.Vmm Dionnex.VmmCalls
open Dionnex.PagedAccess Dionnex.FreshMemory

inductive Event where
  | mapPage (virt phys flags : ℕ)
  | unmapPage (virt : ℕ)

def Step (s : VmState) : Event → VmState → Prop
  | .mapPage virt phys flags, t => virt < 4294967296 ∧ phys < 4294967296 ∧ flags < 4294967296 ∧
      t = vmmMapPage s virt phys flags
  | .unmapPage virt, t => virt < 4294967296 ∧ t = vmmUnmapPage s virt

/-- A page mapped with `VMM_USER` is reachable from ring 3 right after the call. -/
def Sound (_ : VmState) : Event → VmState → Prop
  | .mapPage virt _ flags, t => flags &&& vmmUser ≠ 0 → UserReadable t virt
  | .unmapPage _, _ => True

/-- What a user mapping needs: a region without a table or with one open to
user mode. Where the call overwrites its own directory entry, the word
written is that entry, and what counts is the entry behind it. -/
def Reachable (s : VmState) (virt phys flags : ℕ) : Prop :=
  if SelfEntry s virt then
    frameOf (mappedWord phys flags) = s.pageDirectory ∨
      UserBits (entry s.mem (frameOf (mappedWord phys flags)) (tblIndex virt))
  else Open s virt

def Admitted (s : VmState) : Event → VmState → Prop
  | .mapPage virt phys flags, _ => flags &&& vmmUser ≠ 0 → Reachable s virt phys flags
  | .unmapPage _, _ => True

theorem userBits_testBit (e : ℕ) : UserBits e ↔ e.testBit 0 = true ∧ e.testBit 2 = true := by
  simp [UserBits, Nat.testBit_eq_decide_div_mod_eq]

theorem user_testBit (flags : ℕ) : flags &&& vmmUser ≠ 0 ↔ flags.testBit 2 = true := by
  have hbit : ∀ i, (flags &&& vmmUser).testBit i = (flags.testBit i && decide (2 = i)) := by
    intro i
    rw [Nat.testBit_and, show vmmUser = 2^2 from rfl, Nat.testBit_two_pow]
  constructor
  · intro h
    by_contra hclear
    refine h (Nat.eq_of_testBit_eq fun i => ?_)
    rw [hbit, Nat.zero_testBit]
    by_cases hi : 2 = i
    · simpa [← hi] using hclear
    · simp [hi]
  · intro h he
    have h2 := hbit 2
    rw [he, h] at h2
    simp at h2

/-- The page entry carries the user bit that was asked for. -/
theorem mappedWord_user (phys : ℕ) {flags : ℕ} (hu : flags &&& vmmUser ≠ 0) :
    UserBits (mappedWord phys flags) := by
  rw [user_testBit] at hu
  rw [userBits_testBit, mappedWord]
  simp [hu, vmmPresent]

/-- A new directory entry carries the user bit too. -/
theorem tableEntry_open {pt flags : ℕ} (h : Aligned pt) (hu : flags &&& vmmUser ≠ 0) :
    UserBits (tableEntry pt flags) := by
  rw [user_testBit] at hu
  rw [← tableEntry_eq flags h, userBits_testBit]
  have h4 : Nat.testBit 4 2 = true := by decide
  simp [hu, h4, vmmPresent, vmmWritable, vmmUser]

theorem ensure_open {s : VmState} {virt flags : ℕ} (hu : flags &&& vmmUser ≠ 0) :
    UserBits (dirEntryAt (ensureTable s (dirIndex virt) flags) virt) ↔ Open s virt := by
  rw [ensure_entry, Open]
  by_cases hn : NeedsTable s virt
  · simp [hn, tableEntry_open (alloc_aligned s.pmm) hu]
  · simp [hn]

/-- A user mapping is reachable from ring 3 exactly when its region admits it. -/
theorem map_reachable {s : VmState} {virt phys flags : ℕ} (hd : Aligned s.pageDirectory)
    (hp : phys < 4294967296) (hf : flags < 4294967296) (hu : flags &&& vmmUser ≠ 0) :
    UserReadable (vmmMapPage s virt phys flags) virt ↔ Reachable s virt phys flags := by
  have hword := mappedWord_user phys hu
  rw [UserReadable, Reachable]
  by_cases h : SelfEntry s virt
  · obtain ⟨hdir, hpage⟩ := map_entry_self hd hp hf h
    rw [hdir, hpage, if_pos h]
    split
    · next he => simp [he, hword]
    · next he => simp [he, hword]
  · obtain ⟨hdir, hpage⟩ := map_entry_apart hd hp hf h
    rw [hdir, hpage, if_neg h, ensure_open hu]
    simp [hword]

theorem step_directory {s t : VmState} {e : Event} (h : Step s e t) :
    t.pageDirectory = s.pageDirectory := by
  cases e with
  | mapPage virt phys flags => rw [h.2.2.2, map_directory]
  | unmapPage virt => rw [h.2, unmap_directory]

theorem step_sound_iff {s t : VmState} {e : Event} (hd : Aligned s.pageDirectory)
    (h : Step s e t) : Sound s e t ↔ Admitted s e t := by
  cases e with
  | mapPage virt phys flags =>
    obtain ⟨-, hp, hf, rfl⟩ := h
    exact forall_congr' fun hu => map_reachable hd hp hf hu
  | unmapPage virt => exact Iff.rfl

def mapCall (s : VmState) (virt phys flags : ℕ) : Event × VmState :=
  (.mapPage virt phys flags, vmmMapPage s virt phys flags)

theorem boot_region_closed {s : VmState} (hb : VmmTranslation.BootFrames s) {virt : ℕ}
    (h0 : dirIndex virt = 0) : ¬ Open (vmmInit s) virt := by
  have hpt := alloc_aligned (pmmAllocPage s.pmm).2
  have hentry : dirEntryAt (vmmInit s) virt = (pmmAllocPage (pmmAllocPage s.pmm).2).1 + 3 := by
    rw [dirEntryAt, pde, h0, VmmTranslation.init_entry hb (by decide), if_pos rfl]
  unfold Aligned at hpt
  unfold Open NeedsTable
  change ¬ (¬ Present (dirEntryAt (vmmInit s) virt) ∨ UserBits (dirEntryAt (vmmInit s) virt))
  rw [hentry]
  unfold Present UserBits
  omega

end Dionnex.UserRights
