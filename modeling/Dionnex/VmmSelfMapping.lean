import Dionnex.VmmCalls

/-!
# Page tables reached through their own addresses

The virtual memory manager reads and writes the directory and the tables at
the addresses of their frames, through the tables that are current at that
moment. `vmm_init` maps the first 4 MiB to themselves and nothing keeps the
frames of later tables, or later mappings, within that. Each access of a
call is listed with the state in which it is made. Whether the frames are
mapped to themselves is a matter of what each page was last mapped to.
-/

set_option autoImplicit false

namespace Dionnex.VmmSelfMapping
open ByteMemory LabelledRuns PageTables Dionnex.PmmBitmap Dionnex.Vmm Dionnex.VmmCalls
open Dionnex.VmmTranslation (System BootFrames Encodes Inv booted)

inductive Event where
  | mapPage (virt phys flags : ℕ)
  | unmapPage (virt : ℕ)
  | getPhys (virt : ℕ)
  | other

/-- The map of pages records the word last written for each. -/
def Step (s : System) : Event → System → Prop
  | .mapPage virt phys flags, t => virt < 4294967296 ∧ phys < 4294967296 ∧ flags < 4294967296 ∧
      t.vm = vmmMapPage s.vm virt phys flags ∧
      t.pages = Function.update s.pages (virt/pageSize) (some (mappedWord phys flags))
  | .unmapPage virt, t => virt < 4294967296 ∧ t.vm = vmmUnmapPage s.vm virt ∧
      t.pages = Function.update s.pages (virt/pageSize) none
  | .getPhys _, t => t = s
  | .other, t => t.pages = s.pages ∧ t.vm.pageDirectory = s.vm.pageDirectory ∧
      SameOff {x | frameOf x ∉ kernelFrames s.vm} s.vm.mem t.vm.mem

/-- `new_pt` after `k` rounds of the clearing loop. -/
def cleared (s : VmState) (k : ℕ) : VmState :=
  { s with mem := fillEntries s.mem (pmmAllocPage s.pmm).1 (fun _ => 0) 0 k }

/-- In the state `u` the call dereferences the frame `f`. -/
inductive Deref (s : VmState) : Event → VmState → ℕ → Prop where
  | mapLookup (virt phys flags : ℕ) : Deref s (.mapPage virt phys flags) s s.pageDirectory
  | mapClear (virt phys flags k : ℕ) (hn : NeedsTable s virt) (hk : k < 1024) :
      Deref s (.mapPage virt phys flags) (cleared s k) (pmmAllocPage s.pmm).1
  | mapLink (virt phys flags : ℕ) (hn : NeedsTable s virt) :
      Deref s (.mapPage virt phys flags) (cleared s 1024) s.pageDirectory
  | mapReload (virt phys flags : ℕ) :
      Deref s (.mapPage virt phys flags) (ensureTable s (dirIndex virt) flags) s.pageDirectory
  | mapStore (virt phys flags : ℕ) :
      Deref s (.mapPage virt phys flags) (ensureTable s (dirIndex virt) flags) (tableFor s virt)
  | unmapLookup (virt : ℕ) : Deref s (.unmapPage virt) s s.pageDirectory
  | unmapStore (virt : ℕ) (hp : ¬ NeedsTable s virt) :
      Deref s (.unmapPage virt) s (frameOf (dirEntryAt s virt))
  | getLookup (virt : ℕ) : Deref s (.getPhys virt) s s.pageDirectory
  | getLoad (virt : ℕ) (hp : ¬ NeedsTable s virt) :
      Deref s (.getPhys virt) s (frameOf (dirEntryAt s virt))

/-- Every address of the frame translates to itself. -/
def SelfMapped (u : VmState) (f : ℕ) : Prop :=
  ∀ x, frameOf x = f → PageTables.translate u.mem u.pageDirectory x = some x

/-- No access of the call faults or reaches another frame. -/
def Sound (s : System) (e : Event) (_ : System) : Prop := ∀ u f, Deref s.vm e u f → SelfMapped u f

/-- A frame obtained for a table holds neither the directory nor a table. -/
def Fresh (s : System) : Event → System → Prop
  | .mapPage virt _ _, _ => NeedsTable s.vm virt → FreshFrame s.vm (pmmAllocPage s.vm.pmm).1
  | _, _ => True

/-- The page of the frame was last mapped to that frame. -/
def AtHome (s : System) (f : ℕ) : Prop := ∃ w, s.pages (f/pageSize) = some w ∧ frameOf w = f

/-- The directory and the table that the call takes are at home. -/
def TablesAtHome (s : System) : Event → System → Prop
  | .mapPage virt _ _, _ => AtHome s s.vm.pageDirectory ∧ AtHome s (tableFor s.vm virt)
  | .unmapPage virt, _ => AtHome s s.vm.pageDirectory ∧
      (¬ NeedsTable s.vm virt → AtHome s (frameOf (dirEntryAt s.vm virt)))
  | .getPhys virt, _ => AtHome s s.vm.pageDirectory ∧
      (¬ NeedsTable s.vm virt → AtHome s (frameOf (dirEntryAt s.vm virt)))
  | .other, _ => True

theorem frame_self {f : ℕ} (h : Aligned f) {x : ℕ} (hx : frameOf x = f) :
    x < 4294967296 ∧ x/pageSize = f/pageSize ∧ f + x%4096 = x := by
  unfold Aligned at h
  unfold frameOf at hx
  unfold pageSize
  omega

/-- The tables map a frame to itself exactly when its page is at home. -/
theorem selfMapped_iff {s : System} (hs : Inv s) {f : ℕ} (hf : Aligned f) :
    SelfMapped s.vm f ↔ AtHome s f := by
  constructor
  · intro h
    have hx := h f (aligned_frame hf)
    have henc := hs.encodes f hf.2
    have hoff : f % 4096 = 0 := hf.1
    rw [PageTables.translate] at hx
    change (if Present (pageEntryAt s.vm f) then _ else none) = some f at hx
    split at hx
    · next hp =>
      cases hw : s.pages (f/pageSize) with
      | none =>
        rw [hw] at henc
        exact absurd hp henc
      | some w =>
        rw [hw] at henc
        have hsum : frameOf (pageEntryAt s.vm f) + f%4096 = f := Option.some.inj hx
        rw [henc.2.2, hoff, Nat.add_zero] at hsum
        exact ⟨w, hw, hsum⟩
    · cases hx
  · rintro ⟨w, hw, hframe⟩ x hx
    obtain ⟨hlt, hpage, hsum⟩ := frame_self hf hx
    have henc := hs.encodes x hlt
    rw [hpage, hw] at henc
    have hp := henc.2.1
    have he := henc.2.2
    rw [PageTables.translate]
    change (if Present (pageEntryAt s.vm x) then some (frameOf (pageEntryAt s.vm x) + x%4096)
      else none) = some x
    rw [if_pos hp, he, hframe, hsum]

theorem cleared_entry {s : VmState} (hs : Space s) (hfresh : FreshFrame s (pmmAllocPage s.pmm).1)
    {k : ℕ} (hk : k ≤ 1024) (wa : ℕ) : pageEntryAt (cleared s k) wa = pageEntryAt s wa := by
  have hoff := fill_off (alloc_aligned s.pmm) (fun _ => 0) s.mem 0 k (by omega)
  have hd : Disjoint {x | frameOf x = (pmmAllocPage s.pmm).1} (footprint s.mem s.pageDirectory) := by
    refine Set.disjoint_left.mpr fun x hx hfoot => ?_
    have hx' : frameOf x = (pmmAllocPage s.pmm).1 := hx
    rcases hfoot with h | h
    · exact hfresh.1 (hx'.symm.trans h)
    · exact hfresh.2 (hx' ▸ h)
  exact ((tables_off hs hoff hd).2.2 wa).2

/-- The accesses of a call see the translation that held before it. -/
theorem deref_translate {s : System} {e : Event} {t : System} {u : VmState} {f : ℕ} (hs : Inv s)
    (hfresh : Fresh s e t) (h : Deref s.vm e u f) (wa : ℕ) :
    PageTables.translate u.mem u.pageDirectory wa =
      PageTables.translate s.vm.mem s.vm.pageDirectory wa := by
  have hpte : pageEntryAt u wa = pageEntryAt s.vm wa := by
    cases h with
    | mapClear virt phys flags k hn hk => exact cleared_entry hs.space (hfresh hn) hk.le wa
    | mapLink virt phys flags hn => exact cleared_entry hs.space (hfresh hn) le_rfl wa
    | mapReload virt phys flags => exact (ensureTable_spec virt flags hs.space hfresh).2.2.1 wa
    | mapStore virt phys flags => exact (ensureTable_spec virt flags hs.space hfresh).2.2.1 wa
    | _ => rfl
  unfold pageEntryAt at hpte
  rw [PageTables.translate, hpte]
  rfl

theorem deref_aligned {s : VmState} {e : Event} {u : VmState} {f : ℕ} (hd : Aligned s.pageDirectory)
    (h : Deref s e u f) : Aligned f := by
  cases h with
  | mapClear virt phys flags k hn hk => exact alloc_aligned s.pmm
  | mapStore virt phys flags => exact tableFor_aligned s virt
  | unmapStore virt hp => exact frameOf_aligned (entry_lt _ _ _)
  | getLoad virt hp => exact frameOf_aligned (entry_lt _ _ _)
  | _ => exact hd

theorem deref_at_home {s : System} {e : Event} {t : System} {u : VmState} {f : ℕ} (hs : Inv s)
    (hfresh : Fresh s e t) (h : Deref s.vm e u f) : SelfMapped u f ↔ AtHome s f := by
  rw [← selfMapped_iff hs (deref_aligned hs.space.aligned h)]
  refine forall_congr' fun x => imp_congr_right fun _ => ?_
  rw [deref_translate hs hfresh h]

/-- The accesses of a call are sound exactly when its tables are at home. -/
theorem sound_iff {s : System} {e : Event} {t : System} (hs : Inv s) (hfresh : Fresh s e t) :
    Sound s e t ↔ TablesAtHome s e t := by
  constructor
  · intro h
    have hhome : ∀ u f, Deref s.vm e u f → AtHome s f := fun u f hd =>
      (deref_at_home hs hfresh hd).mp (h u f hd)
    cases e with
    | mapPage virt phys flags =>
      exact ⟨hhome _ _ (.mapLookup virt phys flags), hhome _ _ (.mapStore virt phys flags)⟩
    | unmapPage virt =>
      exact ⟨hhome _ _ (.unmapLookup virt), fun hp => hhome _ _ (.unmapStore virt hp)⟩
    | getPhys virt => exact ⟨hhome _ _ (.getLookup virt), fun hp => hhome _ _ (.getLoad virt hp)⟩
    | other => trivial
  · intro h u f hd
    rw [deref_at_home hs hfresh hd]
    cases hd with
    | mapLookup virt phys flags => exact h.1
    | mapClear virt phys flags k hn hk =>
      have htable := h.2
      rw [tableFor, if_pos hn] at htable
      exact htable
    | mapLink virt phys flags hn => exact h.1
    | mapReload virt phys flags => exact h.1
    | mapStore virt phys flags => exact h.2
    | unmapLookup virt => exact h.1
    | unmapStore virt hp => exact h.2 hp
    | getLookup virt => exact h.1
    | getLoad virt hp => exact h.2 hp

theorem map_inv {s t : System} {virt phys flags : ℕ} (hs : Inv s)
    (h : Step s (.mapPage virt phys flags) t) (hfresh : Fresh s (.mapPage virt phys flags) t) :
    Inv t := by
  obtain ⟨hv, hp, hf, hvm, hpages⟩ := h
  have hm := map_stored phys flags hs.space hv hfresh
  rw [← hvm] at hm
  refine ⟨hm.space, fun wa hwa => ?_⟩
  rw [hm.pages wa hwa, hpages]
  by_cases hw : wa/4096 = virt/4096
  · rw [if_pos hw, show wa/pageSize = virt/pageSize from hw, Function.update_self,
      wrap_of_lt (mappedWord_lt hp hf)]
    exact ⟨mappedWord_lt hp hf, mappedWord_present phys flags, rfl⟩
  · rw [if_neg hw, Function.update_of_ne (show wa/pageSize ≠ virt/pageSize from hw)]
    exact hs.encodes wa hwa

theorem step_inv {s t : System} {e : Event} (hs : Inv s) (h : Step s e t) (hfresh : Fresh s e t) :
    Inv t := by
  cases e with
  | mapPage virt phys flags => exact map_inv hs h hfresh
  | unmapPage virt => exact VmmTranslation.unmap_inv hs h
  | getPhys virt =>
    obtain rfl := h
    exact hs
  | other => exact VmmTranslation.other_inv hs h

/-- After boot, as long as each new table gets a frame of its own, the frames
of the tables are mapped to themselves at every access exactly when their
pages are at home at every call. -/
theorem tables_self_mapped_iff (s : VmState) (hb : BootFrames s) (tr : List (Event × System))
    (hr : Run Step (booted s) tr) (hfresh : Along Fresh (booted s) tr) :
    Along Sound (booted s) tr ↔ Along TablesAtHome (booted s) tr := by
  refine along_congr _ _ (along_mono (fun _ _ _ h => h.2) _ _ (run_guarded (I := Inv) ?_ _ _
    (VmmTranslation.init_inv hb) hr hfresh))
  intro u e t hu h hok
  exact ⟨step_inv hu h hok, sound_iff hu hok⟩

/-- A machine of 8 MiB whose pages below 4 MiB are taken, all but two. -/
def crowdedMachine : VmState :=
  ⟨fun _ => 0, ⟨fun i => if i = 0 then 0xFFFFFFF9#32 else if i < 32 then 0xFFFFFFFF#32 else 0#32,
    64, 2048, 1026⟩, 0⟩

theorem crowded_boot : BootFrames crowdedMachine := ⟨by decide, by decide, by decide⟩

theorem crowded_region {virt : ℕ} (h : dirIndex virt ≠ 0) :
    NeedsTable (booted crowdedMachine).vm virt := by
  change ¬ Present (pde (vmmInit crowdedMachine).mem (vmmInit crowdedMachine).pageDirectory virt)
  rw [pde, VmmTranslation.init_tables crowded_boot (dirIndex_lt virt)]
  exact h

/-- The next free page is the first above 4 MiB, which no table maps. -/
theorem crowded_next : (pmmAllocPage (booted crowdedMachine).vm.pmm).1 = 0x400000 := by
  decide +kernel

theorem crowded_fresh :
    FreshFrame (booted crowdedMachine).vm (pmmAllocPage (booted crowdedMachine).vm.pmm).1 := by
  rw [crowded_next]
  refine ⟨by decide, ?_⟩
  rintro ⟨i, hi, hp, hf⟩
  obtain rfl := (VmmTranslation.init_tables crowded_boot hi).mp hp
  have hframe := hf.trans (VmmTranslation.init_frame crowded_boot)
  exact absurd hframe (by decide)

def mapCall (s : System) (virt phys flags : ℕ) : Event × System :=
  (.mapPage virt phys flags, ⟨vmmMapPage s.vm virt phys flags,
    Function.update s.pages (virt/pageSize) (some (mappedWord phys flags))⟩)

theorem mapCall_step (s : System) {virt phys flags : ℕ} (hv : virt < 4294967296)
    (hp : phys < 4294967296) (hf : flags < 4294967296) :
    Step s (mapCall s virt phys flags).1 (mapCall s virt phys flags).2 := ⟨hv, hp, hf, rfl, rfl⟩

theorem tables_self_mapped_iff_sample :
    Along Sound (booted crowdedMachine) [mapCall (booted crowdedMachine) 0x800000 0x9000 3] ↔
      Along TablesAtHome (booted crowdedMachine)
        [mapCall (booted crowdedMachine) 0x800000 0x9000 3] :=
  tables_self_mapped_iff crowdedMachine crowded_boot _
    ⟨mapCall_step _ (by decide) (by decide) (by decide), trivial⟩ ⟨fun _ => crowded_fresh, trivial⟩

/-- The memory below 4 MiB is used up, so the table for a new region is
cleared at an address that is not mapped. -/
theorem new_table_not_mapped :
    Run Step (booted crowdedMachine) [mapCall (booted crowdedMachine) 0x800000 0x9000 3] ∧
      ¬ Along Sound (booted crowdedMachine)
        [mapCall (booted crowdedMachine) 0x800000 0x9000 3] := by
  refine ⟨⟨mapCall_step _ (by decide) (by decide) (by decide), trivial⟩, fun h => ?_⟩
  have hderef : Deref (booted crowdedMachine).vm (.mapPage 0x800000 0x9000 3)
      (cleared (booted crowdedMachine).vm 0) (pmmAllocPage (booted crowdedMachine).vm.pmm).1 :=
    .mapClear _ _ _ 0 (crowded_region (by decide)) (by decide)
  have hfresh : Fresh (booted crowdedMachine) (.mapPage 0x800000 0x9000 3)
      (booted crowdedMachine) := fun _ => crowded_fresh
  have hhome := (deref_at_home (VmmTranslation.init_inv crowded_boot) hfresh hderef).mp
    (h.1 _ _ hderef)
  rw [crowded_next] at hhome
  obtain ⟨w, hw, -⟩ := hhome
  have hnone : (booted crowdedMachine).pages (0x400000/pageSize) = none := by decide
  exact absurd (hnone.symm.trans hw) (by simp)

end Dionnex.VmmSelfMapping
