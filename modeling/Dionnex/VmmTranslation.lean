import Dionnex.LabelledRuns
import Dionnex.Vmm

/-!
# The tables as a map from pages to frames

Abstractly the virtual memory manager keeps a finite map from page numbers
to physical addresses: mapping updates one page, unmapping erases one.
`vmm_init` starts it with the identity on the first 4 MiB. The tables follow
this map along every run in which the allocator never returns a frame that
already holds the directory or a table; between the calls the rest of the
kernel may take pages and write wherever no table is.
-/

set_option autoImplicit false

namespace Dionnex.VmmTranslation
open ByteMemory LabelledRuns PageTables Dionnex.PmmBitmap Dionnex.Vmm

/-- Page numbers to the physical address each was last mapped to. -/
abbrev PageMap := ℕ → Option ℕ

def identityPages : PageMap := fun page => if page < 1024 then some (page*pageSize) else none

/-- What `vmm_get_phys` has to answer. -/
def PageMap.phys (pages : PageMap) (virt : ℕ) : ℕ :=
  match pages (virt/pageSize) with
  | none => 0
  | some phys => (phys &&& 0xFFFFF000) ||| (virt &&& 0xFFF)

structure System where
  vm : VmState
  pages : PageMap

inductive Event where
  | mapPage (virt phys flags : ℕ)
  | unmapPage (virt : ℕ)
  | other

def Step (s : System) : Event → System → Prop
  | .mapPage virt phys flags, t => virt < 4294967296 ∧ phys < 4294967296 ∧ flags < 0x1000 ∧
      t.vm = vmmMapPage s.vm virt phys flags ∧
      t.pages = Function.update s.pages (virt/pageSize) (some phys)
  | .unmapPage virt, t => virt < 4294967296 ∧ t.vm = vmmUnmapPage s.vm virt ∧
      t.pages = Function.update s.pages (virt/pageSize) none
  | .other, t => t.pages = s.pages ∧ t.vm.pageDirectory = s.vm.pageDirectory ∧
      SameOff {x | frameOf x ∉ kernelFrames s.vm} s.vm.mem t.vm.mem

def booted (s : VmState) : System := ⟨vmmInit s, identityPages⟩

/-- The two frames of `vmm_init` are pages and not the same page. -/
structure BootFrames (s : VmState) : Prop where
  directory : (pmmAllocPage s.pmm).1 ≠ 0
  first : (pmmAllocPage (pmmAllocPage s.pmm).2).1 ≠ 0
  fresh : (pmmAllocPage (pmmAllocPage s.pmm).2).1 ≠ (pmmAllocPage s.pmm).1

/-- The table frame obtained, if one is, is a page and is not in use. -/
def TableGranted (s : System) : Event → System → Prop
  | .mapPage virt _ _, _ => NeedsTable s.vm virt →
      (pmmAllocPage s.vm.pmm).1 ≠ 0 ∧ FreshFrame s.vm (pmmAllocPage s.vm.pmm).1
  | _, _ => True

def Target (wa : ℕ) : Event → Prop
  | .mapPage virt _ _ => wa/pageSize = virt/pageSize
  | .unmapPage virt => wa/pageSize = virt/pageSize
  | .other => False

def Agrees (s : System) : Prop := ∀ virt < 4294967296, vmmGetPhys s.vm virt = s.pages.phys virt

/-- After the step the tables are the map, and only the target has moved. -/
structure Faithful (s : System) (e : Event) (t : System) : Prop where
  agrees : Agrees t
  others : ∀ wa < 4294967296, ¬ Target wa e → vmmGetPhys t.vm wa = vmmGetPhys s.vm wa

/-- The entry of a page and its place in the map. -/
def Encodes (e : ℕ) : Option ℕ → Prop
  | none => ¬ Present e
  | some phys => phys < 4294967296 ∧ Present e ∧ frameOf e = frameOf phys

structure Inv (s : System) : Prop where
  space : Space s.vm
  encodes : ∀ wa < 4294967296, Encodes (pageEntryAt s.vm wa) (s.pages (wa/pageSize))

theorem Inv.agrees {s : System} (h : Inv s) : Agrees s := by
  intro virt hv
  have he := h.encodes virt hv
  have hoff : virt % 4096 < 4096 := Nat.mod_lt _ (by decide)
  rw [getPhys_eq, PageTables.translate, PageMap.phys]
  change (if Present (pageEntryAt s.vm virt) then _ else none).getD 0 = _
  cases hp : s.pages (virt/pageSize) with
  | none =>
    rw [hp] at he
    rw [if_neg he]
    rfl
  | some phys =>
    rw [hp] at he
    obtain ⟨hlt, hpres, hframe⟩ := he
    rw [if_pos hpres]
    change frameOf (pageEntryAt s.vm virt) + virt % 4096 =
      (phys &&& 0xFFFFF000) ||| (virt &&& 0xFFF)
    rw [hframe, land_frame hlt, show virt &&& 0xFFF = virt % 4096 from
      Nat.and_two_pow_sub_one_eq_mod virt 12, lor_flags (frameOf_aligned hlt) hoff]

theorem map_inv {s t : System} {virt phys flags : ℕ} (hs : Inv s)
    (h : Step s (.mapPage virt phys flags) t) (hg : TableGranted s (.mapPage virt phys flags) t) :
    Inv t := by
  obtain ⟨hv, hp, hf, hvm, hpages⟩ := h
  have hm := map_spec hs.space hv hp hf (fun hn => (hg hn).2)
  rw [← hvm] at hm
  constructor
  · exact hm.space
  · intro wa hwa
    rw [hm.pages wa hwa, hpages]
    by_cases hw : wa/4096 = virt/4096
    · rw [if_pos hw, show wa/pageSize = virt/pageSize from hw, Function.update_self]
      exact ⟨hp, pageEntry_present hp, pageEntry_frame hp hf⟩
    · rw [if_neg hw, Function.update_of_ne (show wa/pageSize ≠ virt/pageSize from hw)]
      exact hs.encodes wa hwa

theorem unmap_inv {s t : System} {virt : ℕ} (hs : Inv s) (h : Step s (.unmapPage virt) t) : Inv t := by
  obtain ⟨hv, hvm, hpages⟩ := h
  obtain ⟨hspace, hentries, -, -, -⟩ := unmap_spec hs.space hv
  rw [← hvm] at hspace hentries
  constructor
  · exact hspace
  · intro wa hwa
    rw [hentries wa hwa, hpages]
    by_cases hw : wa/4096 = virt/4096
    · rw [if_pos hw, show wa/pageSize = virt/pageSize from hw, Function.update_self]
      exact (by decide : ¬ Present 0)
    · rw [if_neg hw, Function.update_of_ne (show wa/pageSize ≠ virt/pageSize from hw)]
      exact hs.encodes wa hwa

theorem other_inv {s t : System} (hs : Inv s) (h : Step s .other t) : Inv t := by
  obtain ⟨hpages, hdir, hoff⟩ := h
  have hd : Disjoint {x | frameOf x ∉ kernelFrames s.vm} (footprint s.vm.mem s.vm.pageDirectory) := by
    refine Set.disjoint_left.mpr (fun x hx hfoot => ?_)
    exact hx hfoot
  obtain ⟨hapart, -, hentries⟩ := tables_off hs.space hoff hd
  constructor
  · rw [Space, hdir]
    exact hapart
  · intro wa hwa
    rw [pageEntryAt, hdir, (hentries wa).2, hpages]
    exact hs.encodes wa hwa

/-- A page whose place in the map is kept translates as before. -/
theorem kept_phys {s t : System} {wa : ℕ} (hs : Agrees s) (ht : Agrees t) (hwa : wa < 4294967296)
    (h : t.pages (wa/pageSize) = s.pages (wa/pageSize)) : vmmGetPhys t.vm wa = vmmGetPhys s.vm wa := by
  rw [hs wa hwa, ht wa hwa, PageMap.phys, PageMap.phys, h]

theorem step_faithful {s t : System} {e : Event} (hs : Inv s) (h : Step s e t)
    (hg : TableGranted s e t) : Inv t ∧ Faithful s e t := by
  have ht : Inv t := by
    cases e with
    | mapPage virt phys flags => exact map_inv hs h hg
    | unmapPage virt => exact unmap_inv hs h
    | other => exact other_inv hs h
  refine ⟨ht, ⟨ht.agrees, fun wa hwa hne => kept_phys hs.agrees ht.agrees hwa ?_⟩⟩
  cases e with
  | mapPage virt phys flags =>
    rw [h.2.2.2.2]
    exact Function.update_of_ne hne _ _
  | unmapPage virt =>
    rw [h.2.2]
    exact Function.update_of_ne hne _ _
  | other => rw [h.1]

theorem init_entry {s : VmState} (hb : BootFrames s) {i : ℕ} (hi : i < 1024) :
    entry (vmmInit s).mem (vmmInit s).pageDirectory i =
      if i = 0 then (pmmAllocPage (pmmAllocPage s.pmm).2).1 + 3 else 0 := by
  have hdir := alloc_aligned s.pmm
  have hfirst := alloc_aligned (pmmAllocPage s.pmm).2
  have hword : (pmmAllocPage (pmmAllocPage s.pmm).2).1 ||| vmmPresent ||| vmmWritable =
      (pmmAllocPage (pmmAllocPage s.pmm).2).1 + 3 := by
    rw [Nat.or_assoc]
    exact lor_flags hfirst (by decide)
  unfold vmmInit
  dsimp only
  rw [hword]
  by_cases h0 : i = 0
  · subst h0
    rw [entry_set_same, if_pos rfl, wrap_of_lt]
    unfold Aligned at hfirst
    omega
  · rw [entry_set_index _ hdir (by decide) hi h0, if_neg h0]
    rw [entry_off (fill_off hfirst _ _ 0 1024 (by omega)) hdir hi
      (fun x hx hx' => hb.fresh (hx'.symm.trans hx)), fill_entry hdir _ _ 0 1024 i (by omega) hi,
      if_pos (by omega)]
    rfl

theorem init_table {s : VmState} (hb : BootFrames s) {i : ℕ} (hi : i < 1024) :
    entry (vmmInit s).mem (pmmAllocPage (pmmAllocPage s.pmm).2).1 i = i*pageSize + 3 := by
  have hdir := alloc_aligned s.pmm
  have hfirst := alloc_aligned (pmmAllocPage s.pmm).2
  have hpage : Aligned (i*pageSize) := by
    unfold Aligned pageSize
    omega
  have hword : (i*pageSize) ||| vmmPresent ||| vmmWritable = i*pageSize + 3 := by
    rw [Nat.or_assoc]
    exact lor_flags hpage (by decide)
  unfold vmmInit
  dsimp only
  rw [entry_set_frame _ hdir hfirst (by decide) hi hb.fresh,
    fill_entry hfirst _ _ 0 1024 i (by omega) hi, if_pos (by omega), hword, wrap_of_lt]
  unfold pageSize
  omega

/-- The only table is that of the first 4 MiB. -/
theorem init_tables {s : VmState} (hb : BootFrames s) {i : ℕ} (hi : i < 1024) :
    Present (entry (vmmInit s).mem (vmmInit s).pageDirectory i) ↔ i = 0 := by
  have hfirst := alloc_aligned (pmmAllocPage s.pmm).2
  rw [init_entry hb hi]
  by_cases h0 : i = 0
  · rw [if_pos h0]
    refine iff_of_true ?_ h0
    unfold Aligned at hfirst
    unfold Present
    omega
  · rw [if_neg h0]
    exact iff_of_false (by decide) h0

theorem init_frame {s : VmState} (hb : BootFrames s) :
    frameOf (entry (vmmInit s).mem (vmmInit s).pageDirectory 0) =
      (pmmAllocPage (pmmAllocPage s.pmm).2).1 := by
  rw [init_entry hb (by decide), if_pos rfl]
  exact frameOf_flags (alloc_aligned _) (by decide)

theorem init_off (s : VmState) : SameOff {x | frameOf x = (pmmAllocPage s.pmm).1 ∨
    frameOf x = (pmmAllocPage (pmmAllocPage s.pmm).2).1} s.mem (vmmInit s).mem := by
  have hdir := alloc_aligned s.pmm
  have hfirst := alloc_aligned (pmmAllocPage s.pmm).2
  unfold vmmInit
  dsimp only
  refine SameOff.trans ?_ (SameOff.mono (setEntry_frame _ _ hdir (by decide)) (fun x hx => Or.inl hx))
  refine SameOff.trans ?_ (SameOff.mono (fill_off hfirst _ _ 0 1024 le_rfl) (fun x hx => Or.inr hx))
  exact SameOff.mono (fill_off hdir _ _ 0 1024 le_rfl) (fun x hx => Or.inl hx)

/-- After boot the first 4 MiB have their entries in the first table. -/
theorem init_low {s : VmState} (hb : BootFrames s) {wa : ℕ} (h0 : dirIndex wa = 0) :
    pageEntryAt (vmmInit s) wa = tblIndex wa * pageSize + 3 := by
  unfold pageEntryAt pte pde
  rw [h0, if_pos ((init_tables hb (by decide)).mpr rfl), init_frame hb]
  exact init_table hb (tblIndex_lt wa)

theorem init_inv {s : VmState} (hb : BootFrames s) : Inv (booted s) := by
  have hnone : ∀ wa, dirIndex wa ≠ 0 → pageEntryAt (vmmInit s) wa = 0 := by
    intro wa h0
    exact if_neg (fun hp => h0 ((init_tables hb (dirIndex_lt wa)).mp hp))
  constructor
  · refine ⟨alloc_aligned s.pmm, ?_, ?_⟩
    · intro i hi hp
      obtain rfl := (init_tables hb hi).mp hp
      change frameOf (entry (vmmInit s).mem (vmmInit s).pageDirectory 0) ≠ _
      rw [init_frame hb]
      exact hb.fresh
    · intro i hi j hj hpi hpj _
      rw [(init_tables hb hi).mp hpi, (init_tables hb hj).mp hpj]
  · intro wa hwa
    change Encodes (pageEntryAt (vmmInit s) wa) (identityPages (wa/pageSize))
    by_cases h0 : dirIndex wa = 0
    · have hidx : tblIndex wa = wa/4096 ∧ wa/4096 < 1024 := by
        unfold dirIndex at h0
        unfold tblIndex
        omega
      rw [init_low hb h0, identityPages, if_pos (show wa/pageSize < 1024 from hidx.2), hidx.1]
      unfold Encodes Present frameOf pageSize
      omega
    · have hpage : ¬ wa/pageSize < 1024 := by
        unfold dirIndex at h0
        unfold pageSize
        omega
      rw [hnone wa h0, identityPages, if_neg hpage]
      exact (by decide : ¬ Present 0)

def mapCall (s : System) (virt phys flags : ℕ) : Event × System :=
  (.mapPage virt phys flags,
    ⟨vmmMapPage s.vm virt phys flags, Function.update s.pages (virt/pageSize) (some phys)⟩)

def unmapCall (s : System) (virt : ℕ) : Event × System :=
  (.unmapPage virt, ⟨vmmUnmapPage s.vm virt, Function.update s.pages (virt/pageSize) none⟩)

theorem mapCall_step (s : System) {virt phys flags : ℕ} (hv : virt < 4294967296)
    (hp : phys < 4294967296) (hf : flags < 0x1000) :
    Step s (mapCall s virt phys flags).1 (mapCall s virt phys flags).2 := ⟨hv, hp, hf, rfl, rfl⟩

theorem unmapCall_step (s : System) {virt : ℕ} (hv : virt < 4294967296) :
    Step s (unmapCall s virt).1 (unmapCall s virt).2 := ⟨hv, rfl, rfl⟩

/-- A machine of 4 MiB whose page 0 is taken. -/
def sampleMachine : VmState :=
  ⟨fun _ => 0, ⟨fun i => if i = 0 then 1#32 else 0#32, 32, 1024, 1023⟩, 0⟩

theorem sample_boot : BootFrames sampleMachine := ⟨by decide, by decide, by decide⟩

def sampleMapped : Event × System := mapCall (booted sampleMachine) 0x400123 0x9ABC 7

end Dionnex.VmmTranslation
