import Dionnex.MachineWrites
import Dionnex.FailureAtomicity
import Dionnex.FreshMemory
import Dionnex.Syscalls

/-!
# The kernel's first 4 MiB

At boot the first 4 MiB are mapped to themselves and closed to user mode.
No system call checks an address that its caller passes, so a call keeps
this range exactly as far as its arguments do: the pages that it maps or
unmaps lie above the range, the bytes that it stores miss the page tables,
and code that the caller chose is not run or leaves the tables alone.
-/

set_option autoImplicit false

namespace Dionnex.KernelRange
open ByteMemory LinkedChain FirstFit PageTables Dionnex.PmmBitmap Dionnex.KernelHeap Dionnex.HeapBlocks
open Dionnex.HeapOwnership Dionnex.HeapWrites Dionnex.Vmm Dionnex.UserPages Dionnex.UserMemory
open Dionnex.PagedAccess Dionnex.ElfLoader Dionnex.TwinRuns Dionnex.FreshMemory Dionnex.Process
open Dionnex.ProcessLists Dionnex.ProcessImage Dionnex.MachineWrites Dionnex.Syscalls

def kernelEnd : ℕ := 4194304

/-- The kernel range is mapped to itself, for the kernel only. -/
def KernelMapped (s : VmState) : Prop :=
  ∀ va < kernelEnd, translateAt s va = some va ∧ ¬ UserReadable s va

variable {available : Set ℕ} {total : ℕ} {held : List ℕ} {m : Machine} {bs : List Block} {s t : VmState}

/-- The kernel stacks of the processes are blocks of the heap. -/
structure Settled (available : Set ℕ) (total : ℕ) (held : List ℕ) (m : Machine) (bs : List Block) : Prop where
  steady : Steady available total held m bs
  kernelStacks : ∃ l, Chain m.kernel.next m.kernel.procList l ∧ ∀ p ∈ l,
    (m.kernel.procs p).kernelStack = 0 ∨ ∃ b ∈ bs, (m.kernel.procs p).kernelStack = b.addr+headerSize

/-! ## What a call may touch -/

/-- The `n` pages from `base` on lie above the kernel range. -/
def AboveKernel (base n : ℕ) : Prop := ∀ i < n, kernelEnd ≤ pageAt base i

instance (base n : ℕ) : Decidable (AboveKernel base n) := inferInstanceAs (Decidable (∀ i < n, _))

/-- The `n` bytes from `va` on lie outside the frames `K`. -/
def Misses (K : Set ℕ) (s : VmState) (va n : ℕ) : Prop :=
  ∀ i < n, ∀ x, translateAt s (va+i) = some x → frameOf x ∉ K

/-- The pool after `k` pages have been taken from it. -/
def drained (p : Pmm) (k : ℕ) : Pmm := (fun p => (pmmAllocPage p).2)^[k] p

/-- The `n` pages from `base` on that the pool serves lie above the kernel range, or each gets the frame
that it has, under a closed directory entry. -/
def Spared (s : VmState) (base n : ℕ) : Prop :=
  ∀ i < n, framesNeeded s base 0 i < (freeSet s.pmm).ncard → pageAt base i < kernelEnd →
    (pmmAllocPage (drained s.pmm (framesNeeded s base 0 i))).1 = frameOf (pageAt base i) ∧
      ¬ UserBits (dirEntryAt s (pageAt base i))

/-- A growth of the heap by three pages from any free page leaves the tables alone. -/
def Unspilled (s : VmState) : Prop :=
  ∀ k ∈ freeSet s.pmm, wrap ((k+1)*pageSize) ∉ kernelFrames s ∧ wrap ((k+2)*pageSize) ∉ kernelFrames s

/-- The program's pages lie above the kernel range, and it writes nowhere else. -/
def TameProgram (d : Mem) (size : ℕ) : Prop :=
  TameImage (some d) size ∧ ∀ p ∈ imageRange (phdrs d), 1024 ≤ p

/-- The tables are the same before and after. -/
def TablesKept (m : Machine) (call : Option (ℕ × Machine)) : Prop :=
  ∀ r, call = some r → SameTables { m.vm with pmm := r.2.vm.pmm } r.2.vm

/-- The condition under which a call with these arguments keeps the kernel range. -/
def Harmless (e : Env) (m : Machine) (a b c : ℕ) : Syscall → Prop
  | .mmap => b ≠ 0 → Spared m.vm (if a ≠ 0 then a else 0x40000000) (pagesOf b)
  | .munmap => AboveKernel a (pagesOf b)
  | .sbrk => ∀ h, heapOf m = some h → h.brkMax < wrap (h.brk+a) → Spared m.vm h.brkMax (pagesOf a)
  | .exec => ∀ path d size, readString m.vm a stringBound = some path → e.initrdGetFile path = some (d, size) →
      TameProgram d size
  | .read => a = 0 → Misses (kernelFrames m.vm) m.vm b c
  | .gettimeofday => Misses (kernelFrames m.vm) m.vm a 8
  | .uname => Misses (kernelFrames m.vm) m.vm a 64 ∧ Misses (kernelFrames m.vm) m.vm (a+65) 64 ∧
      Misses (kernelFrames m.vm) m.vm (a+130) 64
  | .waitpid => b ≠ 0 → Misses (kernelFrames m.vm ∪ heapFrames m.heap) m.vm b 4
  | .fork => Unspilled m.vm
  | .close => ∀ ops close, readWord m.vm (a+nodeOps) = some ops → readWord m.vm (ops+opsClose) = some close →
      ops ≠ 0 → close ≠ 0 → TablesKept m (e.callClose close a m)
  | .initModule => ∀ name, readString m.vm c stringBound = some name → TablesKept m (e.moduleLoadBinary name a b m)
  | .deleteModule => ∀ name, readString m.vm a stringBound = some name → TablesKept m (e.moduleUnloadBinary name m)
  | _ => True

/-- The range is mapped as soon as paging is set up. -/
theorem init_mapped (hb : VmmTranslation.BootFrames s) : KernelMapped (vmmInit s) := by
  intro va hva
  have hidx : dirIndex va = 0 ∧ tblIndex va = va/4096 := by
    unfold kernelEnd at hva
    unfold dirIndex tblIndex
    omega
  have hpage : pageEntryAt (vmmInit s) va = va/4096*pageSize + 3 := by
    rw [VmmTranslation.init_low hb hidx.1, hidx.2]
  constructor
  · unfold translateAt
    rw [wrap_of_lt (by unfold kernelEnd at hva; omega), translate_eq, hpage, if_pos]
    · congr 1
      unfold frameOf pageSize
      omega
    · unfold Present pageSize
      omega
  · rintro ⟨hu, -⟩
    rw [hpage] at hu
    unfold UserBits pageSize at hu
    omega

/-! ## Keeping the range -/

theorem mapped_present (hk : KernelMapped s) {va : ℕ} (hva : va < kernelEnd) : Present (dirEntryAt s va) := by
  have htr := (hk va hva).1
  unfold translateAt at htr
  rw [wrap_of_lt (by unfold kernelEnd at hva; omega), translate_eq] at htr
  by_contra hn
  have hzero : pageEntryAt s va = 0 := if_neg hn
  rw [hzero, if_neg (by decide)] at htr
  cases htr

/-- An address with the same entries is mapped the same. -/
theorem mapped_at {va : ℕ} (hlt : va < 4294967296) (hpage : pageEntryAt t va = pageEntryAt s va)
    (hdir : dirEntryAt t va = dirEntryAt s va) (h : translateAt s va = some va ∧ ¬ UserReadable s va) :
    translateAt t va = some va ∧ ¬ UserReadable t va := by
  obtain ⟨htr, hsup⟩ := h
  unfold translateAt at htr ⊢
  rw [wrap_of_lt hlt, translate_eq] at htr ⊢
  unfold UserReadable at hsup ⊢
  rw [hpage, hdir]
  exact ⟨htr, hsup⟩

theorem mapped_same (hpages : ∀ va < kernelEnd, pageEntryAt t va = pageEntryAt s va)
    (hdirs : ∀ va < kernelEnd, dirEntryAt t va = dirEntryAt s va) (hk : KernelMapped s) : KernelMapped t := by
  intro va hva
  apply mapped_at _ (hpages va hva) (hdirs va hva) (hk va hva)
  unfold kernelEnd at hva
  omega

theorem mapped_tables (h : SameTables s t) (hk : KernelMapped s) : KernelMapped t :=
  mapped_same (fun va _ => h.pages va) (fun va _ => h.dirs va) hk

theorem mapped_lent {V : Set ℕ} (h : Lent s V t) (hV : ∀ p ∈ V, 1024 ≤ p) (hk : KernelMapped s) :
    KernelMapped t := by
  refine mapped_same (fun va hva => ?_) (fun va hva => h.dirs va (mapped_present hk hva)) hk
  refine h.kept va (by unfold kernelEnd at hva; omega) (fun hin => ?_)
  have hle := hV _ hin
  unfold kernelEnd at hva
  omega

/-- Stores outside the tables, whatever becomes of the pool. -/
theorem mapped_off (hs : Space s) (hoff : SameOff (outside (kernelFrames s)) s.mem t.mem)
    (hd : t.pageDirectory = s.pageDirectory) (hk : KernelMapped s) : KernelMapped t := by
  have hsame := sameTables_off hs hoff (Set.disjoint_left.mpr (fun x hx hin => hx hin))
  have hmem : KernelMapped { s with mem := t.mem } := mapped_tables hsame hk
  obtain ⟨mem, pmm, dir⟩ := t
  dsimp only at hd
  subst hd
  exact hmem

/-- The frame of a granted page is the next one of the pool, and a missing table takes one more. -/
theorem granted_next {va flags f : ℕ} (hs : Sound s) (hplain : Plain s) (hva : va < 4294967296) (hf : flags < 4096)
    (hg : Granted s va flags f (grantPage s va flags)) : f*pageSize = (pmmAllocPage s.pmm).1 ∧
      (grantPage s va flags).pmm = drained s.pmm (1 + if NeedsTable s va then 1 else 0) := by
  rcases alloc_cases s.pmm hs.padded with ⟨he, -⟩ | ⟨p, hp, ha⟩
  · exact absurd hg.free (he ▸ Set.notMem_empty f)
  · have hne : (pmmAllocPage s.pmm).1 ≠ 0 := by
      rw [ha]
      exact Nat.mul_ne_zero (fun h => hs.zeroTaken (h ▸ hp.1)) (by decide)
    have hm : Mapped (takePmmPage s) va (p*pageSize) flags _ :=
      map_spec hs.space hva (page_lt hs.padded hp.1) hf (table_fresh hs hne (Or.inl hplain))
    have hgrant : grantPage s va flags = vmmMapPage (takePmmPage s) va (p*pageSize) flags := by
      unfold grantPage
      rw [if_pos hne, ha]
    rw [hgrant] at hg ⊢
    constructor
    · have hpage := congrArg frameOf ((hg.pages va hva).symm.trans (hm.pages va hva))
      rw [if_pos rfl, if_pos rfl, pageEntry_frame (page_lt hs.padded hg.free) hf,
        pageEntry_frame (page_lt hs.padded hp.1) hf, aligned_frame (page_aligned hs.padded hg.free),
        aligned_frame (page_aligned hs.padded hp.1)] at hpage
      rw [ha]
      exact hpage
    · rw [hm.pmm]
      by_cases hn : NeedsTable s va
      · rw [if_pos (show NeedsTable (takePmmPage s) va from hn), if_pos hn]
        rfl
      · rw [if_neg (show ¬ NeedsTable (takePmmPage s) va from hn), if_neg hn]
        rfl

/-- Each page of a loop gets the frame that comes next in the pool after the pages before it. -/
theorem grantPages_drained {base flags i n : ℕ} (hs : Sound s) (hplain : Plain s) (hf : flags < 4096)
    (hu : flags &&& 4 = 4) (hn : n ≤ 1048576) : ∀ j < n, framesNeeded s base i j < (freeSet s.pmm).ncard →
      ∀ wa < 4294967296, SamePage (pageAt base (i+j)) wa → pageEntryAt (grantPages s base flags i n) wa =
        pageEntry (pmmAllocPage (drained s.pmm (framesNeeded s base i j))).1 flags := by
  induction n generalizing s i with
  | zero => exact fun j hj => absurd hj (Nat.not_lt_zero j)
  | succ n ih =>
    intro j hj hroom wa hwa hsame
    rcases grant_cases flags hs (pageAt_lt base i) hf (Or.inl hplain) with ⟨he, -⟩ | ⟨f, hg, hfits⟩
    · rw [he, Set.ncard_empty] at hroom
      exact absurd hroom (Nat.not_lt_zero _)
    · obtain ⟨hframe, hpool⟩ := granted_next hs hplain (pageAt_lt base i) hf hg
      change pageEntryAt (grantPages (grantPage s (pageAt base i) flags) base flags (i+1) n) wa = _
      generalize grantPage s (pageAt base i) flags = t at hg hframe hpool hfits ⊢
      cases j with
      | zero =>
        have hnone : framesNeeded s base i 0 = 0 := Nat.le_zero.mp (framesNeeded_le s base i 0)
        have hready : Ready t := ⟨hg.space, hg.padded, by
          by_cases he : freeSet t.pmm = ∅
          · exact Or.inl he
          · exact Or.inr ⟨hg.sound.resolve_left he, (hg.plain hplain).resolve_left he⟩⟩
        have hlent := @grantPages_lent _ base _ (i+1) n hready hf hu (by omega)
        rw [hlent.kept wa hwa, hg.pages wa hwa, if_pos (show wa/4096 = pageAt base i/4096 from hsame), hframe, hnone]
        · rfl
        · rintro ⟨l, hl, he⟩
          have hne : ¬ SamePage (pageAt base i) (pageAt base (i+1+l)) := pageAt_injective (by omega) (by omega)
          exact hne (he.symm.trans hsame)
      | succ j =>
        have hneed : framesNeeded s base i (j+1) = framesNeeded t base (i+1) j +
            (1 + if NeedsTable s (pageAt base i) then 1 else 0) := framesFor_granted _ hg
        obtain ⟨hsound, hkeep, hcount⟩ := hfits (by omega)
        have hidx : i+(j+1) = i+1+j := by omega
        rw [hidx] at hsame
        have hrest := ih (i := i+1) hsound (hkeep hplain) (by omega) j (by omega) (by omega) wa hwa hsame
        have hpages : drained t.pmm (framesNeeded t base (i+1) j) = drained s.pmm (framesNeeded s base i (j+1)) := by
          rw [hpool, hneed]
          exact (Function.iterate_add_apply _ _ _ _).symm
        rw [hrest, hpages]

/-- A loop that grants pages keeps the range when it spares it, and only then. -/
theorem grants_mapped {base n : ℕ} (hs : Ready s) (hn : n ≤ 1048576) (hk : KernelMapped s) :
    KernelMapped (grantPages s base userFlags 0 n) ↔ Spared s base n := by
  rcases hs.next with he | ⟨hsound, hplain⟩
  · rw [grantPages_empty he]
    refine iff_of_true hk (fun i _ hroom => ?_)
    rw [he, Set.ncard_empty] at hroom
    exact absurd hroom (Nat.not_lt_zero _)
  · obtain ⟨k, f, h, hcount⟩ := @grantPages_served _ base userFlags 0 _ hsound
      hplain (by decide) hn
    have hnext : ∀ i < n, framesNeeded s base 0 i < (freeSet s.pmm).ncard → ∀ wa < 4294967296,
        SamePage (pageAt base (0+i)) wa → pageEntryAt (grantPages s base userFlags 0 n) wa =
          pageEntry (pmmAllocPage (drained s.pmm (framesNeeded s base 0 i))).1 userFlags :=
      grantPages_drained hsound hplain (by decide) (by decide) hn
    generalize grantPages s base userFlags 0 n = t at h hnext ⊢
    have hentry : ∀ i < n, framesNeeded s base 0 i < (freeSet s.pmm).ncard → ∀ va < kernelEnd,
        SamePage (pageAt base i) va → UserBits (pageEntryAt t va) ∧ dirEntryAt t va = dirEntryAt s va ∧
          translateAt t va = some ((pmmAllocPage (drained s.pmm (framesNeeded s base 0 i))).1 + va%4096) := by
      intro i hi hroom va hva hsame
      have hlt : va < 4294967296 := by
        unfold kernelEnd at hva
        omega
      have hik := (hcount i hi).mpr hroom
      have hpage := hnext i hi hroom va hlt (by rwa [Nat.zero_add])
      have hal : Aligned (pmmAllocPage (drained s.pmm (framesNeeded s base 0 i))).1 := alloc_aligned _
      have hframe : frameOf (pageEntryAt t va) = (pmmAllocPage (drained s.pmm (framesNeeded s base 0 i))).1 := by
        rw [hpage, pageEntry_frame hal.2 (by decide), aligned_frame hal]
      have hbits : UserBits (pageEntryAt t va) := by
        rw [h.pages i hik va hlt (by rwa [Nat.zero_add])]
        exact pageEntry_user (page_aligned hsound.padded (h.free i hik)) (by decide)
      refine ⟨hbits, h.dirs va (Or.inl (mapped_present hk hva)), ?_⟩
      unfold translateAt
      rw [wrap_of_lt hlt, translate_eq, if_pos (show Present (pageEntryAt t va) from hbits.1), hframe]
    constructor
    · intro hmapped i hi hroom hlow
      obtain ⟨hbits, hdir, htr⟩ := hentry i hi hroom _ hlow rfl
      obtain ⟨hsame, hsup⟩ := hmapped _ hlow
      have hva := Option.some.inj (htr.symm.trans hsame)
      constructor
      · unfold frameOf
        omega
      · intro hu
        rw [← hdir] at hu
        exact hsup ⟨hbits, hu⟩
    · intro hspared va hva
      have hlt : va < 4294967296 := by
        unfold kernelEnd at hva
        omega
      by_cases hin : ∃ j < k, SamePage (pageAt base (0+j)) va
      · obtain ⟨j, hj, hsame⟩ := hin
        rw [Nat.zero_add] at hsame
        have hjn := hj.trans_le h.length
        have hroom := (hcount j hjn).mp hj
        obtain ⟨-, hdir, htr⟩ := hentry j hjn hroom va hva hsame
        have hlow : pageAt base j < kernelEnd := by
          unfold SamePage at hsame
          unfold kernelEnd at *
          omega
        obtain ⟨hframe, hsup⟩ := hspared j hjn hroom hlow
        have hback : frameOf (pageAt base j) + va%4096 = va := by
          unfold SamePage at hsame
          unfold frameOf
          omega
        rw [htr, hframe, hback]
        constructor
        · rfl
        · rintro ⟨-, hu⟩
          rw [hdir] at hu
          apply hsup
          have hidx : dirIndex (pageAt base j) = dirIndex va := by
            unfold SamePage at hsame
            unfold dirIndex
            omega
          unfold dirEntryAt pde at hu ⊢
          rwa [hidx]
      · refine mapped_at hlt (h.kept va hlt (fun j hj hsame => hin ⟨j, hj, hsame⟩)) ?_ (hk va hva)
        exact h.dirs va (Or.inl (mapped_present hk hva))

/-- `sys_munmap` keeps the range when its pages lie above it, and only then. -/
theorem unmap_mapped {addr len : ℕ} (hs : Space s) (hk : KernelMapped s) :
    KernelMapped (sysMunmap s addr len).2 ↔ AboveKernel addr (pagesOf len) := by
  have h := @unmapPages_spec _ addr 0 (pagesOf len) hs
  change KernelMapped (unmapPages s addr 0 (pagesOf len)) ↔ _
  constructor
  · intro hmapped i hi
    by_contra hlow
    rw [not_le] at hlow
    have hlt := pageAt_lt addr i
    have hgone := h.gone i hi (pageAt addr i) hlt (by rw [Nat.zero_add]; rfl)
    have htr := (hmapped (pageAt addr i) hlow).1
    unfold translateAt at htr
    rw [wrap_of_lt hlt, translate_eq, hgone, if_neg (by decide)] at htr
    cases htr
  · intro habove
    refine mapped_same (fun va hva => h.kept va (by unfold kernelEnd at hva; omega) ?_) (fun va _ => h.dirs va) hk
    intro j hj hsame
    have hle := habove j hj
    rw [Nat.zero_add] at hsame
    unfold SamePage at hsame
    unfold kernelEnd at *
    omega

/-! ## Stores for the caller -/

variable {K : Set ℕ}

/-- The tables have not moved and the frames `K` were not stored to. -/
structure Stored (K : Set ℕ) (s t : VmState) : Prop where
  tables : SameTables s t
  off : SameOff (outside K) s.mem t.mem

theorem Stored.refl (hs : Space s) : Stored K s s := ⟨SameTables.refl hs, SameOff.refl _ _⟩

theorem Stored.trans {u : VmState} (h : Stored K s t) (g : Stored K t u) : Stored K s u :=
  ⟨h.tables.trans g.tables, h.off.trans g.off⟩

theorem Stored.misses {va n : ℕ} (h : Stored K s t) (hm : Misses K s va n) : Misses K t va n := by
  intro i hi x hx
  rw [h.tables.translate] at hx
  exact hm i hi x hx

theorem storeByte_stored {va v : ℕ} (hs : Space s) (hK : kernelFrames s ⊆ K)
    (hm : ∀ x, translateAt s va = some x → frameOf x ∉ K) (h : storeByte s va v = some t) : Stored K s t := by
  obtain ⟨x, hx, rfl⟩ := Option.map_eq_some_iff.mp h
  have hlt := translateAt_lt hx
  refine ⟨store8_kernel hs hlt (fun hin => hm x hx (hK hin)), (store8_off s.mem x v).mono ?_⟩
  rintro y ⟨i, hi, rfl⟩
  obtain rfl : i = 0 := by omega
  change frameOf (wrap (x+0)) ∉ K
  rw [Nat.add_zero, wrap_of_lt hlt]
  exact hm x hx

theorem storeBytes_stored {va i n : ℕ} {f : ℕ → ℕ} (hs : Space s) (hK : kernelFrames s ⊆ K)
    (hm : ∀ j, i ≤ j → j < i+n → ∀ x, translateAt s (va+j) = some x → frameOf x ∉ K)
    (h : storeBytes s va f i n = some t) : Stored K s t := by
  induction n generalizing s i with
  | zero =>
    obtain rfl := Option.some.inj h
    exact Stored.refl hs
  | succ n ih =>
    obtain ⟨u, hu, hrest⟩ := Option.bind_eq_some_iff.mp h
    have hone := storeByte_stored hs hK (hm i le_rfl (by omega)) hu
    refine hone.trans (ih hone.tables.space (hone.tables.frames ▸ hK) ?_ hrest)
    intro j hj hjn x hx
    rw [hone.tables.translate] at hx
    exact hm j (by omega) (by omega) x hx

theorem misses_stored {va n : ℕ} {f : ℕ → ℕ} (hs : Space s) (hK : kernelFrames s ⊆ K) (hm : Misses K s va n)
    (h : storeBytes s va f 0 n = some t) : Stored K s t :=
  storeBytes_stored hs hK (fun j _ hj => hm j (by omega)) h

theorem readKeys_stored {buf i n : ℕ} {keys : List UInt8} {r : ℕ × VmState} (hs : Space s)
    (hm : ∀ j, i ≤ j → j < i+n → ∀ x, translateAt s (buf+j) = some x → frameOf x ∉ kernelFrames s)
    (h : readKeys s buf keys i n = some r) : Stored (kernelFrames s) s r.2 := by
  induction n generalizing s i keys with
  | zero =>
    rw [readKeys] at h
    obtain rfl := Option.some.inj h
    exact Stored.refl hs
  | succ n ih =>
    cases keys with
    | nil => cases h
    | cons c rest =>
      rw [readKeys] at h
      split at h
      · obtain rfl := Option.some.inj h
        exact Stored.refl hs
      · obtain ⟨u, hu, hrest⟩ := Option.bind_eq_some_iff.mp h
        have hone := storeByte_stored hs subset_rfl (hm i le_rfl (by omega)) hu
        split at hrest
        · obtain rfl := Option.some.inj hrest
          exact hone
        · have hlater := ih hone.tables.space (fun j hj hjn x hx => by
            rw [hone.tables.translate] at hx
            rw [hone.tables.frames]
            exact hm j (by omega) (by omega) x hx) hrest
          rw [hone.tables.frames] at hlater
          exact hone.trans hlater

theorem unameField_length (f : List UInt8) : (unameField f).length = 64 := by
  unfold unameField
  rw [KernelString.strncpy_length, List.length_replicate]

theorem read_mapped {e : Env} {fd buf len : ℕ} {r : ℕ × Machine} (hs : Space m.vm)
    (hm : fd = 0 → Misses (kernelFrames m.vm) m.vm buf len) (hk : KernelMapped m.vm)
    (h : sysRead e m fd buf len = some r) : KernelMapped r.2.vm := by
  unfold sysRead at h
  split at h
  · obtain rfl := Option.some.inj h
    exact hk
  · split at h
    · rename_i hfd
      obtain ⟨q, hq, rfl⟩ := Option.map_eq_some_iff.mp h
      exact mapped_tables (readKeys_stored hs (fun j _ hj => hm hfd j (by omega)) hq).tables hk
    · obtain rfl := Option.some.inj h
      exact hk

theorem gettimeofday_mapped {e : Env} {tv : ℕ} {r : ℕ × Machine} (hs : Space m.vm)
    (hm : Misses (kernelFrames m.vm) m.vm tv 8) (hk : KernelMapped m.vm)
    (h : sysGettimeofday e m tv = some r) : KernelMapped r.2.vm := by
  unfold sysGettimeofday at h
  split at h
  · obtain rfl := Option.some.inj h
    exact hk
  · obtain ⟨u, hu, hrest⟩ := Option.bind_eq_some_iff.mp h
    obtain ⟨v, hv, rfl⟩ := Option.map_eq_some_iff.mp hrest
    have hone : Stored (kernelFrames m.vm) m.vm u := misses_stored hs subset_rfl (fun j hj => hm j (by omega)) hu
    refine mapped_tables (hone.trans (misses_stored hone.tables.space hone.tables.frames.subset ?_ hv)).tables hk
    refine hone.misses (fun j hj => ?_)
    rw [Nat.add_assoc]
    exact hm (4+j) (by omega)

theorem uname_mapped {buf : ℕ} {r : ℕ × Machine} (hs : Space m.vm)
    (h0 : Misses (kernelFrames m.vm) m.vm buf 64) (h1 : Misses (kernelFrames m.vm) m.vm (buf+65) 64)
    (h2 : Misses (kernelFrames m.vm) m.vm (buf+130) 64) (hk : KernelMapped m.vm)
    (h : sysUname m buf = some r) : KernelMapped r.2.vm := by
  unfold sysUname at h
  split at h
  · obtain rfl := Option.some.inj h
    exact hk
  · obtain ⟨u, hu, hrest⟩ := Option.bind_eq_some_iff.mp h
    obtain ⟨v, hv, hrest⟩ := Option.bind_eq_some_iff.mp hrest
    obtain ⟨w, hw, rfl⟩ := Option.map_eq_some_iff.mp hrest
    unfold storeString at hu hv hw
    rw [unameField_length] at hu hv hw
    have hone := misses_stored hs subset_rfl h0 hu
    have htwo := hone.trans (misses_stored hone.tables.space hone.tables.frames.subset (hone.misses h1) hv)
    have hall := htwo.trans (misses_stored htwo.tables.space htwo.tables.frames.subset (htwo.misses h2) hw)
    exact mapped_tables hall.tables hk

/-! ## Calls that use the heap -/

theorem listed_of_inv (hi : Inv available total ⟨m.heap, held⟩ bs) (hK : ∀ x ∈ K, x ∈ held) :
    Listed K m.heap bs := by
  have h := listed_past hi hK (SameOff.refl _ _)
  exact ⟨h.blocks, h.apart, h.space, h.outside⟩

/-- The copy of the kernel stack stays in a block of the heap, or in three pages from a free one on. -/
theorem copy_outside {bs : List Block} {pmm : Pmm} {ptr size : ℕ} (hext : extent headerSize bs ⊆ outside K)
    (hspace : InSpace bs) (hsize : size ≤ 8192)
    (hfree : ∀ k ∈ freeSet pmm, ∀ n < 3, wrap ((k+n)*pageSize) ∉ K)
    (hptr : (∃ b ∈ bs, size ≤ b.size ∧ ptr = b.addr+headerSize) ∨ ∃ k ∈ freeSet pmm, ptr = k*pageSize+headerSize) :
    span ptr size ⊆ outside K := by
  rintro x ⟨i, hi, rfl⟩
  rcases hptr with ⟨b, hb, hfit, rfl⟩ | ⟨k, hk, rfl⟩
  · have hstop := (hspace b hb).2
    have hlt : b.addr+headerSize+i < b.stop headerSize := by
      unfold Block.stop
      omega
    rw [wrap_of_lt (hlt.trans_le hstop)]
    exact hext ⟨b, hb, by omega, hlt⟩
  · intro hin
    refine hfree k hk ((headerSize+i)/4096) (by unfold headerSize; omega) ?_
    have hframe : frameOf (wrap (k*pageSize+headerSize+i)) = wrap ((k+(headerSize+i)/4096)*pageSize) := by
      unfold frameOf wrap pageSize headerSize
      omega
    exact hframe ▸ hin

theorem fork_mapped (hm : Steady available total held m bs) (hfree : Unspilled m.vm) (hk : KernelMapped m.vm)
    {r : ℕ × Machine} (h : sysForkIn m = some r) : KernelMapped r.2.vm := by
  unfold sysForkIn at h
  split at h
  · obtain rfl := Option.some.inj h
    exact hk
  obtain ⟨q, hq, hrest⟩ := Option.bind_eq_some_iff.mp h
  obtain ⟨bs', hrec⟩ := record_spec hm hq
  have hoff := hrec.off _ hm.tables
  split at hrest
  · obtain rfl := Option.some.inj hrest
    exact mapped_off hm.space hoff hrec.directory hk
  obtain ⟨u, hu, rfl⟩ := Option.map_eq_some_iff.mp hrest
  have hlisted := listed_of_inv hrec.heap hm.tables
  have hpool := held_outside hrec.heap hm.tables
  have hthree : ∀ k ∈ freeSet q.2.vm.pmm, ∀ n < 3, wrap ((k+n)*pageSize) ∉ kernelFrames m.vm := by
    intro k hk n hn
    obtain ⟨h1, h2⟩ := hfree k (hrec.pool hk)
    have hlt := freeSet_lt q.2.vm.pmm hk
    have haddr : q.2.vm.pmm.totalPages ≤ 1048576 := hrec.heap.padded.addressable
    rcases (show n = 0 ∨ n = 1 ∨ n = 2 by omega) with rfl | rfl | rfl
    · rw [Nat.add_zero, wrap_of_lt (by unfold pageSize; omega)]
      exact hpool k hk
    · exact h1
    · exact h2
  obtain ⟨hoff', hkernel, hdir, -⟩ := kmallocIn_off (n := 2) hlisted hrec.heap.padded hpool hrec.heap.zero (by decide)
    (by decide) (by decide) (by decide) (fun k hk => hthree k hk 2 (by omega)) hu
  obtain ⟨h', hk', -⟩ := kmallocIn_iff.mp hu
  have hblock := kmalloc_block hlisted.blocks hlisted.apart hlisted.space hrec.heap.padded (by decide) (by decide) hk'
  refine mapped_off hm.space ((hoff.trans hoff').trans ?_) (hdir.trans hrec.directory) hk
  dsimp only
  split
  · rename_i hne
    refine (memcpy_off _ _ _ _).mono (copy_outside hlisted.outside hlisted.space le_rfl hthree ?_)
    exact hblock.resolve_left hne
  · exact SameOff.refl _ _

theorem unlink_stacks {k k' : Kernel} {p : ℕ} (h : unlinkProcess k p = some k') (q : ℕ) :
    (k'.procs q).kernelStack = (k.procs q).kernelStack := by
  unfold unlinkProcess at h
  split at h
  · obtain rfl := Option.some.inj h
    rfl
  · split at h
    · obtain rfl := Option.some.inj h
      rfl
    · obtain ⟨curr, -, rfl⟩ := Option.map_eq_some_iff.mp h
      split
      · change (Function.update k.procs curr _ q).kernelStack = _
        by_cases hq : q = curr
        · rw [hq, Function.update_self]
        · rw [Function.update_of_ne hq]
      · rfl

/-- The blocks of a process that ends go back to the heap. -/
theorem destroy_outside {A : Set ℕ} {m' : Machine} {p : ℕ} (hc : Chained K A m.heap)
    (hp : ∃ a ∈ A, p = a+headerSize)
    (hstack : (m.kernel.procs p).kernelStack = 0 ∨ ∃ a ∈ A, (m.kernel.procs p).kernelStack = a+headerSize)
    (h : processDestroyIn m p = some m') :
    SameOff (outside K) m.vm.mem m'.vm.mem ∧ m'.vm.pageDirectory = m.vm.pageDirectory := by
  obtain ⟨k, hk, hrest⟩ := Option.bind_eq_some_iff.mp h
  rw [← unlink_stacks hk p] at hstack
  obtain ⟨a, ha, rfl⟩ := hp
  obtain ⟨u, hu, hlast⟩ := Option.bind_eq_some_iff.mp hrest
  dsimp only at hu hlast
  have hfirst : SameOff (outside K) m.vm.mem u.vm.mem ∧ Chained K A u.heap ∧
      u.vm.pageDirectory = m.vm.pageDirectory := by
    split at hu
    · rename_i hne
      obtain ⟨b, hb, he⟩ := hstack.resolve_left hne
      rw [he] at hu
      have hc' : Chained K A ({ m with kernel := k } : Machine).heap := ⟨hc.linked, hc.start, hc.outside⟩
      obtain ⟨hoff, hchained, -, hdir⟩ := kfreeIn_chained hc' hb hu
      exact ⟨hoff, hchained, hdir⟩
    · obtain rfl := Option.some.inj hu
      exact ⟨SameOff.refl _ _, ⟨hc.linked, hc.start, hc.outside⟩, rfl⟩
  obtain ⟨hoff, hchained, hdir⟩ := hfirst
  have hc' : Chained K A ({ u with
      kernel := u.kernel.put (a+headerSize) { u.kernel.procs (a+headerSize) with state := .dead } } : Machine).heap :=
    ⟨hchained.linked, hchained.start, hchained.outside⟩
  obtain ⟨hoff', -, -, hdir'⟩ := kfreeIn_chained hc' ha hlast
  exact ⟨hoff.trans hoff', hdir'.trans hdir⟩

theorem waitpid_mapped (hm : Settled available total held m bs) {pid status : ℕ}
    (hmiss : status ≠ 0 → Misses (kernelFrames m.vm ∪ heapFrames m.heap) m.vm status 4) (hk : KernelMapped m.vm)
    {r : ℕ × Machine} (h : sysWaitpid m pid status = some r) : KernelMapped r.2.vm := by
  obtain ⟨p, hp, hrest⟩ := Option.bind_eq_some_iff.mp h
  split at hrest
  · obtain rfl := Option.some.inj hrest
    exact hk
  rename_i hp0
  split at hrest
  · cases hrest
  obtain ⟨u, hu, hrest⟩ := Option.bind_eq_some_iff.mp hrest
  obtain ⟨m', hm', rfl⟩ := Option.map_eq_some_iff.mp hrest
  obtain ⟨l, hl, hlive⟩ := hm.steady.processes
  obtain ⟨l', hl', hstacks⟩ := hm.kernelStacks
  obtain rfl := chain_unique hl hl'
  have hin := (find_mem _ _ _ _ _ _ hl hp).resolve_left hp0
  have hstored : Stored (kernelFrames m.vm ∪ heapFrames m.heap) m.vm u := by
    split at hu
    · rename_i hne
      exact misses_stored hm.steady.space Set.subset_union_left (hmiss hne) hu
    · obtain rfl := Option.some.inj hu
      exact Stored.refl hm.steady.space
  have hheap : SameOff (outside (heapFrames m.heap)) m.heap.mem u.mem :=
    hstored.off.mono (fun x hx hin => hx (Or.inr hin))
  have hlisted := listed_past hm.steady.heap hm.steady.tables hheap
  have hchained : Chained (kernelFrames m.vm) {a | ∃ b ∈ bs, b.addr = a} ({ m with vm := u } : Machine).heap := by
    have hold := hlisted.chained
    exact ⟨hold.linked, hold.start, hold.outside⟩
  obtain ⟨b, hb, -, hpb⟩ := hlive p hin
  obtain ⟨hoff, hdir⟩ := destroy_outside hchained ⟨b.addr, ⟨b, hb, rfl⟩, hpb⟩
    ((hstacks p hin).imp_right (fun ⟨c, hc, he⟩ => ⟨c.addr, ⟨c, hc, rfl⟩, he⟩)) hm'
  have hmapped := mapped_tables hstored.tables hk
  rw [← hstored.tables.frames] at hoff
  exact mapped_off hstored.tables.space hoff hdir hmapped

/-! ## Every call -/

theorem kept_mapped {r : ℕ × Machine} {call : Option (ℕ × Machine)} (h : TablesKept m call)
    (hk : KernelMapped m.vm) (hr : call = some r) : KernelMapped r.2.vm := by
  have hpool : KernelMapped { m.vm with pmm := r.2.vm.pmm } := hk
  exact mapped_tables (h r hr) hpool

theorem sbrk_mapped {e : Env} {a b c : ℕ} (hs : Ready m.vm) (hk : KernelMapped m.vm) :
    KernelMapped (sysSbrkIn m a).2.vm ↔ Harmless e m a b c .sbrk := by
  change KernelMapped (sysSbrk ⟨m.vm, heapOf m⟩ a).2.vm ↔
    ∀ h, heapOf m = some h → h.brkMax < wrap (h.brk+a) → Spared m.vm h.brkMax (pagesOf a)
  unfold sysSbrk
  cases hh : heapOf m with
  | none => exact iff_of_true hk (fun h he => by cases he)
  | some p =>
    have hspare : (∀ h, some p = some h → h.brkMax < wrap (h.brk+a) → Spared m.vm h.brkMax (pagesOf a)) ↔
        (p.brkMax < wrap (p.brk+a) → Spared m.vm p.brkMax (pagesOf a)) := by
      constructor
      · intro hall
        exact hall p rfl
      · rintro hone h ⟨⟩
        exact hone
    rw [hspare]
    dsimp only
    split
    · rename_i hle
      exact iff_of_true hk (fun hlt => absurd hlt (not_lt.mpr hle))
    · rename_i hlt
      rw [forall_prop_of_true (not_le.mp hlt)]
      exact grants_mapped hs (pagesOf_le a) hk

theorem mmap_mapped {e : Env} {a b c : ℕ} (hs : Ready m.vm) (hk : KernelMapped m.vm) :
    KernelMapped (sysMmap m.vm a b).2 ↔ Harmless e m a b c .mmap := by
  change _ ↔ (b ≠ 0 → Spared m.vm (if a ≠ 0 then a else 0x40000000) (pagesOf b))
  unfold sysMmap
  split
  · rename_i h0
    exact iff_of_true hk (fun h => absurd h0 h)
  · rename_i h0
    rw [forall_prop_of_true h0]
    exact grants_mapped hs (pagesOf_le b) hk

theorem exec_mapped {path : Option (List UInt8)} {file : Option (Mem × ℕ)} {r : ℕ × Machine} (hs : Ready m.vm)
    (hk : KernelMapped m.vm) (hok : ∀ d size, file = some (d, size) → TameProgram d size)
    (h : sysExec m path file = some r) : KernelMapped r.2.vm := by
  unfold sysExec at h
  cases path with
  | none =>
    obtain rfl := Option.some.inj h
    exact hk
  | some path =>
    cases file with
    | none =>
      obtain rfl := Option.some.inj h
      exact hk
    | some f =>
      obtain ⟨d, size⟩ := f
      dsimp only at h
      split at h
      · obtain rfl := Option.some.inj h
        exact hk
      obtain ⟨q, hq, rfl⟩ := Option.map_eq_some_iff.mp h
      obtain ⟨htame, habove⟩ := hok d size rfl
      have hmapped : KernelMapped q.2 := by
        unfold elfLoadSegments at hq
        dsimp only at hq
        split at hq
        · obtain rfl := Option.some.inj hq
          exact hk
        · obtain ⟨u, hu, rfl⟩ := Option.map_eq_some_iff.mp hq
          obtain ⟨u', hu', hlent⟩ := segments_lent d hs (htame d rfl)
          obtain rfl := Option.some.inj (hu.symm.trans hu')
          exact mapped_lent hlent habove hk
      split
      · exact hmapped
      · exact hmapped

theorem close_mapped {e : Env} {node : ℕ} {r : ℕ × Machine} (hk : KernelMapped m.vm)
    (hok : ∀ ops close, readWord m.vm (node+nodeOps) = some ops → readWord m.vm (ops+opsClose) = some close →
      ops ≠ 0 → close ≠ 0 → TablesKept m (e.callClose close node m))
    (h : sysClose e m node = some r) : KernelMapped r.2.vm := by
  unfold sysClose at h
  split at h
  · obtain rfl := Option.some.inj h
    exact hk
  · obtain ⟨ops, hops, hrest⟩ := Option.bind_eq_some_iff.mp h
    split at hrest
    · obtain rfl := Option.some.inj hrest
      exact hk
    · rename_i hops0
      obtain ⟨close, hclose, hlast⟩ := Option.bind_eq_some_iff.mp hrest
      split at hlast
      · obtain rfl := Option.some.inj hlast
        exact hk
      · rename_i hclose0
        exact kept_mapped (hok ops close hops hclose hops0 hclose0) hk hlast

theorem module_mapped {run : List UInt8 → Option (ℕ × Machine)} {name : ℕ} {r : ℕ × Machine}
    (hk : KernelMapped m.vm)
    (hok : ∀ n, readString m.vm name stringBound = some n → TablesKept m (run n))
    (h : (readString m.vm name stringBound).bind run = some r) : KernelMapped r.2.vm := by
  obtain ⟨n, hn, hrest⟩ := Option.bind_eq_some_iff.mp h
  exact kept_mapped (hok n hn) hk hrest

/-- Calls that change nothing but records. -/
theorem records_mapped {call : Option (ℕ × Machine)} {r : ℕ × Machine} (hk : KernelMapped m.vm)
    (hsame : ∀ q, call = some q → q.2.vm = m.vm) (h : call = some r) : KernelMapped r.2.vm := by
  rw [hsame r h]
  exact hk

theorem perform_mapped (hm : Settled available total held m bs) (hk : KernelMapped m.vm) (e : Env)
    {a b c : ℕ} {call : Syscall} (hok : Harmless e m a b c call) {r : ℕ × Machine}
    (h : perform e m a b c call = some r) : KernelMapped r.2.vm := by
  have hspace := hm.steady.space
  have hready := steady_ready hm.steady.heap hspace hm.steady.tables
  cases call with
  | exit =>
    refine records_mapped hk (fun q hq => ?_) h
    obtain ⟨u, -, rfl⟩ := Option.map_eq_some_iff.mp hq
    rfl
  | fork => exact fork_mapped hm.steady hok hk h
  | read => exact read_mapped hspace hok hk h
  | write =>
    refine records_mapped hk (fun q hq => ?_) h
    obtain rfl := Option.some.inj hq
    unfold sysWrite
    split
    · rfl
    · split
      · rfl
      · rfl
  | «open» =>
    refine records_mapped hk (fun q hq => ?_) h
    change sysOpen e m a = some q at hq
    unfold sysOpen at hq
    split at hq
    · obtain rfl := Option.some.inj hq
      rfl
    · obtain ⟨u, -, rfl⟩ := Option.map_eq_some_iff.mp hq
      rfl
  | close => exact close_mapped hk hok h
  | waitpid => exact waitpid_mapped hm hok hk h
  | exec =>
    change sysExecAt e m a = some r at h
    unfold sysExecAt at h
    split at h
    · obtain rfl := Option.some.inj h
      exact hk
    · obtain ⟨path, hpath, hrest⟩ := Option.bind_eq_some_iff.mp h
      exact exec_mapped hready hk (fun d size he => hok path d size hpath he) hrest
  | sbrk =>
    obtain rfl := Option.some.inj h
    exact (sbrk_mapped hready hk).mpr hok
  | getpid =>
    obtain rfl := Option.some.inj h
    exact hk
  | getppid =>
    obtain rfl := Option.some.inj h
    exact hk
  | kill =>
    refine records_mapped hk (fun q hq => ?_) h
    obtain ⟨p, -, rfl⟩ := Option.map_eq_some_iff.mp hq
    split
    · rfl
    · split
      · rfl
      · rfl
  | mmap =>
    obtain rfl := Option.some.inj h
    exact (mmap_mapped hready hk).mpr hok
  | munmap =>
    obtain rfl := Option.some.inj h
    exact (unmap_mapped hspace hk).mpr hok
  | gettimeofday => exact gettimeofday_mapped hspace hok hk h
  | uname => exact uname_mapped hspace hok.1 hok.2.1 hok.2.2 hk h
  | nanosleep =>
    obtain rfl := Option.some.inj h
    exact hk
  | initModule =>
    change sysInitModule e m a b c = some r at h
    unfold sysInitModule at h
    split at h
    · obtain rfl := Option.some.inj h
      exact hk
    · exact module_mapped hk hok h
  | deleteModule =>
    change sysDeleteModule e m a = some r at h
    unfold sysDeleteModule at h
    split at h
    · obtain rfl := Option.some.inj h
      exact hk
    · exact module_mapped hk hok h
  | queryModule =>
    obtain rfl := Option.some.inj h
    exact hk

theorem table_bound {num : ℕ} {call : Syscall} (h : syscallTable num = some call) : num < maxSyscalls := by
  by_contra hbig
  unfold maxSyscalls at hbig
  unfold syscallTable at h
  split at h
  all_goals first | omega | cases h

theorem handler_perform {e : Env} {num a b c : ℕ} {call : Syscall} (h : syscallTable num = some call) :
    syscallHandler e m num a b c = perform e m a b c call := by
  unfold syscallHandler
  rw [if_pos (table_bound h), h]

/-- Nothing is found outside the machine. -/
def sampleEnv : Env where
  keys := []
  unixTime := 0
  initrdGetFile _ := none
  vfsOpen _ := 0
  callClose _ _ m := some (0, m)
  moduleLoadBinary _ _ _ m := some (0, m)
  moduleUnloadBinary _ m := some (0, m)

theorem sampleMachine_settled :
    Settled Set.univ 1024 [0x1000, 0x2000] FailureAtomicity.sampleMachine [] where
  steady := FailureAtomicity.sampleMachine_steady
  kernelStacks := ⟨[], rfl, fun _ h => absurd h List.not_mem_nil⟩

end Dionnex.KernelRange
