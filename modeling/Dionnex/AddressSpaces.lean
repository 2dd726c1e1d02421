import Dionnex.FailureAtomicity
import Dionnex.FreshMemory
import Dionnex.MachineWrites

/-!
# Other address spaces

A process's own address space is what its page directory translates. No
mapping function ever changes the directory of a process: all of them work
on the shared directory, in which the processes run. So another address
space can only change where a store lands in its frames. Two calls can do
that: the loader, for an image that writes outside the pages it was given,
and `kmalloc`, whose growth writes a header into the second page after the
one it received.
-/

set_option autoImplicit false

namespace Dionnex.AddressSpaces
open ByteMemory FirstFit PageTables Dionnex.PmmBitmap Dionnex.KernelHeap Dionnex.HeapBlocks Dionnex.HeapPages
open Dionnex.HeapOwnership Dionnex.HeapWrites Dionnex.Vmm Dionnex.UserPages Dionnex.UserMemory
open Dionnex.PagedAccess Dionnex.ElfLoader Dionnex.TwinRuns Dionnex.KernelString Dionnex.Process
open Dionnex.ProcessImage Dionnex.MachineWrites

/-- The memory as the page directory of process `p` shows it. -/
def ownSpace (m : Machine) (p : ℕ) : VmState := { m.vm with pageDirectory := (m.kernel.procs p).pageDirectory }

structure SameSpace (m m' : Machine) (p : ℕ) : Prop where
  directory : (m'.kernel.procs p).pageDirectory = (m.kernel.procs p).pageDirectory
  translations : ∀ va, translateAt (ownSpace m' p) va = translateAt (ownSpace m p) va

/-- A live process whose directory and tables are frames of its own. -/
structure Other (held : List ℕ) (m : Machine) (bs : List Block) (p : ℕ) : Prop where
  record : ∃ b ∈ bs, b.free = false ∧ p = b.addr+headerSize
  space : Space (ownSpace m p)
  held : ∀ x ∈ kernelFrames (ownSpace m p), x ∈ held
  apart : ∀ x ∈ kernelFrames (ownSpace m p), x ∉ kernelFrames m.vm

/-- A growth of the heap from any free page leaves the frames alone. -/
def Unspilled (m : Machine) (p : ℕ) : Prop :=
  ∀ k ∈ freeSet m.vm.pmm, wrap ((k+2)*pageSize) ∉ kernelFrames (ownSpace m p)

variable {K : Set ℕ} {s t : VmState} {available : Set ℕ} {total : ℕ} {held : List ℕ} {m : Machine} {bs : List Block}

theorem create_others {k : Kernel} {name : Option (List UInt8)} {res : Resources} {p : ℕ} (hp : p ≠ res.proc) :
    (processCreate k name res).2.procs p = k.procs p := by
  have hput : ∀ (k : Kernel) (r : Record), (k.put res.proc r).procs p = k.procs p :=
    fun k r => Function.update_of_ne hp _ _
  unfold processCreate
  split
  · rfl
  · split
    · rfl
    · dsimp only
      split
      · exact hput _ _
      · split
        · exact hput _ _
        · split
          · exact hput _ _
          · exact hput _ _

/-! ## A whole call -/

/-- The call has not stored into `K`, nor changed a record other than `proc`. -/
structure Spared (K : Set ℕ) (proc : ℕ) (m m' : Machine) : Prop where
  off : SameOff (outside K) m.vm.mem m'.vm.mem
  records : ∀ p ≠ proc, m'.kernel.procs p = m.kernel.procs p

theorem finish_spared {m' : Machine} {name : Option (List UInt8)} {res : Resources} {proc : ℕ}
    (hproc : res.proc = proc) (hoff : SameOff (outside K) m.vm.mem m'.vm.mem) (hk : m'.kernel = m.kernel) :
    Spared K proc m (finish name res m').2 where
  off := hoff
  records p hp := by
    change (processCreate m'.kernel name res).2.procs p = _
    rw [create_others (hproc ▸ hp), hk]

theorem loadProcess_spared {name : Option (List UInt8)} {data : Option Mem} {size proc : ℕ} {r : ℕ × Machine}
    (hi : Inv available total ⟨m.heap, held⟩ bs) (hc : ∃ c ∈ bs, proc = c.addr+headerSize)
    (hk : Away K m.vm) (hK : ∀ x ∈ K, x ∈ held) (hframes : ∀ x ∈ kernelFrames m.vm, x ∈ held)
    (hlow : Present (dirEntryAt m.vm 0)) (hspill : ∀ k ∈ freeSet m.vm.pmm, wrap ((k+2)*pageSize) ∉ K)
    (ht : TameImage data size) (hne : (pmmAllocPage m.vm.pmm).1 ≠ 0)
    (h : loadProcess { m with vm := takePmmPage m.vm } name data size proc (pmmAllocPage m.vm.pmm).1 = some r) :
    Spared K proc m r.2 := by
  obtain ⟨k, hfree, hpage⟩ : ∃ k ∈ freeSet m.vm.pmm, pmmAllocPage m.vm.pmm = (k*pageSize, takePage m.vm.pmm k) := by
    rcases alloc_cases m.vm.pmm hk.ready.padded with ⟨-, ha⟩ | ⟨k, hk, ha⟩
    · exact absurd (by rw [ha]) hne
    · exact ⟨k, hk.1, ha⟩
  rw [hpage] at h
  unfold loadProcess at h
  dsimp only at h
  have hcleared := memset_off (takePmmPage m.vm).mem (k*pageSize) 0 4096
  generalize memset (takePmmPage m.vm).mem (k*pageSize) 0 4096 = mem at *
  -- the stores of the mapping loops and of the loader spare `K`, and the heap as well
  have hpast : ∀ J : Set ℕ, Away J m.vm → ∀ q, elfLoadSegments (mapUserSpace { takePmmPage m.vm with mem := mem })
      data size = some q → Past J m.vm q.2 := by
    intro J hJ q hq
    have hfirst := directory_past hJ hfree hpage hcleared
    have hspace := mapUserSpace_past hfirst.away (hfirst.low hlow)
    exact hfirst.trans (hspace.trans (load_past hspace.away ht hq))
  obtain ⟨q, hq, hrest⟩ := Option.bind_eq_some_iff.mp h
  have hboth := hpast K hk q hq
  have hheap := hpast _ (heapFrames_away hi hk.ready hframes) q hq
  have hlisted : Listed K ({ m with vm := q.2 } : Machine).heap bs := by
    have hold := listed_past (K := K) hi hK hheap.off
    exact ⟨hold.blocks, hold.apart, hold.space, hold.outside⟩
  split at hrest
  · obtain ⟨m', hm', rfl⟩ := Option.map_eq_some_iff.mp hrest
    obtain ⟨hoff, hkernel⟩ := kfreeIn_off hlisted hc hm'
    exact finish_spared rfl (hboth.off.trans hoff) hkernel
  · obtain ⟨u, hu, hlast⟩ := Option.bind_eq_some_iff.mp hrest
    have hzero : 0 ∉ freeSet q.2.pmm := fun h0 => hi.zero (hboth.pool h0)
    obtain ⟨hoff, hkernel, -, hsame⟩ := kmallocIn_off (n := 2) hlisted hboth.away.ready.padded
      hboth.away.pool hzero (by decide) (by decide)
      (by decide) (by decide) (fun j hj => hspill j (hboth.pool hj)) hu
    split at hlast
    · rename_i h0
      obtain ⟨m', hm', rfl⟩ := Option.map_eq_some_iff.mp hlast
      rw [hsame h0] at hm'
      obtain ⟨hoff', hkernel'⟩ := kfreeIn_off hlisted hc hm'
      exact finish_spared rfl (hboth.off.trans hoff') hkernel'
    · obtain rfl := Option.some.inj hlast
      exact finish_spared rfl (hboth.off.trans hoff) hkernel

theorem own_kept {p : ℕ} {m' : Machine} (hp : Other held m bs p)
    (hdir : (m'.kernel.procs p).pageDirectory = (m.kernel.procs p).pageDirectory)
    (hoff : SameOff (outside (kernelFrames (ownSpace m p))) m.vm.mem m'.vm.mem) : SameSpace m m' p := by
  refine ⟨hdir, fun va => ?_⟩
  have hown : SameOff (outside (kernelFrames (ownSpace m p))) (ownSpace m p).mem m'.vm.mem := hoff
  have hsame := sameTables_off hp.space hown (Set.disjoint_left.mpr (fun x hx hin => hx hin))
  have htr := hsame.translate va
  unfold translateAt at htr ⊢
  change translate m'.vm.mem (m'.kernel.procs p).pageDirectory (wrap va) = _
  rw [hdir]
  exact htr

theorem own_spared {p : ℕ} {m' : Machine} (hp : Other held m bs p) {proc : ℕ} (hne : p ≠ proc)
    (h : Spared (kernelFrames (ownSpace m p)) proc m m') : SameSpace m m' p :=
  own_kept hp (by rw [h.records p hne]) h.off

theorem Spared.trans {proc : ℕ} {m' m'' : Machine} (h : Spared K proc m m') (g : Spared K proc m' m'') :
    Spared K proc m m'' :=
  ⟨h.off.trans g.off, fun p hp => (g.records p hp).trans (h.records p hp)⟩

theorem create_spared (hm : Steady available total held m bs) (hlow : Present (dirEntryAt m.vm 0)) {p : ℕ}
    (hp : Other held m bs p) (hspill : Unspilled m p) {name : Option (List UInt8)} {data : Option Mem} {size : ℕ}
    {r : ℕ × Machine} (ht : TameImage data size) (h : processCreateIn m name data size = some r) :
    SameSpace m r.2 p := by
  have hi := hm.heap
  obtain ⟨b, hb, hused, hpb⟩ := hp.record
  have hp0 : p ≠ 0 := by
    unfold headerSize at hpb
    omega
  unfold processCreateIn at h
  split at h
  · obtain rfl := Option.some.inj h
    exact own_spared hp hp0 (finish_spared rfl (SameOff.refl _ _) rfl)
  obtain ⟨q, hq, hrest⟩ := Option.bind_eq_some_iff.mp h
  obtain ⟨bs', hrec⟩ := record_spec hm hq
  have hoff := hrec.off _ hp.held
  split at hrest
  · obtain rfl := Option.some.inj hrest
    exact own_spared hp hp0 (finish_spared rfl hoff hrec.kernel)
  rename_i hq0
  have hproc := hrec.block hq0
  have hfresh : p ≠ q.1 := fun he => hrec.fresh b hb hused (he ▸ hpb)
  -- the record's stores leave the shared tables alone, so the state is ready for grants
  have hsame := sameTables_off hm.space (hrec.off _ hm.tables)
    (Set.disjoint_left.mpr (fun x hx hin => hx hin))
  obtain ⟨hspace, hframes, hdirs⟩ := tables_pool hsame hrec.directory
  have htables : ∀ x ∈ kernelFrames q.2.vm, x ∈ held := fun x hx => hm.tables x (hframes ▸ hx)
  have haway : Away (kernelFrames (ownSpace m p)) q.2.vm := by
    refine ⟨steady_ready hrec.heap hspace htables, fun h0 => ?_, fun x hx => ?_, held_outside hrec.heap hp.held⟩
    · obtain ⟨k, hk, hk0, -⟩ := hi.held 0 (hp.held 0 h0)
      unfold pageSize at hk
      omega
    · rw [hframes]
      exact hp.apart x hx
  have hfirst : Spared (kernelFrames (ownSpace m p)) q.1 m q.2 := ⟨hoff, fun _ _ => by rw [hrec.kernel]⟩
  dsimp only at hrest
  split at hrest
  · obtain ⟨m', hm', rfl⟩ := Option.map_eq_some_iff.mp hrest
    have hlisted : Listed (kernelFrames (ownSpace m p)) ({ q.2 with vm := takePmmPage q.2.vm } : Machine).heap bs' := by
      have hold := listed_past hrec.heap hp.held (SameOff.refl _ _)
      exact ⟨hold.blocks, hold.apart, hold.space, hold.outside⟩
    obtain ⟨hoff', hkernel'⟩ := kfreeIn_off hlisted hproc hm'
    exact own_spared hp hfresh (hfirst.trans (finish_spared rfl hoff' hkernel'))
  · rename_i hne
    have hlast := loadProcess_spared hrec.heap hproc haway hp.held htables (by rw [hdirs]; exact hlow)
      (fun k hk => hspill k (hrec.pool hk)) ht hne hrest
    exact own_spared hp hfresh (hfirst.trans hlast)

theorem exec_spared (hm : Steady available total held m bs) {p : ℕ} (hp : Other held m bs p)
    {path : Option (List UInt8)} {file : Option (Mem × ℕ)} {r : ℕ × Machine}
    (ht : ∀ d size, file = some (d, size) → TameImage (some d) size) (h : sysExec m path file = some r) :
    SameSpace m r.2 p := by
  have hrefl : SameSpace m m p := ⟨rfl, fun _ => rfl⟩
  unfold sysExec at h
  cases path with
  | none =>
    obtain rfl := Option.some.inj h
    exact hrefl
  | some path =>
    cases file with
    | none =>
      obtain rfl := Option.some.inj h
      exact hrefl
    | some f =>
      obtain ⟨d, size⟩ := f
      dsimp only at h
      split at h
      · obtain rfl := Option.some.inj h
        exact hrefl
      obtain ⟨q, hq, rfl⟩ := Option.map_eq_some_iff.mp h
      have haway : Away (kernelFrames (ownSpace m p)) m.vm := by
        refine ⟨steady_ready hm.heap hm.space hm.tables, fun h0 => ?_, hp.apart, held_outside hm.heap hp.held⟩
        obtain ⟨k, hk, hk0, -⟩ := hm.heap.held 0 (hp.held 0 h0)
        unfold pageSize at hk
        omega
      have hoff := (load_past haway (ht d size rfl) hq).off
      refine own_kept hp ?_ ?_
      · by_cases h0 : q.1 = 0
        · rw [if_pos h0]
          change (Function.update m.kernel.procs m.kernel.currentProcess _ p).pageDirectory = _
          by_cases hpc : p = m.kernel.currentProcess
          · rw [hpc, Function.update_self]
            rfl
          · rw [Function.update_of_ne hpc]
        · rw [if_neg h0]
      · by_cases h0 : q.1 = 0
        · rw [if_pos h0]
          exact hoff
        · rw [if_neg h0]
          exact hoff

/-- Page 3 is the directory of the second process, page 4 the heap, page 5 the directory of the first. -/
def samplePair : Machine where
  vm := ⟨writeHeader (writeHeader sampleKernel.mem 0x4000 2000 0 0x47DD) 0x47DD 2070 0 0,
    (pmmAllocPage (pmmAllocPage (pmmAllocPage sampleKernel.pmm).2).2).2, 0x1000⟩
  heapStart := 0x4000
  heapEndAddr := 0x5000
  heapPages := [0x4000]
  kernel :=
    { procs := fun p => if p = 0x400D then { blankRecord with pageDirectory := 0x5000, next := 0x47EA }
        else { blankRecord with pageDirectory := 0x3000 }
      procList := 0x400D
      schedQueue := 0
      currentProcess := 0x400D
      nextPid := 3
      tssEsp0 := 0 }

def sampleBlocks : List Block := [⟨0x4000, 2000, false⟩, ⟨0x47DD, 2070, false⟩]

def sampleHeld : List ℕ := [0x1000, 0x2000, 0x3000, 0x5000]

theorem samplePair_blocks : Represents samplePair.heap sampleBlocks := by
  have hlast : nextAt samplePair.heap.mem 0x47DD = 0 := by decide +kernel
  refine ⟨⟨rfl, by decide, by decide +kernel, by decide, hlast⟩, fun b hb => ?_⟩
  rcases List.mem_pair.mp hb with rfl | rfl
  · exact ⟨by decide +kernel, by decide +kernel, by decide +kernel⟩
  · exact ⟨by decide +kernel, by decide +kernel, by decide +kernel⟩

theorem samplePair_off : SameOff {x | frameOf x = 0x4000} sampleKernel.mem samplePair.vm.mem := by
  refine SameOff.trans (SameOff.mono (writeHeader_off (by decide)) ?_) (SameOff.mono (writeHeader_off (by decide)) ?_)
  · rintro x ⟨hlo, hhi⟩
    change frameOf x = 0x4000
    unfold frameOf headerSize at *
    omega
  · rintro x ⟨hlo, hhi⟩
    change frameOf x = 0x4000
    unfold frameOf headerSize at *
    omega

theorem sampleKernel_off :
    SameOff {x | frameOf x = 0x1000 ∨ frameOf x = 0x2000} (fun _ => 0) sampleKernel.mem := by
  have hoff := VmmTranslation.init_off VmmTranslation.sampleMachine
  rw [show (pmmAllocPage VmmTranslation.sampleMachine.pmm).1 = 0x1000 by decide,
    show (pmmAllocPage (pmmAllocPage VmmTranslation.sampleMachine.pmm).2).1 = 0x2000 by decide] at hoff
  exact hoff

theorem samplePair_tables : Space samplePair.vm ∧ kernelFrames samplePair.vm = kernelFrames sampleKernel ∧
    ∀ wa, dirEntryAt samplePair.vm wa = dirEntryAt sampleKernel wa := by
  have hsame := sameTables_off sampleKernel_sound.1.space samplePair_off (Set.disjoint_left.mpr (fun x hx hin => by
    have hframe := FailureAtomicity.sampleKernel_frames _ hin
    rw [show frameOf x = 0x4000 from hx] at hframe
    exact absurd hframe (by decide)))
  exact tables_pool hsame rfl

theorem samplePair_steady : Steady Set.univ 1024 sampleHeld samplePair sampleBlocks where
  heap :=
    { blocks := samplePair_blocks
      apart := List.pairwise_pair.mpr (Or.inl (by decide))
      nopair := List.isChain_pair.mpr (by decide)
      owned := by
        rintro x ⟨b, hb, hlo, hhi⟩
        refine ⟨0x4000, List.mem_singleton_self _, ?_⟩
        unfold Block.stop headerSize at hhi
        rcases List.mem_pair.mp hb with rfl | rfl
        · unfold pageSize
          dsimp only at *
          omega
        · unfold pageSize
          dsimp only at *
          omega
      padded := alloc_padded _ (alloc_padded _ (alloc_padded _ sampleKernel_sound.1.padded))
      totalPages := by decide
      zero := fun h => absurd h.2 (by decide)
      free := Set.subset_univ _
      pages := by
        intro p hp
        obtain rfl := List.mem_singleton.mp hp
        exact ⟨by decide, 4, rfl, by decide, by decide, fun h => absurd h.2 (by decide), trivial⟩
      held := by
        intro p hp
        have hall : ∀ p ∈ sampleHeld, p = p/pageSize*pageSize ∧ p/pageSize ≠ 0 ∧ p/pageSize < 1024 ∧
            PackedBits.bit samplePair.vm.pmm.bitmap (p/pageSize) = true := by decide
        obtain ⟨he, h0, hlt, hbit⟩ := hall p hp
        exact ⟨p/pageSize, he, h0, hlt, fun h => Bool.noConfusion (hbit.symm.trans h.2), trivial⟩
      distinct := by decide }
  space := samplePair_tables.1
  tables := by
    rw [samplePair_tables.2.1]
    intro x hx
    rcases List.mem_pair.mp (FailureAtomicity.sampleKernel_frames x hx) with rfl | rfl
    · decide
    · decide
  counted := by
    have hfree : freeSet samplePair.vm.pmm =
        ((Finset.range 1024).filter (fun p => PackedBits.bit samplePair.vm.pmm.bitmap p = false) : Finset ℕ) := by
      ext p
      rw [Finset.mem_coe, Finset.mem_filter, Finset.mem_range]
      exact Iff.rfl
    rw [hfree, Set.ncard_coe_finset]
    decide +kernel
  processes := by
    have hlast : samplePair.kernel.next 0x47EA = 0 := by decide
    refine ⟨[0x400D, 0x47EA], ⟨rfl, by decide, by decide, by decide, hlast⟩, fun p hp => ?_⟩
    rcases List.mem_pair.mp hp with rfl | rfl
    · exact ⟨⟨0x4000, 2000, false⟩, by decide, rfl, rfl⟩
    · exact ⟨⟨0x47DD, 2070, false⟩, by decide, rfl, rfl⟩

theorem samplePair_own {i : ℕ} (hi : i < 1024) : entry samplePair.vm.mem 0x3000 i = 0 := by
  have hal : Aligned 0x3000 := by
    unfold Aligned
    decide
  have hkernel := entry_off sampleKernel_off hal hi (fun x hx hin => by
    rcases hin with h | h
    · rw [hx] at h
      cases h
    · rw [hx] at h
      cases h)
  have hpair := entry_off samplePair_off hal hi (fun x hx hin => by
    rw [show frameOf x = 0x4000 from hin] at hx
    cases hx)
  rw [hpair, hkernel]
  rfl

theorem samplePair_other : Other sampleHeld samplePair sampleBlocks 0x47EA := by
  have hnone : ∀ i < 1024,
      ¬ Present (entry (ownSpace samplePair 0x47EA).mem (ownSpace samplePair 0x47EA).pageDirectory i) := by
    intro i hi hp
    have hzero : entry (ownSpace samplePair 0x47EA).mem (ownSpace samplePair 0x47EA).pageDirectory i = 0 :=
      samplePair_own hi
    rw [hzero] at hp
    exact absurd hp (by decide)
  have hframes : ∀ x ∈ kernelFrames (ownSpace samplePair 0x47EA), x = 0x3000 := by
    intro x hx
    rcases Set.mem_insert_iff.mp hx with hx | ⟨i, hi, hp, -⟩
    · exact hx
    · exact absurd hp (hnone i hi)
  refine ⟨⟨⟨0x47DD, 2070, false⟩, by decide, rfl, rfl⟩, ⟨?_, fun i hi hp => absurd hp (hnone i hi),
    fun i hi j hj hp => absurd hp (hnone i hi)⟩, fun x hx => ?_, fun x hx hin => ?_⟩
  · change Aligned 0x3000
    unfold Aligned
    decide
  · rw [hframes x hx]
    decide
  · rw [hframes x hx, samplePair_tables.2.1] at hin
    exact absurd (FailureAtomicity.sampleKernel_frames _ hin) (by decide)

/-- A segment without memory whose file bytes make page 3 its own page table. -/
def intrudingImage : Mem := imageWith ⟨1, 84, 0x3000, 8, 0, 6⟩ ([0, 0, 0, 0] ++ wordBytes 0x3007)

end Dionnex.AddressSpaces
