import Dionnex.ElfLoader
import Dionnex.HeapOwnership
import Dionnex.Process

/-!
# Creating a process

`process_create` and `sys_exec` on one machine: page tables, page pool and
heap share one memory. The mappings go to the shared directory, whatever
directory the process has been given. A call that panics, hangs or faults
does not return. Process records are kept apart from the bytes of their
blocks, and `file` is what the initrd holds under a path.
-/

set_option autoImplicit false

namespace Dionnex.ProcessImage
open ByteMemory LinkedChain FirstFit PageTables Dionnex.PmmBitmap Dionnex.HeapBlocks Dionnex.HeapOwnership
open Dionnex.Vmm Dionnex.UserPages Dionnex.UserMemory Dionnex.PagedAccess Dionnex.ElfLoader
open Dionnex.KernelString Dionnex.KernelHeap Dionnex.Process

structure Machine where
  vm : VmState
  heapStart : ℕ
  heapEndAddr : ℕ
  heapPages : List ℕ
  kernel : Kernel

def Machine.heap (m : Machine) : Heap :=
  ⟨m.vm.mem, m.heapStart, m.heapEndAddr, m.vm.pmm, m.heapPages⟩

def Machine.withHeap (m : Machine) (h : Heap) : Machine :=
  { m with
    vm := { m.vm with mem := h.mem, pmm := h.pmm }
    heapStart := h.heapStart
    heapEndAddr := h.heapEndAddr
    heapPages := h.pages }

def kmallocIn (m : Machine) (size : ℕ) : Option (ℕ × Machine) :=
  (kmalloc m.heap size).toOption.map (fun r => (r.1, m.withHeap r.2))

def kfreeIn (m : Machine) (ptr : ℕ) : Option Machine :=
  (kfree m.heap ptr).toOption.map (fun h => m.withHeap h)

theorem kmallocIn_iff {m : Machine} {size : ℕ} {r : ℕ × Machine} : kmallocIn m size = some r ↔
    ∃ h, kmalloc m.heap size = .ok (r.1, h) ∧ r.2 = m.withHeap h := by
  unfold kmallocIn
  cases hk : kmalloc m.heap size with
  | error e =>
    constructor
    · intro he
      cases he
    · rintro ⟨h, hh, -⟩
      cases hh
  | ok q =>
    obtain ⟨ptr, h⟩ := q
    constructor
    · intro he
      obtain rfl := Option.some.inj he
      exact ⟨h, rfl, rfl⟩
    · rintro ⟨h', hh, hr⟩
      obtain ⟨rfl, rfl⟩ := Prod.mk.inj (Except.ok.inj hh)
      exact congrArg some (Prod.ext rfl hr.symm)

theorem kfreeIn_iff {m m' : Machine} {ptr : ℕ} : kfreeIn m ptr = some m' ↔
    ∃ h, kfree m.heap ptr = .ok h ∧ m' = m.withHeap h := by
  unfold kfreeIn
  cases hk : kfree m.heap ptr with
  | error e =>
    constructor
    · intro he
      cases he
    · rintro ⟨h, hh, -⟩
      cases hh
  | ok h =>
    constructor
    · intro he
      exact ⟨h, rfl, (Option.some.inj he).symm⟩
    · rintro ⟨h', hh, rfl⟩
      obtain rfl := Except.ok.inj hh
      rfl

/-- `sizeof(process_t)`. -/
def processSize : ℕ := 184

def kernelStackSize : ℕ := 8192

def procStackSize : ℕ := 1024*1024

/-- The loop that maps the first 4 MiB to themselves, from page `i` on. -/
def identityPages (s : VmState) (i : ℕ) : ℕ → VmState
  | 0 => s
  | n+1 => identityPages (vmmMapPage s (i*4096) (i*4096) (vmmPresent ||| vmmWritable)) (i+1) n

def stackBottom : ℕ := procStackBase - procStackSize

/-- The kernel range, the stack and the first pages of the heap. -/
def mapUserSpace (s : VmState) : VmState :=
  let s := identityPages s 0 1024
  let s := grantPages s stackBottom userFlags 0 (procStackSize/4096)
  grantPages s Dionnex.Process.procHeapBase userFlags 0 16

/-- The records after `process_create` has got these answers. -/
def finish (name : Option (List UInt8)) (res : Resources) (m : Machine) : ℕ × Machine :=
  ((processCreate m.kernel name res).1, { m with kernel := (processCreate m.kernel name res).2 })

/-- The call that follows the page directory; `proc` is the block of the record. -/
def loadProcess (m : Machine) (name : Option (List UInt8)) (data : Option Mem) (size proc pageDirectory : ℕ) :
    Option (ℕ × Machine) :=
  let vm := mapUserSpace { m.vm with mem := memset m.vm.mem pageDirectory 0 4096 }
  (elfLoadSegments vm data size).bind (fun r =>
    let m := { m with vm := r.2 }
    if r.1 ≠ 0 then (kfreeIn m proc).map (finish name ⟨true, proc, pageDirectory, false, 0, 0⟩)
    else
      (kmallocIn m kernelStackSize).bind (fun r =>
        let res := ⟨true, proc, pageDirectory, true, elfGetEntry data, r.1⟩
        if r.1 = 0 then (kfreeIn r.2 proc).map (finish name res) else some (finish name res r.2)))

/-- The new record's address or 0. -/
def processCreateIn (m : Machine) (name : Option (List UInt8)) (data : Option Mem) (size : ℕ) :
    Option (ℕ × Machine) :=
  if elfValidate data size = false then some (finish name ⟨false, 0, 0, false, 0, 0⟩ m)
  else
    (kmallocIn m processSize).bind (fun r =>
      if r.1 = 0 then some (finish name ⟨true, 0, 0, false, 0, 0⟩ r.2)
      else
        let pageDirectory := (pmmAllocPage r.2.vm.pmm).1
        let m := { r.2 with vm := takePmmPage r.2.vm }
        if pageDirectory = 0 then (kfreeIn m r.1).map (finish name ⟨true, r.1, 0, false, 0, 0⟩)
        else loadProcess m name data size r.1 pageDirectory)

def execRecord (r : Record) (entry : ℕ) (path : List UInt8) : Record :=
  { r with entryPoint := entry, userEip := entry, userEsp := procStackBase - 16,
           name := strncpy (procNameLen-1) r.name path }

def sysExec (m : Machine) (path : Option (List UInt8)) (file : Option (Mem × ℕ)) : Option (ℕ × Machine) :=
  match path, file with
  | none, _ => some (minusOne, m)
  | _, none => some (minusOne, m)
  | some path, some (d, size) =>
    if m.kernel.currentProcess = 0 then some (minusOne, m)
    else
      (elfLoadSegments m.vm (some d) size).map (fun r =>
        if r.1 = 0 then
          let p := m.kernel.currentProcess
          (0, { m with
                vm := r.2
                kernel := m.kernel.put p (execRecord (m.kernel.procs p) (elfGetEntry (some d)) path) })
        else (minusOne, { m with vm := r.2 }))

/-! ## The kernel range -/

def kernelFlags : ℕ := vmmPresent ||| vmmWritable

/-- The pages from `i` on are mapped to themselves and nothing else has moved. -/
structure Identity (s : VmState) (i n : ℕ) (t : VmState) : Prop where
  lent : Lent s (Set.Ico i (i+n)) t
  pmm : t.pmm = s.pmm
  dirs : ∀ wa, dirEntryAt t wa = dirEntryAt s wa
  frames : kernelFrames t = kernelFrames s
  pages : ∀ wa < 4294967296, i ≤ wa/4096 → wa/4096 < i+n →
    pageEntryAt t wa = pageEntry (wa/4096*4096) kernelFlags

theorem low_table {s : VmState} {i : ℕ} (h0 : Present (dirEntryAt s 0)) (hi : i < 1024) :
    ¬ NeedsTable s (i*4096) := by
  have hidx : dirIndex (i*4096) = dirIndex 0 := by
    unfold dirIndex
    omega
  unfold NeedsTable pde
  rw [hidx]
  exact not_not.mpr h0

theorem identity_one {s : VmState} {i : ℕ} (hs : Ready s) (h0 : Present (dirEntryAt s 0)) (hi : i < 1024) :
    Identity s i 1 (vmmMapPage s (i*4096) (i*4096) kernelFlags) := by
  have hn := low_table h0 hi
  have hm : Mapped s (i*4096) (i*4096) kernelFlags _ :=
    map_spec hs.space (by omega) (by omega) (by decide) (fun h => absurd h hn)
  have hpmm := hm.pmm
  have hframes := kernelFrames_map hm
  rw [if_neg hn] at hpmm hframes
  have hdirs : ∀ wa, dirEntryAt (vmmMapPage s (i*4096) (i*4096) kernelFlags) wa = dirEntryAt s wa := by
    intro wa
    rw [hm.dirs wa, if_neg (fun h => hn h.1)]
  refine ⟨⟨⟨hm.space, hpmm ▸ hs.padded, ?_⟩, hm.directory, hpmm ▸ subset_rfl, ?_, fun wa _ => hdirs wa, ?_,
    ?_, hframes ▸ subset_rfl, ?_⟩, hpmm, hdirs, hframes, ?_⟩
  · rw [hpmm]
    refine hs.next.imp_right (fun h => ⟨⟨hm.space, hpmm ▸ h.1.padded, hpmm ▸ h.1.zeroTaken, ?_⟩, ?_⟩)
    · rw [hpmm, hframes]
      exact h.1.reserved
    · unfold Plain
      rw [hframes]
      exact h.2
  · intro wa hwa hout
    rw [hm.pages wa hwa, if_neg]
    intro he
    refine hout (Set.mem_Ico.mpr ?_)
    omega
  · intro wa hnw
    refine Or.inl ?_
    change ¬ Present (dirEntryAt _ wa)
    rw [hdirs wa]
    exact hnw
  · intro x hx
    exact Or.inl (hframes ▸ hx)
  · exact hm.off.mono (fun x hx => Or.inl hx)
  · intro wa hwa hlo hhi
    rw [hm.pages wa hwa, if_pos (by omega), show wa/4096 = i by omega]

theorem identity_spec {s : VmState} {i n : ℕ} (hs : Ready s) (h0 : Present (dirEntryAt s 0))
    (hn : i+n ≤ 1024) : Identity s i n (identityPages s i n) := by
  induction n generalizing s i with
  | zero =>
    exact ⟨Lent.refl hs _, rfl, fun _ => rfl, rfl, fun wa _ hlo hhi => absurd hhi (by omega)⟩
  | succ n ih =>
    have hone := identity_one hs h0 (show i < 1024 by omega)
    have hrest := ih (i := i+1) hone.lent.ready (by rw [hone.dirs 0]; exact h0) (by omega)
    change Identity s i (n+1) (identityPages (vmmMapPage s (i*4096) (i*4096) kernelFlags) (i+1) n)
    refine ⟨(hone.lent.trans hrest.lent).mono ?_, hrest.pmm.trans hone.pmm,
      fun wa => (hrest.dirs wa).trans (hone.dirs wa), hrest.frames.trans hone.frames, ?_⟩
    · intro p hp
      rw [Set.mem_union, Set.mem_Ico, Set.mem_Ico] at hp
      rw [Set.mem_Ico]
      omega
    intro wa hwa hlo hhi
    by_cases hi : wa/4096 = i
    · rw [hrest.lent.kept wa hwa (fun h => by rw [Set.mem_Ico] at h; omega)]
      exact hone.pages wa hwa hlo (by omega)
    · exact hrest.pages wa hwa (by omega) (by omega)

/-! ## Sound machines -/

variable {available : Set ℕ} {total : ℕ} {held : List ℕ} {m : Machine} {bs : List Block}

/-- The heap and the page tables are sound and apart, and the processes are live blocks. -/
structure Steady (available : Set ℕ) (total : ℕ) (held : List ℕ) (m : Machine) (bs : List Block) : Prop where
  heap : Inv available total ⟨m.heap, held⟩ bs
  space : Space m.vm
  tables : ∀ x ∈ kernelFrames m.vm, x ∈ held
  counted : m.vm.pmm.freePages = (freeSet m.vm.pmm).ncard
  processes : ∃ l, Chain m.kernel.next m.kernel.procList l ∧
    ∀ p ∈ l, ∃ b ∈ bs, b.free = false ∧ p = b.addr+headerSize

/-- The heap's blocks are not tables. -/
theorem Steady.apart (hm : Steady available total held m bs) :
    Disjoint (extent headerSize bs) (kernelBytes m.vm) := by
  refine Set.disjoint_left.mpr (fun x hx hk => ?_)
  obtain ⟨p, hp, hlo, hhi⟩ := hm.heap.owned x hx
  obtain ⟨hheld, k, hk', -⟩ := hm.heap.pages p hp
  refine hheld ?_
  have hframe : frameOf x = p := by
    unfold pageSize at hhi hk'
    unfold frameOf
    omega
  rw [← hframe]
  exact hm.tables _ hk

theorem steady_ready (hi : Inv available total ⟨m.heap, held⟩ bs) (hs : Space m.vm)
    (hk : ∀ x ∈ kernelFrames m.vm, x ∈ held) : Ready m.vm := by
  refine ⟨hs, hi.padded, Or.inr ⟨⟨hs, hi.padded, hi.zero, ?_⟩, ?_⟩⟩
  · intro p hp hx
    obtain ⟨k, hpk, -, -, hfree, -⟩ := hi.held _ (hk _ hx)
    obtain rfl := page_mul_injective hpk
    exact hfree hp
  · intro hx
    obtain ⟨k, hpk, h0, -⟩ := hi.held _ (hk _ hx)
    unfold pageSize at hpk
    omega

end Dionnex.ProcessImage
