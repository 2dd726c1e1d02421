import Dionnex.HeapSizes
import Dionnex.HeapTiling
import Dionnex.ModuleImage

/-!
# Loading and unloading modules

The list of modules and the heap that their blocks come from. The descriptors
are kept as records beside the heap, under the addresses of their blocks; the
code of a module is not known, and what it does to the heap is a parameter.
A load that fails gives back what it took: the exits differ in what that is.
-/

set_option autoImplicit false

namespace Dionnex.ModuleLoader
open ByteMemory FirstFit Dionnex.PmmBitmap Dionnex.KernelHeap Dionnex.HeapBlocks Dionnex.HeapTiling
open Dionnex.KernelString Dionnex.ModuleImage

structure Module where
  addr : ℕ
  name : List UInt8
  version : ℕ
  loaded : ℕ
  baseAddr : ℕ
  totalSize : ℕ
  initFunc : ℕ
  cleanupFunc : ℕ
  deriving DecidableEq, Repr

/-- `sizeof(kernel_module_t)`. -/
def descriptorSize : ℕ := 92

/-- `ran` lists the functions of modules that were called, the last first. -/
structure Kernel where
  sys : System
  modules : List Module
  ran : List ℕ

/-- The addresses of the exported functions, and what the code at an address does to the heap. -/
structure Env where
  address : String → ℕ
  code : ℕ → System → System

def take (s : System) (size : ℕ) : Except Fault (ℕ × System) :=
  (kmalloc s.heap size).map (fun r => (r.1, ⟨r.2, granted s.live r.1 size⟩))

def release (s : System) (ptr : ℕ) : Except Fault System :=
  (kfree s.heap ptr).map (fun h => ⟨h, without ptr s.live⟩)

def withMem (s : System) (m : Mem) : System := { s with heap := { s.heap with mem := m } }

def run (env : Env) (k : Kernel) (f : ℕ) : Kernel := { k with sys := env.code f k.sys, ran := f :: k.ran }

/-- What a call leaves; the image is `none` where no image was given. -/
structure Outcome where
  result : ℤ
  kernel : Kernel
  image : Option Mem
  tables : Option Tables
  visits : List Visit

def refused (k : Kernel) (data : Option Mem) : Outcome := ⟨-1, k, data, none, []⟩

/-- `strncpy` fills the cleared name but its last byte. -/
def storedName (name : List UInt8) : List UInt8 := strncpy 63 (List.replicate 64 0) name

def describe (addr base totalSize : ℕ) (name : List UInt8) (functions : ℕ × ℕ) : Module :=
  ⟨addr, storedName name, 1, 1, base, totalSize, functions.1, functions.2⟩

def isLoaded (k : Kernel) (name : List UInt8) : Bool := k.modules.any (fun m => strcmp m.name name = 0)

/-- From the linked image on. -/
def registerModule (env : Env) (k : Kernel) (name : List UInt8) (base totalSize : ℕ) (l : Linking) :
    Except Fault Outcome :=
  match l.functions with
  | none => (release k.sys base).map (fun sys => ⟨-1, { k with sys := sys }, some l.image, l.tables, l.visits⟩)
  | some functions =>
    (take k.sys descriptorSize).bind (fun r =>
      if r.1 = 0 then
        (release r.2 base).map (fun sys => ⟨-1, { k with sys := sys }, some l.image, l.tables, l.visits⟩)
      else
        let k := { k with sys := r.2, modules := describe r.1 base totalSize name functions :: k.modules }
        .ok ⟨0, run env k functions.1, some l.image, l.tables, l.visits⟩)

def moduleLoadBinary (env : Env) (k : Kernel) (name : Option (List UInt8)) (data : Option Mem) (size : ℕ) :
    Except Fault Outcome :=
  match name, data with
  | some name, some d =>
    if size = 0 then .ok (refused k data)
    else if isLoaded k name then .ok (refused k data)
    else if moduleValidateElf data size = false then .ok (refused k data)
    else
      (take k.sys (blockSize d)).bind (fun r =>
        if r.1 = 0 then .ok (refused { k with sys := r.2 } data)
        else
          let m := memset r.2.heap.mem r.1 0 (blockSize d)
          let l := linkModule (kernelSymbols env.address) m d r.1
          registerModule env { k with sys := withMem r.2 l.mem } name r.1 (blockSize d) l)
  | _, _ => .ok (refused k data)

/-- The first module of the name, and the list without it. -/
def unlink (name : List UInt8) : List Module → Option (Module × List Module)
  | [] => none
  | m::ms => if strcmp m.name name = 0 then some (m, ms) else (unlink name ms).map (fun r => (r.1, m::r.2))

def cleanup (env : Env) (k : Kernel) (m : Module) : Kernel :=
  if m.cleanupFunc ≠ 0 then run env k m.cleanupFunc else k

/-- The base block, if there is one, and the descriptor. -/
def releaseModule (s : System) (m : Module) : Except Fault System :=
  (if m.baseAddr ≠ 0 then release s m.baseAddr else .ok s).bind (fun s => release s m.addr)

def moduleUnloadBinary (env : Env) (k : Kernel) (name : Option (List UInt8)) : Except Fault (ℤ × Kernel) :=
  match name with
  | none => .ok (-1, k)
  | some name =>
    match unlink name k.modules with
    | none => .ok (-1, k)
    | some (m, rest) =>
      (releaseModule (cleanup env k m).sys m).map (fun sys =>
        (0, { cleanup env k m with sys := sys, modules := rest }))

/-! ## Pointers that are not in use -/

section Fresh

variable {h h' : Heap} {bs : List Block} {n q : ℕ}

/-- `kmalloc` returns no pointer to a block in use. -/
theorem kmalloc_fresh (hv : HeapSizes.Valid h bs) (hk : kmalloc h n = .ok (q, h')) (hq : q ≠ 0) :
    ∀ b ∈ bs, b.free = false → q ≠ b.addr+headerSize := by
  have hr : ¬ HeapSizes.Refused h bs n := fun hr => hq ((HeapSizes.kmalloc_null_iff hv hk).mpr hr)
  have h0 : n ≠ 0 := fun h0 => hr (Or.inl h0)
  intro b hb hused he
  cases hp : place headerSize 16 (alignUp4 n) bs with
  | none =>
    have hpage : (takeHeapPage h).1 ≠ 0 :=
      fun hp0 => hr (Or.inr ⟨place_none.mp hp, (HeapSizes.page_iff hv.padded).mp hp0⟩)
    obtain ⟨g, hg, -⟩ := @HeapRealloc.growHeap_memory h (alignUp4 n) (lastAddr 0 bs) hpage
    obtain ⟨f, -, hleast, haddr, -⟩ := HeapSizes.first_page hv.padded hpage
    rw [HeapSizes.kmalloc_none hv h0 (place_none.mp hp), hg] at hk
    cases hk
    have hclear := hv.clear f hleast.1 b hb
    unfold Block.stop pageSize headerSize at *
    omega
  | some r =>
    obtain ⟨l, c, r, rfl, hl, hc, -, -⟩ := place_some hp
    have hmem : c ∈ l++c::r := List.mem_append_right l List.mem_cons_self
    have hlen := represents_length hv.heap.blocks hv.heap.space
    rw [List.length_append] at hlen
    have hfind : findFit h.mem (alignUp4 n) loopBound h.heapStart 0 = .ok (.found c.addr) :=
      findFit_found hv.heap.blocks hl hc (by omega)
    have hfound : q = wrap (c.addr+headerSize) := by
      rw [kmalloc, if_neg h0, hfind] at hk
      cases hk
      rfl
    rw [wrap_of_lt (hv.pointers c hmem)] at hfound
    have hsame : b = c := by
      by_contra hne
      have hsymm : Std.Symm (Clear headerSize) := ⟨fun a b => clear_symm⟩
      exact clear_addr (by decide) (hv.heap.apart.forall hb hmem hne) (by omega)
    rw [hsame, hc.1] at hused
    cases hused

end Fresh

/-! ## Loads that fail -/

/-- The blocks of the heap, those in use among them held by the live allocations. -/
structure Held (s : System) (bs : List Block) : Prop where
  valid : HeapSizes.Valid s.heap bs
  used : ∀ a ∈ s.live, ∃ b ∈ bs, a.1 = b.addr+headerSize ∧ b.free = false

/-- The same modules and live blocks, and no function of a module was called. -/
structure Unchanged (k k' : Kernel) : Prop where
  modules : k'.modules = k.modules
  live : k'.sys.live = k.sys.live
  ran : k'.ran = k.ran

section Exits

variable {env : Env} {k : Kernel} {s t : System} {bs : List Block} {out : Outcome}

theorem bind_ok {α β : Type} {x : Except Fault α} {f : α → Except Fault β} {b : β} (h : x.bind f = .ok b) :
    ∃ a, x = .ok a ∧ f a = .ok b := by
  cases x with
  | error e => cases h
  | ok a => exact ⟨a, rfl, h⟩

theorem map_ok {α β : Type} {x : Except Fault α} {f : α → β} {b : β} (h : x.map f = .ok b) :
    ∃ a, x = .ok a ∧ f a = b := by
  cases x with
  | error e => cases h
  | ok a =>
    cases h
    exact ⟨a, rfl, rfl⟩

theorem take_live {size ptr : ℕ} (h : take s size = .ok (ptr, t)) : t.live = granted s.live ptr size := by
  obtain ⟨r, -, hr⟩ := map_ok h
  cases hr
  rfl

theorem release_live {ptr : ℕ} (h : release s ptr = .ok t) : t.live = without ptr s.live := by
  obtain ⟨r, -, rfl⟩ := map_ok h
  rfl

theorem take_fresh {size ptr : ℕ} (hs : Held s bs) (h : take s size = .ok (ptr, t)) (h0 : ptr ≠ 0) :
    ∀ a ∈ s.live, a.1 ≠ ptr := by
  obtain ⟨r, hk, hr⟩ := map_ok h
  cases hr
  intro a ha he
  obtain ⟨b, hb, haddr, hused⟩ := hs.used a ha
  exact kmalloc_fresh hs.valid hk h0 b hb hused (he.symm.trans haddr)

/-- What was taken is given back. -/
theorem without_granted {live : List (ℕ × ℕ)} {ptr size : ℕ} (h : ∀ a ∈ live, a.1 ≠ ptr) (h0 : ptr ≠ 0) :
    without ptr (granted live ptr size) = live := by
  unfold without granted
  rw [if_neg h0, List.filter_cons_of_neg (by simp)]
  exact List.filter_eq_self.mpr (fun a ha => by simpa using h a ha)

/-- Linking that fails, and a descriptor that is refused, end in the release of the block. -/
theorem register_cases {name : List UInt8} {base total : ℕ} {l : Linking}
    (h : registerModule env k name base total l = .ok out) :
    (out.image = some l.image ∧ out.tables = l.tables ∧ out.visits = l.visits) ∧
      ((out.result = -1 ∧ ∃ u t, u.live = k.sys.live ∧ release u base = .ok t ∧ out.kernel = { k with sys := t }) ∨
        ∃ functions addr t, l.functions = some functions ∧ take k.sys descriptorSize = .ok (addr, t) ∧ addr ≠ 0 ∧
          out.result = 0 ∧ out.kernel = run env
            { k with sys := t, modules := describe addr base total name functions :: k.modules } functions.1) := by
  unfold registerModule at h
  cases hf : l.functions with
  | none =>
    rw [hf] at h
    obtain ⟨t, ht, rfl⟩ := map_ok h
    exact ⟨⟨rfl, rfl, rfl⟩, Or.inl ⟨rfl, k.sys, t, rfl, ht, rfl⟩⟩
  | some functions =>
    rw [hf] at h
    obtain ⟨⟨addr, u⟩, hu, h⟩ := bind_ok h
    by_cases h0 : addr = 0
    · subst h0
      rw [if_pos rfl] at h
      obtain ⟨t, ht, rfl⟩ := map_ok h
      exact ⟨⟨rfl, rfl, rfl⟩, Or.inl ⟨rfl, u, t, take_live hu, ht, rfl⟩⟩
    · rw [if_neg h0] at h
      cases h
      exact ⟨⟨rfl, rfl, rfl⟩, Or.inr ⟨functions, addr, u, rfl, hu, h0, rfl, rfl⟩⟩

/-- A load ends before it has a block, or links the image into one. -/
theorem load_cases {name : Option (List UInt8)} {data : Option Mem} {size : ℕ}
    (h : moduleLoadBinary env k name data size = .ok out) :
    (out.result = -1 ∧ out.kernel.modules = k.modules ∧ out.kernel.sys.live = k.sys.live ∧ out.kernel.ran = k.ran ∧
      out.image = data) ∨
    ∃ n d base t, name = some n ∧ data = some d ∧ isLoaded k n = false ∧ moduleValidateElf data size = true ∧
      take k.sys (blockSize d) = .ok (base, t) ∧ base ≠ 0 ∧
      ∃ l, l = linkModule (kernelSymbols env.address) (memset t.heap.mem base 0 (blockSize d)) d base ∧
        registerModule env { k with sys := withMem t l.mem } n base (blockSize d) l = .ok out := by
  have hrefused : ∀ {d : Option Mem}, Except.ok (refused k d) = (Except.ok out : Except Fault Outcome) →
      out.result = -1 ∧ out.kernel.modules = k.modules ∧ out.kernel.sys.live = k.sys.live ∧ out.kernel.ran = k.ran ∧
        out.image = d := by
    intro d h
    cases h
    exact ⟨rfl, rfl, rfl, rfl, rfl⟩
  cases name with
  | none => exact Or.inl (hrefused h)
  | some n =>
    cases data with
    | none => exact Or.inl (hrefused h)
    | some d =>
      unfold moduleLoadBinary at h
      dsimp only at h
      by_cases hsize : size = 0
      · rw [if_pos hsize] at h
        exact Or.inl (hrefused h)
      rw [if_neg hsize] at h
      by_cases hloaded : isLoaded k n = true
      · rw [if_pos hloaded] at h
        exact Or.inl (hrefused h)
      rw [if_neg hloaded] at h
      by_cases hvalid : moduleValidateElf (some d) size = false
      · rw [if_pos hvalid] at h
        exact Or.inl (hrefused h)
      rw [if_neg hvalid] at h
      obtain ⟨⟨base, t⟩, ht, h⟩ := bind_ok h
      by_cases h0 : base = 0
      · subst h0
        rw [if_pos rfl] at h
        cases h
        exact Or.inl ⟨rfl, rfl, take_live ht, rfl, rfl⟩
      · rw [if_neg h0] at h
        exact Or.inr ⟨n, d, base, t, rfl, rfl, Bool.eq_false_iff.mpr hloaded, Bool.eq_true_of_not_eq_false hvalid, ht,
          h0, _, rfl, h⟩

end Exits

/-! ## A small module -/

def word (n : ℕ) : List UInt8 :=
  [UInt8.ofNat n, UInt8.ofNat (n/256), UInt8.ofNat (n/65536), UInt8.ofNat (n/16777216)]

def shdrBytes (type flags offset size link info : ℕ) : List UInt8 :=
  word 0 ++ word type ++ word flags ++ word 0 ++ word offset ++ word size ++ word link ++ word info ++ word 0 ++ word 0

/-- Four bytes of code with the function `module_init`, a symbol table that is `symtab` by its type, and one
relocation of the code. -/
def imageBytes (symtab info : ℕ) : List UInt8 :=
  [0x7F, 0x45, 0x4C, 0x46, 1, 1] ++ List.replicate 10 0 ++ [1, 0] ++ List.replicate 14 0 ++ word 52 ++
    List.replicate 12 0 ++ [5, 0, 0, 0] ++
    shdrBytes 0 0 0 0 0 0 ++ shdrBytes 1 2 252 4 0 0 ++ shdrBytes symtab 0 256 32 3 0 ++ shdrBytes 3 0 288 13 0 0 ++
    shdrBytes shtRel 0 304 8 2 1 ++
    [0xC3, 0, 0, 0] ++ List.replicate 16 0 ++ word 1 ++ word 0 ++ word 0 ++ [0, 0, 1, 0] ++
    [0] ++ moduleInitName ++ [0, 0, 0, 0] ++ word 0 ++ word info

def imageWith (symtab info : ℕ) : Mem := fun i => (imageBytes symtab info).getD i 0

/-- Functions at address 0 that do nothing. -/
def sampleEnv : Env := ⟨fun _ => 0, fun _ s => s⟩

/-- A heap with one block in use. -/
def sampleKernel : Kernel := ⟨⟨HeapRealloc.pairHeap, [(4109, 100)]⟩, [], []⟩

theorem sampleKernel_held : Held sampleKernel.sys HeapRealloc.pairBlocks where
  valid := HeapSizes.pairHeap_valid
  used a ha := by
    rw [List.mem_singleton.mp ha]
    exact ⟨⟨4096, 100, false⟩, by simp [HeapRealloc.pairBlocks], rfl, rfl⟩

def resultOf (r : Except Fault Outcome) : Option ℤ := r.toOption.map Outcome.result

theorem resultOf_some {r : Except Fault Outcome} {z : ℤ} (h : resultOf r = some z) :
    ∃ out, r = .ok out ∧ out.result = z := by
  cases r with
  | error e => cases h
  | ok out => exact ⟨out, rfl, Option.some.inj h⟩

end Dionnex.ModuleLoader
