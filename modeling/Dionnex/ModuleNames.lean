import Dionnex.LabelledRuns
import Dionnex.ModuleLoader
import Dionnex.RamfsNames

/-!
# Names of modules

`module_load_binary` compares the whole name with the names in the list and
stores its first 63 bytes. Runs of loads and unloads, with changes of the heap
in between, keep the names apart and every loaded module under its name as long
as no longer name is registered.
-/

set_option autoImplicit false

namespace Dionnex.ModuleNames
open ByteMemory FirstFit LabelledRuns Dionnex.KernelHeap Dionnex.HeapBlocks Dionnex.HeapTiling
open Dionnex.KernelString Dionnex.ModuleImage Dionnex.ModuleLoader
open Dionnex.RamfsNames (CString longName)

def nameOf (m : Module) : List UInt8 := cstr m.name

/-- Calls with their results; the rest of the kernel has only the list in common with its past. -/
inductive Event where
  | load (name : CString) (data : Option Mem) (size : ℕ) (result : ℤ)
  | unload (name : CString) (result : ℤ)
  | other

inductive Step (env : Env) : Kernel → Event → Kernel → Prop
  | load {k : Kernel} {name : CString} {data : Option Mem} {size : ℕ} {out : Outcome}
      (h : moduleLoadBinary env k (some name.1) data size = .ok out) :
      Step env k (.load name data size out.result) out.kernel
  | unload {k k' : Kernel} {name : CString} {z : ℤ} (h : moduleUnloadBinary env k (some name.1) = .ok (z, k')) :
      Step env k (.unload name z) k'
  | other {k k' : Kernel} (h : k'.modules = k.modules) : Step env k .other k'

def moduleLoaderInit (s : System) : Kernel := ⟨s, [], []⟩

/-- No two modules have one name. -/
def Unique (k : Kernel) : Prop := (k.modules.map nameOf).Nodup

/-- The module is at the head of the list, its two blocks are the ones that the load took, and its
`module_init` was called with them. -/
structure Registered (env : Env) (k k' : Kernel) (m : Module) : Prop where
  listed : k'.modules = m::k.modules
  blocks : ∃ s, s.live = (m.addr, descriptorSize)::(m.baseAddr, m.totalSize)::k.sys.live ∧
    k'.sys = env.code m.initFunc s

/-- Both blocks of the module are in use, in a heap that is in order. -/
structure Intact (s : System) (bs : List Block) (m : Module) : Prop where
  held : Held s bs
  base : Live s m.baseAddr
  descriptor : Live s m.addr
  apart : m.baseAddr ≠ m.addr

/-- The name cannot be loaded. Unloading it takes exactly the module out of the list and releases exactly its
two blocks; it ends if they are in use after `module_cleanup`. -/
structure Present (env : Env) (k : Kernel) (name : CString) (m : Module) : Prop where
  exclusive : ∀ data size, moduleLoadBinary env k (some name.1) data size = .ok (refused k data)
  removed : ∃ l r, k.modules = l++m::r ∧ ∀ z k', moduleUnloadBinary env k (some name.1) = .ok (z, k') →
    z = 0 ∧ k'.modules = l++r ∧ k'.sys.live = without m.addr (without m.baseAddr (cleanup env k m).sys.live)
  ends : ∀ bs, Intact (cleanup env k m).sys bs m → ∃ k' bs', moduleUnloadBinary env k (some name.1) = .ok (0, k') ∧
    Represents k'.sys.heap bs' ∧ ∀ x, x.free = false →
      (x ∈ bs' ↔ x ∈ bs ∧ x.addr+headerSize ≠ m.baseAddr ∧ x.addr+headerSize ≠ m.addr)

def PresentUntil (env : Env) (name : CString) (m : Module) : Kernel → List (Event × Kernel) → Prop
  | k, [] => Present env k name m
  | k, (e, k')::tr => Present env k name m ∧ ((∀ z, e ≠ .unload name z) → PresentUntil env name m k' tr)

/-- The names are apart at all times, and a module that is loaded stays present under the name it was loaded
by until that is unloaded. -/
def Lasting (env : Env) : Kernel → List (Event × Kernel) → Prop
  | k, [] => Unique k
  | k, (e, k')::tr => Unique k ∧
      (∀ name data size, e = .load name data size 0 →
        ∃ m, Registered env k k' m ∧ PresentUntil env name m k' tr) ∧
      Lasting env k' tr

/-- The image links, and there is memory for it and for the descriptor. -/
def Accepts (env : Env) (k : Kernel) (data : Option Mem) (size : ℕ) : Prop :=
  moduleValidateElf data size = true ∧ ∃ d base t, data = some d ∧ take k.sys (blockSize d) = .ok (base, t) ∧
    base ≠ 0 ∧ ∃ l, l = linkModule (kernelSymbols env.address) (memset t.heap.mem base 0 (blockSize d)) d base ∧
      l.functions ≠ none ∧ ∃ addr u, take (withMem t l.mem) descriptorSize = .ok (addr, u) ∧ addr ≠ 0

/-- A name to be loaded is stored whole, or the image is not accepted under any name. -/
def Fits (env : Env) (k : Kernel) (e : Event) (_ : Kernel) : Prop :=
  match e with
  | .load name data size _ => name.1.length ≤ 63 ∨ ¬ Accepts env k data size
  | _ => True

/-! ## Names in the list -/

section Names

variable {env : Env} {k : Kernel} {name : CString} {m : Module} {ms : List Module}

theorem storedName_cstr (name : CString) : cstr (storedName name.1) = name.1.take 63 := by
  rw [storedName, strncpy_cstr 63 _ _ (by decide), cstr_of_nulFree name.1 name.2]

theorem strcmp_name : strcmp m.name name.1 = 0 ↔ nameOf m = name.1 := by
  rw [strcmp_eq_zero, cstr_of_nulFree name.1 name.2]
  rfl

theorem isLoaded_iff : isLoaded k name.1 = true ↔ ∃ m ∈ k.modules, nameOf m = name.1 := by
  rw [isLoaded, List.any_eq_true]
  simp only [decide_eq_true_eq, strcmp_name]

theorem unlink_none : unlink name.1 ms = none ↔ ∀ m ∈ ms, nameOf m ≠ name.1 := by
  induction ms with
  | nil => simp [unlink]
  | cons a ms ih =>
    rw [unlink, List.forall_mem_cons]
    by_cases ha : nameOf a = name.1
    · rw [if_pos (strcmp_name.mpr ha)]
      exact iff_of_false (by simp) (fun h => h.1 ha)
    · rw [if_neg (fun h => ha (strcmp_name.mp h)), Option.map_eq_none_iff, ih]
      exact ⟨fun h => ⟨ha, h⟩, fun h => h.2⟩

/-- What is unlinked is one module, wherever it stands. -/
theorem unlink_some {rest : List Module} (h : unlink name.1 ms = some (m, rest)) :
    nameOf m = name.1 ∧ ∃ l r, ms = l++m::r ∧ rest = l++r := by
  induction ms generalizing rest with
  | nil => cases h
  | cons a ms ih =>
    rw [unlink] at h
    by_cases ha : nameOf a = name.1
    · rw [if_pos (strcmp_name.mpr ha)] at h
      cases h
      exact ⟨ha, [], ms, rfl, rfl⟩
    · rw [if_neg (fun h => ha (strcmp_name.mp h))] at h
      obtain ⟨x, hx, he⟩ := Option.map_eq_some_iff.mp h
      cases he
      obtain ⟨hname, l, r, hms, hrest⟩ := ih hx
      exact ⟨hname, a::l, r, by rw [hms]; rfl, by rw [hrest]; rfl⟩

theorem unique_mem (hu : Unique k) {a b : Module} (ha : a ∈ k.modules) (hb : b ∈ k.modules)
    (hab : nameOf a = nameOf b) : a = b :=
  List.inj_on_of_nodup_map hu ha hb hab

end Names

/-! ## Single calls -/

section Calls

variable {env : Env} {k k' : Kernel} {name : CString} {m : Module} {data : Option Mem} {size : ℕ} {out : Outcome}

theorem load_refused (h : isLoaded k name.1 = true) :
    moduleLoadBinary env k (some name.1) data size = .ok (refused k data) := by
  cases data with
  | none => rfl
  | some d =>
    unfold moduleLoadBinary
    dsimp only
    by_cases hsize : size = 0
    · rw [if_pos hsize]
    · rw [if_neg hsize, if_pos h]

/-- A load leaves the list alone or registers a module under the first 63 bytes of the name. -/
theorem load_effect (h : moduleLoadBinary env k (some name.1) data size = .ok out) :
    (out.result = -1 ∧ out.kernel.modules = k.modules) ∨
      (out.result = 0 ∧ isLoaded k name.1 = false ∧ Accepts env k data size ∧
        ∃ m, Registered env k out.kernel m ∧ nameOf m = name.1.take 63 ∧ m.baseAddr ≠ 0) := by
  rcases load_cases h with ⟨hfail, hmodules, -⟩ | ⟨n, d, base, t, hn, hd, hloaded, hvalid, ht, h0, l, hl, hreg⟩
  · exact Or.inl ⟨hfail, hmodules⟩
  cases hn
  obtain ⟨-, hout⟩ := register_cases hreg
  rcases hout with ⟨hfail, u, v, -, -, hk⟩ | ⟨functions, addr, u, hfun, hu, haddr, hzero, hk⟩
  · rw [hk]
    exact Or.inl ⟨hfail, rfl⟩
  · refine Or.inr ⟨hzero, hloaded, ⟨hvalid, d, base, t, hd, ht, h0, l, hl, ?_, addr, u, hu, haddr⟩,
      describe addr base (blockSize d) name.1 functions, ⟨?_, u, ?_, ?_⟩, storedName_cstr name, h0⟩
    · rw [hfun]
      simp
    · rw [hk]
      rfl
    · have hlive := take_live ht
      rw [granted, if_neg h0] at hlive
      rw [take_live hu, granted, if_neg haddr]
      change (addr, descriptorSize)::t.live = _
      rw [hlive]
      rfl
    · rw [hk]
      rfl

theorem accepted_zero (hloaded : isLoaded k name.1 = false) (ha : Accepts env k data size)
    (h : moduleLoadBinary env k (some name.1) data size = .ok out) : out.result = 0 := by
  obtain ⟨hvalid, d, base, t, rfl, ht, h0, l, hl, hfun, addr, u, hu, haddr⟩ := ha
  have hsize : size ≠ 0 := by
    rintro rfl
    cases hvalid
  unfold moduleLoadBinary at h
  dsimp only at h
  rw [if_neg hsize, hloaded, if_neg (by decide), hvalid, if_neg (by decide), ht] at h
  change (if base = 0 then _ else _) = _ at h
  rw [if_neg h0] at h
  dsimp only at h
  rw [← hl] at h
  unfold registerModule at h
  cases hf : l.functions with
  | none => exact (hfun hf).elim
  | some functions =>
    rw [hf] at h
    dsimp only at h
    rw [hu] at h
    change (if addr = 0 then _ else _) = _ at h
    rw [if_neg haddr] at h
    cases h
    rfl

/-- An unload of a name that no module has changes nothing, any other takes out one module of the name. -/
theorem unload_cases {z : ℤ} (h : moduleUnloadBinary env k (some name.1) = .ok (z, k')) :
    (z = -1 ∧ k' = k ∧ ∀ m ∈ k.modules, nameOf m ≠ name.1) ∨
      (z = 0 ∧ ∃ m l r s, nameOf m = name.1 ∧ k.modules = l++m::r ∧ k'.modules = l++r ∧
        releaseModule (cleanup env k m).sys m = .ok s ∧ k'.sys = s) := by
  unfold moduleUnloadBinary at h
  dsimp only at h
  cases hu : unlink name.1 k.modules with
  | none =>
    rw [hu] at h
    cases h
    exact Or.inl ⟨rfl, rfl, unlink_none.mp hu⟩
  | some r =>
    obtain ⟨m, rest⟩ := r
    rw [hu] at h
    obtain ⟨s, hs, he⟩ := map_ok h
    cases he
    obtain ⟨hname, l, r, hlist, hrest⟩ := unlink_some hu
    exact Or.inr ⟨rfl, m, l, r, s, hname, hlist, hrest, hs, rfl⟩

theorem releaseModule_live {s t : System} (h0 : m.baseAddr ≠ 0) (h : releaseModule s m = .ok t) :
    t.live = without m.addr (without m.baseAddr s.live) := by
  rw [releaseModule, if_pos h0] at h
  obtain ⟨u, hu, ht⟩ := bind_ok h
  rw [release_live ht, release_live hu]

/-- The release of two blocks in use ends, and only they are no longer in use. -/
theorem releaseModule_ends {s : System} {bs : List Block} (hi : Intact s bs m) (h0 : m.baseAddr ≠ 0) :
    ∃ t bs', releaseModule s m = .ok t ∧ Represents t.heap bs' ∧ ∀ x, x.free = false →
      (x ∈ bs' ↔ x ∈ bs ∧ x.addr+headerSize ≠ m.baseAddr ∧ x.addr+headerSize ≠ m.addr) := by
  obtain ⟨a, ha, hbase⟩ := hi.base
  obtain ⟨b, hb, hbaddr, hbused⟩ := hi.held.used a ha
  obtain ⟨a', ha', hdesc⟩ := hi.descriptor
  obtain ⟨c, hc, hcaddr, hcused⟩ := hi.held.used a' ha'
  have heap := hi.held.valid.heap
  have hpointers := hi.held.valid.pointers
  obtain ⟨h1, bs1, hfree1, hrep1, hapart1, hused1⟩ :=
    kfree_used heap.blocks (headers_apart heap.apart heap.space) hb (hpointers b hb)
  have hne : c.addr ≠ b.addr := by
    have hapart := hi.apart
    omega
  obtain ⟨h2, bs2, hfree2, hrep2, -, hused2⟩ :=
    kfree_used hrep1 hapart1 ((hused1 c hcused).mpr ⟨hc, hne⟩) (hpointers c hc)
  have hb' : m.baseAddr = b.addr+headerSize := hbase.symm.trans hbaddr
  have hc' : m.addr = c.addr+headerSize := hdesc.symm.trans hcaddr
  refine ⟨⟨h2, without m.addr (without m.baseAddr s.live)⟩, bs2, ?_, hrep2, ?_⟩
  · rw [releaseModule, if_pos h0, release, hb', hfree1]
    change release ⟨h1, _⟩ m.addr = _
    rw [release, hc', hfree2]
    rfl
  · intro x hx
    rw [hused2 x hx, hused1 x hx, hb', hc', and_assoc]
    simp only [ne_eq, Nat.add_right_cancel_iff]

/-- The module stands in the list under the name. -/
structure Listed (k : Kernel) (name : CString) (m : Module) : Prop where
  mem : m ∈ k.modules
  named : nameOf m = name.1
  based : m.baseAddr ≠ 0

theorem unlink_listed (hu : Unique k) (h : Listed k name m) :
    ∃ l r, k.modules = l++m::r ∧ unlink name.1 k.modules = some (m, l++r) := by
  cases hunlink : unlink name.1 k.modules with
  | none => exact (unlink_none.mp hunlink m h.mem h.named).elim
  | some p =>
    obtain ⟨hname, l, r, hlist, hrest⟩ := unlink_some hunlink
    have hmem : p.1 ∈ k.modules := by
      rw [hlist]
      exact List.mem_append_right l List.mem_cons_self
    have hp : p.1 = m := unique_mem hu hmem h.mem (hname.trans h.named.symm)
    rw [hp] at hlist
    exact ⟨l, r, hlist, by rw [← hrest, ← hp]⟩

theorem unload_listed {rest : List Module} (h : unlink name.1 k.modules = some (m, rest)) :
    moduleUnloadBinary env k (some name.1) = (releaseModule (cleanup env k m).sys m).map (fun sys =>
      (0, { cleanup env k m with sys := sys, modules := rest })) := by
  unfold moduleUnloadBinary
  dsimp only
  rw [h]

theorem listed_present (hu : Unique k) (h : Listed k name m) : Present env k name m := by
  obtain ⟨l, r, hlist, hunlink⟩ := unlink_listed hu h
  have hunload := @unload_listed env k name m (l++r) hunlink
  refine ⟨fun _ _ => load_refused (isLoaded_iff.mpr ⟨m, h.mem, h.named⟩), ⟨l, r, hlist, ?_⟩, ?_⟩
  · intro z k' hz
    rw [hunload] at hz
    obtain ⟨s, hs, he⟩ := map_ok hz
    cases he
    exact ⟨rfl, rfl, releaseModule_live h.based hs⟩
  · intro bs hi
    obtain ⟨t, bs', ht, hrep, hused⟩ := releaseModule_ends hi h.based
    rw [hunload, ht]
    exact ⟨_, bs', rfl, hrep, hused⟩

theorem present_named (h : Present env k name m) : ∃ a ∈ k.modules, nameOf a = name.1 := by
  by_contra hnone
  have hall : ∀ a ∈ k.modules, nameOf a ≠ name.1 := fun a ha hname => hnone ⟨a, ha, hname⟩
  have hunload : moduleUnloadBinary env k (some name.1) = .ok (-1, k) := by
    unfold moduleUnloadBinary
    dsimp only
    rw [unlink_none.mpr hall]
  obtain ⟨_, _, _, hremoved⟩ := h.removed
  exact absurd (hremoved _ _ hunload).1 (by decide)

end Calls

/-! ## Runs -/

section Runs

variable {env : Env} {k k' : Kernel} {e : Event} {name : CString} {m : Module} {tr : List (Event × Kernel)}

/-- The stored names are short. -/
def Short (k : Kernel) : Prop := ∀ m ∈ k.modules, (nameOf m).length ≤ 63

theorem step_short (h : Step env k e k') (hs : Short k) : Short k' := by
  intro m hm
  cases h with
  | load h =>
    rcases load_effect h with ⟨-, hsame⟩ | ⟨-, -, -, m', hreg, hname, -⟩
    · rw [hsame] at hm
      exact hs m hm
    · rw [hreg.listed] at hm
      rcases List.mem_cons.mp hm with rfl | hm
      · rw [hname]
        exact List.length_take_le 63 _
      · exact hs m hm
  | unload h =>
    rcases unload_cases h with ⟨-, rfl, -⟩ | ⟨-, m', l, r, s, -, hlist, hrest, -, -⟩
    · exact hs m hm
    · apply hs m
      rw [hrest] at hm
      rw [hlist]
      exact ((List.sublist_cons_self m' r).append_left l).subset hm
  | other h =>
    rw [h] at hm
    exact hs m hm

theorem step_unique (h : Step env k e k') (hu : Unique k) (hfits : Fits env k e k') : Unique k' := by
  unfold Unique at *
  cases h with
  | load h =>
    rcases load_effect h with ⟨-, hsame⟩ | ⟨-, hloaded, haccepts, m, hreg, hname, -⟩
    · rw [hsame]
      exact hu
    · rcases hfits with hlen | hrefused
      · rw [List.take_of_length_le hlen] at hname
        rw [hreg.listed, List.map_cons, List.nodup_cons, hname]
        refine ⟨?_, hu⟩
        intro hmem
        rw [isLoaded_iff.mpr (List.mem_map.mp hmem)] at hloaded
        cases hloaded
      · exact (hrefused haccepts).elim
  | unload h =>
    rcases unload_cases h with ⟨-, rfl, -⟩ | ⟨-, m, l, r, s, -, hlist, hrest, -, -⟩
    · exact hu
    · rw [hlist] at hu
      rw [hrest]
      exact hu.sublist (((List.sublist_cons_self m r).append_left l).map nameOf)
  | other h =>
    rw [h]
    exact hu

theorem step_listed (h : Step env k e k') (hl : Listed k name m) (he : ∀ z, e ≠ .unload name z) :
    Listed k' name m := by
  refine ⟨?_, hl.named, hl.based⟩
  cases h with
  | load h =>
    rcases load_effect h with ⟨-, hsame⟩ | ⟨-, -, -, m', hreg, -⟩
    · rw [hsame]
      exact hl.mem
    · rw [hreg.listed]
      exact List.mem_cons_of_mem m' hl.mem
  | unload h =>
    rcases unload_cases h with ⟨-, rfl, -⟩ | ⟨-, m', l, r, s, hname, hlist, hrest, -, -⟩
    · exact hl.mem
    · have hne : m ≠ m' := by
        rintro rfl
        exact he _ (congrArg (fun n => Event.unload n _) (Subtype.ext (hname.symm.trans hl.named)))
      have hmem := hl.mem
      rw [hlist, List.mem_append, List.mem_cons] at hmem
      rw [hrest, List.mem_append]
      exact hmem.imp_right (fun h => h.resolve_left hne)
  | other h =>
    rw [h]
    exact hl.mem

theorem listed_until (hu : Unique k) (hl : Listed k name m) (hr : Run (Step env) k tr)
    (hfits : Along (Fits env) k tr) : PresentUntil env name m k tr := by
  induction tr generalizing k with
  | nil => exact listed_present hu hl
  | cons x tr ih =>
    refine ⟨listed_present hu hl, ?_⟩
    intro he
    exact ih (step_unique hr.1 hu hfits.1) (step_listed hr.1 hl he) hr.2 hfits.2

theorem until_present (h : PresentUntil env name m k tr) : Present env k name m := by
  cases tr with
  | nil => exact h
  | cons x tr => exact h.1

theorem step_load {data : Option Mem} {size : ℕ} {z : ℤ} (h : Step env k (.load name data size z) k') :
    ∃ out, moduleLoadBinary env k (some name.1) data size = .ok out ∧ out.result = z ∧ out.kernel = k' := by
  cases h with
  | load h => exact ⟨_, h, rfl, rfl⟩

theorem load_listed {data : Option Mem} {size : ℕ} (h : Step env k (.load name data size 0) k')
    (hfits : Fits env k (.load name data size 0) k') : ∃ m, Registered env k k' m ∧ Listed k' name m := by
  obtain ⟨out, hout, hzero, rfl⟩ := step_load h
  rcases load_effect hout with ⟨hfail, -⟩ | ⟨-, -, haccepts, m, hreg, hname, hbase⟩
  · rw [hzero] at hfail
    cases hfail
  · have hlen : name.1.length ≤ 63 := hfits.resolve_right (fun h => h haccepts)
    rw [List.take_of_length_le hlen] at hname
    refine ⟨m, hreg, ?_, hname, hbase⟩
    rw [hreg.listed]
    exact List.mem_cons_self

theorem long_fresh (hs : Short k) (hlong : 63 < name.1.length) : isLoaded k name.1 = false := by
  rw [← Bool.not_eq_true, isLoaded_iff]
  intro ⟨m, hm, hname⟩
  have hshort := hs m hm
  rw [hname] at hshort
  omega

/-- A longer name is registered and cannot be unloaded. -/
theorem long_lost {data : Option Mem} {size : ℕ} {out : Outcome} (hs : Short k) (hlong : 63 < name.1.length)
    (h : moduleLoadBinary env k (some name.1) data size = .ok out) : ¬ Present env out.kernel name m := by
  intro hpresent
  obtain ⟨a, ha, hname⟩ := present_named hpresent
  have hshort := step_short (Step.load h) hs a ha
  rw [hname] at hshort
  omega

theorem lasting_iff (hu : Unique k) (hs : Short k) (hr : Run (Step env) k tr) :
    Lasting env k tr ↔ Along (Fits env) k tr := by
  induction tr generalizing k with
  | nil => exact iff_of_true hu trivial
  | cons x tr ih =>
    obtain ⟨e, k'⟩ := x
    have hshort := step_short hr.1 hs
    rw [Lasting, Along]
    constructor
    · rintro ⟨-, hkept, hrest⟩
      have hfits : Fits env k e k' := by
        cases hr.1 with
        | load h =>
          by_contra hnot
          obtain ⟨hlong, haccepts⟩ := not_or.mp hnot
          have hlong : 63 < _ := not_le.mp hlong
          have hzero := accepted_zero (long_fresh hs hlong) (not_not.mp haccepts) h
          obtain ⟨m, -, huntil⟩ := hkept _ _ _ (by rw [hzero])
          exact long_lost hs hlong h (until_present huntil)
        | unload h => trivial
        | other h => trivial
      exact ⟨hfits, (ih (step_unique hr.1 hu hfits) hshort hr.2).mp hrest⟩
    · rintro ⟨hfits, hrest⟩
      have hunique := step_unique hr.1 hu hfits
      refine ⟨hu, ?_, (ih hunique hshort hr.2).mpr hrest⟩
      rintro name data size rfl
      obtain ⟨m, hreg, hlisted⟩ := load_listed hr.1 hfits
      exact ⟨m, hreg, listed_until hunique hlisted hr.2 hrest⟩

end Runs

/-- From `module_loader_init` on, no two modules have one name and a module that was loaded is found under
that name, cannot be loaded again and can be unloaded, exactly when no name of more than 63 bytes is registered. -/
theorem modules_last_iff {env : Env} {s : System} {tr : List (Event × Kernel)}
    (h : Run (Step env) (moduleLoaderInit s) tr) :
    Lasting env (moduleLoaderInit s) tr ↔ Along (Fits env) (moduleLoaderInit s) tr :=
  lasting_iff List.nodup_nil (by simp [Short, moduleLoaderInit]) h

theorem modules_last_iff_sample : ∃ k', Run (Step sampleEnv) sampleKernel
    [(.load ⟨[109], by decide⟩ (some (imageWith shtSymtab 257)) 312 0, k')] ∧
    Lasting sampleEnv sampleKernel [(.load ⟨[109], by decide⟩ (some (imageWith shtSymtab 257)) 312 0, k')] := by
  have heval : resultOf (moduleLoadBinary sampleEnv sampleKernel (some [109])
      (some (imageWith shtSymtab 257)) 312) = some 0 := by decide +kernel
  obtain ⟨out, hout, hzero⟩ := resultOf_some heval
  have hstep := @Step.load sampleEnv sampleKernel ⟨[109], by decide⟩ _ _ out hout
  rw [hzero] at hstep
  have hrun : Run (Step sampleEnv) (moduleLoaderInit sampleKernel.sys) [(_, out.kernel)] := ⟨hstep, trivial⟩
  exact ⟨out.kernel, hrun, (modules_last_iff hrun).mpr ⟨Or.inl (by decide), trivial⟩⟩

/-- A name of 64 letters is loaded, and no module can be unloaded by it. -/
theorem long_module_stays : ¬ ∀ env s tr, Run (Step env) (moduleLoaderInit s) tr →
    Lasting env (moduleLoaderInit s) tr := by
  intro hall
  have heval : resultOf (moduleLoadBinary sampleEnv sampleKernel (some longName.1)
      (some (imageWith shtSymtab 257)) 312) = some 0 := by decide +kernel
  obtain ⟨out, hout, hzero⟩ := resultOf_some heval
  have hstep := @Step.load sampleEnv sampleKernel longName _ _ out hout
  rw [hzero] at hstep
  have hkept := (hall sampleEnv sampleKernel.sys [(_, out.kernel)] ⟨hstep, trivial⟩).2.1
  obtain ⟨m, -, huntil⟩ := hkept longName _ _ rfl
  have hshort : Short sampleKernel := by simp [Short, sampleKernel]
  exact long_lost hshort (by decide) hout (until_present huntil)

end Dionnex.ModuleNames
