import Dionnex.RamfsResidue
import Dionnex.VfsMounts

/-!
# Creating and deleting files by path

The kernel mounts the RAM file system and `/proc` below its root, and only
the one directory of the RAM file system creates and deletes files. Paths
with the same components are one path to it. Whether a name is found in that
directory is all that a file created or deleted there can change.
-/

set_option autoImplicit false

namespace Dionnex.VfsFiles
open LinkedChain NameResolution
open Dionnex.KernelString Dionnex.Ramfs Dionnex.RamfsVfs Dionnex.RamfsResidue
open Dionnex.Vfs Dionnex.VfsPaths Dionnex.VfsMounts

/-! ## Boot -/

def ramName : Path := [114, 97, 109]
def procName : Path := [112, 114, 111, 99]

/-- `readme.txt` -/
def readmeName : Path := [114, 101, 97, 100, 109, 101, 46, 116, 120, 116]

/-- `Welcome to Dionnex Monolithic Kernel v0.1!` -/
def welcome : List UInt8 :=
  [87, 101, 108, 99, 111, 109, 101, 32, 116, 111, 32, 68, 105, 111, 110, 110, 101, 120, 32, 77, 111, 110, 111,
    108, 105, 116, 104, 105, 99, 32, 75, 101, 114, 110, 101, 108, 32, 118, 48, 46, 49, 33]

def rootNode (name : Path) (ops : VfsOps) : DirNode := ⟨NameBuffer.blank.copy name, vfsDir, 0, 0, 0, ops⟩

/-- `node` is the address of `ramfs_root_node`. -/
def ramfsInit (v : VfsState) (node : ℕ) : VfsState :=
  { v.put node (rootNode ramName .ramfs) with
    slots := (ramfsWrite (ramfsCreate ramfsCleared (some readmeName)).2 (some readmeName)
      (some (fun k => welcome.getD k 0)) welcome.length).2 }

/-- `node` is the address of `proc_root_node`. -/
def procfsInit (v : VfsState) (node : ℕ) : VfsState := v.put node (rootNode procName .procfs)

/-- Memory before the start: no root, and nothing in it is a node. -/
def noFiles : VfsState := ⟨0, fun _ => ⟨.blank, 0, 0, 0, 0, .null⟩, ramfsCleared⟩

/-- The steps of `kernel_main`; `root` is the answer of `kmalloc`. -/
def bootFiles (root ram proc : ℕ) : Option VfsState :=
  (vfsMount (ramfsInit (vfsInit noFiles root) ram) (some (slash::ramName)) ram).bind (fun r =>
    (vfsMount (procfsInit r.2 proc) (some (slash::procName)) proc).map Prod.snd)

/-- The states after the kernel's mounts; files are written, created and deleted meanwhile. -/
inductive Reached (root ram proc : ℕ) : VfsState → Prop
  | boot {v : VfsState} (h : bootFiles root ram proc = some v) : Reached root ram proc v
  | files {v : VfsState} {e : Event} {fs : Slots} (hv : Reached root ram proc v) (h : perform v.slots e = some fs) :
      Reached root ram proc { v with slots := fs }

/-- Three different addresses; no memory for the root is the address 0. -/
structure Addresses (root ram proc : ℕ) : Prop where
  ram_pos : ram ≠ 0
  proc_pos : proc ≠ 0
  root_ram : root ≠ ram
  root_proc : root ≠ proc
  ram_proc : ram ≠ proc
  root_bound : root < 4294967296
  ram_bound : ram < 4294967296
  proc_bound : proc < 4294967296

/-! ## Slots -/

/-- The name ends inside its buffer and the node is no directory. -/
structure Plain (f : RamfsFile) : Prop where
  nameEnd : f.name[ramfsMaxName-1]? = some 0
  file : ¬ IsDir f.vfsNode.flags

theorem plain_update {fs : Slots} {j : Slot} {f : RamfsFile} (h : ∀ i, Plain (fs i)) (hf : Plain f) (i : Slot) :
    Plain (Function.update fs j f i) := by
  by_cases hi : i = j
  · subst hi
    rw [Function.update_self]
    exact hf
  · rw [Function.update_of_ne hi]
    exact h i

theorem plain_like {f g : RamfsFile} (h : Plain f) (hname : g.name = f.name)
    (hflags : g.vfsNode.flags = f.vfsNode.flags) : Plain g := by
  refine ⟨?_, ?_⟩
  · rw [hname]
    exact h.nameEnd
  · rw [hflags]
    exact h.file

theorem plain_fresh {f : RamfsFile} {i : Slot} {name : List UInt8} (h : Plain f) : Plain (freshFile f i name) :=
  ⟨fresh_nameEnd f i name h.nameEnd, show ¬ IsDir vfsFile by decide⟩

theorem plain_freed {f : RamfsFile} (h : Plain f) :
    Plain { f with used := false, size := 0, name := f.name.set 0 0 } := by
  refine ⟨?_, h.file⟩
  rw [List.getElem?_set_ne (by decide)]
  exact h.nameEnd

theorem plain_wrote {fs : Slots} (h : ∀ i, Plain (fs i)) (node j : Slot) (offset n : ℕ) (buf : ℕ → UInt8)
    (i : Slot) : Plain (wrote fs node j offset n buf i) := by
  have hfile : ∀ i, Plain (Function.update fs j (writeFile (fs j) offset n buf) i) :=
    plain_update h (plain_like (h j) rfl rfl)
  unfold wrote
  split
  · refine plain_update hfile ?_ i
    exact plain_like (hfile node) rfl rfl
  · exact hfile i

theorem perform_plain {fs t : Slots} {e : Event} (h : ∀ i, Plain (fs i)) (ht : perform fs e = some t) (i : Slot) :
    Plain (t i) := by
  cases e with
  | create name =>
    cases name with
    | none =>
      cases ht
      exact h i
    | some name =>
      simp only [perform, ramfsCreate] at ht
      obtain rfl := Option.some.inj ht
      split
      · exact h i
      · split
        · exact plain_update h (plain_fresh (h _)) i
        · exact h i
  | delete name =>
    simp only [perform, ramfsDelete] at ht
    obtain rfl := Option.some.inj ht
    split
    · exact h i
    · exact plain_update h (plain_freed (h _)) i
  | write name buf len =>
    simp only [perform, ramfsWrite] at ht
    obtain rfl := Option.some.inj ht
    cases ramfsFind fs name with
    | none => exact h i
    | some j =>
      cases buf with
      | none => exact h i
      | some buf =>
        refine plain_update h ?_ i
        exact plain_like (h j) rfl rfl
  | vfsWrite node offset size buf =>
    rcases vfsWrite_cases ht with ⟨rfl, -⟩ | ⟨nd, j, b, n, -, -, -, -, -, rfl⟩
    · exact h i
    · exact plain_wrote h nd j _ n b i

theorem cleared_plain (i : Slot) : Plain (ramfsCleared i) := ⟨rfl, show ¬ IsDir 0 by decide⟩

/-! ## Names in the slots -/

section Names

variable {fs : Slots} {name m : Path} {i : Slot}

theorem find_congr {fs' : Slots} (h : ∀ j, ((fs' j).used = true ∧ key (fs' j) = cstr m) ↔
    ((fs j).used = true ∧ key (fs j) = cstr m)) : ramfsFind fs' (some m) = ramfsFind fs (some m) := by
  unfold ramfsFind
  apply List.find?_congr
  intro j _
  rw [Bool.eq_iff_iff]
  simpa [strcmp_eq_zero, key] using h j

theorem create_cases {fs' : Slots} (h : ramfsCreate fs (some name) = (0, fs')) :
    ramfsFind fs (some name) = none ∧
    ∃ i, (fs i).used = false ∧ fs' = Function.update fs i (freshFile (fs i) i name) := by
  unfold ramfsCreate at h
  dsimp only at h
  by_cases hfound : (ramfsFind fs (some name)).isSome
  · rw [if_pos hfound] at h
    cases h
  · rw [if_neg hfound] at h
    refine ⟨by simpa using hfound, ?_⟩
    split at h
    · rename_i i hi
      have hused := List.find?_some hi
      obtain rfl := (Prod.mk.inj h).2
      exact ⟨i, by simpa using hused, rfl⟩
    · cases h

theorem stored_key {f : RamfsFile} (h : Plain f) (hname : (0 : UInt8) ∉ name) :
    key (freshFile f i name) = name.take (ramfsMaxName-1) := by
  rw [key, freshFile, strncpy_cstr _ _ _ h.nameEnd, cstr_of_nulFree name hname]

/-- Short names are stored as they are. -/
theorem short_key {f : RamfsFile} (h : Plain f) (hname : (0 : UInt8) ∉ name) (hlen : name.length < ramfsMaxName) :
    key (freshFile f i name) = name := by
  rw [stored_key h hname, List.take_of_length_le (by omega)]

/-- No name in the slots is long. -/
theorem long_find (h : ∀ j, Plain (fs j)) (hname : (0 : UInt8) ∉ name) (hlong : ramfsMaxName ≤ name.length) :
    ramfsFind fs (some name) = none := by
  cases hfind : ramfsFind fs (some name) with
  | none => rfl
  | some j =>
    have hkey := (find_some fs name j hfind).2
    have hshort := cstr_length (fs j).name (ramfsMaxName-1) (h j).nameEnd
    rw [cstr_of_nulFree name hname] at hkey
    rw [← hkey, key] at hlong
    unfold ramfsMaxName at hlong hshort
    omega

theorem create_find_other (h : ∀ j, Plain (fs j)) (hname : (0 : UInt8) ∉ name) (hused : (fs i).used = false)
    (hm : (0 : UInt8) ∉ m) (hother : m ≠ name.take (ramfsMaxName-1)) :
    ramfsFind (Function.update fs i (freshFile (fs i) i name)) (some m) = ramfsFind fs (some m) := by
  apply find_congr
  intro j
  by_cases hj : j = i
  · subst hj
    rw [Function.update_self, stored_key (h j) hname, cstr_of_nulFree m hm, hused]
    simp [hother.symm]
  · rw [Function.update_of_ne hj]

/-- A file created under a short name is found by it. -/
theorem create_find_new (h : ∀ j, Plain (fs j)) (hname : (0 : UInt8) ∉ name) (hlen : name.length < ramfsMaxName)
    (hnew : ramfsFind fs (some name) = none) :
    ramfsFind (Function.update fs i (freshFile (fs i) i name)) (some name) = some i := by
  cases hfind : ramfsFind (Function.update fs i (freshFile (fs i) i name)) (some name) with
  | none =>
    have hnone := find_none _ name hfind i (by rw [Function.update_self]; rfl)
    rw [Function.update_self, short_key (h i) hname hlen, cstr_of_nulFree name hname] at hnone
    exact (hnone rfl).elim
  | some j =>
    by_cases hj : j = i
    · rw [hj]
    · have hother := find_some _ name j hfind
      rw [Function.update_of_ne hj] at hother
      exact (find_none fs name hnew j hother.1 hother.2).elim

/-- A free slot is found under no name. -/
theorem free_find {f : RamfsFile} (hused : (fs i).used = false) (hf : f.used = false) :
    ramfsFind (Function.update fs i f) (some m) = ramfsFind fs (some m) := by
  apply find_congr
  intro j
  by_cases hj : j = i
  · subst hj
    rw [Function.update_self, hused, hf]
    simp
  · rw [Function.update_of_ne hj]

end Names

/-! ## The tree of the kernel -/

structure FileTree (v : VfsState) (ram : ℕ) : Prop where
  forest : ∃ kids, Forest v kids
  only : ∀ a, (v.nodes a).ops = .ramfs → a = ram
  plain : ∀ i, Plain (v.slots i)

section Boot

variable {v : VfsState} {kids : ℕ → List ℕ} {root ram proc x : ℕ}

theorem put_forest {n : DirNode} (h : Forest v kids) (hfree : ∀ q, x ∉ kids q) (hleaf : kids x = [])
    (hn : n.children = 0) : Forest (v.put x n) kids := by
  have hnext : (v.put x n).next = Function.update v.next x n.nextSibling := by
    ext q
    by_cases hq : q = x
    · subst hq
      simp [VfsState.next]
    · simp [VfsState.next, VfsState.put_ne _ _ hq, Function.update_of_ne hq]
  refine ⟨⟨?_, h.bound⟩, h.entrance, h.acyclic⟩
  intro q
  rw [hnext]
  by_cases hq : q = x
  · subst hq
    rw [hleaf, VfsState.put_self]
    exact hn
  · rw [VfsState.put_ne _ _ hq]
    exact seg_update (hfree q) (h.chain q)

theorem slots_forest {fs : Slots} (h : Forest v kids) : Forest { v with slots := fs } kids :=
  ⟨⟨h.chain, h.bound⟩, h.entrance, h.acyclic⟩

theorem mount_off {path : Path} (h : v.root = 0) : vfsMount v (some path) x = some (-1, v) := by
  unfold vfsMount
  dsimp only
  rw [if_pos (Or.inr h)]

theorem vfsInit_root (v : VfsState) (node : ℕ) : (vfsInit v node).root = node := by
  unfold vfsInit
  split
  · rename_i h
    exact h.symm
  · rfl

theorem ramfsInit_children (p : ℕ) : ((ramfsInit (vfsInit noFiles root) ram).nodes p).children = 0 := by
  by_cases hp : p = ram
  · subst hp
    simp [ramfsInit, rootNode]
  · have hsame : (ramfsInit (vfsInit noFiles root) ram).nodes p = (vfsInit noFiles root).nodes p :=
      VfsState.put_ne _ _ hp
    rw [hsame]
    exact vfsInit_children (fun _ => rfl) p

theorem ramfsInit_only (a : ℕ) (h : ((ramfsInit (vfsInit noFiles root) ram).nodes a).ops = .ramfs) : a = ram := by
  by_contra ha
  have hsame : (ramfsInit (vfsInit noFiles root) ram).nodes a = (vfsInit noFiles root).nodes a :=
    VfsState.put_ne _ _ ha
  rw [hsame] at h
  unfold vfsInit at h
  split at h
  · cases h
  · by_cases hr : a = root
    · simp [hr] at h
    · simp [VfsState.put_ne _ _ hr, noFiles] at h

theorem ramfsInit_plain (i : Slot) : Plain ((ramfsInit (vfsInit noFiles root) ram).slots i) := by
  have hlen : welcome.length = (42 : UInt32).toNat := by decide
  have hreadme : ∀ i, Plain ((ramfsCreate ramfsCleared (some readmeName)).2 i) :=
    perform_plain (e := .create (some readmeName)) cleared_plain rfl
  unfold ramfsInit
  rw [hlen]
  exact perform_plain (e := .write (some readmeName) (some (fun k => welcome.getD k 0)) 42) hreadme rfl i

theorem procfsInit_only (h : ∀ a, (v.nodes a).ops = .ramfs → a = ram) (a : ℕ)
    (ha : ((procfsInit v proc).nodes a).ops = .ramfs) : a = ram := by
  by_cases hp : a = proc
  · subst hp
    simp [procfsInit, rootNode] at ha
  · rw [procfsInit, VfsState.put_ne _ _ hp] at ha
    exact h a ha

theorem attach_only {p : ℕ} {name : Path} (hx : x ≠ p) (h : ∀ a, (v.nodes a).ops = .ramfs → a = ram) (a : ℕ)
    (ha : ((attach v p name x).nodes a).ops = .ramfs) : a = ram :=
  h a ((attach_ops hx (.dir a)).symm.trans ha)

theorem ram_split : splitPath (slash::ramName) = some ([slash], ramName) := by decide +kernel

theorem proc_split : splitPath (slash::procName) = some ([slash], procName) := by decide +kernel

/-- The state after the mounts of the kernel. -/
def mountedFiles (root ram proc : ℕ) : VfsState :=
  attach (procfsInit (attach (ramfsInit (vfsInit noFiles root) ram) root ramName ram) proc) root procName proc

theorem rootNode_dir (hram : root ≠ ram) (hroot : root ≠ 0) :
    IsDir ((ramfsInit (vfsInit noFiles root) ram).nodes root).flags := by
  have hsame : (ramfsInit (vfsInit noFiles root) ram).nodes root = (vfsInit noFiles root).nodes root :=
    VfsState.put_ne _ _ hram
  rw [hsame, vfsInit, if_neg hroot]
  simp only [VfsState.put_self]
  decide

theorem boot_mounts (h : Addresses root ram proc) (hroot : root ≠ 0) :
    bootFiles root ram proc = some (mountedFiles root ram proc) := by
  have hr : (ramfsInit (vfsInit noFiles root) ram).root = root := vfsInit_root noFiles root
  have hdir := rootNode_dir h.root_ram hroot
  have hfirst : vfsMount (ramfsInit (vfsInit noFiles root) ram) (some (slash::ramName)) ram =
      some (0, attach (ramfsInit (vfsInit noFiles root) ram) root ramName ram) := by
    apply mount_attach h.ram_pos (hr.symm ▸ hroot) (by decide) ram_split (by decide) ?_ hdir
    rw [lookup_slash (hr.symm ▸ hroot), hr]
  have hr' : (procfsInit (attach (ramfsInit (vfsInit noFiles root) ram) root ramName ram) proc).root = root := hr
  have hdir' : IsDir ((procfsInit (attach (ramfsInit (vfsInit noFiles root) ram) root ramName ram) proc).nodes
      root).flags := by
    rw [procfsInit, VfsState.put_ne _ _ h.root_proc, attach_parent h.root_ram.symm]
    exact hdir
  have hsecond : vfsMount (procfsInit (attach (ramfsInit (vfsInit noFiles root) ram) root ramName ram) proc)
      (some (slash::procName)) proc = some (0, mountedFiles root ram proc) := by
    apply mount_attach h.proc_pos (hr'.symm ▸ hroot) (by decide) proc_split (by decide) ?_ hdir'
    rw [lookup_slash (hr'.symm ▸ hroot), hr']
  unfold bootFiles
  rw [hfirst, Option.bind_some]
  dsimp only
  rw [hsecond]
  rfl

/-- Without memory for the root nothing is mounted. -/
theorem boot_cases (h : Addresses root ram proc) (hv : bootFiles root ram proc = some v) :
    v = procfsInit (ramfsInit (vfsInit noFiles root) ram) proc ∨ v = mountedFiles root ram proc := by
  by_cases hroot : root = 0
  · have hr : (ramfsInit (vfsInit noFiles root) ram).root = 0 := (vfsInit_root noFiles root).trans hroot
    have hr' : (procfsInit (ramfsInit (vfsInit noFiles root) ram) proc).root = 0 := hr
    unfold bootFiles at hv
    rw [mount_off hr, Option.bind_some] at hv
    dsimp only at hv
    rw [mount_off hr'] at hv
    exact Or.inl (Option.some.inj hv).symm
  · rw [boot_mounts h hroot] at hv
    exact Or.inr (Option.some.inj hv).symm

theorem boot_tree (h : Addresses root ram proc) (hv : bootFiles root ram proc = some v) : FileTree v ram := by
  rcases boot_cases h hv with rfl | rfl
  · have hforest := put_forest (n := rootNode procName .procfs) (x := proc)
      (@empty_forest (ramfsInit (vfsInit noFiles root) ram) ramfsInit_children) (fun _ => List.not_mem_nil) rfl rfl
    exact ⟨⟨_, hforest⟩, procfsInit_only ramfsInit_only, @ramfsInit_plain root ram⟩
  · have hnone : ∀ y z, ¬ Leads (fun _ => []) y z := fun y z => List.not_mem_nil
    have hfirst : Forest (attach (ramfsInit (vfsInit noFiles root) ram) root ramName ram)
        (pushed (fun _ => []) root ram) := by
      apply attach_forest (empty_forest ramfsInit_children) h.ram_pos h.ram_bound (fun _ => List.not_mem_nil)
      intro hpath
      rcases Relation.ReflTransGen.cases_head hpath with heq | ⟨y, hy, -⟩
      · exact h.root_ram heq.symm
      · exact hnone ram y hy
    have hfree : ∀ q, proc ∉ pushed (fun _ => []) root ram q := by
      intro q hq
      rcases mem_pushed hq with hq | ⟨-, hq⟩
      · cases hq
      · exact h.ram_proc hq.symm
    have hleaf : pushed (fun _ => []) root ram proc = [] := Function.update_of_ne h.root_proc.symm _ _
    have hsecond : Forest (mountedFiles root ram proc) (pushed (pushed (fun _ => []) root ram) root proc) := by
      apply attach_forest (put_forest hfirst hfree hleaf rfl) h.proc_pos h.proc_bound hfree
      intro hpath
      rcases Relation.ReflTransGen.cases_head hpath with heq | ⟨y, hy, -⟩
      · exact h.root_proc heq.symm
      · rw [Leads, hleaf] at hy
        cases hy
    refine ⟨⟨_, hsecond⟩, ?_, @ramfsInit_plain root ram⟩
    exact attach_only h.root_proc.symm (procfsInit_only (attach_only h.root_ram.symm ramfsInit_only))

theorem reached_tree (h : Addresses root ram proc) (hv : Reached root ram proc v) : FileTree v ram := by
  induction hv with
  | boot hboot => exact boot_tree h hboot
  | files _ hfs ih =>
    obtain ⟨kids, hforest⟩ := ih.forest
    exact ⟨⟨kids, slots_forest hforest⟩, ih.only, perform_plain ih.plain hfs⟩

end Boot

/-! ## Files by path -/

section Files

variable {v v' : VfsState} {kids : ℕ → List ℕ} {ram : ℕ} {path parent name : Path} {fs : Slots} {i : Slot}

theorem entry_file (h : Plain (v.slots i)) (m : Path) : entry v kids (.ram i) m = none := by
  apply entry_none
  intro hdir
  exact h.file hdir.1

/-- Other slots change what the directory of the files has under the names they are found by, and nothing else. -/
theorem entry_slots (h : FileTree v ram) (hfs : ∀ j, Plain (fs j)) (d : Ref) (m : Path)
    (hsame : d = .dir ram → (0 : UInt8) ∉ m → ramfsFind fs (some m) = ramfsFind v.slots (some m)) :
    entry { v with slots := fs } kids d m = entry v kids d m := by
  cases d with
  | dir a =>
    by_cases hdir : IsDir (flagsOf v (.dir a)) ∧ (0 : UInt8) ∉ m
    · have hdir' : IsDir (flagsOf { v with slots := fs } (.dir a)) ∧ (0 : UInt8) ∉ m := hdir
      have hops' : opsOf { v with slots := fs } (.dir a) = opsOf v (.dir a) := rfl
      unfold entry
      rw [if_pos hdir, if_pos hdir', hops']
      cases hops : opsOf v (.dir a) with
      | null => rfl
      | root => rfl
      | ramfs =>
        obtain rfl : a = ram := h.only a hops
        simp only [ramfsVfsFinddir, hsame rfl hdir.2]
      | procfs => rfl
    · have hnone : entry { v with slots := fs } kids (.dir a) m = none := entry_none hdir
      rw [hnone, entry_none hdir]
  | ram j =>
    have hnone : entry { v with slots := fs } kids (.ram j) m = none := entry_file (hfs j) m
    rw [hnone, entry_file (h.plain j)]
  | proc j => rfl

theorem entry_ram (hdir : IsDir (v.nodes ram).flags) (hops : (v.nodes ram).ops = .ramfs)
    (hname : (0 : UInt8) ∉ name) : entry v kids (.dir ram) name = (ramfsFind v.slots (some name)).map .ram := by
  have hflags : IsDir (flagsOf v (.dir ram)) := hdir
  have htable : opsOf v (.dir ram) = .ramfs := hops
  unfold entry
  rw [if_pos ⟨hflags, hname⟩, htable]
  rfl

/-- Of the directories of the kernel only that of the files has their operations. -/
theorem ramfs_parent (h : FileTree v ram) {d : Ref} (hdir : IsDir (flagsOf v d)) (hops : opsOf v d = .ramfs) :
    d = .dir ram := by
  cases d with
  | dir a => rw [h.only a hops]
  | ram i => exact ((h.plain i).file hdir).elim
  | proc i => cases hops

/-- The state with a new file in slot `i`. -/
def withFile (v : VfsState) (i : Slot) (name : Path) : VfsState :=
  { v with slots := Function.update v.slots i (freshFile (v.slots i) i name) }

/-- What a successful create has found. -/
structure Creates (v : VfsState) (ram : ℕ) (parent name : Path) (i : Slot) : Prop where
  place : vfsLookupPath v (some parent) = some (some (.dir ram))
  dir : IsDir (v.nodes ram).flags
  ops : (v.nodes ram).ops = .ramfs
  short : name.length < 128
  new : ramfsFind v.slots (some name) = none
  unused : (v.slots i).used = false

/-- A file that was created lies in the directory of the files. -/
theorem vfsCreate_zero (h : FileTree v ram) {flags : ℕ} (hc : vfsCreate v (some path) flags = some (0, v'))
    (hsplit : splitPath path = some (parent, name)) :
    ∃ i, Creates v ram parent name i ∧ v' = withFile v i name := by
  unfold vfsCreate at hc
  obtain ⟨found, hfound, hresult⟩ := Option.map_eq_some_iff.mp hc
  cases found with
  | none => cases hresult
  | some pair =>
    obtain ⟨d, n⟩ := pair
    obtain ⟨p, hsplit', hlen, hparent, hdir⟩ := parentOf_some hfound
    cases hsplit.symm.trans hsplit'
    dsimp only at hresult
    by_cases hops : opsOf v d = .ramfs
    · rw [if_pos hops] at hresult
      obtain ⟨hzero, rfl⟩ := Prod.mk.inj hresult
      obtain rfl := ramfs_parent h hdir hops
      have hcreate : ramfsCreate v.slots (some name) = (0, (ramfsCreate v.slots (some name)).2) :=
        Prod.ext hzero rfl
      obtain ⟨hnew, i, hunused, hslots⟩ := create_cases hcreate
      refine ⟨i, ⟨hparent, hdir, hops, hlen, hnew, hunused⟩, ?_⟩
      rw [hslots]
      rfl
    · rw [if_neg hops] at hresult
      cases hresult

theorem withFile_plain (h : FileTree v ram) (j : Slot) : Plain ((withFile v i name).slots j) :=
  plain_update h.plain (plain_fresh (h.plain i)) j

theorem withFile_forest (h : Forest v kids) : Forest (withFile v i name) kids := slots_forest h

/-- A new file changes what its stored name leads to in the directory of the files. -/
theorem withFile_entry (h : FileTree v ram) (hname : (0 : UInt8) ∉ name) (hunused : (v.slots i).used = false)
    (d : Ref) (m : Path) (hdm : ¬ (d = .dir ram ∧ m = name.take (ramfsMaxName-1))) :
    entry (withFile v i name) kids d m = entry v kids d m := by
  apply entry_slots h (withFile_plain h)
  intro hd hm
  exact create_find_other h.plain hname hunused hm (fun heq => hdm ⟨hd, heq⟩)

/-- Lookups that do not go through the stored name of a new file are as before. -/
theorem withFile_kept (h : FileTree v ram) (hforest : Forest v kids) (hc : Creates v ram parent name i)
    (hname : (0 : UInt8) ∉ name) {q : List Path} (hq : ¬ (components parent++[name.take (ramfsMaxName-1)]) <+: q) :
    resolve (entry (withFile v i name) kids) (.dir v.root) q = resolve (entry v kids) (.dir v.root) q := by
  have hplace := hc.place
  rw [lookup_resolve hforest.toThreaded (lookup_rooted hplace)] at hplace
  apply resolve_unlinked (d := .dir ram) (p := components parent) (n := name.take (ramfsMaxName-1))
  · intro r hr
    exact place_unique hforest hr (Option.some.inj hplace)
  · exact withFile_entry h hname hc.unused
  · exact hq

theorem withFile_parent (h : FileTree v ram) (hforest : Forest v kids) (hc : Creates v ram parent name i)
    (hname : (0 : UInt8) ∉ name) :
    resolve (entry (withFile v i name) kids) (.dir v.root) (components parent) = some (.dir ram) := by
  have hplace := hc.place
  rw [lookup_resolve hforest.toThreaded (lookup_rooted hplace)] at hplace
  rw [withFile_kept h hforest hc hname]
  · exact Option.some.inj hplace
  · intro hprefix
    have hlen := hprefix.length_le
    simp at hlen

/-- Below a file there is nothing. -/
theorem file_leaf (h : ∀ j, Plain (v.slots j)) (m : Path) (q : List Path) :
    resolve (entry v kids) (.ram i) (m::q) = none := by
  rw [resolve, entry_file (h i), Option.bind_none]

structure NewFile (v v' : VfsState) (path name : Path) (i : Slot) : Prop where
  unused : (v.slots i).used = false
  used : (v'.slots i).used = true
  name : key (v'.slots i) = name
  size : (v'.slots i).size = 0
  nodeSize : (v'.slots i).vfsNode.size = 0
  others : ∀ j, j ≠ i → v'.slots j = v.slots j
  found : vfsLookupPath v' (some path) = some (some (.ram i))

theorem create_missing (h : Forest v kids) (hc : Creates v ram parent name i)
    (hsplit : splitPath path = some (parent, name)) (hne : name ≠ []) :
    resolve (entry v kids) (.dir v.root) (components path) = none := by
  obtain ⟨hcomponents, -, hfree⟩ := splitPath_components hsplit
  rw [if_neg hne] at hcomponents
  have hplace := hc.place
  rw [lookup_resolve h.toThreaded (lookup_rooted hplace)] at hplace
  rw [hcomponents, resolve_snoc, Option.some.inj hplace, Option.bind_some, entry_ram hc.dir hc.ops hfree, hc.new,
    Option.map_none]

theorem create_found (h : FileTree v ram) (hforest : Forest v kids) (hc : Creates v ram parent name i)
    (hsplit : splitPath path = some (parent, name)) (hne : name ≠ []) (hlen : name.length < ramfsMaxName) :
    resolve (entry (withFile v i name) kids) (.dir v.root) (components path) = some (.ram i) := by
  obtain ⟨hcomponents, -, hfree⟩ := splitPath_components hsplit
  rw [if_neg hne] at hcomponents
  have hfind : ramfsFind (withFile v i name).slots (some name) = some i :=
    create_find_new h.plain hfree hlen hc.new
  have hentry : entry (withFile v i name) kids (.dir ram) name =
      (ramfsFind (withFile v i name).slots (some name)).map .ram := entry_ram hc.dir hc.ops hfree
  rw [hcomponents, resolve_snoc, withFile_parent h hforest hc hfree, Option.bind_some, hentry, hfind, Option.map_some]

theorem withFile_lookup (hforest : Forest v kids) (h0 : v.root ≠ 0) (q : Path) :
    vfsLookupPath (withFile v i name) (some q) =
      some (resolve (entry (withFile v i name) kids) (.dir v.root) (components q)) :=
  lookup_resolve (withFile_forest hforest).toThreaded h0 q

/-- A create makes a file of size 0, and its path leads there. -/
theorem create_new (h : FileTree v ram) (hc : Creates v ram parent name i)
    (hsplit : splitPath path = some (parent, name)) (hne : name ≠ []) (hlen : name.length < ramfsMaxName) :
    NewFile v (withFile v i name) path name i := by
  obtain ⟨kids, hforest⟩ := h.forest
  obtain ⟨-, -, hfree⟩ := splitPath_components hsplit
  have hslot : (withFile v i name).slots i = freshFile (v.slots i) i name := Function.update_self i _ v.slots
  refine ⟨hc.unused, ?_, ?_, ?_, ?_, ?_, ?_⟩
  · rw [hslot]
    rfl
  · rw [hslot]
    exact short_key (h.plain i) hfree hlen
  · rw [hslot]
    rfl
  · rw [hslot]
    rfl
  · intro j hj
    exact Function.update_of_ne hj _ _
  · rw [withFile_lookup hforest (lookup_rooted hc.place), create_found h hforest hc hsplit hne hlen]

/-- A create leaves every other path where it led. -/
theorem create_kept (h : FileTree v ram) (hc : Creates v ram parent name i)
    (hsplit : splitPath path = some (parent, name)) (hne : name ≠ []) (hlen : name.length < ramfsMaxName) {q : Path}
    (hq : components q ≠ components path) :
    vfsLookupPath (withFile v i name) (some q) = vfsLookupPath v (some q) := by
  obtain ⟨kids, hforest⟩ := h.forest
  obtain ⟨hcomponents, -, hfree⟩ := splitPath_components hsplit
  rw [if_neg hne] at hcomponents
  have hstored : name.take (ramfsMaxName-1) = name := List.take_of_length_le (by omega)
  have h0 := lookup_rooted hc.place
  rw [withFile_lookup hforest h0, lookup_resolve hforest.toThreaded h0]
  by_cases hprefix : components path <+: components q
  · -- below the path there was nothing, and below a file there is nothing
    obtain ⟨rest, hrest⟩ := hprefix
    cases rest with
    | nil => exact (hq (by rw [← hrest, List.append_nil])).elim
    | cons m rest =>
      rw [← hrest, resolve_append, resolve_append, create_missing hforest hc hsplit hne,
        create_found h hforest hc hsplit hne hlen, Option.bind_none, Option.bind_some,
        file_leaf (withFile_plain h)]
  · rw [hcomponents] at hprefix
    refine congrArg some (withFile_kept h hforest hc hfree ?_)
    rw [hstored]
    exact hprefix

/-- Deleting a new file takes its name away again. -/
theorem delete_lookups (h : FileTree v ram) (hc : Creates v ram parent name i)
    (hsplit : splitPath path = some (parent, name)) (hlen : name.length < ramfsMaxName) :
    ∃ v'', vfsDelete (withFile v i name) (some path) = some (0, v'') ∧
      ∀ q, vfsLookupPath v'' (some q) = vfsLookupPath v (some q) := by
  obtain ⟨kids, hforest⟩ := h.forest
  obtain ⟨-, -, hfree⟩ := splitPath_components hsplit
  have h0 := lookup_rooted hc.place
  have hparent : vfsLookupPath (withFile v i name) (some parent) = some (some (.dir ram)) := by
    rw [withFile_lookup hforest h0, withFile_parent h hforest hc hfree]
  have hdir : IsDir (flagsOf (withFile v i name) (.dir ram)) := hc.dir
  have hops : opsOf (withFile v i name) (.dir ram) = .ramfs := hc.ops
  have hfind : ramfsFind (withFile v i name).slots (some name) = some i :=
    create_find_new h.plain hfree hlen hc.new
  obtain ⟨f, hf, hplain, hdelete⟩ : ∃ f : RamfsFile, f.used = false ∧ Plain f ∧
      ramfsDelete (withFile v i name).slots (some name) = (0, Function.update v.slots i f) := by
    refine ⟨{ freshFile (v.slots i) i name with
      used := false, size := 0, name := (freshFile (v.slots i) i name).name.set 0 0 }, rfl,
      plain_freed (plain_fresh (h.plain i)), ?_⟩
    unfold ramfsDelete
    rw [hfind]
    simp [withFile]
  have hsame : entry { v with slots := Function.update v.slots i f } kids = entry v kids := by
    ext1 d
    ext1 m
    apply entry_slots h (plain_update h.plain hplain)
    intro _ _
    exact free_find hc.unused hf
  refine ⟨{ v with slots := Function.update v.slots i f }, ?_, ?_⟩
  · unfold vfsDelete
    dsimp only
    rw [parentOf_intro hsplit hc.short hparent hdir, Option.map_some]
    dsimp only
    rw [if_pos hops, hdelete]
    rfl
  · intro q
    have hthreaded : Threaded { v with slots := Function.update v.slots i f } kids :=
      (slots_forest hforest).toThreaded
    rw [lookup_resolve hthreaded h0, lookup_resolve hforest.toThreaded h0, hsame]

/-- A file created under a name that does not fit its slot is not found and cannot be deleted by its path. -/
theorem long_name_lost (h : FileTree v ram) {flags : ℕ} (hc : vfsCreate v (some path) flags = some (0, v'))
    (hsplit : splitPath path = some (parent, name)) (hlong : ramfsMaxName ≤ name.length) :
    vfsLookupPath v' (some path) = some none ∧ vfsDelete v' (some path) = some (-1, v') := by
  obtain ⟨i, hcreates, rfl⟩ := vfsCreate_zero h hc hsplit
  obtain ⟨kids, hforest⟩ := h.forest
  obtain ⟨hcomponents, -, hfree⟩ := splitPath_components hsplit
  have hne : name ≠ [] := by
    rintro rfl
    cases hlong
  rw [if_neg hne] at hcomponents
  have h0 := lookup_rooted hcreates.place
  have hnew : ∀ q, vfsLookupPath (withFile v i name) (some q) =
      some (resolve (entry (withFile v i name) kids) (.dir v.root) (components q)) := withFile_lookup hforest h0
  have hplain : ∀ j, Plain ((withFile v i name).slots j) := withFile_plain h
  have hfind : ramfsFind (withFile v i name).slots (some name) = none := long_find hplain hfree hlong
  have hparent : vfsLookupPath (withFile v i name) (some parent) = some (some (.dir ram)) :=
    (hnew parent).trans (congrArg some (withFile_parent h hforest hcreates hfree))
  have hdir : IsDir (flagsOf (withFile v i name) (.dir ram)) := hcreates.dir
  have hops : opsOf (withFile v i name) (.dir ram) = .ramfs := hcreates.ops
  constructor
  · have hentry : entry (withFile v i name) kids (.dir ram) name =
        (ramfsFind (withFile v i name).slots (some name)).map .ram := entry_ram hcreates.dir hcreates.ops hfree
    rw [hnew, hcomponents, resolve_snoc, withFile_parent h hforest hcreates hfree, Option.bind_some, hentry, hfind,
      Option.map_none]
  · unfold vfsDelete ramfsDelete
    dsimp only
    rw [parentOf_intro hsplit hcreates.short hparent hdir, Option.map_some]
    dsimp only
    rw [if_pos hops, hfind]

end Files

/-- Creating a file under a name that fits its slot makes the path lead to the
new file and no other path elsewhere, and deleting it undoes that. -/
theorem create_then_delete {root ram proc : ℕ} (ha : Addresses root ram proc) {v v' : VfsState}
    (hv : Reached root ram proc v) {path parent name : Path} {flags : ℕ}
    (hsplit : splitPath path = some (parent, name)) (hne : name ≠ []) (hlen : name.length < ramfsMaxName)
    (hc : vfsCreate v (some path) flags = some (0, v')) :
    (∃ i, NewFile v v' path name i) ∧
    (∀ q, components q ≠ components path → vfsLookupPath v' (some q) = vfsLookupPath v (some q)) ∧
    ∃ v'', vfsDelete v' (some path) = some (0, v'') ∧
      ∀ q, vfsLookupPath v'' (some q) = vfsLookupPath v (some q) := by
  have htree := reached_tree ha hv
  obtain ⟨i, hcreates, rfl⟩ := vfsCreate_zero htree hc hsplit
  exact ⟨⟨i, create_new htree hcreates hsplit hne hlen⟩, fun q => create_kept htree hcreates hsplit hne hlen,
    delete_lookups htree hcreates hsplit hlen⟩

def sampleBoot : VfsState := mountedFiles 1 2 3

/-- `/ram/a` -/
def ramA : Path := slash::ramName++[slash, 97]

/-- `/ram//a` -/
def ramAliasA : Path := slash::ramName++[slash, slash, 97]

theorem sampleBoot_addresses : Addresses 1 2 3 := by
  constructor <;> decide

theorem sampleBoot_reached : Reached 1 2 3 sampleBoot :=
  Reached.boot (boot_mounts sampleBoot_addresses (by decide))

theorem zero_result {o : Option (ℤ × VfsState)} (h : o.map Prod.fst = some 0) : ∃ v', o = some (0, v') := by
  cases o with
  | none => cases h
  | some r => exact ⟨r.2, congrArg some (Prod.ext (Option.some.inj h) rfl)⟩

theorem ramA_created : ∃ v', vfsCreate sampleBoot (some ramA) 1 = some (0, v') :=
  zero_result (by decide +kernel)

theorem ramA_split : splitPath ramA = some (slash::ramName, [97]) := by decide +kernel

theorem create_then_delete_sample : ∃ v', vfsCreate sampleBoot (some ramA) 1 = some (0, v') ∧
    (∃ i, NewFile sampleBoot v' ramA [97] i) ∧
    (∀ q, components q ≠ components ramA → vfsLookupPath v' (some q) = vfsLookupPath sampleBoot (some q)) ∧
    ∃ v'', vfsDelete v' (some ramA) = some (0, v'') ∧
      ∀ q, vfsLookupPath v'' (some q) = vfsLookupPath sampleBoot (some q) := by
  obtain ⟨v', hv'⟩ := ramA_created
  exact ⟨v', hv', create_then_delete sampleBoot_addresses sampleBoot_reached ramA_split (by decide) (by decide) hv'⟩

/-- The same file by a path with two slashes. -/
theorem alias_changes : ¬ ∀ (v v' : VfsState) (path : Path) (flags : ℕ), Reached 1 2 3 v →
    vfsCreate v (some path) flags = some (0, v') →
    ∀ q, q ≠ path → vfsLookupPath v' (some q) = vfsLookupPath v (some q) := by
  intro h
  obtain ⟨v', hv'⟩ := ramA_created
  have htree : FileTree sampleBoot 2 := reached_tree sampleBoot_addresses sampleBoot_reached
  obtain ⟨i, hc, rfl⟩ := vfsCreate_zero htree hv' ramA_split
  obtain ⟨kids, hforest⟩ := htree.forest
  have h0 := lookup_rooted hc.place
  have hnew := create_new htree hc ramA_split (by decide) (by decide)
  have hmissing := create_missing hforest hc ramA_split (by decide)
  rw [← Option.some_inj, ← lookup_resolve hforest.toThreaded h0] at hmissing
  have halias : components ramAliasA = components ramA := by decide +kernel
  have hbefore := lookup_alias hforest.toThreaded h0 halias
  have hthreaded : Threaded (withFile sampleBoot i [97]) kids := (withFile_forest hforest).toThreaded
  have hafter := lookup_alias hthreaded h0 halias
  have hsame := h sampleBoot _ ramA 1 sampleBoot_reached hv' ramAliasA (by decide)
  cases hmissing.symm.trans (hbefore.symm.trans (hsame.symm.trans (hafter.trans hnew.found)))

end Dionnex.VfsFiles
