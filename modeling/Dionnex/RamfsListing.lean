import Dionnex.RamfsNames

/-!
# Counting, listing and finding the files

Four loops pass over the slots: one counts the used slots, one returns the
used slot of an index, one looks for a name, and the listing asks for one
index after the other. They agree on the used slots in slot order; the node
of a file is found by its own name as long as both of its names are whole.
-/

set_option autoImplicit false

namespace Dionnex.RamfsListing
open Dionnex.KernelString Dionnex.Ramfs Dionnex.RamfsVfs Dionnex.RamfsResidue Dionnex.RamfsNames
open Dionnex.Vfs Dionnex.VfsPaths Dionnex.VfsMounts Dionnex.VfsFiles

/-- The loop of `ramfs_vfs_readdir`; the third argument is `active_idx`. -/
def readdirScan (fs : Slots) (index : ℕ) : ℕ → List Slot → Option Slot
  | _, [] => none
  | active, i::is =>
    if (fs i).used then
      if active = index then some i else readdirScan fs index (active+1) is
    else readdirScan fs index active is

/-- The loop of `ramfs_get_file_count`. -/
def countScan (fs : Slots) : ℕ → List Slot → ℕ
  | count, [] => count
  | count, i::is => countScan fs (if (fs i).used then count+1 else count) is

def ramfsGetFileCount (fs : Slots) : ℕ := countScan fs 0 (List.finRange ramfsMaxFiles)

/-- The used slots in slot order. -/
def usedSlots (fs : Slots) : List Slot := (List.finRange ramfsMaxFiles).filter (fun i => (fs i).used)

section Scans

variable {fs : Slots} {i : Slot}

theorem filter_used (h : (fs i).used = true) (is : List Slot) :
    (i::is).filter (fun i => (fs i).used) = i :: is.filter (fun i => (fs i).used) :=
  List.filter_cons_of_pos h

theorem filter_free (h : ¬ (fs i).used = true) (is : List Slot) :
    (i::is).filter (fun i => (fs i).used) = is.filter (fun i => (fs i).used) :=
  List.filter_cons_of_neg h

theorem readdirScan_get (index active : ℕ) (is : List Slot) (h : active ≤ index) :
    readdirScan fs index active is = (is.filter (fun i => (fs i).used))[index-active]? := by
  induction is generalizing active with
  | nil => rfl
  | cons i is ih =>
    rw [readdirScan]
    by_cases hused : (fs i).used = true
    · rw [if_pos hused, filter_used hused]
      by_cases hindex : active = index
      · rw [if_pos hindex, hindex, Nat.sub_self, List.getElem?_cons_zero]
      · have hlater : index-active = (index-(active+1))+1 := by omega
        rw [if_neg hindex, ih (active+1) (by omega), hlater, List.getElem?_cons_succ]
    · rw [if_neg hused, filter_free hused, ih active h]

theorem readdir_scan (v : VfsState) (index : ℕ) :
    ramfsVfsReaddir v index = (readdirScan v.slots index 0 (List.finRange ramfsMaxFiles)).map .ram := by
  rw [readdirScan_get index 0 _ (Nat.zero_le index)]
  rfl

theorem countScan_length (count : ℕ) (is : List Slot) :
    countScan fs count is = count + (is.filter (fun i => (fs i).used)).length := by
  induction is generalizing count with
  | nil => rfl
  | cons i is ih =>
    rw [countScan, ih]
    by_cases hused : (fs i).used = true
    · rw [if_pos hused, filter_used hused, List.length_cons]
      omega
    · rw [if_neg hused, filter_free hused]

theorem file_count (fs : Slots) : ramfsGetFileCount fs = (usedSlots fs).length := by
  rw [ramfsGetFileCount, countScan_length, Nat.zero_add]
  rfl

theorem mem_usedSlots : i ∈ usedSlots fs ↔ (fs i).used = true := by
  simp [usedSlots]

theorem usedSlots_sorted (fs : Slots) : (usedSlots fs).Pairwise (fun i j => i < j) :=
  (List.pairwise_lt_finRange ramfsMaxFiles).filter _

theorem usedSlots_length (fs : Slots) : (usedSlots fs).length ≤ ramfsMaxFiles := by
  have hlen := (List.filter_sublist (p := fun i => (fs i).used) (l := List.finRange ramfsMaxFiles)).length_le
  rwa [List.length_finRange] at hlen

end Scans

/-! ## The two names of a file -/

/-- Every name in use is that of one slot, and the node of the slot has it too. -/
structure Labelled (fs : Slots) : Prop where
  plain : ∀ i, Plain (fs i)
  unique : Unique fs
  node : ∀ i, (fs i).used = true → cstr (fs i).vfsNode.name = key (fs i)

/-- Nothing is created under a name of more than 63 bytes. -/
def Short : Event → Prop
  | .create (some name) => (cstr name).length ≤ ramfsMaxName-1
  | _ => True

section Labels

variable {fs t : Slots}

/-- Nothing past the NUL of a string is copied. -/
theorem strncpy_string (n : ℕ) (dest src : List UInt8) : strncpy n dest (cstr src) = strncpy n dest src := by
  induction n generalizing dest src with
  | zero => rfl
  | succ n ih =>
    cases dest with
    | nil => rfl
    | cons d dest =>
      cases src with
      | nil => rfl
      | cons c src =>
        by_cases hc : c = 0
        · simp [strncpy, hc]
        · simp [strncpy, hc, cstr_cons c src hc, ih]

theorem find_string (fs : Slots) (name : List UInt8) :
    ramfsFind fs (some (cstr name)) = ramfsFind fs (some name) := by
  unfold ramfsFind
  apply List.find?_congr
  intro i _
  rw [Bool.eq_iff_iff]
  simp [strcmp_eq_zero, cstr_of_nulFree _ (cstr_nulFree name)]

theorem fresh_string (f : RamfsFile) (i : Slot) (name : List UInt8) :
    freshFile f i (cstr name) = freshFile f i name := by
  simp only [freshFile, fileNode, strncpy_string]

/-- The calls see the string of a name only. -/
theorem create_string (fs : Slots) (name : List UInt8) :
    ramfsCreate fs (some (cstr name)) = ramfsCreate fs (some name) := by
  simp only [ramfsCreate, find_string, fresh_string]

theorem delete_string (fs : Slots) (name : List UInt8) :
    ramfsDelete fs (some (cstr name)) = ramfsDelete fs (some name) := by
  simp only [ramfsDelete, find_string]

def stringOf (name : List UInt8) : CString := ⟨cstr name, cstr_nulFree name⟩

theorem short_node {f : RamfsFile} {i : Slot} {name : CString} (h : Plain f) (hlen : name.1.length < ramfsMaxName) :
    cstr (freshFile f i name.1).vfsNode.name = key (freshFile f i name.1) := by
  have hnode : cstr (freshFile f i name.1).vfsNode.name = (cstr name.1).take 127 :=
    strncpy_cstr 127 zeroNode.name name.1 (by decide)
  unfold ramfsMaxName at hlen
  rw [hnode, short_key h name.2 hlen, cstr_of_nulFree name.1 name.2, List.take_of_length_le (by omega)]

theorem invoke_labelled (h : Labelled fs) {c : Call} (hfits : Fits fs c) : Labelled (invoke fs c).2 := by
  refine ⟨invoke_plain h.plain c, invoke_unique h.plain h.unique hfits, ?_⟩
  intro j
  rcases invoke_cases fs c with hsame | ⟨name, i, rfl, -, hfree, hfresh⟩ | ⟨name, i, rfl, -, -, hfreed⟩
  · rw [hsame]
    exact h.node j
  · rw [hfresh]
    dsimp only
    by_cases hj : j = i
    · subst hj
      rw [Function.update_self]
      intro _
      exact short_node (h.plain j) (fits_short hfits hfree)
    · rw [Function.update_of_ne hj]
      exact h.node j
  · rw [hfreed]
    dsimp only
    by_cases hj : j = i
    · subst hj
      rw [Function.update_self]
      intro hused
      cases hused
    · rw [Function.update_of_ne hj]
      exact h.node j

/-- What the writes leave alone. -/
def SameNames (fs t : Slots) : Prop :=
  ∀ i, (t i).used = (fs i).used ∧ (t i).name = (fs i).name ∧ (t i).vfsNode.name = (fs i).vfsNode.name

theorem update_names {i : Slot} {f : RamfsFile} (hused : f.used = (fs i).used) (hname : f.name = (fs i).name)
    (hnode : f.vfsNode.name = (fs i).vfsNode.name) : SameNames fs (Function.update fs i f) := by
  intro j
  by_cases hj : j = i
  · subst hj
    rw [Function.update_self]
    exact ⟨hused, hname, hnode⟩
  · rw [Function.update_of_ne hj]
    exact ⟨rfl, rfl, rfl⟩

theorem wrote_names (fs : Slots) (node j : Slot) (offset n : ℕ) (buf : ℕ → UInt8) :
    SameNames fs (wrote fs node j offset n buf) := by
  have hfile : SameNames fs (Function.update fs j (writeFile (fs j) offset n buf)) := update_names rfl rfl rfl
  unfold wrote
  dsimp only
  split
  · intro i
    have hsize : SameNames (Function.update fs j (writeFile (fs j) offset n buf))
        (setNodeSize (Function.update fs j (writeFile (fs j) offset n buf)) node (offset+n)) :=
      update_names rfl rfl rfl
    obtain ⟨hused, hname, hnode⟩ := hfile i
    obtain ⟨hused', hname', hnode'⟩ := hsize i
    exact ⟨hused'.trans hused, hname'.trans hname, hnode'.trans hnode⟩
  · exact hfile

theorem names_labelled (h : Labelled fs) (hsame : SameNames fs t) (ht : ∀ i, Plain (t i)) : Labelled t := by
  refine ⟨ht, ?_, ?_⟩
  · intro i j
    rw [(hsame i).1, (hsame j).1, key, key, (hsame i).2.1, (hsame j).2.1]
    exact h.unique i j
  · intro i
    rw [(hsame i).1, key, (hsame i).2.1, (hsame i).2.2]
    exact h.node i

theorem perform_labelled {e : Event} (h : Labelled fs) (he : Short e) (ht : perform fs e = some t) : Labelled t := by
  have hplain : ∀ i, Plain (t i) := perform_plain h.plain ht
  cases e with
  | create name =>
    cases name with
    | none =>
      cases ht
      exact h
    | some name =>
      obtain rfl := Option.some.inj ht
      rw [← create_string fs name]
      exact invoke_labelled (c := .create (stringOf name)) h (Or.inl he)
  | delete name =>
    cases name with
    | none =>
      cases ht
      exact h
    | some name =>
      obtain rfl := Option.some.inj ht
      rw [← delete_string fs name]
      exact invoke_labelled (c := .delete (stringOf name)) h trivial
  | write name buf len =>
    apply names_labelled h ?_ hplain
    simp only [perform, ramfsWrite] at ht
    obtain rfl := Option.some.inj ht
    split
    · exact update_names rfl rfl rfl
    · exact fun i => ⟨rfl, rfl, rfl⟩
  | vfsWrite node offset size buf =>
    apply names_labelled h ?_ hplain
    rcases vfsWrite_cases ht with ⟨rfl, -⟩ | ⟨nd, j, b, n, -, -, -, -, -, rfl⟩
    · exact fun i => ⟨rfl, rfl, rfl⟩
    · exact wrote_names fs nd j _ n b

theorem cleared_labelled : Labelled ramfsCleared := by
  refine ⟨cleared_plain, ?_, ?_⟩
  · intro _ _ hused
    cases hused
  · intro _ hused
    cases hused

/-- A file is found by the name of its node. -/
theorem node_found (h : Labelled fs) {i : Slot} (hused : (fs i).used = true) :
    ramfsFind fs (some (fs i).vfsNode.name) = some i := by
  have hkey := h.node i hused
  cases hfind : ramfsFind fs (some (fs i).vfsNode.name) with
  | none => exact (find_none fs _ hfind i hused hkey.symm).elim
  | some j =>
    obtain ⟨hj, hname⟩ := find_some fs _ j hfind
    rw [h.unique j i hj hused (hname.trans hkey)]

end Labels

/-! ## The directory of the files -/

/-- The states after the kernel's mounts in which no longer name was created. -/
inductive ShortReached (root ram proc : ℕ) : VfsState → Prop
  | boot {v : VfsState} (h : bootFiles root ram proc = some v) : ShortReached root ram proc v
  | files {v : VfsState} {e : Event} {fs : Slots} (hv : ShortReached root ram proc v) (he : Short e)
      (h : perform v.slots e = some fs) : ShortReached root ram proc { v with slots := fs }

section Directory

variable {v : VfsState} {root ram proc : ℕ}

/-- The node of `ramfs_get_root_node`. -/
structure FileDir (v : VfsState) (ram : ℕ) : Prop where
  dir : IsDir (v.nodes ram).flags
  ops : (v.nodes ram).ops = .ramfs

theorem init_dir (v : VfsState) : FileDir (ramfsInit v ram) ram := by
  have hnode : (ramfsInit v ram).nodes ram = rootNode ramName .ramfs := VfsState.put_self v ram _
  constructor
  · rw [hnode]
    decide
  · rw [hnode, rootNode]

theorem procfs_dir (h : FileDir v ram) (hne : ram ≠ proc) : FileDir (procfsInit v proc) ram := by
  have hnode : (procfsInit v proc).nodes ram = v.nodes ram := VfsState.put_ne _ _ hne
  exact ⟨hnode ▸ h.dir, hnode ▸ h.ops⟩

theorem attach_fileDir {p x : ℕ} {name : Path} (h : FileDir v ram) (hx : x ≠ p) : FileDir (attach v p name x) ram := by
  obtain ⟨hdir, hops, -⟩ := @attach_kept v p x name hx ram
  exact ⟨hdir.mpr h.dir, hops.trans h.ops⟩

theorem boot_dir (h : Addresses root ram proc) (hv : bootFiles root ram proc = some v) : FileDir v ram := by
  rcases boot_cases h hv with rfl | rfl
  · exact procfs_dir (init_dir _) h.ram_proc
  · exact attach_fileDir (procfs_dir (attach_fileDir (init_dir _) h.root_ram.symm) h.ram_proc) h.root_proc.symm

theorem init_labelled (v : VfsState) (node : ℕ) : Labelled (ramfsInit v node).slots := by
  have hlen : welcome.length = (42 : UInt32).toNat := by decide
  have hshort : Short (.create (some readmeName)) := by
    unfold Short
    decide
  have hreadme := perform_labelled cleared_labelled hshort rfl
  unfold ramfsInit
  rw [hlen]
  exact perform_labelled (e := .write (some readmeName) (some (fun k => welcome.getD k 0)) 42) hreadme trivial rfl

theorem boot_labelled (h : Addresses root ram proc) (hv : bootFiles root ram proc = some v) : Labelled v.slots := by
  rcases boot_cases h hv with rfl | rfl
  · exact init_labelled (vfsInit noFiles root) ram
  · exact init_labelled (vfsInit noFiles root) ram

theorem reached_labelled (hv : ShortReached root ram proc v) (h : Addresses root ram proc) :
    Labelled v.slots ∧ FileDir v ram := by
  induction hv with
  | boot hboot => exact ⟨boot_labelled h hboot, boot_dir h hboot⟩
  | files _ he hfs ih => exact ⟨perform_labelled ih.1 he hfs, ih.2.dir, ih.2.ops⟩

theorem readdir_used (h : FileDir v ram) (k : ℕ) :
    vfsReaddir v (.dir ram) k = some ((usedSlots v.slots)[k]?.map .ram) := by
  have hops : opsOf v (.dir ram) = .ramfs := h.ops
  unfold vfsReaddir
  rw [hops, readdir_scan, readdirScan_get k 0 _ (Nat.zero_le k), Nat.sub_zero]
  rfl

theorem finddir_node (h : FileDir v ram) (hl : Labelled v.slots) {i : Slot} (hi : i ∈ usedSlots v.slots) :
    vfsFinddir v (.dir ram) (v.slots i).vfsNode.name = some (some (.ram i)) := by
  have hops : opsOf v (.dir ram) = .ramfs := h.ops
  unfold vfsFinddir
  rw [hops, ramfsVfsFinddir, node_found hl (mem_usedSlots.mp hi)]
  rfl

/-- The listing visits what the indices return, up to the first that returns nothing. -/
theorem listLoop_drop {dir : Ref} {l : List Ref} (hget : ∀ k, vfsReaddir v dir k = some l[k]?) {fuel i : ℕ}
    (hi : i ≤ l.length) (hf : l.length < fuel+i) : listLoop v dir fuel i = some (l.drop i) := by
  induction fuel generalizing i with
  | zero => omega
  | succ fuel ih =>
    rw [listLoop, hget, Option.bind_some]
    rcases Nat.eq_or_lt_of_le hi with rfl | hlt
    · rw [List.getElem?_eq_none (Nat.le_refl _), List.drop_length]
    · have hrest := @ih (i+1) hlt (by omega)
      rw [List.getElem?_eq_getElem hlt, List.drop_eq_getElem_cons hlt]
      dsimp only
      rw [hrest, Option.map_some]

theorem list_used (h : FileDir v ram) {path : Path} (hpath : vfsLookupPath v (some path) = some (some (.dir ram))) :
    vfsList v (some path) = some ((usedSlots v.slots).map .ram) := by
  have hget : ∀ k, vfsReaddir v (.dir ram) k = some ((usedSlots v.slots).map Ref.ram)[k]? := by
    intro k
    rw [readdir_used h, List.getElem?_map]
  have hdir : IsDir (flagsOf v (.dir ram)) := h.dir
  have hlen := usedSlots_length v.slots
  have hbound : ramfsMaxFiles < walkBound := by decide
  unfold vfsList
  rw [hpath, Option.bind_some]
  dsimp only
  rw [if_pos hdir, listLoop_drop hget (Nat.zero_le _), List.drop_zero]
  rw [List.length_map]
  omega

/-- What the loops over the slots agree on. -/
structure Agrees (v : VfsState) (ram : ℕ) : Prop where
  members : ∀ i, i ∈ usedSlots v.slots ↔ (v.slots i).used = true
  sorted : (usedSlots v.slots).Pairwise (fun i j => i < j)
  readdir : ∀ k, vfsReaddir v (.dir ram) k = some ((usedSlots v.slots)[k]?.map .ram)
  past : ∀ k, vfsReaddir v (.dir ram) k = some none ↔ ramfsGetFileCount v.slots ≤ k
  list : ∀ path, vfsLookupPath v (some path) = some (some (.dir ram)) →
    vfsList v (some path) = some ((usedSlots v.slots).map .ram)
  finddir : ∀ i ∈ usedSlots v.slots, vfsFinddir v (.dir ram) (v.slots i).vfsNode.name = some (some (.ram i))

/-- The indices and the listing give each file once in slot order, the count is
where they end, and each node is found by its name. -/
theorem listing_agrees (h : Addresses root ram proc) (hv : ShortReached root ram proc v) : Agrees v ram := by
  obtain ⟨hlabels, hdir⟩ := reached_labelled hv h
  refine ⟨fun _ => mem_usedSlots, usedSlots_sorted _, readdir_used hdir, ?_, fun _ => list_used hdir,
    fun _ => finddir_node hdir hlabels⟩
  intro k
  rw [readdir_used hdir, file_count]
  simp

theorem listing_agrees_sample : Agrees sampleBoot 2 :=
  listing_agrees sampleBoot_addresses (ShortReached.boot (boot_mounts sampleBoot_addresses (by decide)))

end Directory

end Dionnex.RamfsListing
