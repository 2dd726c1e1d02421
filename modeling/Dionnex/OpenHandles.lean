import Dionnex.FileRanges
import Dionnex.VfsFiles

/-!
# Open handles and the slots behind them

`vfs_open` returns the node inside a slot and keeps no record of it. The
slot of a deleted file is free for the next create, so the node of the old
file becomes the node of a new one. Each slot counts the files that have
lived in it, and a handle carries the number of the file it was opened for.
A handle stays with its file exactly as long as no create takes its slot;
an access through it stays inside the file when its range does not wrap.
-/

set_option autoImplicit false

namespace Dionnex.OpenHandles
open LabelledRuns
open Dionnex.Ramfs Dionnex.RamfsVfs Dionnex.FileRanges Dionnex.Vfs Dionnex.VfsFiles
open Dionnex.RamfsResidue (Living firstSlot vfsWrite_cases wrote wrote_slot fileOf_congr created_living)

/-- `ops->open` is null in every operation table. -/
def vfsOpen (v : VfsState) (path : Option Path) : Option (Option Ref) := vfsLookupPath v path

/-- A node from `vfs_open`, with the number of the file that was opened. -/
structure Handle where
  slot : Slot
  file : ℕ

structure System where
  vfs : VfsState
  births : Slot → ℕ
  handles : List Handle

inductive Access where
  | read (hasBuf : Bool) (offset size : UInt32)
  | write (offset size : UInt32) (buf : Option (ℕ → UInt8))

inductive Event where
  | create (name : Option Path)
  | delete (name : Option Path)
  | write (name : Option Path) (buf : Option (ℕ → UInt8)) (len : UInt32)
  | openPath (path : Option Path)
  | access (h : Handle) (a : Access)

/-- The slot that a create takes. -/
def freeSlot (fs : Slots) : Option Slot := (List.finRange ramfsMaxFiles).find? (fun i => !(fs i).used)

def System.withSlots (s : System) (fs : Slots) : System := { s with vfs := { s.vfs with slots := fs } }

def birthsAfter (s : System) (name : Option Path) : Slot → ℕ :=
  match freeSlot s.vfs.slots with
  | some i =>
    if (ramfsCreate s.vfs.slots name).1 = 0 then Function.update s.births i (s.births i + 1)
    else s.births
  | none => s.births

/-- The slots after an access; a copy that runs out of its slot has no result. -/
def slotsAfter (fs : Slots) (h : Handle) : Access → Slots
  | .read _ _ _ => fs
  | .write offset size buf => ((vfsWrite fs (some h.slot) offset size buf).map Prod.snd).getD fs

def handlesAfter (s : System) : Option Ref → List Handle
  | some (.ram i) => ⟨i, s.births i⟩::s.handles
  | _ => s.handles

def Step (s : System) : Event → System → Prop
  | .create name, t => t = ⟨{ s.vfs with slots := (ramfsCreate s.vfs.slots name).2 }, birthsAfter s name, s.handles⟩
  | .delete name, t => t = s.withSlots (ramfsDelete s.vfs.slots name).2
  | .write name buf len, t => t = s.withSlots (ramfsWrite s.vfs.slots name buf len.toNat).2
  | .openPath path, t => ∃ node, vfsOpen s.vfs path = some node ∧ t = { s with handles := handlesAfter s node }
  | .access h a, t => h ∈ s.handles ∧ t = s.withSlots (slotsAfter s.vfs.slots h a)

/-- The opened file has not been deleted. -/
def Alive (s : System) (h : Handle) : Prop :=
  (s.vfs.slots h.slot).used = true ∧ s.births h.slot = h.file

/-- The read depends on no slot but the file's; for a deleted file it fails. -/
structure ReadConfined (s : System) (h : Handle) (hasBuf : Bool) (offset size : UInt32) : Prop where
  own : Alive s h → ∃ r, ∀ fs, fs h.slot = s.vfs.slots h.slot →
    vfsRead fs (some h.slot) hasBuf offset size = some r
  deleted : ¬ Alive s h → vfsRead s.vfs.slots (some h.slot) hasBuf offset size = some (-1, [])

/-- The write changes no slot but the file's; for a deleted file it fails. -/
structure WriteConfined (s : System) (h : Handle) (offset size : UInt32)
    (buf : Option (ℕ → UInt8)) : Prop where
  own : Alive s h → ∃ r fs, vfsWrite s.vfs.slots (some h.slot) offset size buf = some (r, fs) ∧
    ∀ j ≠ h.slot, fs j = s.vfs.slots j
  deleted : ¬ Alive s h →
    vfsWrite s.vfs.slots (some h.slot) offset size buf = some (-1, s.vfs.slots)

def Confined (s : System) (h : Handle) : Access → Prop
  | .read hasBuf offset size => ReadConfined s h hasBuf offset size
  | .write offset size buf => WriteConfined s h offset size buf

/-- Accesses stay in the file that was opened, and after each step every
access through the node of a deleted file fails. -/
structure Sound (s : System) (e : Event) (t : System) : Prop where
  confined : ∀ h a, e = .access h a → Confined s h a
  failing : ∀ h ∈ t.handles, ¬ Alive t h → ∀ a, Confined t h a

/-- The range does not wrap, or nothing of it is copied. -/
def Fits (f : RamfsFile) : Access → Prop
  | .read hasBuf offset size => hasBuf = true →
      offset.toNat + size.toNat < 4294967296 ∨ f.size ≤ offset.toNat
  | .write offset size buf => buf.isSome = true →
      offset.toNat + size.toNat < 4294967296 ∨ ramfsMaxData ≤ offset.toNat

/-- No create takes a slot that a node from `vfs_open` points to, and the
accesses to existing files have ranges that fit. -/
def Admitted (s : System) : Event → System → Prop
  | .create name, _ => (ramfsCreate s.vfs.slots name).1 = 0 →
      ∀ h ∈ s.handles, freeSlot s.vfs.slots ≠ some h.slot
  | .access h a, _ => Alive s h → Fits (s.vfs.slots h.slot) a
  | _, _ => True

/-! ## Opening -/

theorem finddirLoop_dir (v : VfsState) (name : Path) (fuel curr : ℕ) (i : Slot) :
    finddirLoop v name fuel curr ≠ some (some (.ram i)) := by
  induction fuel generalizing curr with
  | zero => exact fun h => by cases h
  | succ fuel ih =>
    unfold finddirLoop
    split
    · exact fun h => by cases h
    · split
      · exact fun h => by cases h
      · exact ih _

theorem finddir_used {v : VfsState} {dir : Ref} {name : Path} {i : Slot}
    (h : vfsFinddir v dir name = some (some (.ram i))) : (v.slots i).used = true := by
  unfold vfsFinddir at h
  split at h
  · cases h
  · unfold vfsRootFinddir at h
    split at h
    · exact absurd h (finddirLoop_dir v name _ _ i)
    · cases h
  · cases h
  · simp only [ramfsVfsFinddir, Option.some.injEq, Option.map_eq_some_iff, Ref.ram.injEq] at h
    obtain ⟨j, hj, rfl⟩ := h
    exact (find_some v.slots name j hj).1
  · simp [procfsVfsFinddir] at h

theorem lookupLoop_used {v : VfsState} {fuel : ℕ} {curr : Ref} {saved : Option Path} {i : Slot}
    (h : lookupLoop v fuel curr saved = some (some (.ram i))) :
    curr = .ram i ∨ (v.slots i).used = true := by
  induction fuel generalizing curr saved with
  | zero => cases h
  | succ fuel ih =>
    unfold lookupLoop at h
    split at h
    · exact Or.inl (Option.some.inj (Option.some.inj h))
    · split at h
      · cases h
      · obtain ⟨found, hfound, hrest⟩ := Option.bind_eq_some_iff.mp h
        cases found with
        | none => cases hrest
        | some next =>
          rcases ih hrest with rfl | hused
          · exact Or.inr (finddir_used hfound)
          · exact Or.inr hused

/-- The node of a file that `vfs_open` returns lies in a used slot. -/
theorem open_used {v : VfsState} {path : Option Path} {i : Slot}
    (h : vfsOpen v path = some (some (.ram i))) : (v.slots i).used = true := by
  unfold vfsOpen vfsLookupPath at h
  split at h
  · cases h
  · split at h
    · cases h
    · split at h
      · cases h
      · rcases lookupLoop_used h with hd | hused
        · cases hd
        · exact hused

/-! ## What a run keeps -/

/-- Handles lead to initialised nodes, and a slot in use behind one holds its file. -/
structure Inv (s : System) : Prop where
  living : ∀ i, (s.vfs.slots i).used = true → Living i s.vfs.slots
  ops : ∀ h ∈ s.handles, (s.vfs.slots h.slot).vfsNode.ops = .ramfs
  file : ∀ h ∈ s.handles, fileOf s.vfs.slots h.slot = some h.slot
  current : ∀ h ∈ s.handles, (s.vfs.slots h.slot).used = true → s.births h.slot = h.file
  known : ∀ h ∈ s.handles, h.file ≤ s.births h.slot

theorem Inv.deleted {s : System} (hs : Inv s) {h : Handle} (hmem : h ∈ s.handles)
    (hd : ¬ Alive s h) : (s.vfs.slots h.slot).used = false := by
  by_contra hused
  have hused : (s.vfs.slots h.slot).used = true := by simpa using hused
  exact hd ⟨hused, hs.current h hmem hused⟩

/-- A change of the slots that starts no file and moves no node. -/
structure Tame (fs t : Slots) : Prop where
  used : ∀ i, (t i).used = true → (fs i).used = true
  size : ∀ i, (t i).size ≤ max (fs i).size ramfsMaxData
  ops : ∀ i, (t i).vfsNode.ops = (fs i).vfsNode.ops
  privateData : ∀ i, (t i).vfsNode.privateData = (fs i).vfsNode.privateData

theorem tame_refl (fs : Slots) : Tame fs fs :=
  ⟨fun _ h => h, fun _ => le_max_left _ _, fun _ => rfl, fun _ => rfl⟩

theorem tame_update {fs : Slots} {i : Slot} {f : RamfsFile} (hused : f.used = true → (fs i).used = true)
    (hsize : f.size ≤ ramfsMaxData) (hops : f.vfsNode.ops = (fs i).vfsNode.ops)
    (hpriv : f.vfsNode.privateData = (fs i).vfsNode.privateData) : Tame fs (Function.update fs i f) := by
  have hcases : ∀ j, (j = i ∧ Function.update fs i f j = f) ∨ Function.update fs i f j = fs j := by
    intro j
    by_cases hj : j = i
    · subst hj
      exact Or.inl ⟨rfl, Function.update_self j f fs⟩
    · exact Or.inr (Function.update_of_ne hj f fs)
  constructor <;> intro j <;> obtain ⟨rfl, hj⟩ | hj := hcases j <;> rw [hj]
  · exact hused
  · exact fun h => h
  · exact hsize.trans (le_max_right _ _)
  · exact le_max_left _ _
  · exact hops
  · exact hpriv

theorem tame_delete (fs : Slots) (name : Option Path) : Tame fs (ramfsDelete fs name).2 := by
  unfold ramfsDelete
  split
  · exact tame_refl fs
  · exact tame_update (fun h => by cases h) (Nat.zero_le _) rfl rfl

theorem tame_write (fs : Slots) (name : Option Path) (buf : Option (ℕ → UInt8)) (len : ℕ) :
    Tame fs (ramfsWrite fs name buf len).2 := by
  unfold ramfsWrite
  split
  · refine tame_update (fun h => h) ?_ rfl rfl
    dsimp only
    split <;> omega
  · exact tame_refl fs

theorem wrote_size (fs : Slots) (node j : Slot) (offset n : ℕ) (buf : ℕ → UInt8) (i : Slot)
    (hn : offset+n ≤ ramfsMaxData) :
    (wrote fs node j offset n buf i).size ≤ max (fs i).size ramfsMaxData := by
  have hpatch := wrote_patched fs node j offset n buf
  by_cases hi : i = j
  · subst hi
    rw [hpatch.size]
    omega
  · rw [(hpatch.others i hi).2]
    exact le_max_left _ _

theorem tame_vfsWrite {fs t : Slots} {node : Option Slot} {offset size : UInt32}
    {buf : Option (ℕ → UInt8)} (hw : (vfsWrite fs node offset size buf).map Prod.snd = some t) :
    Tame fs t := by
  rcases vfsWrite_cases hw with ⟨rfl, -⟩ | ⟨nd, j, b, n, -, -, -, -, hroom, rfl⟩
  · exact tame_refl t
  · constructor
    · intro i hi
      rw [← (wrote_slot fs nd j i offset.toNat n b).2.2.2.2]
      exact hi
    · exact fun i => wrote_size fs nd j offset.toNat n b i hroom
    · exact fun i => (wrote_slot fs nd j i offset.toNat n b).1
    · exact fun i => (wrote_slot fs nd j i offset.toNat n b).2.1

theorem tame_access (fs : Slots) (h : Handle) (a : Access) : Tame fs (slotsAfter fs h a) := by
  cases a with
  | read hasBuf offset size => exact tame_refl fs
  | write offset size buf =>
    unfold slotsAfter
    dsimp only
    cases hw : (vfsWrite fs (some h.slot) offset size buf).map Prod.snd with
    | none => exact tame_refl fs
    | some t => exact tame_vfsWrite hw

theorem tame_inv {s : System} {fs : Slots} (hs : Inv s) (h : Tame s.vfs.slots fs) :
    Inv (s.withSlots fs) := by
  have hfile : ∀ i, fileOf fs i = fileOf s.vfs.slots i := fun i => fileOf_congr (h.privateData i)
  constructor
  · intro i hi
    have hl := hs.living i (h.used i hi)
    have hsize := h.size i
    rw [max_eq_right hl.size] at hsize
    exact ⟨hi, (h.ops i).trans hl.ops, (hfile i).trans hl.file, hsize⟩
  · exact fun g hg => (h.ops g.slot).trans (hs.ops g hg)
  · exact fun g hg => (hfile g.slot).trans (hs.file g hg)
  · exact fun g hg hu => hs.current g hg (h.used _ hu)
  · exact hs.known

/-- A create fails and changes nothing, or starts a file in the first free slot. -/
theorem create_eq (fs : Slots) (name : Option Path) :
    ramfsCreate fs name = (-1, fs) ∨ ∃ n i, freeSlot fs = some i ∧ (fs i).used = false ∧
      ramfsCreate fs name = (0, Function.update fs i (freshFile (fs i) i n)) := by
  cases name with
  | none => exact Or.inl rfl
  | some n =>
    unfold ramfsCreate
    dsimp only
    split
    · exact Or.inl rfl
    · split
      · next i hi => exact Or.inr ⟨n, i, hi, by simpa using List.find?_some hi, rfl⟩
      · exact Or.inl rfl

/-- A creation leaves the files in the other slots as they are. -/
theorem created_other {fs : Slots} {i j : Slot} {n : Path} (hji : j ≠ i) (hl : Living j fs) :
    Living j (Function.update fs i (freshFile (fs i) i n)) := by
  have hsame : Function.update fs i (freshFile (fs i) i n) j = fs j := Function.update_of_ne hji _ _
  refine ⟨?_, ?_, ?_, ?_⟩
  · rw [hsame]; exact hl.used
  · rw [hsame]; exact hl.ops
  · exact (fileOf_congr (by rw [hsame])).trans hl.file
  · rw [hsame]; exact hl.size

theorem create_inv {s t : System} {name : Option Path} (hs : Inv s) (h : Step s (.create name) t)
    (hg : Admitted s (.create name) t) : Inv t := by
  obtain rfl := h
  rcases create_eq s.vfs.slots name with hc | ⟨n, i, hfree, hunused, hc⟩
  · have hbirths : birthsAfter s name = s.births := by
      unfold birthsAfter
      rw [hc]
      cases freeSlot s.vfs.slots <;> rfl
    rw [hc, hbirths]
    exact tame_inv hs (tame_refl _)
  · have hbirths : birthsAfter s name = Function.update s.births i (s.births i + 1) := by
      unfold birthsAfter
      rw [hc, hfree]
      rfl
    have hne : ∀ g ∈ s.handles, g.slot ≠ i := by
      rintro g hg' rfl
      exact hg (by rw [hc]) g hg' hfree
    rw [hc, hbirths]
    have hslot : ∀ g ∈ s.handles, Function.update s.vfs.slots i
        (freshFile (s.vfs.slots i) i n) g.slot = s.vfs.slots g.slot := fun g hg' =>
      Function.update_of_ne (hne g hg') _ _
    have hborn : ∀ g ∈ s.handles, Function.update s.births i (s.births i + 1) g.slot =
        s.births g.slot := fun g hg' => Function.update_of_ne (hne g hg') _ _
    constructor
    · intro j hj
      change Living j (Function.update s.vfs.slots i (freshFile (s.vfs.slots i) i n))
      by_cases hji : j = i
      · subst hji
        exact created_living
      · change (Function.update s.vfs.slots i (freshFile (s.vfs.slots i) i n) j).used = true at hj
        rw [Function.update_of_ne hji] at hj
        exact created_other hji (hs.living j hj)
    · intro g hg'
      change (Function.update s.vfs.slots i _ g.slot).vfsNode.ops = .ramfs
      rw [hslot g hg']
      exact hs.ops g hg'
    · intro g hg'
      have hsame : fileOf (Function.update s.vfs.slots i (freshFile (s.vfs.slots i) i n)) g.slot =
          fileOf s.vfs.slots g.slot := fileOf_congr (by rw [hslot g hg'])
      exact hsame.trans (hs.file g hg')
    · intro g hg' hu
      change Function.update s.births i _ g.slot = g.file
      change (Function.update s.vfs.slots i _ g.slot).used = true at hu
      rw [hslot g hg'] at hu
      rw [hborn g hg']
      exact hs.current g hg' hu
    · intro g hg'
      change g.file ≤ Function.update s.births i _ g.slot
      rw [hborn g hg']
      exact hs.known g hg'

theorem open_inv {s t : System} {path : Option Path} (hs : Inv s) (h : Step s (.openPath path) t) :
    Inv t := by
  obtain ⟨node, hopen, rfl⟩ := h
  unfold handlesAfter
  split
  · next i =>
    have hl := hs.living i (open_used hopen)
    refine ⟨hs.living, ?_, ?_, ?_, ?_⟩
    · exact List.forall_mem_cons.mpr ⟨hl.ops, hs.ops⟩
    · exact List.forall_mem_cons.mpr ⟨hl.file, hs.file⟩
    · exact List.forall_mem_cons.mpr ⟨fun _ => rfl, hs.current⟩
    · exact List.forall_mem_cons.mpr ⟨le_rfl, hs.known⟩
  · exact hs

theorem step_inv {s t : System} {e : Event} (hs : Inv s) (h : Step s e t) (hg : Admitted s e t) :
    Inv t := by
  cases e with
  | create name => exact create_inv hs h hg
  | delete name =>
    obtain rfl := h
    exact tame_inv hs (tame_delete _ name)
  | write name buf len =>
    obtain rfl := h
    exact tame_inv hs (tame_write _ name buf len.toNat)
  | openPath path => exact open_inv hs h
  | access g a =>
    obtain ⟨-, rfl⟩ := h
    exact tame_inv hs (tame_access _ g a)

/-! ## Accesses -/

theorem vfsRead_node {s : System} {h : Handle} (hs : Inv s) (hmem : h ∈ s.handles) (hasBuf : Bool)
    (offset size : UInt32) : vfsRead s.vfs.slots (some h.slot) hasBuf offset size =
      ramfsVfsRead s.vfs.slots h.slot hasBuf offset size := if_pos (hs.ops h hmem)

theorem vfsWrite_node {s : System} {h : Handle} (hs : Inv s) (hmem : h ∈ s.handles)
    (offset size : UInt32) (buf : Option (ℕ → UInt8)) :
    vfsWrite s.vfs.slots (some h.slot) offset size buf =
      ramfsVfsWrite s.vfs.slots h.slot offset size buf := if_pos (hs.ops h hmem)

/-- Every access through a node whose slot is not in use fails. -/
theorem unused_fails {s : System} {h : Handle} (hs : Inv s) (hmem : h ∈ s.handles)
    (hunused : (s.vfs.slots h.slot).used = false) (a : Access) : Confined s h a := by
  have hdead : ¬ Alive s h := fun halive => by
    have hused := halive.1
    rw [hunused] at hused
    cases hused
  cases a with
  | read hasBuf offset size =>
    refine ⟨fun halive => absurd halive hdead, fun _ => ?_⟩
    rw [vfsRead_node hs hmem]
    cases hasBuf with
    | false => rfl
    | true =>
      simp only [ramfsVfsRead, hs.file h hmem]
      rw [if_pos hunused]
  | write offset size buf =>
    refine ⟨fun halive => absurd halive hdead, fun _ => ?_⟩
    rw [vfsWrite_node hs hmem]
    cases buf with
    | none => rfl
    | some buf =>
      simp only [ramfsVfsWrite, hs.file h hmem]
      rw [if_pos hunused]

/-- A read through the node of slot `i` looks at no other slot. -/
theorem vfsRead_local {fs fs' : Slots} {i : Slot} (hfile : fileOf fs i = some i) (he : fs' i = fs i)
    (hasBuf : Bool) (offset size : UInt32) :
    vfsRead fs' (some i) hasBuf offset size = vfsRead fs (some i) hasBuf offset size := by
  have hfile' : fileOf fs' i = some i := (fileOf_congr (by rw [he])).trans hfile
  unfold vfsRead
  dsimp only
  rw [he]
  cases hasBuf with
  | false => simp only [ramfsVfsRead]
  | true => simp only [ramfsVfsRead, hfile, hfile', he]

theorem alive_open {s : System} {h : Handle} (hs : Inv s) (halive : Alive s h) :
    OpenFile s.vfs.slots h.slot h.slot :=
  have hl := hs.living h.slot halive.1
  ⟨hl.file, halive.1, hl.size⟩

theorem alive_read {s : System} {h : Handle} (hs : Inv s) (hmem : h ∈ s.handles)
    (halive : Alive s h) (hasBuf : Bool) (offset size : UInt32) :
    ReadConfined s h hasBuf offset size ↔ Fits (s.vfs.slots h.slot) (.read hasBuf offset size) := by
  have hdefined := read_defined (alive_open hs halive) offset size
  rw [← vfsRead_node hs hmem] at hdefined
  constructor
  · rintro ⟨hown, -⟩ rfl
    obtain ⟨r, hr⟩ := hown halive
    exact hdefined.mp (by simp [hr s.vfs.slots rfl])
  · intro hfits
    refine ⟨fun _ => ?_, fun hdead => absurd halive hdead⟩
    have hsome : vfsRead s.vfs.slots (some h.slot) hasBuf offset size ≠ none := by
      cases hasBuf with
      | false =>
        rw [vfsRead_node hs hmem]
        exact fun he => by cases he
      | true => exact hdefined.mpr (hfits rfl)
    obtain ⟨r, hr⟩ := Option.ne_none_iff_exists'.mp hsome
    exact ⟨r, fun fs he => (vfsRead_local (hs.file h hmem) he hasBuf offset size).trans hr⟩

/-- A write through a node that leads to its own slot changes no other. -/
theorem vfsWrite_local {s : System} {h : Handle} (hs : Inv s) (hmem : h ∈ s.handles)
    {offset size : UInt32} {buf : Option (ℕ → UInt8)} {r : ℤ × Slots}
    (hw : vfsWrite s.vfs.slots (some h.slot) offset size buf = some r) (j : Slot) (hj : j ≠ h.slot) :
    r.2 j = s.vfs.slots j := by
  have hmap : (vfsWrite s.vfs.slots (some h.slot) offset size buf).map Prod.snd = some r.2 := by
    rw [hw]
    rfl
  rcases vfsWrite_cases hmap with ⟨he, -⟩ | ⟨nd, i, b, n, hnd, -, -, ⟨-, hfile, -, -⟩, -, he⟩
  · rw [he]
  · obtain rfl := Option.some.inj hnd
    rw [hs.file h hmem] at hfile
    obtain rfl := Option.some.inj hfile
    rw [he, wrote]
    split
    · rw [setNodeSize, Function.update_of_ne hj, Function.update_of_ne hj]
    · rw [Function.update_of_ne hj]

theorem alive_write {s : System} {h : Handle} (hs : Inv s) (hmem : h ∈ s.handles)
    (halive : Alive s h) (offset size : UInt32) (buf : Option (ℕ → UInt8)) :
    WriteConfined s h offset size buf ↔ Fits (s.vfs.slots h.slot) (.write offset size buf) := by
  constructor
  · rintro ⟨hown, -⟩ hbuf
    obtain ⟨b, rfl⟩ := Option.isSome_iff_exists.mp hbuf
    obtain ⟨r, fs, hw, -⟩ := hown halive
    rw [vfsWrite_node hs hmem] at hw
    exact (write_defined (alive_open hs halive) offset size b).mp (by simp [hw])
  · intro hfits
    refine ⟨fun _ => ?_, fun hdead => absurd halive hdead⟩
    have hsome : vfsWrite s.vfs.slots (some h.slot) offset size buf ≠ none := by
      rw [vfsWrite_node hs hmem]
      cases buf with
      | none => exact fun he => by cases he
      | some b => exact (write_defined (alive_open hs halive) offset size b).mpr (hfits rfl)
    obtain ⟨r, hr⟩ := Option.ne_none_iff_exists'.mp hsome
    exact ⟨r.1, r.2, hr, vfsWrite_local hs hmem hr⟩

/-- An access to an existing file stays in it exactly when its range fits. -/
theorem alive_confined {s : System} {h : Handle} (hs : Inv s) (hmem : h ∈ s.handles)
    (halive : Alive s h) (a : Access) : Confined s h a ↔ Fits (s.vfs.slots h.slot) a := by
  cases a with
  | read hasBuf offset size => exact alive_read hs hmem halive hasBuf offset size
  | write offset size buf => exact alive_write hs hmem halive offset size buf

theorem access_confined {s : System} {h : Handle} (hs : Inv s) (hmem : h ∈ s.handles) (a : Access) :
    Confined s h a ↔ (Alive s h → Fits (s.vfs.slots h.slot) a) := by
  by_cases halive : Alive s h
  · rw [alive_confined hs hmem halive]
    simp [halive]
  · have hfails := unused_fails hs hmem (hs.deleted hmem halive) a
    simp [halive, hfails]

/-! ## Runs -/

theorem step_sound {s t : System} {e : Event} (hs : Inv s) (h : Step s e t) (hg : Admitted s e t) :
    Sound s e t := by
  have ht := step_inv hs h hg
  constructor
  · rintro g a rfl
    exact (access_confined hs h.1 a).mpr hg
  · exact fun g hmem hdead a => unused_fails ht hmem (ht.deleted hmem hdead) a

/-- A create in the slot of an open node hands the new file to it. -/
theorem reused_spoils {s t : System} {name : Option Path} (hs : Inv s) (h : Step s (.create name) t)
    (hok : (ramfsCreate s.vfs.slots name).1 = 0) {g : Handle} (hmem : g ∈ s.handles)
    (hfree : freeSlot s.vfs.slots = some g.slot) : ¬ Sound s (.create name) t := by
  obtain rfl := h
  rcases create_eq s.vfs.slots name with hc | ⟨n, i, hfree', -, hc⟩
  · rw [hc] at hok
    cases hok
  · obtain rfl := Option.some.inj (hfree'.symm.trans hfree)
    intro hsound
    have hbirths : birthsAfter s name g.slot = s.births g.slot + 1 := by
      unfold birthsAfter
      rw [hc, hfree]
      exact Function.update_self _ _ _
    have hold := hs.known g hmem
    have hdead : ¬ Alive ⟨{ s.vfs with slots := (ramfsCreate s.vfs.slots name).2 },
        birthsAfter s name, s.handles⟩ g := by
      rintro ⟨-, hborn⟩
      change birthsAfter s name g.slot = g.file at hborn
      omega
    have hfails := (hsound.failing g hmem hdead (.read true 0 0)).deleted hdead
    have hl := @created_living s.vfs.slots n g.slot
    rw [hc] at hfails
    change vfsRead (Function.update s.vfs.slots g.slot (freshFile (s.vfs.slots g.slot) g.slot n))
      (some g.slot) true 0 0 = some (-1, []) at hfails
    rw [vfsRead, if_pos hl.ops, read_open ⟨hl.file, hl.used, hl.size⟩, if_pos (by
      rw [Function.update_self]; exact Nat.zero_le _)] at hfails
    cases hfails

theorem sound_admitted {s t : System} {e : Event} (hs : Inv s) (h : Step s e t) (hp : Sound s e t) :
    Admitted s e t := by
  cases e with
  | create name => exact fun hok g hmem hfree => reused_spoils hs h hok hmem hfree hp
  | delete name => trivial
  | write name buf len => trivial
  | openPath path => trivial
  | access g a => exact (access_confined hs h.1 a).mp (hp.confined g a rfl)

theorem mount_slots {v t : VfsState} {path : Option Path} {node : ℕ} {r : ℤ}
    (h : vfsMount v path node = some (r, t)) : t.slots = v.slots := by
  unfold vfsMount at h
  split at h
  · cases h
    rfl
  · split at h
    · cases h
      rfl
    · split at h
      · cases h
        rfl
      · obtain ⟨p, -, hp⟩ := Option.bind_eq_some_iff.mp h
        split at hp
        · cases hp
          rfl
        · cases hp
          rfl
        · cases hp

/-- No handles yet: any state of the mounted file systems. -/
def started (v : VfsState) : System := ⟨v, fun _ => 0, []⟩

theorem started_inv {v : VfsState} (h : ∀ i, (v.slots i).used = true → Living i v.slots) :
    Inv (started v) := by
  refine ⟨h, ?_, ?_, ?_, ?_⟩ <;> exact fun _ hmem => absurd hmem (by simp [started])

theorem perform_living {fs t : Slots} {e : RamfsResidue.Event}
    (hfs : ∀ i, (fs i).used = true → Living i fs) (h : RamfsResidue.perform fs e = some t) (i : Slot)
    (hi : (t i).used = true) : Living i t := by
  have hs : Inv (started { noFiles with slots := fs }) := started_inv hfs
  cases e with
  | create name =>
    obtain rfl := Option.some.inj h
    exact (@create_inv _ _ name hs rfl fun _ _ hmem => by cases hmem).living i hi
  | delete name =>
    obtain rfl := Option.some.inj h
    exact (tame_inv hs (tame_delete fs name)).living i hi
  | write name buf len =>
    obtain rfl := Option.some.inj h
    exact (tame_inv hs (tame_write fs name buf len.toNat)).living i hi
  | vfsWrite node offset size buf => exact (tame_inv hs (tame_vfsWrite h)).living i hi

theorem reached_living {root ram proc : ℕ} {v : VfsState} (hv : Reached root ram proc v) :
    ∀ i, (v.slots i).used = true → Living i v.slots := by
  induction hv with
  | boot h =>
    obtain ⟨r, hfirst, hsecond⟩ := Option.bind_eq_some_iff.mp h
    obtain ⟨q, hmount, rfl⟩ := Option.map_eq_some_iff.mp hsecond
    rw [mount_slots (r := q.1) hmount]
    change ∀ i, (r.2.slots i).used = true → Living i r.2.slots
    rw [mount_slots (r := r.1) hfirst]
    have hempty : ∀ i, (ramfsCleared i).used = true → Living i ramfsCleared := fun i hi => by cases hi
    have hcreated := perform_living (e := .create (some readmeName)) hempty rfl
    exact perform_living (e := .write (some readmeName) (some fun k => welcome.getD k 0)
      (UInt32.ofNat welcome.length)) hcreated rfl
  | files _ h ih => exact perform_living ih h

/-- Along every history the open handles stay with their files, exactly when
no create takes the slot of an open node and no range wraps. -/
theorem handles_confined_iff {root ram proc : ℕ} (v : VfsState) (hv : Reached root ram proc v)
    (tr : List (Event × System)) (hr : Run Step (started v) tr) :
    Along Sound (started v) tr ↔ Along Admitted (started v) tr := by
  refine run_guard_exact (I := Inv) ?_ ?_ _ _ (started_inv (reached_living hv)) hr
  · exact fun s e t hs h hok => ⟨step_inv hs h hok, step_sound hs h hok⟩
  · exact fun s e t hs h hp => sound_admitted hs h hp

/-! ## A reused slot -/

/-- `/ram/readme.txt` -/
def readmePath : Path := slash::ramName++slash::readmeName

def afterOpen : System := { started sampleBoot with handles := [⟨firstSlot, 0⟩] }

def afterDelete : System := afterOpen.withSlots (ramfsDelete afterOpen.vfs.slots (some readmeName)).2

/-- The new file is called `b`. -/
def afterCreate : System :=
  ⟨{ afterDelete.vfs with slots := (ramfsCreate afterDelete.vfs.slots (some [98])).2 },
    birthsAfter afterDelete (some [98]), afterDelete.handles⟩

def afterWrite : System :=
  afterCreate.withSlots
    (ramfsWrite afterCreate.vfs.slots (some [98]) (some fun _ => 66) (1 : UInt32).toNat).2

def reusedHistory : List (Event × System) :=
  [(.openPath (some readmePath), afterOpen), (.delete (some readmeName), afterDelete),
    (.create (some [98]), afterCreate), (.write (some [98]) (some fun _ => 66) 1, afterWrite)]

theorem readme_opened : vfsOpen sampleBoot (some readmePath) = some (some (.ram firstSlot)) := by
  decide +kernel

theorem reused_run : Run Step (started sampleBoot) reusedHistory :=
  ⟨⟨_, readme_opened, rfl⟩, rfl, rfl, rfl, trivial⟩

theorem handles_confined_iff_sample :
    Along Sound (started sampleBoot) reusedHistory ↔
      Along Admitted (started sampleBoot) reusedHistory :=
  handles_confined_iff sampleBoot sampleBoot_reached reusedHistory reused_run

/-- The node opened for `readme.txt` reads what was written to `b`. -/
theorem handle_reaches_new_file :
    Run Step (started sampleBoot) reusedHistory ∧
      vfsRead afterWrite.vfs.slots (some firstSlot) true 0 1 = some (1, [66]) ∧
      ¬ Along Sound (started sampleBoot) reusedHistory := by
  have hread : vfsRead afterWrite.vfs.slots (some firstSlot) true 0 1 = some (1, [66]) := by
    decide +kernel
  have hslot : (ramfsCreate afterDelete.vfs.slots (some [98])).1 = 0 ∧
      freeSlot afterDelete.vfs.slots = some firstSlot := by decide +kernel
  have hstart := started_inv (reached_living sampleBoot_reached)
  have hopen : Inv afterOpen := open_inv hstart ⟨_, readme_opened, rfl⟩
  have hdelete : Inv afterDelete := tame_inv hopen (tame_delete _ (some readmeName))
  refine ⟨reused_run, hread, fun h => ?_⟩
  exact reused_spoils hdelete rfl hslot.1 List.mem_cons_self hslot.2 h.2.2.1

end Dionnex.OpenHandles
