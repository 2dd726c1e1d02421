import Dionnex.KernelString

/-!
# The RAM file system's slot array

Sixty-four slots, each with a name buffer, a data array, a size, a used
flag and an embedded VFS node that carries a second copy of name and size.
A slot is freed by clearing its flag; its data stays in place and the next
file created in the slot inherits it behind a size of zero.
-/

set_option autoImplicit false

namespace Dionnex.Ramfs
open Dionnex.KernelString

def ramfsMaxFiles : ℕ := 64
def ramfsMaxName : ℕ := 64
def ramfsMaxData : ℕ := 1024
def vfsFile : ℕ := 1

/-- The operation tables a node can point to. -/
inductive VfsOps where
  | null
  | root
  | ramfs
  | procfs
  deriving DecidableEq, Repr

structure VfsNode where
  name : List UInt8
  flags : ℕ
  size : ℕ
  inode : ℕ
  privateData : Option ℕ
  ops : VfsOps

structure RamfsFile where
  name : List UInt8
  data : ℕ → UInt8
  size : ℕ
  used : Bool
  vfsNode : VfsNode

abbrev Slot := Fin ramfsMaxFiles
abbrev Slots := Slot → RamfsFile

def zeroNode : VfsNode := ⟨List.replicate 128 0, 0, 0, 0, none, .null⟩

def zeroFile : RamfsFile := ⟨List.replicate ramfsMaxName 0, fun _ => 0, 0, false, zeroNode⟩

/-- `memset(ramfs_files, 0, sizeof(ramfs_files))`. -/
def ramfsCleared : Slots := fun _ => zeroFile

/-- The slot index, `none` for the negative result. -/
def ramfsFind (fs : Slots) : Option (List UInt8) → Option Slot
  | none => none
  | some name => (List.finRange ramfsMaxFiles).find?
      (fun i => (fs i).used && decide (strcmp (fs i).name name = 0))

def fileNode (i : Slot) (name : List UInt8) : VfsNode :=
  { zeroNode with
    name := strncpy 127 zeroNode.name name
    flags := vfsFile
    size := 0
    inode := i.val+1
    privateData := some i.val
    ops := .ramfs }

def freshFile (f : RamfsFile) (i : Slot) (name : List UInt8) : RamfsFile where
  name := strncpy (ramfsMaxName-1) f.name name
  data := Function.update f.data 0 0
  size := 0
  used := true
  vfsNode := fileNode i name

def ramfsCreate (fs : Slots) : Option (List UInt8) → ℤ × Slots
  | none => (-1, fs)
  | some name =>
    if (ramfsFind fs (some name)).isSome then (-1, fs)
    else match (List.finRange ramfsMaxFiles).find? (fun i => !(fs i).used) with
      | some i => (0, Function.update fs i (freshFile (fs i) i name))
      | none => (-1, fs)

def ramfsDelete (fs : Slots) (name : Option (List UInt8)) : ℤ × Slots :=
  match ramfsFind fs name with
  | none => (-1, fs)
  | some i => (0, Function.update fs i
      { fs i with used := false, size := 0, name := (fs i).name.set 0 0 })

/-- The return value and the bytes copied to the caller's buffer. -/
def ramfsRead (fs : Slots) (name : Option (List UInt8)) (hasBuf : Bool) (len : ℕ) :
    ℤ × List UInt8 :=
  match ramfsFind fs name with
  | none => (-1, [])
  | some i =>
    if !hasBuf then (-1, [])
    else
      let toRead := if len < (fs i).size then len else (fs i).size
      (toRead, (List.range toRead).map (fs i).data)

def ramfsWrite (fs : Slots) (name : Option (List UInt8)) (buf : Option (ℕ → UInt8)) (len : ℕ) :
    ℤ × Slots :=
  match ramfsFind fs name, buf with
  | some i, some buf =>
    let toWrite := if len > ramfsMaxData then ramfsMaxData else len
    (toWrite, Function.update fs i
      { fs i with
        data := fun k => if k < toWrite then buf k else (fs i).data k
        size := toWrite
        vfsNode := { (fs i).vfsNode with size := toWrite } })
  | _, _ => (-1, fs)

/-- The string and the bytes a slot stands for. -/
def key (f : RamfsFile) : List UInt8 := cstr f.name

def contents (f : RamfsFile) : List UInt8 := (List.range f.size).map f.data

/-- What every slot array satisfies: each name buffer ends in a NUL that no
copy reaches, used slots have distinct names, and both sizes agree. -/
structure SlotsOk (fs : Slots) : Prop where
  nameEnd : ∀ i, (fs i).name[ramfsMaxName-1]? = some 0
  distinct : ∀ i j, (fs i).used = true → (fs j).used = true → key (fs i) = key (fs j) → i = j
  sizeBound : ∀ i, (fs i).used = true → (fs i).size ≤ ramfsMaxData
  nodeSize : ∀ i, (fs i).used = true → (fs i).vfsNode.size = (fs i).size

theorem cleared_ok : SlotsOk ramfsCleared where
  nameEnd _ := rfl
  distinct _ _ h := by cases h
  sizeBound _ h := by cases h
  nodeSize _ h := by cases h

theorem find_some (fs : Slots) (name : List UInt8) (i : Slot)
    (h : ramfsFind fs (some name) = some i) : (fs i).used = true ∧ key (fs i) = cstr name := by
  have hp := List.find?_some h
  rw [Bool.and_eq_true, decide_eq_true_iff, strcmp_eq_zero] at hp
  exact hp

theorem find_none (fs : Slots) (name : List UInt8) (h : ramfsFind fs (some name) = none)
    (i : Slot) (hu : (fs i).used = true) : key (fs i) ≠ cstr name := by
  intro hk
  have hp := List.find?_eq_none.mp h i (List.mem_finRange i)
  apply hp
  rw [Bool.and_eq_true, decide_eq_true_iff, strcmp_eq_zero]
  exact ⟨hu, hk⟩

/-- With distinct names the search is a lookup by name. -/
theorem find_iff (fs : Slots) (hs : SlotsOk fs) (name : List UInt8) (i : Slot) :
    ramfsFind fs (some name) = some i ↔ (fs i).used = true ∧ key (fs i) = cstr name := by
  constructor
  · exact find_some fs name i
  · intro h
    cases hf : ramfsFind fs (some name) with
    | none => exact absurd h.2 (find_none fs name hf i h.1)
    | some j =>
      have hj := find_some fs name j hf
      rw [hs.distinct j i hj.1 h.1 (hj.2.trans h.2.symm)]

theorem fresh_key (fs : Slots) (hs : SlotsOk fs) (i : Slot) (name : List UInt8) :
    key (freshFile (fs i) i name) = (cstr name).take (ramfsMaxName-1) :=
  strncpy_cstr _ _ _ (hs.nameEnd i)

/-- The byte after the copied range is not part of the copy. -/
theorem fresh_nameEnd (f : RamfsFile) (i : Slot) (name : List UInt8)
    (h : f.name[ramfsMaxName-1]? = some 0) :
    (freshFile f i name).name[ramfsMaxName-1]? = some 0 := by
  have hrest := strncpy_rest (ramfsMaxName-1) f.name name
  have hget := congrArg (fun l => l[0]?) hrest
  simpa [freshFile, List.getElem?_drop, h] using hget

theorem write_contents (fs : Slots) (i : Slot) (buf : ℕ → UInt8) (n : ℕ) :
    (List.range n).map (fun k => if k < n then buf k else (fs i).data k) =
      (List.range n).map buf := by
  apply List.map_congr_left
  intro k hk
  rw [if_pos (List.mem_range.mp hk)]

end Dionnex.Ramfs
