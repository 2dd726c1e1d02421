import Dionnex.LinkedChain
import Dionnex.Ramfs

/-!
# The virtual file system

Directory nodes lie in memory under their addresses, and those of one parent
are threaded through their sibling links; the nodes of files lie in the slots
of the RAM file system and in a table of `/proc`. A walk along sibling links
that does not end has no result, and neither has a name that is copied past
the end of its buffer. The operation tables are those of the kernel;
`dir->finddir` in `vfs_finddir` stands for `dir->ops->finddir`.
-/

set_option autoImplicit false

namespace Dionnex.Vfs
open Dionnex.KernelString Dionnex.Ramfs

abbrev Path := List UInt8

def slash : UInt8 := 47

def vfsDir : ℕ := 2
def vfsMountFlag : ℕ := 16

/-- A name buffer of 128 bytes; its last byte is never written. -/
structure NameBuffer where
  bytes : List UInt8
  terminated : bytes[127]? = some 0

def NameBuffer.blank : NameBuffer := ⟨List.replicate 128 0, by decide⟩

theorem strncpy_end (n : ℕ) (dest src : List UInt8) (h : dest[n]? = some 0) :
    (strncpy n dest src)[n]? = some 0 := by
  have hrest := strncpy_rest n dest src
  have hget := congrArg (fun l => l[0]?) hrest
  simpa [List.getElem?_drop, h] using hget

/-- `strncpy(node->name, name, 127)`. -/
def NameBuffer.copy (b : NameBuffer) (name : Path) : NameBuffer :=
  ⟨strncpy 127 b.bytes name, strncpy_end 127 b.bytes name b.terminated⟩

structure DirNode where
  name : NameBuffer
  flags : ℕ
  parent : ℕ
  children : ℕ
  nextSibling : ℕ
  ops : VfsOps

def procNumFiles : ℕ := 10

/-- The names of the files in `/proc`. -/
def procFileNames : List Path :=
  [[118, 101, 114, 115, 105, 111, 110], [117, 112, 116, 105, 109, 101],
    [109, 101, 109, 105, 110, 102, 111], [99, 112, 117, 105, 110, 102, 111],
    [100, 101, 118, 105, 99, 101, 115], [109, 111, 100, 117, 108, 101, 115],
    [116, 97, 115, 107, 115], [112, 99, 105], [100, 105, 115, 107], [107, 108, 111, 103]]

/-- A pointer to a node that is not null. -/
inductive Ref where
  | dir (p : ℕ)
  | ram (i : Slot)
  | proc (i : Fin procNumFiles)
  deriving DecidableEq

structure VfsState where
  root : ℕ
  nodes : ℕ → DirNode
  slots : Slots

def VfsState.put (v : VfsState) (p : ℕ) (n : DirNode) : VfsState := { v with nodes := Function.update v.nodes p n }

@[simp] theorem VfsState.put_self (v : VfsState) (p : ℕ) (n : DirNode) : (v.put p n).nodes p = n := by
  simp [VfsState.put]

theorem VfsState.put_ne (v : VfsState) {p q : ℕ} (n : DirNode) (h : q ≠ p) : (v.put p n).nodes q = v.nodes q := by
  simp [VfsState.put, h]

def VfsState.next (v : VfsState) (p : ℕ) : ℕ := (v.nodes p).nextSibling

def flagsOf (v : VfsState) : Ref → ℕ
  | .dir p => (v.nodes p).flags
  | .ram i => (v.slots i).vfsNode.flags
  | .proc _ => vfsFile

def opsOf (v : VfsState) : Ref → VfsOps
  | .dir p => (v.nodes p).ops
  | .ram i => (v.slots i).vfsNode.ops
  | .proc _ => .procfs

/-- `flags & VFS_DIR`. -/
def IsDir (flags : ℕ) : Prop := flags &&& vfsDir ≠ 0

instance (flags : ℕ) : Decidable (IsDir flags) := inferInstanceAs (Decidable (_ ≠ _))

/-- The answer of `kmalloc` for the root node. -/
def vfsInit (v : VfsState) (node : ℕ) : VfsState :=
  if node = 0 then { v with root := 0 }
  else { v.put node ⟨NameBuffer.blank.copy [slash], vfsDir, 0, 0, 0, .root⟩ with root := node }

/-! ## Finding names -/

/-- The loop of `vfs_root_finddir`. -/
def finddirLoop (v : VfsState) (name : Path) : ℕ → ℕ → Option (Option Ref)
  | 0, _ => none
  | fuel+1, curr =>
    if curr = 0 then some none
    else if strcmp (v.nodes curr).name.bytes name = 0 then some (some (.dir curr))
    else finddirLoop v name fuel (v.next curr)

/-- More steps than there are addresses. -/
def walkBound : ℕ := 4294967298

def vfsRootFinddir (v : VfsState) (p : ℕ) (name : Path) : Option (Option Ref) :=
  if IsDir (v.nodes p).flags then finddirLoop v name walkBound (v.nodes p).children else some none

def ramfsVfsFinddir (v : VfsState) (name : Path) : Option Ref := (ramfsFind v.slots (some name)).map .ram

def procfsVfsFinddir (name : Path) : Option Ref :=
  ((List.finRange procNumFiles).find? (fun i => strcmp (procFileNames.getD i.val []) name = 0)).map .proc

/-- The nodes of files have no children. -/
def vfsFinddir (v : VfsState) (dir : Ref) (name : Path) : Option (Option Ref) :=
  match opsOf v dir, dir with
  | .null, _ => some none
  | .root, .dir p => vfsRootFinddir v p name
  | .root, _ => some none
  | .ramfs, _ => some (ramfsVfsFinddir v name)
  | .procfs, _ => some (procfsVfsFinddir name)

/-! ## Paths -/

/-- The next token up to a slash and what `strtok_saved` points to afterwards. -/
def strtok (saved : Option Path) : Option (Path × Option Path) :=
  match saved with
  | none => none
  | some s =>
    let s := s.dropWhile (fun c => c = slash)
    if s = [] then none
    else
      match s.dropWhile (fun c => c ≠ slash) with
      | [] => some (s, none)
      | _::rest => some (s.takeWhile (fun c => c ≠ slash), some rest)

/-- The first 255 bytes of a path, as the local buffers hold it. -/
def bounded (path : Path) : Path := cstr (strncpy 255 (List.replicate 256 0) path)

def lookupLoop (v : VfsState) : ℕ → Ref → Option Path → Option (Option Ref)
  | 0, _, _ => none
  | fuel+1, curr, saved =>
    match strtok saved with
    | none => some (some curr)
    | some (token, rest) =>
      if ¬ IsDir (flagsOf v curr) then some none
      else (vfsFinddir v curr token).bind (fun found =>
        match found with
        | none => some none
        | some found => lookupLoop v fuel found rest)

/-- The inner `none` is the null pointer. No path of 255 bytes has more than 128 tokens. -/
def vfsLookupPath (v : VfsState) (path : Option Path) : Option (Option Ref) :=
  match path with
  | none => some none
  | some path =>
    if v.root = 0 then some none
    else if strcmp path [slash] = 0 then some (some (.dir v.root))
    else lookupLoop v 256 (.dir v.root) (some (bounded path))

/-! ## Listing names -/

/-- The loop of `vfs_root_readdir`. -/
def readdirLoop (v : VfsState) (index : ℕ) : ℕ → ℕ → ℕ → Option (Option Ref)
  | 0, _, _ => none
  | fuel+1, curr, idx =>
    if curr = 0 then some none
    else if idx = index then some (some (.dir curr))
    else readdirLoop v index fuel (v.next curr) (idx+1)

def vfsRootReaddir (v : VfsState) (p index : ℕ) : Option (Option Ref) :=
  if IsDir (v.nodes p).flags then readdirLoop v index walkBound (v.nodes p).children 0 else some none

def ramfsVfsReaddir (v : VfsState) (index : ℕ) : Option Ref :=
  ((List.finRange ramfsMaxFiles).filter (fun i => (v.slots i).used))[index]?.map .ram

def procfsVfsReaddir (index : ℕ) : Option Ref :=
  (List.finRange procNumFiles)[index]?.map .proc

def vfsReaddir (v : VfsState) (dir : Ref) (index : ℕ) : Option (Option Ref) :=
  match opsOf v dir, dir with
  | .null, _ => some none
  | .root, .dir p => vfsRootReaddir v p index
  | .root, _ => some none
  | .ramfs, _ => some (ramfsVfsReaddir v index)
  | .procfs, _ => some (procfsVfsReaddir index)

/-- The children that the loop of `vfs_list` visits. -/
def listLoop (v : VfsState) (dir : Ref) : ℕ → ℕ → Option (List Ref)
  | 0, _ => none
  | fuel+1, i => (vfsReaddir v dir i).bind (fun child =>
      match child with
      | none => some []
      | some child => (listLoop v dir fuel (i+1)).map (fun rest => child::rest))

/-- The nodes that `vfs_list` prints. -/
def vfsList (v : VfsState) (path : Option Path) : Option (List Ref) :=
  (vfsLookupPath v path).bind (fun dir =>
    match dir with
    | none => some []
    | some dir => if IsDir (flagsOf v dir) then listLoop v dir walkBound 0 else some [dir])

/-! ## Taking paths apart -/

def strrchr (s : Path) (c : UInt8) : Option ℕ :=
  match s with
  | [] => none
  | a::s =>
    match strrchr s c with
    | some i => some (i+1)
    | none => if a = c then some 0 else none

/-- The parent path and the last name, as `vfs_mount`, `vfs_create` and `vfs_delete` take a path apart. -/
def splitPath (path : Path) : Option (Path × Path) :=
  (strrchr (bounded path) slash).map (fun i =>
    (if i = 0 then [slash] else (bounded path).take i, (bounded path).drop (i+1)))

/-- The parent directory and the last name; the inner `none` makes the caller
return -1. A name of 128 bytes or more leaves its buffer. -/
def parentOf (v : VfsState) (path : Path) : Option (Option (Ref × Path)) :=
  match splitPath path with
  | none => some none
  | some (parentPath, name) =>
    if 128 ≤ name.length then none
    else (vfsLookupPath v (some parentPath)).map (fun parent =>
      match parent with
      | none => none
      | some parent => if IsDir (flagsOf v parent) then some (parent, name) else none)

/-! ## Operations -/

def attach (v : VfsState) (p : ℕ) (name : Path) (node : ℕ) : VfsState :=
  let v := v.put node { v.nodes node with
    name := (v.nodes node).name.copy name, parent := p, flags := (v.nodes node).flags ||| vfsMountFlag }
  let v := v.put node { v.nodes node with nextSibling := (v.nodes p).children }
  v.put p { v.nodes p with children := node }

/-- Only directory nodes of the kernel's memory can be parents; no file is a directory. -/
def vfsMount (v : VfsState) (path : Option Path) (node : ℕ) : Option (ℤ × VfsState) :=
  match path with
  | none => some (-1, v)
  | some path =>
    if node = 0 ∨ v.root = 0 then some (-1, v)
    else if strcmp path [slash] = 0 then some (0, { v with root := node })
    else
      (parentOf v path).bind (fun r =>
        match r with
        | none => some (-1, v)
        | some (.dir p, name) => some (0, attach v p name node)
        | some _ => none)

/-- Of the kernel's file systems only the RAM file system creates files. -/
def vfsCreate (v : VfsState) (path : Option Path) (_flags : ℕ) : Option (ℤ × VfsState) :=
  match path with
  | none => some (-1, v)
  | some path =>
    (parentOf v path).map (fun r =>
      match r with
      | none => (-1, v)
      | some (parent, name) =>
        if opsOf v parent = .ramfs then
          ((ramfsCreate v.slots (some name)).1, { v with slots := (ramfsCreate v.slots (some name)).2 })
        else (-1, v))

def vfsDelete (v : VfsState) (path : Option Path) : Option (ℤ × VfsState) :=
  match path with
  | none => some (-1, v)
  | some path =>
    (parentOf v path).map (fun r =>
      match r with
      | none => (-1, v)
      | some (parent, name) =>
        if opsOf v parent = .ramfs then
          ((ramfsDelete v.slots (some name)).1, { v with slots := (ramfsDelete v.slots (some name)).2 })
        else (-1, v))

end Dionnex.Vfs
