import Dionnex.Ramfs

/-!
# Files of the RAM file system behind their nodes

A node embedded in a slot leads through its operation table and its private
data to a file. Offsets and sizes are unsigned 32-bit numbers and their sum
may wrap; a copy that would leave the data array of the slot has no result.
Paths below the mount point reach `ramfs_create` and `ramfs_delete` with
their last component.
-/

set_option autoImplicit false

namespace Dionnex.RamfsVfs
open Dionnex.Ramfs

/-- `node->private_data`. -/
def fileOf (fs : Slots) (node : Slot) : Option Slot :=
  match (fs node).vfsNode.privateData with
  | some p => if h : p < ramfsMaxFiles then some ⟨p, h⟩ else none
  | none => none

/-- The length of a copy at `offset` that must not pass `limit`. -/
def clipped (offset size limit : UInt32) : ℕ :=
  if offset + size > limit then (limit - offset).toNat else size.toNat

def ramfsVfsRead (fs : Slots) (node : Slot) (hasBuf : Bool) (offset size : UInt32) :
    Option (ℤ × List UInt8) :=
  match hasBuf, fileOf fs node with
  | true, some i =>
    if (fs i).used = false then some (-1, [])
    else if offset.toNat ≥ (fs i).size then some (0, [])
    else
      let toRead := clipped offset size (UInt32.ofNat (fs i).size)
      if offset.toNat + toRead > ramfsMaxData then none
      else some (toRead, (List.range toRead).map (fun k => (fs i).data (offset.toNat+k)))
  | _, _ => some (-1, [])

def writeFile (f : RamfsFile) (offset n : ℕ) (buf : ℕ → UInt8) : RamfsFile :=
  { f with
    data := fun k => if offset ≤ k ∧ k < offset+n then buf (k-offset) else f.data k
    size := if offset+n > f.size then offset+n else f.size }

def setNodeSize (fs : Slots) (node : Slot) (size : ℕ) : Slots :=
  Function.update fs node { fs node with vfsNode := { (fs node).vfsNode with size := size } }

def ramfsVfsWrite (fs : Slots) (node : Slot) (offset size : UInt32) (buf : Option (ℕ → UInt8)) :
    Option (ℤ × Slots) :=
  match buf, fileOf fs node with
  | some buf, some i =>
    if (fs i).used = false then some (-1, fs)
    else if offset.toNat ≥ ramfsMaxData then some (-1, fs)
    else
      let toWrite := clipped offset size (UInt32.ofNat ramfsMaxData)
      if offset.toNat + toWrite > ramfsMaxData then none
      else
        let fs' := Function.update fs i (writeFile (fs i) offset.toNat toWrite buf)
        if offset.toNat + toWrite > (fs i).size then
          some (toWrite, setNodeSize fs' node (offset.toNat + toWrite))
        else some (toWrite, fs')
  | _, _ => some (-1, fs)

def vfsRead (fs : Slots) (node : Option Slot) (hasBuf : Bool) (offset size : UInt32) :
    Option (ℤ × List UInt8) :=
  match node with
  | some i =>
    if (fs i).vfsNode.ops = .ramfs then ramfsVfsRead fs i hasBuf offset size else some (-1, [])
  | none => some (-1, [])

def vfsWrite (fs : Slots) (node : Option Slot) (offset size : UInt32) (buf : Option (ℕ → UInt8)) :
    Option (ℤ × Slots) :=
  match node with
  | some i =>
    if (fs i).vfsNode.ops = .ramfs then ramfsVfsWrite fs i offset size buf else some (-1, fs)
  | none => some (-1, fs)

end Dionnex.RamfsVfs
