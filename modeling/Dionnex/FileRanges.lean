import Dionnex.RamfsResidue

/-!
# Ranges of a file: clipping a read or a write

`ramfs_vfs_read`, `ramfs_vfs_write` and `procfs_vfs_read` clip the range
`offset, size` to a limit by comparing `offset + size` with it, in unsigned
32-bit arithmetic. Where the sum stays below 2^32 the clipped length is the
minimum of the size and the room left. Where it wraps nothing is clipped
and the copy has the full size.
-/

set_option autoImplicit false

namespace Dionnex.FileRanges
open Dionnex.Ramfs Dionnex.RamfsVfs Dionnex.RamfsResidue

/-- `(int)n` of an unsigned number. -/
def asInt (n : ℕ) : ℤ := if n < 2147483648 then n else n - 4294967296

/-- `dyn_buf` as `procfs_generate_content` leaves it, and the length it returns. -/
structure ProcText where
  bytes : ℕ → UInt8
  totalLen : ℕ
  isInt : totalLen < 2147483648

/-- There is no text without a node or when `kmalloc` has failed. -/
def procfsVfsRead (text : Option ProcText) (hasBuf : Bool) (offset size : UInt32) :
    ℤ × List UInt8 :=
  match hasBuf, text with
  | true, some text =>
    if offset.toNat ≥ text.totalLen then (0, [])
    else
      let toRead := clipped offset size (UInt32.ofNat text.totalLen)
      (asInt toRead, (List.range toRead).map (fun k => text.bytes (offset.toNat+k)))
  | _, _ => (-1, [])

/-- A node that leads to a used slot. -/
structure OpenFile (fs : Slots) (node i : Slot) : Prop where
  file : fileOf fs node = some i
  used : (fs i).used = true
  size : (fs i).size ≤ ramfsMaxData

/-- How many bytes of the range lie below the limit. -/
def room (offset size : UInt32) (limit : ℕ) : ℕ := min size.toNat (limit - offset.toNat)

/-- The answer of a read from a file of `len` bytes: 0 past the end, otherwise
the bytes of the range that are in the file. -/
def ReadsExactly (len : ℕ) (bytes : ℕ → UInt8) (offset size : UInt32) (r : ℤ × List UInt8) : Prop :=
  if len ≤ offset.toNat then r = (0, [])
  else r = (((room offset size len : ℕ) : ℤ),
    (List.range (room offset size len)).map (fun k => bytes (offset.toNat+k)))

/-- The file in slot `i` after a write of `n` bytes at `offset`. -/
structure Patched (fs : Slots) (i : Slot) (offset n : ℕ) (buf : ℕ → UInt8) (t : Slots) : Prop where
  size : (t i).size = max (fs i).size (offset+n)
  inside : ∀ k < n, (t i).data (offset+k) = buf k
  outside : ∀ k, k < offset ∨ offset+n ≤ k → (t i).data k = (fs i).data k
  others : ∀ j ≠ i, (t j).data = (fs j).data ∧ (t j).size = (fs j).size

/-- A write past the array is refused, any other one patches the file, and
reading the range back gives the bytes written. -/
def WritesExactly (fs : Slots) (node i : Slot) (offset size : UInt32) (buf : ℕ → UInt8) : Prop :=
  if ramfsMaxData ≤ offset.toNat then
    ramfsVfsWrite fs node offset size (some buf) = some (-1, fs)
  else ∃ t,
    ramfsVfsWrite fs node offset size (some buf) = some (((room offset size ramfsMaxData : ℕ) : ℤ), t) ∧
    Patched fs i offset.toNat (room offset size ramfsMaxData) buf t ∧
    ramfsVfsRead t node true offset size = some (((room offset size ramfsMaxData : ℕ) : ℤ),
      (List.range (room offset size ramfsMaxData)).map buf)

/-- The three operations on the range `offset, size`. -/
structure RangesExact (fs : Slots) (node i : Slot) (text : ProcText) (buf : ℕ → UInt8)
    (offset size : UInt32) : Prop where
  read : ∃ r, ramfsVfsRead fs node true offset size = some r ∧
    ReadsExactly (fs i).size (fs i).data offset size r
  procRead : ReadsExactly text.totalLen text.bytes offset size
    (procfsVfsRead (some text) true offset size)
  write : WritesExactly fs node i offset size buf

theorem toNat_ofNat {n : ℕ} (h : n < 4294967296) : (UInt32.ofNat n).toNat = n :=
  UInt32.toNat_ofNat_of_lt' h

/-- Without a wrap the length is clipped to the room. -/
theorem clipped_room {offset size : UInt32} {limit : ℕ} (hl : limit < 4294967296)
    (ho : offset.toNat < limit) (hsum : offset.toNat + size.toNat < 4294967296) :
    clipped offset size (UInt32.ofNat limit) = room offset size limit := by
  have hlimit := toNat_ofNat hl
  have hadd : (offset+size).toNat = offset.toNat + size.toNat := by
    rw [UInt32.toNat_add]
    exact Nat.mod_eq_of_lt hsum
  have hsub : (UInt32.ofNat limit - offset).toNat = limit - offset.toNat := by
    rw [UInt32.toNat_sub_of_le _ _ (by rw [UInt32.le_iff_toNat_le]; omega), hlimit]
  have hover : offset+size > UInt32.ofNat limit ↔ limit < offset.toNat + size.toNat := by
    rw [gt_iff_lt, UInt32.lt_iff_toNat_lt, hadd, hlimit]
  unfold clipped room
  split
  · next h =>
    have hlt := hover.mp h
    omega
  · next h =>
    have hle : ¬ limit < offset.toNat + size.toNat := fun hlt => h (hover.mpr hlt)
    omega

/-- When the sum wraps it is below the offset, and nothing is clipped. -/
theorem clipped_wrapped {offset size : UInt32} {limit : ℕ} (hl : limit < 4294967296)
    (ho : offset.toNat < limit) (hsum : 4294967296 ≤ offset.toNat + size.toNat) :
    clipped offset size (UInt32.ofNat limit) = size.toNat := by
  have hoff := offset.toNat_lt
  have hsize := size.toNat_lt
  have hadd : (offset+size).toNat = offset.toNat + size.toNat - 4294967296 := by
    rw [UInt32.toNat_add]
    omega
  unfold clipped
  rw [if_neg]
  rw [gt_iff_lt, UInt32.lt_iff_toNat_lt, hadd, toNat_ofNat hl]
  omega

theorem read_open {fs : Slots} {node i : Slot} (h : OpenFile fs node i) (offset size : UInt32) :
    ramfsVfsRead fs node true offset size =
      if offset.toNat ≥ (fs i).size then some (0, [])
      else if offset.toNat + clipped offset size (UInt32.ofNat (fs i).size) > ramfsMaxData then none
      else some (((clipped offset size (UInt32.ofNat (fs i).size) : ℕ) : ℤ),
        (List.range (clipped offset size (UInt32.ofNat (fs i).size))).map
          (fun k => (fs i).data (offset.toNat+k))) := by
  simp only [ramfsVfsRead, h.file]
  rw [if_neg (by rw [h.used]; decide)]

/-- A read runs out of the data array exactly when its range wraps. -/
theorem read_defined {fs : Slots} {node i : Slot} (h : OpenFile fs node i) (offset size : UInt32) :
    ramfsVfsRead fs node true offset size ≠ none ↔
      offset.toNat + size.toNat < 4294967296 ∨ (fs i).size ≤ offset.toNat := by
  have hsize := h.size
  rw [show ramfsMaxData = 1024 from rfl] at hsize
  rw [read_open h]
  by_cases hend : (fs i).size ≤ offset.toNat
  · rw [if_pos hend]
    exact iff_of_true (by simp) (Or.inr hend)
  · rw [if_neg hend]
    by_cases hsum : offset.toNat + size.toNat < 4294967296
    · have hroom : ¬ offset.toNat + room offset size (fs i).size > ramfsMaxData := by
        unfold room ramfsMaxData
        omega
      rw [clipped_room (by omega) (by omega) hsum, if_neg hroom]
      exact iff_of_true (by simp) (Or.inl hsum)
    · have hover : offset.toNat + size.toNat > ramfsMaxData := by
        unfold ramfsMaxData
        omega
      rw [clipped_wrapped (by omega) (by omega) (by omega), if_pos hover]
      exact iff_of_false (by simp) (by omega)

theorem ramfs_read_iff {fs : Slots} {node i : Slot} (h : OpenFile fs node i)
    (offset size : UInt32) :
    (∃ r, ramfsVfsRead fs node true offset size = some r ∧
        ReadsExactly (fs i).size (fs i).data offset size r) ↔
      offset.toNat + size.toNat < 4294967296 ∨ (fs i).size ≤ offset.toNat := by
  have hsize := h.size
  rw [show ramfsMaxData = 1024 from rfl] at hsize
  rw [← read_defined h offset size]
  constructor
  · rintro ⟨r, hr, -⟩
    simp [hr]
  · intro hsome
    have hfits := (read_defined h offset size).mp hsome
    rw [read_open h] at hsome ⊢
    by_cases hend : (fs i).size ≤ offset.toNat
    · rw [if_pos hend]
      refine ⟨_, rfl, ?_⟩
      rw [ReadsExactly, if_pos hend]
    · have hsum := hfits.resolve_right hend
      rw [if_neg hend, clipped_room (by omega) (by omega) hsum] at hsome ⊢
      split at hsome
      · exact absurd rfl hsome
      · next hin =>
        rw [if_neg hin]
        refine ⟨_, rfl, ?_⟩
        rw [ReadsExactly, if_neg hend]

theorem procfs_read_iff (text : ProcText) (offset size : UInt32) :
    ReadsExactly text.totalLen text.bytes offset size
        (procfsVfsRead (some text) true offset size) ↔
      offset.toNat + size.toNat < 4294967296 ∨ text.totalLen ≤ offset.toNat := by
  have hlen := text.isInt
  unfold ReadsExactly procfsVfsRead
  dsimp only
  by_cases hend : text.totalLen ≤ offset.toNat
  · rw [if_pos hend, if_pos hend]
    exact iff_of_true rfl (Or.inr hend)
  · rw [if_neg hend, if_neg hend]
    by_cases hsum : offset.toNat + size.toNat < 4294967296
    · rw [clipped_room (by omega) (by omega) hsum]
      have hint : asInt (room offset size text.totalLen) = (room offset size text.totalLen : ℕ) := by
        unfold asInt room
        rw [if_pos (by omega)]
      rw [hint]
      exact iff_of_true rfl (Or.inl hsum)
    · rw [clipped_wrapped (by omega) (by omega) (by omega)]
      refine iff_of_false (fun he => ?_) (by omega)
      have hcount := congrArg (fun r => r.2.length) he
      simp only [List.length_map, List.length_range, room] at hcount
      omega

theorem write_open {fs : Slots} {node i : Slot} (h : OpenFile fs node i) (offset size : UInt32)
    (buf : ℕ → UInt8) (ho : offset.toNat < ramfsMaxData) :
    ramfsVfsWrite fs node offset size (some buf) =
      if offset.toNat + clipped offset size (UInt32.ofNat ramfsMaxData) > ramfsMaxData then none
      else some (((clipped offset size (UInt32.ofNat ramfsMaxData) : ℕ) : ℤ),
        wrote fs node i offset.toNat (clipped offset size (UInt32.ofNat ramfsMaxData)) buf) := by
  simp only [ramfsVfsWrite, h.file]
  rw [if_neg (by rw [h.used]; decide), if_neg (by omega)]
  by_cases hover : offset.toNat + clipped offset size (UInt32.ofNat ramfsMaxData) > ramfsMaxData
  · rw [if_pos hover, if_pos hover]
  · rw [if_neg hover, if_neg hover]
    unfold wrote
    dsimp only
    split <;> rfl

theorem wrote_patched (fs : Slots) (node i : Slot) (offset n : ℕ) (buf : ℕ → UInt8) :
    Patched fs i offset n buf (wrote fs node i offset n buf) := by
  obtain ⟨-, -, hdata, hsize, -⟩ := wrote_slot fs node i i offset n buf
  rw [if_pos rfl] at hdata hsize
  refine ⟨?_, fun k hk => ?_, fun k hk => ?_, fun j hj => ?_⟩
  · rw [hsize, writeFile]
    dsimp only
    split <;> omega
  · rw [hdata, writeFile]
    dsimp only
    rw [if_pos (by omega), Nat.add_sub_cancel_left]
  · rw [hdata, writeFile]
    dsimp only
    rw [if_neg (by omega)]
  · obtain ⟨-, -, hdata, hsize, -⟩ := wrote_slot fs node i j offset n buf
    rw [if_neg hj] at hdata hsize
    exact ⟨hdata, hsize⟩

theorem wrote_open {fs : Slots} {node i : Slot} (h : OpenFile fs node i) {offset n : ℕ}
    (buf : ℕ → UInt8) (hn : offset+n ≤ ramfsMaxData) :
    OpenFile (wrote fs node i offset n buf) node i := by
  obtain ⟨-, hpriv, -, -, -⟩ := wrote_slot fs node i node offset n buf
  obtain ⟨-, -, -, -, hused⟩ := wrote_slot fs node i i offset n buf
  refine ⟨(fileOf_congr hpriv).trans h.file, hused.trans h.used, ?_⟩
  rw [(wrote_patched fs node i offset n buf).size]
  exact max_le h.size hn

/-- The range of a write reads back as the bytes written. -/
theorem read_back {fs : Slots} {node i : Slot} (h : OpenFile fs node i) (offset size : UInt32)
    (buf : ℕ → UInt8) (ho : offset.toNat < ramfsMaxData)
    (hsum : offset.toNat + size.toNat < 4294967296) :
    ramfsVfsRead (wrote fs node i offset.toNat (room offset size ramfsMaxData) buf) node true
        offset size =
      some (((room offset size ramfsMaxData : ℕ) : ℤ),
        (List.range (room offset size ramfsMaxData)).map buf) := by
  have hn : offset.toNat + room offset size ramfsMaxData ≤ ramfsMaxData := by
    unfold room
    omega
  have hpatch := wrote_patched fs node i offset.toNat (room offset size ramfsMaxData) buf
  have hopen := wrote_open h buf hn
  have hsize := hpatch.size
  have hold := h.size
  have hread := (ramfs_read_iff hopen offset size).mpr (Or.inl hsum)
  obtain ⟨r, hr, hexact⟩ := hread
  rw [hr]
  congr 1
  rw [ReadsExactly] at hexact
  split at hexact
  · next hend =>
    have hzero : room offset size ramfsMaxData = 0 := by omega
    rw [hexact, hzero]
    rfl
  · next hend =>
    have hroom : room offset size
        (wrote fs node i offset.toNat (room offset size ramfsMaxData) buf i).size =
        room offset size ramfsMaxData := by
      rw [hsize]
      unfold room at hn ⊢
      unfold ramfsMaxData at *
      omega
    rw [hexact, hroom]
    congr 1
    refine List.map_congr_left fun k hk => ?_
    exact hpatch.inside k (List.mem_range.mp hk)

/-- A write runs out of the data array exactly when its range wraps. -/
theorem write_defined {fs : Slots} {node i : Slot} (h : OpenFile fs node i) (offset size : UInt32)
    (buf : ℕ → UInt8) : ramfsVfsWrite fs node offset size (some buf) ≠ none ↔
      offset.toNat + size.toNat < 4294967296 ∨ ramfsMaxData ≤ offset.toNat := by
  have hmax : ramfsMaxData < 4294967296 := by decide
  by_cases hend : ramfsMaxData ≤ offset.toNat
  · refine iff_of_true ?_ (Or.inr hend)
    simp only [ramfsVfsWrite, h.file]
    rw [if_neg (by rw [h.used]; decide), if_pos hend]
    simp
  · have ho : offset.toNat < ramfsMaxData := by omega
    rw [write_open h offset size buf ho]
    by_cases hsum : offset.toNat + size.toNat < 4294967296
    · have hin : ¬ offset.toNat + room offset size ramfsMaxData > ramfsMaxData := by
        unfold room
        omega
      rw [clipped_room hmax ho hsum, if_neg hin]
      exact iff_of_true (by simp) (Or.inl hsum)
    · rw [clipped_wrapped hmax ho (by omega), if_pos (by omega)]
      exact iff_of_false (by simp) (by omega)

theorem ramfs_write_iff {fs : Slots} {node i : Slot} (h : OpenFile fs node i)
    (offset size : UInt32) (buf : ℕ → UInt8) :
    WritesExactly fs node i offset size buf ↔
      offset.toNat + size.toNat < 4294967296 ∨ ramfsMaxData ≤ offset.toNat := by
  rw [← write_defined h offset size buf]
  unfold WritesExactly
  by_cases hend : ramfsMaxData ≤ offset.toNat
  · have hret : ramfsVfsWrite fs node offset size (some buf) = some (-1, fs) := by
      simp only [ramfsVfsWrite, h.file]
      rw [if_neg (by rw [h.used]; decide), if_pos hend]
    rw [if_pos hend, hret]
    exact iff_of_true rfl (by simp)
  · rw [if_neg hend]
    have ho : offset.toNat < ramfsMaxData := by omega
    constructor
    · rintro ⟨t, hw, -⟩
      simp [hw]
    · intro hsome
      have hsum := ((write_defined h offset size buf).mp hsome).resolve_right hend
      refine ⟨_, ?_, wrote_patched fs node i offset.toNat _ buf, read_back h offset size buf ho hsum⟩
      rw [write_open h offset size buf ho, clipped_room (by decide) ho hsum] at hsome ⊢
      split at hsome
      · exact absurd rfl hsome
      · next hin => rw [if_neg hin]

/-- The three operations are exact on a range exactly when its end does not
wrap, or the range starts past every limit. -/
theorem ranges_exact_iff {fs : Slots} {node i : Slot} (h : OpenFile fs node i) (text : ProcText)
    (buf : ℕ → UInt8) (offset size : UInt32) :
    RangesExact fs node i text buf offset size ↔
      offset.toNat + size.toNat < 4294967296 ∨
        (ramfsMaxData ≤ offset.toNat ∧ text.totalLen ≤ offset.toNat) := by
  have hsize := h.size
  constructor
  · intro hr
    have hproc := (procfs_read_iff text offset size).mp hr.procRead
    have hwrite := (ramfs_write_iff h offset size buf).mp hr.write
    omega
  · intro hc
    refine ⟨(ramfs_read_iff h offset size).mpr ?_, (procfs_read_iff text offset size).mpr ?_,
      (ramfs_write_iff h offset size buf).mpr ?_⟩ <;> omega

/-- A file of ten bytes in the first slot. -/
def sampleSlots : Slots :=
  Function.update ramfsCleared firstSlot { freshFile zeroFile firstSlot [97, 0] with size := 10 }

theorem sample_open : OpenFile sampleSlots firstSlot firstSlot := ⟨rfl, rfl, by decide⟩

def sampleText : ProcText := ⟨fun _ => 65, 20, by decide⟩

theorem ranges_exact_iff_sample :
    RangesExact sampleSlots firstSlot firstSlot sampleText (fun _ => 66) 4 100 ↔
      (4 : UInt32).toNat + (100 : UInt32).toNat < 4294967296 ∨
        (ramfsMaxData ≤ (4 : UInt32).toNat ∧ sampleText.totalLen ≤ (4 : UInt32).toNat) :=
  ranges_exact_iff sample_open sampleText (fun _ => 66) 4 100

/-- One byte in, with the largest size: the copy takes 4 GiB less one. -/
theorem range_wraps : ramfsVfsRead sampleSlots firstSlot true 1 0xFFFFFFFF = none ∧
    ramfsVfsWrite sampleSlots firstSlot 1 0xFFFFFFFF (some fun _ => 66) = none ∧
    ¬ RangesExact sampleSlots firstSlot firstSlot sampleText (fun _ => 66) 1 0xFFFFFFFF := by
  refine ⟨rfl, rfl, fun h => ?_⟩
  obtain ⟨r, hr, -⟩ := h.read
  cases hr

end Dionnex.FileRanges
