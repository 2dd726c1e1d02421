import Dionnex.ByteMemory
import Dionnex.OverlappingCopies
import Dionnex.StringAppends

/-!
# `memmove`

`memcpy` goes up and `memmove` takes the direction that reads every byte
before it is written over. `cpuid_get_brand` moves the name of the processor
over the spaces it begins with.
-/

set_option autoImplicit false

namespace Dionnex.MemoryMoves
open ByteMemory OverlappingCopies StringBuffers Dionnex.StringAppends

/-! ## The code -/

/-- `while (n--) *--d = *--s;` -/
def moveDown (m : Mem) (d s : ℕ) : ℕ → Mem
  | 0 => m
  | n+1 => moveDown (store8 m (d-1) (load8 m (s-1))) (d-1) (s-1) n

/-- The answer and the memory. Going up it has the loop of `memcpy`. -/
def memmove (m : Mem) (dest src n : ℕ) : ℕ × Mem :=
  if dest < src then (dest, memcpy m dest src n)
  else if dest > src then (dest, moveDown m (dest+n) (src+n) n)
  else (dest, m)

/-- What the processor answers for a leaf. -/
structure Registers where
  eax : ℕ
  ebx : ℕ
  ecx : ℕ
  edx : ℕ

def isSpace (c : UInt8) : Bool := c = 32

def writeWords (m : Mem) (a : ℕ) : List ℕ → Mem
  | [] => m
  | w::ws => writeWords (store32 m a w) (a+4) ws

def brandWords (nativeCpuid : ℕ → Registers) : List ℕ :=
  (List.range 3).flatMap (fun i =>
    let r := nativeCpuid (0x80000002+i)
    [r.eax, r.ebx, r.ecx, r.edx])

/-- No loop leaves the 49 bytes that end with `brand[48]`. -/
def trimBrand (m : Mem) (brand : ℕ) : Option Mem :=
  let p := skip isSpace m brand 49
  if p ≠ brand then (scan m p 49).map (fun len => (memmove m brand p (len+1)).2) else some m

def cpuidGetBrand (cpuidSupported : Bool) (nativeCpuid : ℕ → Registers) (m : Mem) (brand : ℕ) : Option Mem :=
  if cpuidSupported = false ∨ brand = 0 then
    some (if brand ≠ 0 then put m brand (chars "Generic x86 Processor" ++ [0]) else m)
  else if (nativeCpuid 0x80000000).eax < 0x80000004 then some (put m brand (chars "x86 Processor" ++ [0]))
  else trimBrand (store8 (writeWords m brand (brandWords nativeCpuid)) (brand+48) 0) brand

/-! ## Moves -/

section Moves

variable {m : Mem} {dest src n : ℕ}

theorem store8_load8 {a b : ℕ} (ha : a < 4294967296) (hb : b < 4294967296) :
    store8 m a (load8 m b) = Function.update m a (m b) := by
  rw [store8, load8, wrap_of_lt ha, wrap_of_lt hb, UInt8.ofNat_toNat]

theorem memcpy_copyUp (hd : dest+n ≤ 4294967296) (hs : src+n ≤ 4294967296) :
    memcpy m dest src n = copyUp m dest src n := by
  induction n generalizing m dest src with
  | zero => rfl
  | succ n ih => rw [memcpy, store8_load8 (by omega) (by omega), ih (by omega) (by omega), copyUp]

theorem moveDown_copyDown (hd : n ≤ dest) (hs : n ≤ src) (hdest : dest ≤ 4294967296) (hsrc : src ≤ 4294967296) :
    moveDown m dest src n = copyDown m dest src n := by
  induction n generalizing m dest src with
  | zero => rfl
  | succ n ih =>
    rw [moveDown, store8_load8 (by omega) (by omega), ih (by omega) (by omega) (by omega) (by omega), copyDown]

theorem memcpy_moved (hd : dest+n ≤ 4294967296) (hs : src+n ≤ 4294967296) (h : dest ≤ src ∨ src+n ≤ dest) :
    Moved dest src n m (memcpy m dest src n) := by
  rw [memcpy_copyUp hd hs]
  exact copyUp_moved h

theorem memmove_range (hd : dest+n ≤ 4294967296) (hs : src+n ≤ 4294967296) :
    Moved dest src n m (memmove m dest src n).2 := by
  unfold memmove
  rcases Nat.lt_trichotomy dest src with hlt | rfl | hgt
  · rw [if_pos hlt]
    exact memcpy_moved hd hs (.inl hlt.le)
  · rw [if_neg (Nat.lt_irrefl dest), if_neg (Nat.lt_irrefl dest)]
    exact Moved.same m dest n
  · rw [if_neg (Nat.not_lt_of_gt hgt), if_pos hgt]
    dsimp only
    rw [moveDown_copyDown (by omega) (by omega) hd hs]
    exact copyDown_moved (.inl hgt.le)

/-- Whatever the overlap, the old bytes of the source arrive at the destination and no other byte changes; going up
does the same unless the destination begins inside the source. -/
theorem memmove_moved (m : Mem) (dest src n : ℕ) (hd : dest+n ≤ 4294967296) (hs : src+n ≤ 4294967296) :
    (memmove m dest src n).1 = dest ∧ Moved dest src n m (memmove m dest src n).2 ∧
      (Disjoint (Set.Ico dest (dest+n)) (Set.Ico src (src+n)) ∨ dest ≤ src →
        memcpy m dest src n = (memmove m dest src n).2) := by
  refine ⟨?_, memmove_range hd hs, fun h => (memcpy_moved hd hs ?_).unique (memmove_range hd hs)⟩
  · unfold memmove
    split_ifs <;> rfl
  · rw [Set.Ico_disjoint_Ico] at h
    omega

def countingMemory : Mem := fun x => UInt8.ofNat x

/-- Four bytes go up by two, and back. -/
theorem memmove_moved_sample :
    ((memmove countingMemory 18 16 4).1 = 18 ∧ Moved 18 16 4 countingMemory (memmove countingMemory 18 16 4).2 ∧
        (Disjoint (Set.Ico 18 (18+4)) (Set.Ico 16 (16+4)) ∨ 18 ≤ 16 →
          memcpy countingMemory 18 16 4 = (memmove countingMemory 18 16 4).2)) ∧
      memcpy countingMemory 16 18 4 = (memmove countingMemory 16 18 4).2 :=
  ⟨memmove_moved countingMemory 18 16 4 (by decide) (by decide),
    (memmove_moved countingMemory 16 18 4 (by decide) (by decide)).2.2 (.inr (by decide))⟩

/-- For no other ranges can `memcpy` stand for `memmove`. -/
theorem memcpy_exact (hd : dest+n ≤ 4294967296) (hs : src+n ≤ 4294967296) :
    (∀ m, memcpy m dest src n = (memmove m dest src n).2) ↔ dest ≤ src ∨ src+n ≤ dest := by
  have hbytes : Nontrivial UInt8 := ⟨0, 1, by decide⟩
  rw [← @copyUp_exact UInt8]
  refine forall_congr' fun m => ?_
  rw [memcpy_copyUp hd hs]
  exact ⟨fun h => h ▸ memmove_range hd hs, fun h => h.unique (memmove_range hd hs)⟩

end Moves

/-! ## The name of the processor -/

section Brand

variable {m : Mem} {brand : ℕ} {s : List UInt8}

/-- The name loses the spaces it begins with, and nothing behind it is touched. -/
theorem trimBrand_holds (h : Holds m brand s) (hs : s.length ≤ 48) (hspace : brand+49 ≤ 4294967296) :
    ∃ m', trimBrand m brand = some m' ∧ Holds m' brand (s.dropWhile isSpace) ∧
      ∀ x, x < brand ∨ brand+49 ≤ x → m' x = m x := by
  have hskip := skip_holds h (show isSpace 0 = false from rfl) (show s.length ≤ 49 by omega)
  have hrest := @skip_rest m brand s isSpace h
  have hsplit := congrArg List.length (List.takeWhile_append_dropWhile (p := isSpace) (l := s))
  rw [List.length_append] at hsplit
  rw [← hskip] at hrest
  unfold trimBrand
  dsimp only
  by_cases hp : skip isSpace m brand 49 = brand
  · rw [if_neg (not_not.mpr hp)]
    rw [hp] at hrest
    exact ⟨m, rfl, hrest, fun x _ => rfl⟩
  · rw [if_pos hp, scan_holds hrest (by omega), Option.map_some]
    have hmoved := @memmove_range m brand (skip isSpace m brand 49) ((s.dropWhile isSpace).length + 1) (by omega) (by omega)
    refine ⟨_, rfl, ⟨hrest.1, fun i hi => ?_⟩, fun x hx => hmoved.kept x (by omega)⟩
    rw [hmoved.copied i (by omega)]
    exact hrest.2 i hi

theorem writeWords_off {ws : List ℕ} {a : ℕ} : SameOff (span a (4*ws.length)) m (writeWords m a ws) := by
  induction ws generalizing m a with
  | nil => exact SameOff.refl _ m
  | cons w ws ih =>
    rw [writeWords, List.length_cons]
    exact ((store32_off m a w).mono (span_mono (by omega))).trans ((@ih _ (a+4)).mono (span_shift (by omega)))

/-- A literal that is no longer than the array. -/
theorem put_brand {t : List UInt8} (h : (0 : UInt8) ∉ t) (hlen : t.length ≤ 48) (hhead : t.head? ≠ some 32) :
    ∃ s, Holds (put m brand (t++[0])) brand s ∧ s.length ≤ 48 ∧ s.head? ≠ some 32 ∧
      ∀ x, x < brand ∨ brand+49 ≤ x → put m brand (t++[0]) x = m x := by
  refine ⟨t, holds_put h, hlen, hhead, fun x hx => put_outside ?_⟩
  rw [List.length_append, List.length_singleton]
  omega

theorem dropWhile_head (s : List UInt8) : (s.dropWhile isSpace).head? ≠ some 32 := by
  intro h
  have hspace := List.head?_dropWhile_not isSpace s
  rw [h] at hspace
  cases hspace

/-- Whatever the processor answers, the array holds a name that does not begin with a space, and nothing outside of it
is written. -/
theorem cpuidGetBrand_holds (cpuidSupported : Bool) (nativeCpuid : ℕ → Registers) (h0 : brand ≠ 0)
    (hspace : brand+49 ≤ 4294967296) :
    ∃ m' s, cpuidGetBrand cpuidSupported nativeCpuid m brand = some m' ∧ Holds m' brand s ∧ s.length ≤ 48 ∧
      s.head? ≠ some 32 ∧ ∀ x, x < brand ∨ brand+49 ≤ x → m' x = m x := by
  unfold cpuidGetBrand
  by_cases hsupported : cpuidSupported = false
  · rw [if_pos (.inl hsupported), if_pos h0]
    obtain ⟨s, hs⟩ := @put_brand m brand (chars "Generic x86 Processor") (by decide +kernel) (by decide +kernel)
      (by decide +kernel)
    exact ⟨_, s, rfl, hs⟩
  rw [if_neg (not_or.mpr ⟨hsupported, h0⟩)]
  by_cases hleaf : (nativeCpuid 0x80000000).eax < 0x80000004
  · rw [if_pos hleaf]
    obtain ⟨s, hs⟩ := @put_brand m brand (chars "x86 Processor") (by decide +kernel) (by decide +kernel)
      (by decide +kernel)
    exact ⟨_, s, rfl, hs⟩
  rw [if_neg hleaf]
  generalize hfilled : store8 (writeWords m brand (brandWords nativeCpuid)) (brand+48) 0 = filled
  have hnul : filled (brand+48) = 0 := by
    rw [← hfilled, store8, wrap_of_lt (by omega), Function.update_self]
    rfl
  have hwords : (brandWords nativeCpuid).length = 12 := rfl
  have hoff : SameOff (span brand 49) m filled := by
    rw [← hfilled]
    exact (writeWords_off.mono (span_mono (hwords ▸ by decide))).trans
      ((store8_off _ (brand+48) 0).mono (span_shift (by decide)))
  rw [span_eq hspace] at hoff
  obtain ⟨s, hs, hlen⟩ := holds_within hnul
  obtain ⟨m', htrim, hholds, hkept⟩ := trimBrand_holds hs hlen hspace
  refine ⟨m', _, htrim, hholds, (List.length_dropWhile_le isSpace s).trans hlen, dropWhile_head s, fun x hx => ?_⟩
  rw [hkept x hx, hoff x (fun hin => by rw [Set.mem_Ico] at hin; omega)]

end Brand

end Dionnex.MemoryMoves
