import Mathlib.Tactic
import Mathlib.Order.CompletePartialOrder

/-!
# Byte-addressed memory with 32-bit addresses

Memory is a map from addresses to bytes. An address is a number taken
modulo `2^32`, so a pointer expression that overflows is written as the sum
it computes. Words are little endian. Each write comes with the word it
leaves behind and the set of addresses it may touch; `SameOff` is the frame
relation that composes over sequences of writes.
-/

set_option autoImplicit false

namespace ByteMemory

abbrev Mem := ℕ → UInt8

def wrap (n : ℕ) : ℕ := n % 4294967296

/-- Subtraction of unsigned 32-bit numbers. -/
def sub32 (a b : ℕ) : ℕ := wrap (a + (4294967296 - wrap b))

def load8 (m : Mem) (a : ℕ) : ℕ := (m (wrap a)).toNat

def load16 (m : Mem) (a : ℕ) : ℕ := load8 m a + 256*load8 m (a+1)

def load32 (m : Mem) (a : ℕ) : ℕ :=
  load8 m a + 256*load8 m (a+1) + 65536*load8 m (a+2) + 16777216*load8 m (a+3)

def store8 (m : Mem) (a v : ℕ) : Mem := Function.update m (wrap a) (UInt8.ofNat v)

def store16 (m : Mem) (a v : ℕ) : Mem := store8 (store8 m a v) (a+1) (v/256)

def store32 (m : Mem) (a v : ℕ) : Mem :=
  store8 (store8 (store8 (store8 m a v) (a+1) (v/256)) (a+2) (v/65536)) (a+3) (v/16777216)

/-- Byte by byte, upwards. -/
def memset (m : Mem) (a v : ℕ) : ℕ → Mem
  | 0 => m
  | n+1 => memset (store8 m a v) (a+1) v n

/-- Byte by byte, upwards. -/
def memcpy (m : Mem) (dest src : ℕ) : ℕ → Mem
  | 0 => m
  | n+1 => memcpy (store8 m dest (load8 m src)) (dest+1) (src+1) n

/-- The addresses of the `n` bytes from `a` on. -/
def span (a n : ℕ) : Set ℕ := {x | ∃ i < n, x = wrap (a+i)}

/-- The two memories agree off `R`. -/
def SameOff (R : Set ℕ) (m m' : Mem) : Prop := ∀ x, x ∉ R → m' x = m x

theorem wrap_lt (n : ℕ) : wrap n < 4294967296 := Nat.mod_lt _ (by decide)

theorem wrap_of_lt {n : ℕ} (h : n < 4294967296) : wrap n = n := Nat.mod_eq_of_lt h

theorem sub32_of_le {a b : ℕ} (h : b ≤ a) (ha : a < 4294967296) : sub32 a b = a-b := by
  unfold sub32 wrap
  omega

theorem span_eq {a n : ℕ} (h : a+n ≤ 4294967296) : span a n = Set.Ico a (a+n) := by
  ext x
  simp only [span, wrap, Set.mem_ofPred_eq, Set.mem_Ico]
  constructor
  · rintro ⟨i, hi, rfl⟩
    omega
  · intro hx
    exact ⟨x-a, by omega, by omega⟩

theorem span_zero (a : ℕ) : span a 0 = ∅ := by
  ext x
  simp [span]

theorem span_mono {a n k : ℕ} (h : n ≤ k) : span a n ⊆ span a k := by
  rintro x ⟨i, hi, rfl⟩
  exact ⟨i, by omega, rfl⟩

theorem span_shift {a n k j : ℕ} (h : j+n ≤ k) : span (a+j) n ⊆ span a k := by
  rintro x ⟨i, hi, rfl⟩
  exact ⟨j+i, by omega, by rw [Nat.add_assoc]⟩

theorem SameOff.refl (R : Set ℕ) (m : Mem) : SameOff R m m := fun _ _ => rfl

theorem SameOff.mono {R Q : Set ℕ} {m m' : Mem} (h : SameOff R m m') (hs : R ⊆ Q) :
    SameOff Q m m' := fun x hx => h x (fun hr => hx (hs hr))

theorem SameOff.trans {R : Set ℕ} {m m' m'' : Mem} (h : SameOff R m m') (g : SameOff R m' m'') :
    SameOff R m m'' := fun x hx => (g x hx).trans (h x hx)

theorem store8_same (m : Mem) (a v : ℕ) : load8 (store8 m a v) a = v % 256 := by
  simp [load8, store8]

theorem store8_ne (m : Mem) (a v x : ℕ) (h : x ≠ wrap a) : store8 m a v x = m x :=
  Function.update_of_ne h _ _

theorem store8_load (m : Mem) (a b v : ℕ) (h : wrap b ≠ wrap a) :
    load8 (store8 m a v) b = load8 m b := by
  rw [load8, store8_ne m a v _ h, load8]

theorem store8_off (m : Mem) (a v : ℕ) : SameOff (span a 1) m (store8 m a v) := by
  intro x hx
  apply store8_ne
  rintro rfl
  exact hx ⟨0, by decide, rfl⟩

theorem store16_off (m : Mem) (a v : ℕ) : SameOff (span a 2) m (store16 m a v) :=
  ((store8_off m a v).mono (span_mono (by decide))).trans ((store8_off _ (a+1) _).mono (span_shift (by decide)))

theorem store32_off (m : Mem) (a v : ℕ) : SameOff (span a 4) m (store32 m a v) :=
  ((((store8_off m a v).mono (span_mono (by decide))).trans
    ((store8_off _ (a+1) _).mono (span_shift (by decide)))).trans
    ((store8_off _ (a+2) _).mono (span_shift (by decide)))).trans
    ((store8_off _ (a+3) _).mono (span_shift (by decide)))

theorem wrap_add_ne (a i j : ℕ) (hi : i < 4) (hj : j < 4) (hij : i ≠ j) :
    wrap (a+i) ≠ wrap (a+j) := by
  unfold wrap
  omega

theorem load16_store16 (m : Mem) (a : ℕ) {v : ℕ} (hv : v < 65536) : load16 (store16 m a v) a = v := by
  have hne : wrap a ≠ wrap (a+1) := wrap_add_ne a 0 1 (by decide) (by decide) (by decide)
  unfold load16 store16
  rw [store8_load _ _ _ _ hne, store8_same, store8_same]
  omega

/-- A stored word is read back. -/
theorem load32_store32 (m : Mem) (a v : ℕ) : load32 (store32 m a v) a = wrap v := by
  have h01 : wrap a ≠ wrap (a+1) := wrap_add_ne a 0 1 (by decide) (by decide) (by decide)
  have h02 : wrap a ≠ wrap (a+2) := wrap_add_ne a 0 2 (by decide) (by decide) (by decide)
  have h03 : wrap a ≠ wrap (a+3) := wrap_add_ne a 0 3 (by decide) (by decide) (by decide)
  have h12 := wrap_add_ne a 1 2 (by decide) (by decide) (by decide)
  have h13 := wrap_add_ne a 1 3 (by decide) (by decide) (by decide)
  have h23 := wrap_add_ne a 2 3 (by decide) (by decide) (by decide)
  have b0 : load8 (store32 m a v) a = v % 256 := by
    rw [store32, store8_load _ _ _ _ h03, store8_load _ _ _ _ h02, store8_load _ _ _ _ h01,
      store8_same]
  have b1 : load8 (store32 m a v) (a+1) = v/256 % 256 := by
    rw [store32, store8_load _ _ _ _ h13, store8_load _ _ _ _ h12, store8_same]
  have b2 : load8 (store32 m a v) (a+2) = v/65536 % 256 := by
    rw [store32, store8_load _ _ _ _ h23, store8_same]
  have b3 : load8 (store32 m a v) (a+3) = v/16777216 % 256 := by
    rw [store32, store8_same]
  rw [load32, b0, b1, b2, b3, wrap]
  omega

theorem load8_lt (m : Mem) (a : ℕ) : load8 m a < 256 := (m (wrap a)).toNat_lt

theorem load32_lt (m : Mem) (a : ℕ) : load32 m a < 4294967296 := by
  have h0 := load8_lt m a
  have h1 := load8_lt m (a+1)
  have h2 := load8_lt m (a+2)
  have h3 := load8_lt m (a+3)
  unfold load32
  omega

theorem load8_congr {m m' : Mem} {a : ℕ} (h : m' (wrap a) = m (wrap a)) :
    load8 m' a = load8 m a := by rw [load8, h, load8]

theorem load32_congr {m m' : Mem} {a : ℕ} (h : ∀ x ∈ span a 4, m' x = m x) :
    load32 m' a = load32 m a := by
  have h0 : load8 m' a = load8 m a := load8_congr (h _ ⟨0, by decide, rfl⟩)
  have h1 : load8 m' (a+1) = load8 m (a+1) := load8_congr (h _ ⟨1, by decide, rfl⟩)
  have h2 : load8 m' (a+2) = load8 m (a+2) := load8_congr (h _ ⟨2, by decide, rfl⟩)
  have h3 : load8 m' (a+3) = load8 m (a+3) := load8_congr (h _ ⟨3, by decide, rfl⟩)
  rw [load32, h0, h1, h2, h3, load32]

/-- A read outside the touched addresses sees the old word. -/
theorem load32_off {R : Set ℕ} {m m' : Mem} (h : SameOff R m m') {a : ℕ}
    (hd : Disjoint (span a 4) R) : load32 m' a = load32 m a :=
  load32_congr (fun x hx => h x (Set.disjoint_left.mp hd hx))

/-- Words of the same bytes. -/
theorem load32_bytes {m d : Mem} {a b : ℕ} (h : ∀ i < 4, m (wrap (a+i)) = d (wrap (b+i))) : load32 m a = load32 d b := by
  have h0 : load8 m a = load8 d b := congrArg UInt8.toNat (h 0 (by decide))
  have h1 : load8 m (a+1) = load8 d (b+1) := congrArg UInt8.toNat (h 1 (by decide))
  have h2 : load8 m (a+2) = load8 d (b+2) := congrArg UInt8.toNat (h 2 (by decide))
  have h3 : load8 m (a+3) = load8 d (b+3) := congrArg UInt8.toNat (h 3 (by decide))
  rw [load32, h0, h1, h2, h3, load32]

/-- A word determines its bytes. -/
theorem load32_inj {m d : Mem} {a b i : ℕ} (h : load32 m a = load32 d b) (hi : i < 4) :
    m (wrap (a+i)) = d (wrap (b+i)) := by
  have hm := load8_lt m
  have hd := load8_lt d
  have hbytes : load8 m (a+i) = load8 d (b+i) := by
    have hm0 := hm a
    have hm1 := hm (a+1)
    have hm2 := hm (a+2)
    have hm3 := hm (a+3)
    have hd0 := hd b
    have hd1 := hd (b+1)
    have hd2 := hd (b+2)
    have hd3 := hd (b+3)
    unfold load32 at h
    interval_cases i
    · rw [Nat.add_zero, Nat.add_zero]
      omega
    · omega
    · omega
    · omega
  exact UInt8.toNat_inj.mp hbytes

theorem load8_off {R : Set ℕ} {m m' : Mem} (h : SameOff R m m') {a : ℕ} (hd : wrap a ∉ R) :
    load8 m' a = load8 m a := load8_congr (h _ hd)

theorem load16_off {R : Set ℕ} {m m' : Mem} (h : SameOff R m m') {a : ℕ} (hd : Disjoint (span a 2) R) :
    load16 m' a = load16 m a := by
  have h0 := load8_off h (a := a) (Set.disjoint_left.mp hd ⟨0, by decide, rfl⟩)
  have h1 := load8_off h (a := a+1) (Set.disjoint_left.mp hd ⟨1, by decide, rfl⟩)
  rw [load16, h0, h1, load16]

theorem memset_off (m : Mem) (a v n : ℕ) : SameOff (span a n) m (memset m a v n) := by
  induction n generalizing m a with
  | zero => exact SameOff.refl _ m
  | succ n ih =>
    exact ((store8_off m a v).mono (span_mono (by omega))).trans
      ((ih (store8 m a v) (a+1)).mono (span_shift (by omega)))

theorem memcpy_off (m : Mem) (d s n : ℕ) : SameOff (span d n) m (memcpy m d s n) := by
  induction n generalizing m d s with
  | zero => exact SameOff.refl _ m
  | succ n ih =>
    exact ((store8_off m d _).mono (span_mono (by omega))).trans
      ((ih _ (d+1) (s+1)).mono (span_shift (by omega)))

theorem span_succ (a n : ℕ) : span a (n+1) = insert (wrap a) (span (a+1) n) := by
  ext x
  simp only [span, Set.mem_ofPred_eq, Set.mem_insert_iff]
  constructor
  · rintro ⟨i, hi, rfl⟩
    cases i with
    | zero => exact Or.inl rfl
    | succ i => exact Or.inr ⟨i, by omega, by rw [Nat.add_assoc, Nat.add_comm 1 i]⟩
  · rintro (rfl | ⟨i, hi, rfl⟩)
    · exact ⟨0, by omega, rfl⟩
    · exact ⟨i+1, by omega, by rw [Nat.add_assoc, Nat.add_comm 1 i]⟩

theorem memset_span {m : Mem} {a v n x : ℕ} (hn : n ≤ 4294967296) (hx : x ∈ span a n) :
    memset m a v n x = UInt8.ofNat v := by
  induction n generalizing m a with
  | zero =>
    rw [span_zero] at hx
    cases hx
  | succ n ih =>
    rw [memset]
    rw [span_succ, Set.mem_insert_iff] at hx
    by_cases hrest : x ∈ span (a+1) n
    · exact ih (by omega) hrest
    · rw [memset_off _ _ _ _ x hrest, hx.resolve_right hrest, store8, Function.update_self]

/-- Between ranges that do not overlap every byte arrives. -/
theorem memcpy_copied {m : Mem} {d s n i : ℕ} (hn : n ≤ 4294967296) (hd : Disjoint (span d n) (span s n))
    (hi : i < n) : memcpy m d s n (wrap (d+i)) = m (wrap (s+i)) := by
  induction n generalizing m d s i with
  | zero => omega
  | succ n ih =>
    rw [span_succ, span_succ, Set.disjoint_insert_left, Set.disjoint_insert_right] at hd
    obtain ⟨hfirst, hsrc, hrest⟩ := hd
    rw [memcpy]
    cases i with
    | zero =>
      have hlater : wrap d ∉ span (d+1) n := by
        rintro ⟨j, hj, hw⟩
        unfold wrap at hw
        omega
      simp only [Nat.add_zero]
      rw [memcpy_off _ (d+1) (s+1) n _ hlater, store8, Function.update_self]
      simp [load8]
    | succ i =>
      have hstep := @ih (store8 m d (load8 m s)) (d+1) (s+1) i (by omega) hrest (by omega)
      have hne : wrap (s+1+i) ≠ wrap d := by
        intro he
        exact hfirst (Set.mem_insert_of_mem _ ⟨i, by omega, he.symm⟩)
      rw [store8_ne _ _ _ _ hne] at hstep
      rw [Nat.add_comm i 1, ← Nat.add_assoc, ← Nat.add_assoc]
      exact hstep

/-! ## The same writes on two memories -/

/-- A byte written to both is no longer a difference. -/
theorem store8_both {R : Set ℕ} {m m' : Mem} (h : SameOff R m m') (a v : ℕ) :
    SameOff (R \ {wrap a}) (store8 m a v) (store8 m' a v) := by
  intro x hx
  by_cases hxa : x = wrap a
  · rw [hxa, store8, store8, Function.update_self, Function.update_self]
  · rw [store8_ne m' a v x hxa, store8_ne m a v x hxa]
    exact h x (fun hr => hx ⟨hr, hxa⟩)

theorem store32_both {R : Set ℕ} {m m' : Mem} (h : SameOff R m m') (a v : ℕ) :
    SameOff (R \ span a 4) (store32 m a v) (store32 m' a v) := by
  have h0 := store8_both h a v
  have h1 := store8_both h0 (a+1) (v/256)
  have h2 := store8_both h1 (a+2) (v/65536)
  have h3 := store8_both h2 (a+3) (v/16777216)
  refine h3.mono ?_
  rintro x ⟨⟨⟨⟨hr, h0⟩, h1⟩, h2⟩, h3⟩
  refine ⟨hr, ?_⟩
  rintro ⟨i, hi, rfl⟩
  have hcases : i = 0 ∨ i = 1 ∨ i = 2 ∨ i = 3 := by omega
  rcases hcases with rfl | rfl | rfl | rfl
  · exact h0 rfl
  · exact h1 rfl
  · exact h2 rfl
  · exact h3 rfl

end ByteMemory
