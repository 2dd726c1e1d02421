import Dionnex.ByteMemory

/-!
# Pictures stored in cells of memory

A picture gives every place a value, and of the strokes made at a place the
last one is seen. A memory stores a picture when every place that is shown
has bytes of its own; writing cell after cell is then the same as making the
strokes one after another, whatever the strokes outside the picture are.
-/

set_option autoImplicit false

namespace PaintedCells
open ByteMemory

section Pictures

variable {P V : Type*} [DecidableEq P] {f : P → V} {l r : List (P × V)} {p : P} {v : V}

/-- Later strokes lie over earlier ones. -/
def paint (f : P → V) : List (P × V) → P → V
  | [] => f
  | s::l => paint (Function.update f s.1 s.2) l

theorem paint_append : paint f (l++r) = paint (paint f l) r := by
  induction l generalizing f with
  | nil => rfl
  | cons s l ih => exact ih

theorem paint_off (h : ∀ s ∈ l, s.1 ≠ p) : paint f l p = f p := by
  induction l generalizing f with
  | nil => rfl
  | cons s l ih =>
    rw [paint, ih (fun t ht => h t (List.mem_cons_of_mem s ht))]
    exact Function.update_of_ne (h s List.mem_cons_self).symm _ _

/-- Where all strokes at a place agree their order does not matter. -/
theorem paint_on (hp : ∃ s ∈ l, s.1 = p) (hv : ∀ s ∈ l, s.1 = p → s.2 = v) : paint f l p = v := by
  induction l generalizing f with
  | nil =>
    obtain ⟨s, hs, -⟩ := hp
    cases hs
  | cons s l ih =>
    have hrest : ∀ t ∈ l, t.1 = p → t.2 = v := fun t ht => hv t (List.mem_cons_of_mem s ht)
    by_cases hl : ∃ t ∈ l, t.1 = p
    · exact ih hl hrest
    · rw [paint, paint_off (fun t ht hp => hl ⟨t, ht, hp⟩)]
      have hs : s.1 = p := by
        obtain ⟨t, ht, htp⟩ := hp
        rcases List.mem_cons.mp ht with rfl | ht
        · exact htp
        · exact (hl ⟨t, ht, htp⟩).elim
      rw [← hs, Function.update_self]
      exact hv s List.mem_cons_self hs

/-- The picture under the strokes matters only where nothing is painted. -/
theorem paint_congr {g : P → V} (h : f p = g p) : paint f l p = paint g l p := by
  induction l generalizing f g with
  | nil => exact h
  | cons s l ih =>
    refine ih ?_
    by_cases hs : p = s.1
    · rw [hs, Function.update_self, Function.update_self]
    · rw [Function.update_of_ne hs, Function.update_of_ne hs, h]

end Pictures

/-- A way of keeping a colour in a few bytes; `view` is what is left of it there. -/
structure Cell (C V : Type*) where
  width : ℕ
  write : Mem → ℕ → C → Mem
  read : Mem → ℕ → V
  view : C → V
  write_off : ∀ m a c, SameOff (span a width) m (write m a c)
  read_write : ∀ m a c, read (write m a c) a = view c
  read_congr : ∀ {m m' a}, (∀ x ∈ span a width, m' x = m x) → read m' a = read m a

/-- The places that are shown have cells that do not meet. -/
structure Layout (P : Type*) (width : ℕ) where
  shown : P → Prop
  addr : P → ℕ
  apart : ∀ {p q}, shown p → shown q → p ≠ q → Disjoint (span (addr p) width) (span (addr q) width)

section Stored

variable {P C V : Type*} (cell : Cell C V) (g : Layout P cell.width) [DecidablePred g.shown]

def put (m : Mem) (s : P × C) : Mem := if g.shown s.1 then cell.write m (g.addr s.1) s.2 else m

def puts (m : Mem) (l : List (P × C)) : Mem := l.foldl (put cell g) m

def picture (m : Mem) (p : P) : V := cell.read m (g.addr p)

def viewed (l : List (P × C)) : List (P × V) := l.map (fun s => (s.1, cell.view s.2))

def area : Set ℕ := {x | ∃ p, g.shown p ∧ x ∈ span (g.addr p) cell.width}

variable {cell g} {m : Mem} {p : P}

theorem put_off (s : P × C) : SameOff (area cell g) m (put cell g m s) := by
  unfold put
  split
  · rename_i hs
    exact (cell.write_off _ _ _).mono (fun x hx => ⟨s.1, hs, hx⟩)
  · exact SameOff.refl _ _

theorem puts_off (l : List (P × C)) : SameOff (area cell g) m (puts cell g m l) := by
  induction l generalizing m with
  | nil => exact SameOff.refl _ _
  | cons s l ih => exact (put_off s).trans ih

variable [DecidableEq P]

theorem put_picture (s : P × C) (hp : g.shown p) :
    picture cell g (put cell g m s) p = Function.update (picture cell g m) s.1 (cell.view s.2) p := by
  by_cases hs : p = s.1
  · subst hs
    rw [Function.update_self]
    unfold put
    rw [if_pos hp]
    exact cell.read_write _ _ _
  · rw [Function.update_of_ne hs]
    unfold put
    split
    · rename_i hshown
      refine cell.read_congr (fun x hx => cell.write_off _ _ _ x ?_)
      exact Set.disjoint_left.mp (g.apart hp hshown hs) hx
    · rfl

/-- Writing the cells makes the strokes. -/
theorem puts_picture (l : List (P × C)) (hp : g.shown p) :
    picture cell g (puts cell g m l) p = paint (picture cell g m) (viewed cell l) p := by
  induction l generalizing m with
  | nil => rfl
  | cons s l ih =>
    refine ih.trans ?_
    exact paint_congr (put_picture s hp)

end Stored

section Bytes

/-- The last `n` bytes of a number, the lowest one first. -/
def storeBytes (m : Mem) (a v : ℕ) : ℕ → Mem
  | 0 => m
  | n+1 => storeBytes (store8 m a v) (a+1) (v/256) n

def loadBytes (m : Mem) (a : ℕ) : ℕ → ℕ
  | 0 => 0
  | n+1 => load8 m a + 256*loadBytes m (a+1) n

theorem storeBytes_off (m : Mem) (a v n : ℕ) : SameOff (span a n) m (storeBytes m a v n) := by
  induction n generalizing m a v with
  | zero => exact SameOff.refl _ _
  | succ n ih =>
    have hrest := (ih (store8 m a v) (a+1) (v/256)).mono (show span (a+1) n ⊆ span a (n+1) from span_shift (by omega))
    exact ((store8_off m a v).mono (span_mono (by omega))).trans hrest

theorem loadBytes_congr {m m' : Mem} {a n : ℕ} (h : ∀ x ∈ span a n, m' x = m x) : loadBytes m' a n = loadBytes m a n := by
  induction n generalizing a with
  | zero => rfl
  | succ n ih =>
    have hfirst : load8 m' a = load8 m a := load8_congr (h _ ⟨0, by omega, rfl⟩)
    rw [loadBytes, loadBytes, ih (fun x hx => h x (span_shift (by omega) hx)), hfirst]

theorem loadBytes_stored (m : Mem) (a v : ℕ) {n : ℕ} (hn : n ≤ 4294967296) :
    loadBytes (storeBytes m a v n) a n = v % 256^n := by
  induction n generalizing m a v with
  | zero => rw [pow_zero, Nat.mod_one, loadBytes]
  | succ n ih =>
    have hfirst : load8 (storeBytes (store8 m a v) (a+1) (v/256) n) a = v % 256 := by
      rw [load8_off (storeBytes_off _ _ _ _), store8_same]
      rintro ⟨i, hi, heq⟩
      unfold wrap at heq
      omega
    rw [loadBytes, storeBytes, hfirst, ih _ _ _ (by omega), pow_succ', Nat.mod_mul]

def bytesCell (n : ℕ) (hn : n ≤ 4294967296) : Cell ℕ ℕ where
  width := n
  write := fun m a v => storeBytes m a v n
  read := fun m a => loadBytes m a n
  view := fun v => v % 256^n
  write_off := fun m a v => storeBytes_off m a v n
  read_write := fun m a v => loadBytes_stored m a v hn
  read_congr := loadBytes_congr

theorem storeBytes_four (m : Mem) (a v : ℕ) : storeBytes m a v 4 = store32 m a v := by
  simp only [storeBytes, store32, Nat.add_assoc, Nat.reduceAdd, Nat.div_div_eq_div_mul, Nat.reduceMul]

theorem loadBytes_four (m : Mem) (a : ℕ) : loadBytes m a 4 = load32 m a := by
  simp only [loadBytes, load32, Nat.add_assoc, Nat.reduceAdd]
  omega

end Bytes

end PaintedCells
