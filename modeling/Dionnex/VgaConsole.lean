import Mathlib.Tactic

/-!
# The VGA console

Eighty columns and twenty-five rows of character cells. A character that
would leave the screen at the bottom scrolls it up by a row, in place. What
is on the screen is a window on a terminal that has no bottom.
-/

set_option autoImplicit false

namespace Dionnex.VgaConsole

/-! ## The code -/

def vgaWidth : ℕ := 80
def vgaHeight : ℕ := 25

/-- The driver's variables, the cells, the two registers of the hardware cursor; and for the record the indexes that
were stored to, the last first, and the scrolls since the last clear. -/
structure Console where
  buffer : ℕ → UInt16
  row : UInt8
  col : UInt8
  color : UInt8
  cursorLow : UInt8
  cursorHigh : UInt8
  stored : List ℕ
  scrolls : ℕ

/-- The static variables before any code runs, over whatever is in the display memory. -/
def Console.zero (buffer : ℕ → UInt16) : Console := ⟨buffer, 0, 0, 0x0F, 0, 0, [], 0⟩

/-- `char` is signed, and its sign goes into the byte of the color. -/
def vgaEntry (c color : UInt8) : UInt16 :=
  (if c < 128 then c.toUInt16 else c.toUInt16 ||| 0xFF00) ||| color.toUInt16 <<< 8

def store (v : Console) (i : ℕ) (x : UInt16) : Console :=
  { v with buffer := Function.update v.buffer i x, stored := i :: v.stored }

/-- `vga_memmove` from a row further down, upwards from cell `i` on. -/
def moveCells (v : Console) (i : ℕ) : ℕ → Console
  | 0 => v
  | n+1 => moveCells (store v i (v.buffer (i+vgaWidth))) (i+1) n

/-- Blanks in `n` cells from cell `i` on. -/
def blankCells (v : Console) (i : ℕ) : ℕ → Console
  | 0 => v
  | n+1 => blankCells (store v i (vgaEntry 32 v.color)) (i+1) n

def vgaUpdateCursor (v : Console) : Console :=
  let pos := v.row.toNat*vgaWidth + v.col.toNat
  { v with cursorLow := UInt8.ofNat (pos % 256), cursorHigh := UInt8.ofNat (pos/256 % 256) }

def vgaScroll (v : Console) : Console :=
  let v := moveCells v 0 (vgaWidth*(vgaHeight-1))
  let v := blankCells v ((vgaHeight-1)*vgaWidth) vgaWidth
  { v with row := UInt8.ofNat (vgaHeight-1), scrolls := v.scrolls+1 }

def vgaClear (v : Console) : Console :=
  vgaUpdateCursor { blankCells v 0 (vgaWidth*vgaHeight) with row := 0, col := 0, scrolls := 0 }

def vgaInit (v : Console) : Console := vgaClear { v with color := 0x0F }

def vgaSetColor (v : Console) (fg bg : UInt8) : Console := { v with color := bg <<< 4 ||| fg &&& 0x0F }

/-- The branches on the character. -/
def vgaChar (v : Console) (c : UInt8) : Console :=
  if c = 10 then { v with col := 0, row := v.row+1 }
  else if c = 13 then { v with col := 0 }
  else if c = 9 then { v with col := (v.col+8) &&& 0xF8 }
  else if c = 8 then
    if v.col > 0 then
      store { v with col := v.col-1 } (v.row.toNat*vgaWidth + (v.col-1).toNat) (vgaEntry 32 v.color)
    else v
  else
    let v := store v (v.row.toNat*vgaWidth + v.col.toNat) (vgaEntry c v.color)
    { v with col := v.col+1 }

/-- The right edge. -/
def vgaWrap (v : Console) : Console :=
  if v.col.toNat ≥ vgaWidth then { v with col := 0, row := v.row+1 } else v

/-- The bottom line. -/
def vgaFit (v : Console) : Console := if v.row.toNat ≥ vgaHeight then vgaScroll v else v

def vgaPutchar (v : Console) (c : UInt8) : Console := vgaUpdateCursor (vgaFit (vgaWrap (vgaChar v c)))

/-! ## The terminal -/

structure Terminal where
  cells : ℕ → ℕ → UInt8
  row : ℕ
  col : ℕ

def Terminal.blank : Terminal := ⟨fun _ _ => 32, 0, 0⟩

def Terminal.set (t : Terminal) (row col : ℕ) (c : UInt8) : Terminal :=
  { t with cells := fun r i => if r = row ∧ i = col then c else t.cells r i }

/-- A character before the right edge is looked at. -/
def Terminal.char (t : Terminal) (c : UInt8) : Terminal :=
  if c = 10 then { t with row := t.row+1, col := 0 }
  else if c = 13 then { t with col := 0 }
  else if c = 9 then { t with col := (t.col+8)/8*8 }
  else if c = 8 then
    if 0 < t.col then { t.set t.row (t.col-1) 32 with col := t.col-1 } else t
  else { t.set t.row t.col c with col := t.col+1 }

def Terminal.put (t : Terminal) (c : UInt8) : Terminal :=
  if vgaWidth ≤ (t.char c).col then { t.char c with row := (t.char c).row+1, col := 0 } else t.char c

/-! ## Runs -/

inductive Event where
  | clear
  | putchar (c : UInt8)
  | setColor (fg bg : UInt8)
  deriving DecidableEq, Repr

def step (v : Console) : Event → Console
  | .clear => vgaClear v
  | .putchar c => vgaPutchar v c
  | .setColor fg bg => vgaSetColor v fg bg

/-- From the initialisation on. -/
def execute (buffer : ℕ → UInt16) (events : List Event) : Console :=
  events.foldl step (vgaInit (Console.zero buffer))

def shown (t : Terminal) : Event → Terminal
  | .clear => Terminal.blank
  | .putchar c => t.put c
  | .setColor _ _ => t

def terminal (events : List Event) : Terminal := events.foldl shown Terminal.blank

/-- The characters on the screen are those of the rows of the terminal from `top` on. -/
structure Window (v : Console) (t : Terminal) (top : ℕ) : Prop where
  stored : ∀ i ∈ v.stored, i < vgaWidth*vgaHeight
  row : v.row.toNat + top = t.row
  col : v.col.toNat = t.col
  cells : ∀ r < vgaHeight, ∀ i < vgaWidth, (v.buffer (r*vgaWidth+i)).toUInt8 = t.cells (top+r) i
  below : ∀ r, top + vgaHeight ≤ r → ∀ i, t.cells r i = 32

/-! ## Cells -/

section Cells

variable {v : Console} {t : Terminal} {top i n : ℕ}

theorem entry_low (c color : UInt8) : (vgaEntry c color).toUInt8 = c := by
  have hcolor : (color.toUInt16 <<< 8).toUInt8 = 0 := by
    apply UInt8.toNat_inj.mp
    rw [UInt16.toNat_toUInt8, UInt16.toNat_shiftLeft, Nat.shiftLeft_eq]
    change color.toUInt16.toNat * 256 % 65536 % 256 = 0
    omega
  have hsigned : (if c < 128 then c.toUInt16 else c.toUInt16 ||| 0xFF00).toUInt8 = c := by
    split
    · exact UInt8.toUInt8_toUInt16 c
    · rw [UInt16.toUInt8_or, UInt8.toUInt8_toUInt16]
      exact UInt8.or_zero
  rw [vgaEntry, UInt16.toUInt8_or, hsigned, hcolor, UInt8.or_zero]

/-- Values that depend on the cell alone in `n` cells from cell `i` on. -/
def fillCells (f : ℕ → UInt16) (v : Console) (i : ℕ) : ℕ → Console
  | 0 => v
  | n+1 => fillCells f (store v i (f i)) (i+1) n

theorem fillCells_spec {f : ℕ → UInt16} : ∃ l : List ℕ, (∀ k ∈ l, k < i+n) ∧ fillCells f v i n =
    { v with
      buffer := fun j => if i ≤ j ∧ j < i+n then f j else v.buffer j
      stored := l ++ v.stored } := by
  induction n generalizing v i with
  | zero =>
    refine ⟨[], by simp, ?_⟩
    have hnone : ∀ j, ¬ (i ≤ j ∧ j < i+0) := by omega
    simp only [hnone, if_false]
    rfl
  | succ n ih =>
    obtain ⟨l, hl, hfill⟩ := @ih (store v i (f i)) (i+1)
    refine ⟨l++[i], ?_, ?_⟩
    · intro k hk
      rcases List.mem_append.mp hk with hk | hk
      · have hlt := hl k hk
        omega
      · rw [List.mem_singleton.mp hk]
        omega
    · rw [fillCells, hfill]
      simp only [store, List.append_assoc, List.singleton_append]
      congr 1
      funext j
      by_cases hj : j = i
      · subst hj
        rw [if_neg (by omega), if_pos (by omega), Function.update_self]
      · rw [Function.update_of_ne hj]
        by_cases hin : i+1 ≤ j ∧ j < i+1+n
        · rw [if_pos hin, if_pos (by omega)]
        · rw [if_neg hin, if_neg (by omega)]

/-- The cells are read before anything is stored in them. -/
theorem moveCells_fill {f : ℕ → UInt16} (h : ∀ j, i ≤ j → f j = v.buffer (j+vgaWidth)) :
    moveCells v i n = fillCells f v i n := by
  induction n generalizing v i with
  | zero => rfl
  | succ n ih =>
    have hw : vgaWidth = 80 := rfl
    rw [moveCells, fillCells, ← h i le_rfl]
    apply ih
    intro j hj
    rw [h j (by omega)]
    exact (Function.update_of_ne (show j+vgaWidth ≠ i by omega) _ _).symm

theorem blankCells_fill : blankCells v i n = fillCells (fun _ => vgaEntry 32 v.color) v i n := by
  induction n generalizing v i with
  | zero => rfl
  | succ n ih => exact ih

/-- Each cell gets what was a row further down. -/
theorem moveCells_spec : ∃ l : List ℕ, (∀ k ∈ l, k < i+n) ∧ moveCells v i n =
    { v with
      buffer := fun j => if i ≤ j ∧ j < i+n then v.buffer (j+vgaWidth) else v.buffer j
      stored := l ++ v.stored } := by
  rw [moveCells_fill (fun _ _ => rfl : ∀ j, i ≤ j → (fun k => v.buffer (k+vgaWidth)) j = v.buffer (j+vgaWidth))]
  exact fillCells_spec

theorem blankCells_spec : ∃ l : List ℕ, (∀ k ∈ l, k < i+n) ∧ blankCells v i n =
    { v with
      buffer := fun j => if i ≤ j ∧ j < i+n then vgaEntry 32 v.color else v.buffer j
      stored := l ++ v.stored } := by
  rw [blankCells_fill]
  exact fillCells_spec

/-- A character goes to the same place on both sides. -/
theorem store_window (h : Window v t top) {r i : ℕ} (hr : r < vgaHeight) (hi : i < vgaWidth) (x : UInt16) :
    Window (store v (r*vgaWidth+i) x) (t.set (top+r) i x.toUInt8) top where
  stored := by
    intro k hk
    rcases List.mem_cons.mp hk with rfl | hk
    · unfold vgaHeight vgaWidth at *
      omega
    · exact h.stored k hk
  row := h.row
  col := h.col
  cells r' hr' i' hi' := by
    change (Function.update v.buffer (r*vgaWidth+i) x (r'*vgaWidth+i')).toUInt8 =
      if top+r' = top+r ∧ i' = i then x.toUInt8 else t.cells (top+r') i'
    by_cases hsame : r' = r ∧ i' = i
    · obtain ⟨rfl, rfl⟩ := hsame
      rw [Function.update_self, if_pos ⟨rfl, rfl⟩]
    · have hne : r'*vgaWidth+i' ≠ r*vgaWidth+i := by
        unfold vgaWidth at *
        omega
      rw [Function.update_of_ne hne, if_neg (by omega)]
      exact h.cells r' hr' i' hi'
  below r' hr' i' := by
    change (if r' = top+r ∧ i' = i then x.toUInt8 else t.cells r' i') = 32
    rw [if_neg (by omega)]
    exact h.below r' hr' i'

end Cells

/-! ## One character -/

section Steps

variable {v : Console} {t : Terminal} {top : ℕ} {c : UInt8}

theorem next_row (h : v.row.toNat < vgaHeight) : (v.row+1).toNat = v.row.toNat+1 := by
  rw [UInt8.toNat_add]
  unfold vgaHeight at h
  change (v.row.toNat+1) % 256 = _
  omega

theorem next_tab (h : v.col.toNat < vgaWidth) : ((v.col+8) &&& 0xF8).toNat = (v.col.toNat+8)/8*8 := by
  have hall : ∀ n < 80, ((UInt8.ofNat n + 8) &&& 0xF8).toNat = (n+8)/8*8 := by decide
  have hcol := hall v.col.toNat h
  rw [UInt8.ofNat_toNat] at hcol
  exact hcol

/-- The window may have moved below the last row or behind the last column, but not both. -/
structure Pending (v : Console) (t : Terminal) (top : ℕ) : Prop where
  window : Window v t top
  edge : v.row.toNat < vgaHeight ∧ v.col.toNat ≤ vgaWidth ∨ v.row.toNat ≤ vgaHeight ∧ v.col.toNat = 0

theorem char_pending (h : Window v t top) (hrow : v.row.toNat < vgaHeight) (hcol : v.col.toNat < vgaWidth) :
    Pending (vgaChar v c) (t.char c) top := by
  have hr := h.row
  have hc := h.col
  unfold vgaChar Terminal.char
  by_cases hnl : c = 10
  · rw [if_pos hnl, if_pos hnl]
    refine ⟨⟨h.stored, ?_, rfl, h.cells, h.below⟩, Or.inr ⟨?_, rfl⟩⟩
    · change (v.row+1).toNat + top = t.row+1
      rw [next_row hrow]
      omega
    · change (v.row+1).toNat ≤ vgaHeight
      rw [next_row hrow]
      exact hrow
  rw [if_neg hnl, if_neg hnl]
  by_cases hcr : c = 13
  · rw [if_pos hcr, if_pos hcr]
    exact ⟨⟨h.stored, hr, rfl, h.cells, h.below⟩, Or.inr ⟨hrow.le, rfl⟩⟩
  rw [if_neg hcr, if_neg hcr]
  by_cases htab : c = 9
  · rw [if_pos htab, if_pos htab]
    refine ⟨⟨h.stored, hr, ?_, h.cells, h.below⟩, Or.inl ⟨hrow, ?_⟩⟩
    · change ((v.col+8) &&& 0xF8).toNat = (t.col+8)/8*8
      rw [next_tab hcol, hc]
    · change ((v.col+8) &&& 0xF8).toNat ≤ vgaWidth
      rw [next_tab hcol]
      unfold vgaWidth at *
      omega
  rw [if_neg htab, if_neg htab]
  have htop : t.row = top + v.row.toNat := by omega
  by_cases hbs : c = 8
  · rw [if_pos hbs, if_pos hbs]
    by_cases hpos : v.col > 0
    · have hpos' : 0 < v.col.toNat := UInt8.lt_iff_toNat_lt.mp hpos
      have hprev : (v.col-1).toNat = v.col.toNat-1 := by
        rw [UInt8.toNat_sub_of_le _ _ (by rw [UInt8.le_iff_toNat_le]; exact hpos')]
        rfl
      have hstore := store_window h hrow (show v.col.toNat-1 < vgaWidth by omega) (vgaEntry 32 v.color)
      rw [entry_low] at hstore
      rw [if_pos hpos, if_pos (by omega), hprev, htop, ← hc]
      exact ⟨⟨hstore.stored, hstore.row, hprev, hstore.cells, hstore.below⟩, Or.inl ⟨hrow, by
        change (v.col-1).toNat ≤ vgaWidth
        omega⟩⟩
    · have hzero : ¬ 0 < v.col.toNat := fun hlt => hpos (UInt8.lt_iff_toNat_lt.mpr hlt)
      rw [if_neg hpos, if_neg (by omega)]
      exact ⟨h, Or.inl ⟨hrow, hcol.le⟩⟩
  · rw [if_neg hbs, if_neg hbs]
    have hnext : (v.col+1).toNat = v.col.toNat+1 := by
      rw [UInt8.toNat_add]
      unfold vgaWidth at hcol
      change (v.col.toNat+1) % 256 = _
      omega
    have hstore := store_window h hrow hcol (vgaEntry c v.color)
    rw [entry_low] at hstore
    rw [htop, ← hc]
    exact ⟨⟨hstore.stored, hstore.row, hnext, hstore.cells, hstore.below⟩, Or.inl ⟨hrow, by
      change (v.col+1).toNat ≤ vgaWidth
      omega⟩⟩

theorem wrap_window (h : Pending v t top) :
    Window (vgaWrap v) (if vgaWidth ≤ t.col then { t with row := t.row+1, col := 0 } else t) top ∧
      (vgaWrap v).row.toNat ≤ vgaHeight ∧ (vgaWrap v).col.toNat < vgaWidth := by
  have hr := h.window.row
  have hc := h.window.col
  unfold vgaWrap
  rw [← hc]
  by_cases hwide : v.col.toNat ≥ vgaWidth
  · rw [if_pos hwide, if_pos (show vgaWidth ≤ v.col.toNat from hwide)]
    have hrow : v.row.toNat < vgaHeight := by
      rcases h.edge with ⟨hrow, -⟩ | ⟨-, hzero⟩
      · exact hrow
      · unfold vgaWidth at hwide
        omega
    refine ⟨⟨h.window.stored, ?_, rfl, h.window.cells, h.window.below⟩, ?_, Nat.succ_pos 79⟩
    · change (v.row+1).toNat + top = t.row+1
      rw [next_row hrow]
      omega
    · change (v.row+1).toNat ≤ vgaHeight
      rw [next_row hrow]
      exact hrow
  · rw [if_neg hwide, if_neg (show ¬ vgaWidth ≤ v.col.toNat from hwide)]
    refine ⟨h.window, ?_, Nat.lt_of_not_le hwide⟩
    rcases h.edge with ⟨hrow, -⟩ | ⟨hrow, -⟩
    · exact hrow.le
    · exact hrow

/-- A scroll moves the window down by a row. -/
theorem scroll_window (h : Window v t top) (hrow : v.row.toNat = vgaHeight) :
    Window (vgaScroll v) t (top+1) ∧ (vgaScroll v).row.toNat < vgaHeight ∧ (vgaScroll v).col = v.col ∧
      (vgaScroll v).scrolls = v.scrolls+1 := by
  have hr := h.row
  obtain ⟨l, hl, hmove⟩ := @moveCells_spec v 0 (vgaWidth*(vgaHeight-1))
  obtain ⟨l', hl', hblank⟩ := @blankCells_spec (moveCells v 0 (vgaWidth*(vgaHeight-1))) ((vgaHeight-1)*vgaWidth) vgaWidth
  unfold vgaScroll
  dsimp only
  rw [hblank, hmove]
  refine ⟨⟨?_, ?_, h.col, ?_, ?_⟩, by decide, rfl, rfl⟩
  · intro k hk
    unfold vgaHeight vgaWidth at *
    rcases List.mem_append.mp hk with hk | hk
    · have hlt := hl' k hk
      omega
    · rcases List.mem_append.mp hk with hk | hk
      · have hlt := hl k hk
        omega
      · exact h.stored k hk
  · change 24 + (top+1) = t.row
    unfold vgaHeight at hrow
    omega
  · intro r hr' i hi
    dsimp only
    by_cases hlast : r = vgaHeight-1
    · rw [if_pos ⟨by rw [hlast]; omega, by rw [hlast]; omega⟩, entry_low, h.below _ (by rw [hlast]; unfold vgaHeight; omega)]
    · have hnext := h.cells (r+1) (by omega) i hi
      unfold vgaHeight vgaWidth at *
      rw [if_neg (by omega), if_pos (by omega), show r*80+i+80 = (r+1)*80+i by omega, hnext,
        show top+1+r = top+(r+1) by omega]
  · intro r hr' i
    exact h.below r (by omega) i

/-- The screen is the window that has scrolled as often as the console, the cursors are in the same place, and the
hardware shows it. -/
structure Correct (v : Console) (t : Terminal) : Prop where
  window : Window v t v.scrolls
  row : v.row.toNat < vgaHeight
  col : v.col.toNat < vgaWidth
  cursor : v.cursorLow.toNat + 256*v.cursorHigh.toNat = v.row.toNat*vgaWidth + v.col.toNat

theorem update_correct (h : Window v t v.scrolls) (hrow : v.row.toNat < vgaHeight) (hcol : v.col.toNat < vgaWidth) :
    Correct (vgaUpdateCursor v) t := by
  refine ⟨⟨h.stored, h.row, h.col, h.cells, h.below⟩, hrow, hcol, ?_⟩
  change (UInt8.ofNat ((v.row.toNat*vgaWidth + v.col.toNat) % 256)).toNat +
    256*(UInt8.ofNat ((v.row.toNat*vgaWidth + v.col.toNat)/256 % 256)).toNat = v.row.toNat*vgaWidth + v.col.toNat
  rw [UInt8.toNat_ofNat', UInt8.toNat_ofNat']
  unfold vgaHeight vgaWidth at *
  omega

theorem char_scrolls : (vgaWrap (vgaChar v c)).scrolls = v.scrolls := by
  unfold vgaWrap vgaChar store
  split_ifs <;> rfl

theorem putchar_correct (h : Correct v t) : Correct (vgaPutchar v c) (t.put c) := by
  obtain ⟨hwindow, hrow, hcol⟩ := wrap_window (@char_pending v t v.scrolls c h.window h.row h.col)
  change Window _ (t.put c) _ at hwindow
  unfold vgaPutchar vgaFit
  by_cases hlast : (vgaWrap (vgaChar v c)).row.toNat ≥ vgaHeight
  · obtain ⟨hscroll, hrow', hcol', hcount⟩ := scroll_window hwindow (Nat.le_antisymm hrow hlast)
    rw [char_scrolls] at hcount
    rw [← hcount] at hscroll
    rw [← hcol'] at hcol
    rw [if_pos hlast]
    exact update_correct hscroll hrow' hcol
  · rw [if_neg hlast]
    exact update_correct (char_scrolls.symm ▸ hwindow) (Nat.lt_of_not_le hlast) hcol

theorem clear_correct (h : ∀ i ∈ v.stored, i < vgaWidth*vgaHeight) : Correct (vgaClear v) Terminal.blank := by
  obtain ⟨l, hl, hblank⟩ := @blankCells_spec v 0 (vgaWidth*vgaHeight)
  unfold vgaClear
  rw [hblank]
  apply update_correct
  · refine ⟨?_, rfl, rfl, ?_, fun _ _ _ => rfl⟩
    · intro k hk
      rcases List.mem_append.mp hk with hk | hk
      · have hlt := hl k hk
        omega
      · exact h k hk
    · intro r hr i hi
      dsimp only
      rw [if_pos (by unfold vgaHeight vgaWidth at *; omega), entry_low]
      rfl
  · exact (by decide : (0 : UInt8).toNat < vgaHeight)
  · exact (by decide : (0 : UInt8).toNat < vgaWidth)

theorem step_correct (h : Correct v t) (e : Event) : Correct (step v e) (shown t e) := by
  cases e with
  | clear => exact clear_correct h.window.stored
  | putchar c => exact putchar_correct h
  | setColor fg bg => exact ⟨⟨h.window.stored, h.window.row, h.window.col, h.window.cells, h.window.below⟩, h.row, h.col,
      h.cursor⟩

/-- After any calls the console is a window on the terminal. -/
theorem console_window (buffer : ℕ → UInt16) (events : List Event) :
    Correct (execute buffer events) (terminal events) := by
  have hrun : ∀ v t, Correct v t → Correct (events.foldl step v) (events.foldl shown t) := by
    induction events with
    | nil => exact fun _ _ h => h
    | cons e events ih => exact fun v t h => ih _ _ (step_correct h e)
  exact hrun _ _ (clear_correct (fun i hi => by cases hi))

end Steps

end Dionnex.VgaConsole
