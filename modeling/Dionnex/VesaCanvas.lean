import Dionnex.PaintedCells
import Dionnex.VesaLines
import Dionnex.VesaCircles

/-!
# Drawing on the canvas

Every drawing call comes down to `vesa_putpixel`, which drops what lies
outside the canvas and stores a colour of 32 or of 24 bits. Coordinates are
unsigned, so a shape that sticks out on the left or at the top comes with
coordinates near 2^32. Whatever the calls are, the frame buffer stores the
picture that they paint, and no other byte of memory is written.
-/

set_option autoImplicit false

namespace Dionnex.VesaCanvas
open ByteMemory PaintedCells WhileLoops

/-- The driver's variables, and the bytes that follow the font in the kernel's image. -/
structure Vesa where
  width : ℕ
  height : ℕ
  bpp : ℕ
  pitch : ℕ
  framebuffer : ℕ
  enabled : Bool
  pastFont : ℕ → ℕ

/-- The entries of `font8x8_basic` that are given; all others are zero. -/
def fontEntries : List (Char × List ℕ) :=
  [('A', [0x18, 0x3C, 0x66, 0x76, 0x7E, 0x66, 0x66, 0x00]), ('B', [0x7C, 0x66, 0x66, 0x7C, 0x66, 0x66, 0x7C, 0x00]),
    ('C', [0x3C, 0x66, 0x06, 0x06, 0x06, 0x66, 0x3C, 0x00]), ('D', [0x78, 0x6C, 0x66, 0x66, 0x66, 0x6C, 0x78, 0x00]),
    ('E', [0x7E, 0x06, 0x06, 0x3E, 0x06, 0x06, 0x7E, 0x00]), ('F', [0x7E, 0x06, 0x06, 0x3E, 0x06, 0x06, 0x06, 0x00]),
    ('G', [0x3C, 0x66, 0x06, 0x76, 0x66, 0x66, 0x3C, 0x00]), ('H', [0x66, 0x66, 0x66, 0x7E, 0x66, 0x66, 0x66, 0x00]),
    ('I', [0x3E, 0x18, 0x18, 0x18, 0x18, 0x18, 0x3E, 0x00]), ('J', [0x1C, 0x0C, 0x0C, 0x0C, 0x0C, 0x6C, 0x38, 0x00]),
    ('K', [0x66, 0x6C, 0x78, 0x30, 0x78, 0x6C, 0x66, 0x00]), ('L', [0x06, 0x06, 0x06, 0x06, 0x06, 0x06, 0x7E, 0x00]),
    ('M', [0x63, 0x77, 0x7F, 0x6B, 0x63, 0x63, 0x63, 0x00]), ('N', [0x66, 0x76, 0x7E, 0x7E, 0x6E, 0x66, 0x66, 0x00]),
    ('O', [0x3C, 0x66, 0x66, 0x66, 0x66, 0x66, 0x3C, 0x00]), ('P', [0x7C, 0x66, 0x66, 0x7C, 0x06, 0x06, 0x06, 0x00]),
    ('Q', [0x3C, 0x66, 0x66, 0x66, 0x66, 0x3C, 0x50, 0x00]), ('R', [0x7C, 0x66, 0x66, 0x7C, 0x6C, 0x66, 0x66, 0x00]),
    ('S', [0x3C, 0x66, 0x06, 0x3C, 0x60, 0x66, 0x3C, 0x00]), ('T', [0x7E, 0x18, 0x18, 0x18, 0x18, 0x18, 0x18, 0x00]),
    ('U', [0x66, 0x66, 0x66, 0x66, 0x66, 0x66, 0x3C, 0x00]), ('V', [0x66, 0x66, 0x66, 0x66, 0x66, 0x3C, 0x18, 0x00]),
    ('W', [0x63, 0x63, 0x63, 0x6B, 0x7F, 0x77, 0x63, 0x00]), ('X', [0x66, 0x66, 0x3C, 0x18, 0x3C, 0x66, 0x66, 0x00]),
    ('Y', [0x66, 0x66, 0x66, 0x3C, 0x18, 0x18, 0x18, 0x00]), ('Z', [0x7E, 0x60, 0x30, 0x18, 0x0C, 0x06, 0x7E, 0x00]),
    ('0', [0x3C, 0x66, 0x6E, 0x76, 0x66, 0x66, 0x3C, 0x00]), ('1', [0x18, 0x18, 0x38, 0x18, 0x18, 0x18, 0x7E, 0x00]),
    ('2', [0x3C, 0x66, 0x60, 0x3C, 0x06, 0x06, 0x7E, 0x00]), ('3', [0x3C, 0x66, 0x60, 0x3C, 0x60, 0x66, 0x3C, 0x00]),
    ('4', [0x60, 0x66, 0x66, 0x7E, 0x60, 0x60, 0x60, 0x00]), ('5', [0x7E, 0x06, 0x3C, 0x60, 0x60, 0x66, 0x3C, 0x00]),
    ('6', [0x3C, 0x66, 0x06, 0x3C, 0x66, 0x66, 0x3C, 0x00]), ('7', [0x7E, 0x60, 0x30, 0x18, 0x0C, 0x0C, 0x0C, 0x00]),
    ('8', [0x3C, 0x66, 0x66, 0x3C, 0x66, 0x66, 0x3C, 0x00]), ('9', [0x3C, 0x66, 0x66, 0x7C, 0x60, 0x66, 0x3C, 0x00]),
    (':', [0x00, 0x18, 0x18, 0x00, 0x18, 0x18, 0x00, 0x00]), ('-', [0x00, 0x00, 0x00, 0x7E, 0x00, 0x00, 0x00, 0x00]),
    ('!', [0x18, 0x18, 0x18, 0x18, 0x18, 0x00, 0x18, 0x00]), (' ', [0x00, 0x00, 0x00, 0x00, 0x00, 0x00, 0x00, 0x00])]

/-- Row `i` of `font8x8_basic[uc]`; from 128 on the index leads out of the table. -/
def fontRow (v : Vesa) (uc i : ℕ) : ℕ :=
  if uc < 128 then ((fontEntries.find? (fun e => e.1.toNat = uc)).map (fun e => e.2.getD i 0)).getD 0
  else v.pastFont (8*(uc-128) + i)

def vesaPutpixel (v : Vesa) (m : Mem) (x y color : ℕ) : Mem :=
  if v.enabled = false ∨ v.framebuffer = 0 then m
  else if x ≥ v.width ∨ y ≥ v.height then m
  else if v.bpp = 32 then store32 m (v.framebuffer + wrap (y*v.pitch) + 4*x) color
  else if v.bpp = 24 then
    let fb := v.framebuffer + wrap (y*v.pitch) + wrap (x*3)
    store8 (store8 (store8 m fb (color % 256)) (fb+1) (color / 256 % 256)) (fb+2) (color / 65536 % 256)
  else m

def vesaGetpixel (v : Vesa) (m : Mem) (x y : ℕ) : ℕ :=
  if v.enabled = false ∨ v.framebuffer = 0 then 0
  else if x ≥ v.width ∨ y ≥ v.height then 0
  else if v.bpp = 32 then load32 m (v.framebuffer + wrap (y*v.pitch) + 4*x)
  else 0

def vesaClear (v : Vesa) (m : Mem) (color : ℕ) : Mem :=
  if v.enabled = false then m
  else (List.range v.height).foldl (fun m y =>
    (List.range v.width).foldl (fun m x => vesaPutpixel v m x y color) m) m

def vesaFillRect (v : Vesa) (m : Mem) (x y w h color : ℕ) : Mem :=
  (List.range h).foldl (fun m i =>
    (List.range w).foldl (fun m j => vesaPutpixel v m (wrap (x+j)) (wrap (y+i)) color) m) m

def vesaDrawRect (v : Vesa) (m : Mem) (x y w h color : ℕ) : Mem :=
  let m := (List.range w).foldl (fun m i =>
    vesaPutpixel v (vesaPutpixel v m (wrap (x+i)) y color) (wrap (x+i)) (sub32 (y+h) 1) color) m
  (List.range h).foldl (fun m i =>
    vesaPutpixel v (vesaPutpixel v m x (wrap (y+i)) color) (sub32 (x+w) 1) (wrap (y+i)) color) m

/-- An `int` passed as a `uint32_t`. -/
def toU32 (c : ℤ) : ℕ := (c % 4294967296).toNat

/-- The loop's own variables do not depend on the memory, so the points come first. -/
def plotPoints (v : Vesa) (m : Mem) (color : ℕ) (ps : List (ℤ × ℤ)) : Mem :=
  ps.foldl (fun m p => vesaPutpixel v m (toU32 p.1) (toU32 p.2) color) m

/-- `none` when the rounds do not suffice or an `int` overflows; a circle of up to 2^28 does not overflow. -/
def vesaDrawLine (rounds : ℕ) (v : Vesa) (m : Mem) (x1 y1 x2 y2 : ℤ) (color : ℕ) : Option Mem :=
  (VesaLines.vesaDrawLine rounds x1 y1 x2 y2).join.map (plotPoints v m color)

def vesaDrawCircle (rounds : ℕ) (v : Vesa) (m : Mem) (xc yc r : ℤ) (color : ℕ) : Option Mem :=
  if |xc| ≤ 268435456 ∧ |yc| ≤ 268435456 ∧ |r| ≤ 268435456 then
    (VesaCircles.vesaDrawCircle rounds xc yc r).map (plotPoints v m color)
  else none

def vesaDrawChar (v : Vesa) (m : Mem) (x y c fg bg : ℕ) : Mem :=
  (List.range 8).foldl (fun m i =>
    let row := fontRow v c i
    (List.range 8).foldl (fun m j =>
      if row &&& (1 <<< (7-j)) ≠ 0 then vesaPutpixel v m (wrap (x+j)) (wrap (y+i)) fg
      else if bg ≠ 0xFFFFFFFF then vesaPutpixel v m (wrap (x+j)) (wrap (y+i)) bg
      else m) m) m

/-- The variables of the loop of `vesa_draw_string`. -/
structure Cursor where
  mem : Mem
  curX : ℕ
  str : ℕ

def stringRound (v : Vesa) (y fg bg : ℕ) (s : Cursor) : Round Cursor Mem :=
  if load8 s.mem s.str = 0 then .done s.mem
  else .next ⟨vesaDrawChar v s.mem s.curX y (load8 s.mem s.str) fg bg, wrap (s.curX+8), s.str+1⟩

def vesaDrawString (rounds : ℕ) (v : Vesa) (m : Mem) (x y str fg bg : ℕ) : Option Mem :=
  if str = 0 then some m else run (stringRound v y fg bg) rounds ⟨m, x, str⟩

/-! ## Strokes -/

/-- A call of `vesa_putpixel`. -/
abbrev Stroke := (ℕ × ℕ) × ℕ

def plot (v : Vesa) (m : Mem) (s : Stroke) : Mem := vesaPutpixel v m s.1.1 s.1.2 s.2

def plots (v : Vesa) (m : Mem) (l : List Stroke) : Mem := l.foldl (plot v) m

theorem plots_append (v : Vesa) (m : Mem) (l r : List Stroke) : plots v m (l++r) = plots v (plots v m l) r :=
  List.foldl_append

/-- A loop of calls makes the strokes of its rounds in order. -/
theorem plots_loop (v : Vesa) (step : Mem → ℕ → Mem) (strokes : ℕ → List Stroke)
    (h : ∀ m i, step m i = plots v m (strokes i)) (m : Mem) (is : List ℕ) :
    is.foldl step m = plots v m (is.flatMap strokes) := by
  induction is generalizing m with
  | nil => rfl
  | cons i is ih => rw [List.foldl_cons, List.flatMap_cons, plots_append, h, ih]

def gridStrokes (x y w h color : ℕ) : List Stroke :=
  (List.range h).flatMap (fun i => (List.range w).flatMap (fun j => [((wrap (x+j), wrap (y+i)), color)]))

theorem fill_strokes (v : Vesa) (m : Mem) (x y w h color : ℕ) :
    vesaFillRect v m x y w h color = plots v m (gridStrokes x y w h color) := by
  refine plots_loop v _ _ (fun m i => ?_) m _
  exact plots_loop v _ (fun j => [((wrap (x+j), wrap (y+i)), color)]) (fun _ _ => rfl) m _

/-- The two calls in a round of the first loop of `vesa_draw_rect`. -/
def rowStrokes (x y h color i : ℕ) : List Stroke :=
  [((wrap (x+i), y), color), ((wrap (x+i), sub32 (y+h) 1), color)]

def columnStrokes (x y w color i : ℕ) : List Stroke :=
  [((x, wrap (y+i)), color), ((sub32 (x+w) 1, wrap (y+i)), color)]

def outlineStrokes (x y w h color : ℕ) : List Stroke :=
  (List.range w).flatMap (rowStrokes x y h color) ++ (List.range h).flatMap (columnStrokes x y w color)

theorem rect_strokes (v : Vesa) (m : Mem) (x y w h color : ℕ) :
    vesaDrawRect v m x y w h color = plots v m (outlineStrokes x y w h color) := by
  have hrows := plots_loop v _ (rowStrokes x y h color) (fun _ _ => rfl) m (List.range w)
  have hcolumns := plots_loop v _ (columnStrokes x y w color) (fun _ _ => rfl)
    (plots v m ((List.range w).flatMap (rowStrokes x y h color))) (List.range h)
  unfold outlineStrokes
  rw [plots_append, ← hcolumns, ← hrows]
  rfl

def clearStrokes (v : Vesa) (color : ℕ) : List Stroke :=
  if v.enabled = false then []
  else (List.range v.height).flatMap (fun y => (List.range v.width).flatMap (fun x => [((x, y), color)]))

theorem clear_strokes (v : Vesa) (m : Mem) (color : ℕ) :
    vesaClear v m color = plots v m (clearStrokes v color) := by
  unfold vesaClear clearStrokes
  by_cases h : v.enabled = false
  · rw [if_pos h, if_pos h]
    rfl
  · rw [if_neg h, if_neg h]
    refine plots_loop v _ _ (fun m y => ?_) m _
    exact plots_loop v _ (fun x => [((x, y), color)]) (fun _ _ => rfl) m _

def pointStrokes (color : ℕ) (ps : List (ℤ × ℤ)) : List Stroke := ps.map (fun p => ((toU32 p.1, toU32 p.2), color))

theorem points_strokes (v : Vesa) (m : Mem) (color : ℕ) (ps : List (ℤ × ℤ)) :
    plotPoints v m color ps = plots v m (pointStrokes color ps) := by
  unfold plotPoints plots pointStrokes
  rw [List.foldl_map]
  rfl

/-- What a character paints at column `j` of row `i`. -/
def cellStrokes (v : Vesa) (x y c fg bg i j : ℕ) : List Stroke :=
  if fontRow v c i &&& (1 <<< (7-j)) ≠ 0 then [((wrap (x+j), wrap (y+i)), fg)]
  else if bg ≠ 0xFFFFFFFF then [((wrap (x+j), wrap (y+i)), bg)]
  else []

def charStrokes (v : Vesa) (x y c fg bg : ℕ) : List Stroke :=
  (List.range 8).flatMap (fun i => (List.range 8).flatMap (cellStrokes v x y c fg bg i))

theorem char_strokes (v : Vesa) (m : Mem) (x y c fg bg : ℕ) :
    vesaDrawChar v m x y c fg bg = plots v m (charStrokes v x y c fg bg) := by
  refine plots_loop v _ _ (fun m i => ?_) m _
  refine plots_loop v _ _ (fun m j => ?_) m _
  unfold cellStrokes
  split
  · rfl
  · split
    · rfl
    · rfl

/-- Each character starts eight columns after the one before. -/
def textStrokes (v : Vesa) (y fg bg : ℕ) : ℕ → List ℕ → List Stroke
  | _, [] => []
  | x, c::cs => charStrokes v x y c fg bg ++ textStrokes v y fg bg (wrap (x+8)) cs

/-! ## The frame buffer -/

/-- The mode is one in which the driver draws, with all rows below 2^32 and every row wide enough for its pixels. -/
structure Fits (v : Vesa) : Prop where
  enabled : v.enabled = true
  nonnull : v.framebuffer ≠ 0
  depth : v.bpp = 32 ∨ v.bpp = 24
  below : v.framebuffer + v.pitch*v.height ≤ 4294967296
  rows : v.width*(v.bpp/8) ≤ v.pitch

section Buffer

variable {v : Vesa} {m m' : Mem}

def Shown (v : Vesa) (p : ℕ × ℕ) : Prop := p.1 < v.width ∧ p.2 < v.height

instance (v : Vesa) : DecidablePred (Shown v) := fun _ => inferInstanceAs (Decidable (_ ∧ _))

def pixelAddr (v : Vesa) (p : ℕ × ℕ) : ℕ := v.framebuffer + v.pitch*p.2 + v.bpp/8*p.1

/-- The bytes of a pixel lie in its row. -/
theorem pixel_row (h : Fits v) {p : ℕ × ℕ} (hp : Shown v p) :
    v.bpp/8*p.1 + v.bpp/8 ≤ v.pitch ∧ v.pitch*p.2 + v.pitch ≤ v.pitch*v.height := by
  constructor
  · calc v.bpp/8*p.1 + v.bpp/8 = v.bpp/8*(p.1+1) := by ring
      _ ≤ v.bpp/8*v.width := Nat.mul_le_mul_left _ hp.1
      _ = v.width*(v.bpp/8) := Nat.mul_comm _ _
      _ ≤ v.pitch := h.rows
  · calc v.pitch*p.2 + v.pitch = v.pitch*(p.2+1) := by ring
      _ ≤ v.pitch*v.height := Nat.mul_le_mul_left _ hp.2

theorem pixel_span (h : Fits v) {p : ℕ × ℕ} (hp : Shown v p) :
    span (pixelAddr v p) (v.bpp/8) = Set.Ico (pixelAddr v p) (pixelAddr v p + v.bpp/8) := by
  have hrow := pixel_row h hp
  have hbelow := h.below
  refine span_eq ?_
  unfold pixelAddr
  omega

theorem pixels_apart (h : Fits v) {p q : ℕ × ℕ} (hp : Shown v p) (hq : Shown v q) (hne : p ≠ q) :
    Disjoint (span (pixelAddr v p) (v.bpp/8)) (span (pixelAddr v q) (v.bpp/8)) := by
  rw [pixel_span h hp, pixel_span h hq, Set.disjoint_left]
  rintro x ⟨hp1, hp2⟩ ⟨hq1, hq2⟩
  have hrowp := (pixel_row h hp).1
  have hrowq := (pixel_row h hq).1
  unfold pixelAddr at hp1 hp2 hq1 hq2
  apply hne
  have hy : p.2 = q.2 := by
    rcases Nat.lt_trichotomy p.2 q.2 with hlt | heq | hlt
    · have hmul : v.pitch*(p.2+1) ≤ v.pitch*q.2 := Nat.mul_le_mul_left _ hlt
      rw [Nat.mul_add, Nat.mul_one] at hmul
      omega
    · exact heq
    · have hmul : v.pitch*(q.2+1) ≤ v.pitch*p.2 := Nat.mul_le_mul_left _ hlt
      rw [Nat.mul_add, Nat.mul_one] at hmul
      omega
  have hx : p.1 = q.1 := by
    rw [hy] at hp1 hp2
    rcases Nat.lt_trichotomy p.1 q.1 with hlt | heq | hlt
    · have hmul : v.bpp/8*(p.1+1) ≤ v.bpp/8*q.1 := Nat.mul_le_mul_left _ hlt
      rw [Nat.mul_add, Nat.mul_one] at hmul
      omega
    · exact heq
    · have hmul : v.bpp/8*(q.1+1) ≤ v.bpp/8*p.1 := Nat.mul_le_mul_left _ hlt
      rw [Nat.mul_add, Nat.mul_one] at hmul
      omega
  exact Prod.ext hx hy

theorem depth_le (h : Fits v) : v.bpp/8 ≤ 4294967296 := by
  rcases h.depth with hd | hd
  · rw [hd]
    decide
  · rw [hd]
    decide

def pixelCell (h : Fits v) : Cell ℕ ℕ := bytesCell (v.bpp/8) (depth_le h)

def layout (h : Fits v) : Layout (ℕ × ℕ) (pixelCell h).width := ⟨Shown v, pixelAddr v, pixels_apart h⟩

instance (h : Fits v) : DecidablePred (layout h).shown := inferInstanceAs (DecidablePred (Shown v))

/-- `vesa_putpixel` writes the cell of a pixel that is shown, and nothing otherwise. -/
theorem plot_put (h : Fits v) (s : Stroke) : plot v m s = put (pixelCell h) (layout h) m s := by
  have hen : ¬ (v.enabled = false ∨ v.framebuffer = 0) := by
    rintro (hd | hd)
    · rw [h.enabled] at hd
      cases hd
    · exact h.nonnull hd
  unfold plot vesaPutpixel put
  rw [if_neg hen]
  by_cases hs : Shown v s.1
  · have hrow := pixel_row h hs
    have hbelow := h.below
    have hnonnull := h.nonnull
    have hoff : wrap (s.1.2*v.pitch) = v.pitch*s.1.2 := by
      rw [Nat.mul_comm]
      exact wrap_of_lt (by omega)
    rw [if_neg (by unfold Shown at hs; omega), if_pos (show (layout h).shown s.1 from hs), hoff]
    show _ = storeBytes m (v.framebuffer + v.pitch*s.1.2 + v.bpp/8*s.1.1) s.2 (v.bpp/8)
    rcases h.depth with hd | hd
    · rw [if_pos hd, hd, storeBytes_four]
    · rw [hd] at hrow ⊢
      have hcol : wrap (s.1.1*3) = 3*s.1.1 := by
        rw [Nat.mul_comm]
        exact wrap_of_lt (by omega)
      rw [if_neg (by decide), if_pos rfl, hcol]
      have hcut : ∀ (m : Mem) (a c : ℕ), store8 m a (c % 256) = store8 m a c := by
        intro m a c
        unfold store8
        rw [show UInt8.ofNat (c % 256) = UInt8.ofNat c from by apply UInt8.toNat_inj.mp; simp]
      rw [hcut, hcut, hcut]
      simp only [storeBytes, Nat.div_div_eq_div_mul, Nat.reduceDiv, Nat.reduceMul]
  · rw [if_pos (by unfold Shown at hs; omega), if_neg (show ¬ (layout h).shown s.1 from hs)]

theorem plots_puts (h : Fits v) (l : List Stroke) : plots v m l = puts (pixelCell h) (layout h) m l := by
  induction l generalizing m with
  | nil => rfl
  | cons s l ih =>
    show plots v (plot v m s) l = puts (pixelCell h) (layout h) (put (pixelCell h) (layout h) m s) l
    rw [plot_put h, ih]

def bufferSpan (v : Vesa) : Set ℕ := span v.framebuffer (v.pitch*v.height)

theorem area_buffer (h : Fits v) : area (pixelCell h) (layout h) ⊆ bufferSpan v := by
  rintro x ⟨p, hp, hx⟩
  have hrow := pixel_row h hp
  have hx : x ∈ span (v.framebuffer + (v.pitch*p.2 + v.bpp/8*p.1)) (v.bpp/8) := by
    rw [← Nat.add_assoc]
    exact hx
  exact span_shift (by omega) hx

/-- The colour in the frame buffer at a place. -/
def stored (v : Vesa) (m : Mem) (p : ℕ × ℕ) : ℕ := loadBytes m (pixelAddr v p) (v.bpp/8)

/-- The part of a colour that the depth keeps. -/
def kept (v : Vesa) (c : ℕ) : ℕ := c % 256^(v.bpp/8)

def keptStrokes (v : Vesa) (l : List Stroke) : List Stroke := l.map (fun s => (s.1, kept v s.2))

/-- Strokes of the driver paint the picture in the frame buffer. -/
theorem plots_stored (h : Fits v) (l : List Stroke) {p : ℕ × ℕ} (hp : Shown v p) :
    stored v (plots v m l) p = paint (stored v m) (keptStrokes v l) p := by
  rw [plots_puts h]
  exact @puts_picture _ _ _ (pixelCell h) (layout h) _ m p _ l hp

theorem plots_off (h : Fits v) (l : List Stroke) : SameOff (bufferSpan v) m (plots v m l) := by
  rw [plots_puts h]
  exact (puts_off l).mono (area_buffer h)

/-- On 32 bits a pixel is read back. -/
theorem getpixel_stored (h : Fits v) (hd : v.bpp = 32) {p : ℕ × ℕ} (hp : Shown v p) :
    vesaGetpixel v m p.1 p.2 = stored v m p := by
  have hen : ¬ (v.enabled = false ∨ v.framebuffer = 0) := by
    rintro (hd | hd)
    · rw [h.enabled] at hd
      cases hd
    · exact h.nonnull hd
  have hrow := pixel_row h hp
  have hbelow := h.below
  have hnonnull := h.nonnull
  have hoff : wrap (p.2*v.pitch) = v.pitch*p.2 := by
    rw [Nat.mul_comm]
    exact wrap_of_lt (by omega)
  unfold vesaGetpixel stored pixelAddr
  rw [if_neg hen, if_neg (by unfold Shown at hp; omega), if_pos hd, hoff, hd, loadBytes_four]

end Buffer

/-! ## Runs of drawing calls -/

inductive Call where
  | putpixel (x y color : ℕ)
  | clear (color : ℕ)
  | fillRect (x y w h color : ℕ)
  | drawRect (x y w h color : ℕ)
  | drawLine (x1 y1 x2 y2 : ℤ) (color : ℕ)
  | drawCircle (xc yc r : ℤ) (color : ℕ)
  | drawChar (x y c fg bg : ℕ)
  | drawString (x y str fg bg : ℕ)
  deriving DecidableEq, Repr

def perform (rounds : ℕ) (v : Vesa) (m : Mem) : Call → Option Mem
  | .putpixel x y color => some (vesaPutpixel v m x y color)
  | .clear color => some (vesaClear v m color)
  | .fillRect x y w h color => some (vesaFillRect v m x y w h color)
  | .drawRect x y w h color => some (vesaDrawRect v m x y w h color)
  | .drawLine x1 y1 x2 y2 color => vesaDrawLine rounds v m x1 y1 x2 y2 color
  | .drawCircle xc yc r color => vesaDrawCircle rounds v m xc yc r color
  | .drawChar x y c fg bg => some (vesaDrawChar v m x y c fg bg)
  | .drawString x y str fg bg => vesaDrawString rounds v m x y str fg bg

def performAll (rounds : ℕ) (v : Vesa) : Mem → List Call → Option Mem
  | m, [] => some m
  | m, c::cs => (perform rounds v m c).bind (fun m => performAll rounds v m cs)

/-- A string with its end. -/
def StringAt (m : Mem) : ℕ → List ℕ → Prop
  | a, [] => load8 m a = 0
  | a, c::cs => load8 m a = c ∧ c ≠ 0 ∧ StringAt m (a+1) cs

/-- A string that drawing does not change. -/
def Apart (v : Vesa) (str : ℕ) (cs : List ℕ) : Prop := ∀ i ≤ cs.length, wrap (str+i) ∉ bufferSpan v

/-- The strokes that a call stands for; the text of a string is the one in memory. -/
def Paints (v : Vesa) (m : Mem) : Call → List Stroke → Prop
  | .putpixel x y color, l => l = [((x, y), color)]
  | .clear color, l => l = clearStrokes v color
  | .fillRect x y w h color, l => l = gridStrokes x y w h color
  | .drawRect x y w h color, l => l = outlineStrokes x y w h color
  | .drawLine x1 y1 x2 y2 color, l =>
    ∃ rounds ps, VesaLines.vesaDrawLine rounds x1 y1 x2 y2 = some (some ps) ∧ l = pointStrokes color ps
  | .drawCircle xc yc r color, l =>
    ∃ rounds ps, VesaCircles.vesaDrawCircle rounds xc yc r = some ps ∧ l = pointStrokes color ps
  | .drawChar x y c fg bg, l => l = charStrokes v x y c fg bg
  | .drawString x y str fg bg, l =>
    str = 0 ∧ l = [] ∨ str ≠ 0 ∧ ∃ cs, StringAt m str cs ∧ Apart v str cs ∧ l = textStrokes v y fg bg x cs

section Runs

variable {v : Vesa} {m m' : Mem} {rounds : ℕ}

theorem string_kept (h : SameOff (bufferSpan v) m m') {a : ℕ} {cs : List ℕ} (ha : Apart v a cs) :
    StringAt m' a cs ↔ StringAt m a cs := by
  induction cs generalizing a with
  | nil =>
    have hfirst : load8 m' a = load8 m a := load8_off h (ha 0 (Nat.zero_le _))
    unfold StringAt
    rw [hfirst]
  | cons c cs ih =>
    have hfirst : load8 m' a = load8 m a := load8_off h (ha 0 (Nat.zero_le _))
    have hrest : Apart v (a+1) cs := by
      intro i hi
      rw [Nat.add_assoc]
      exact ha (1+i) (by rw [List.length_cons]; omega)
    unfold StringAt
    rw [hfirst, ih hrest]

/-- The loop over a string ends at its terminator and has painted every character. -/
theorem string_drawn (h : Fits v) {y fg bg x a : ℕ} {cs : List ℕ} (hs : StringAt m a cs) (ha : Apart v a cs) :
    Ends (stringRound v y fg bg) ⟨m, x, a⟩ (plots v m (textStrokes v y fg bg x cs)) := by
  induction cs generalizing m x a with
  | nil =>
    have hdone : stringRound v y fg bg ⟨m, x, a⟩ = .done m := if_pos hs
    exact (ends_done hdone).mpr rfl
  | cons c cs ih =>
    obtain ⟨hc, hne, hrest⟩ := hs
    have hnext : stringRound v y fg bg ⟨m, x, a⟩ = .next ⟨vesaDrawChar v m x y c fg bg, wrap (x+8), a+1⟩ := by
      unfold stringRound
      rw [if_neg (by rw [hc]; exact hne), hc]
    have hapart : Apart v (a+1) cs := by
      intro i hi
      rw [Nat.add_assoc]
      exact ha (1+i) (by rw [List.length_cons]; omega)
    rw [ends_next hnext, textStrokes, plots_append, ← char_strokes]
    refine ih ?_ hapart
    rw [string_kept (m := m) _ hapart]
    · exact hrest
    · rw [char_strokes]
      exact plots_off h _

/-- Whatever is in memory where a string is expected, only the buffer is drawn to. -/
theorem string_off (h : Fits v) {x y str fg bg : ℕ} (hr : vesaDrawString rounds v m x y str fg bg = some m') :
    SameOff (bufferSpan v) m m' := by
  unfold vesaDrawString at hr
  split at hr
  · cases hr
    exact SameOff.refl _ _
  · refine @ends_post _ _ (stringRound v y fg bg) _ _ (fun s => SameOff (bufferSpan v) m s.mem)
      (fun m' => SameOff (bufferSpan v) m m') ?_ ?_ (SameOff.refl _ _) ⟨rounds, hr⟩
    · intro s t hs hnext
      unfold stringRound at hnext
      split at hnext
      · cases hnext
      · cases hnext
        refine hs.trans ?_
        rw [char_strokes]
        exact plots_off h _
    · intro s m' hs hdone
      unfold stringRound at hdone
      split at hdone
      · cases hdone
        exact hs
      · cases hdone

theorem circle_points {xc yc r : ℤ} {color : ℕ} (hr : vesaDrawCircle rounds v m xc yc r color = some m') :
    ∃ ps, VesaCircles.vesaDrawCircle rounds xc yc r = some ps ∧ m' = plots v m (pointStrokes color ps) := by
  unfold vesaDrawCircle at hr
  split at hr
  · obtain ⟨ps, hps, rfl⟩ := Option.map_eq_some_iff.mp hr
    exact ⟨ps, hps, points_strokes v m color ps⟩
  · cases hr

theorem perform_off (h : Fits v) {c : Call} (hr : perform rounds v m c = some m') : SameOff (bufferSpan v) m m' := by
  cases c with
  | putpixel x y color =>
    cases hr
    exact plots_off h [((x, y), color)]
  | clear color =>
    cases hr
    rw [clear_strokes]
    exact plots_off h _
  | fillRect x y w h' color =>
    cases hr
    rw [fill_strokes]
    exact plots_off h _
  | drawRect x y w h' color =>
    cases hr
    rw [rect_strokes]
    exact plots_off h _
  | drawLine x1 y1 x2 y2 color =>
    obtain ⟨ps, -, rfl⟩ := Option.map_eq_some_iff.mp hr
    rw [points_strokes]
    exact plots_off h _
  | drawCircle xc yc r color =>
    obtain ⟨ps, -, rfl⟩ := circle_points hr
    exact plots_off h _
  | drawChar x y c fg bg =>
    cases hr
    rw [char_strokes]
    exact plots_off h _
  | drawString x y str fg bg => exact string_off h hr

theorem line_unique {i j : ℕ} {x1 y1 x2 y2 : ℤ} {ps qs : List (ℤ × ℤ)}
    (hi : VesaLines.vesaDrawLine i x1 y1 x2 y2 = some (some ps))
    (hj : VesaLines.vesaDrawLine j x1 y1 x2 y2 = some (some qs)) : ps = qs := by
  unfold VesaLines.vesaDrawLine at hi hj
  cases hp : VesaLines.prepare x1 y1 x2 y2 with
  | none =>
    rw [hp] at hi
    cases hi
  | some lp =>
    rw [hp] at hi hj
    exact Option.some.inj (run_unique hi hj)

theorem circle_unique {i j : ℕ} {xc yc r : ℤ} {ps qs : List (ℤ × ℤ)}
    (hi : VesaCircles.vesaDrawCircle i xc yc r = some ps) (hj : VesaCircles.vesaDrawCircle j xc yc r = some qs) :
    ps = qs := by
  obtain ⟨os, hos, rfl⟩ := Option.map_eq_some_iff.mp hi
  obtain ⟨ot, hot, rfl⟩ := Option.map_eq_some_iff.mp hj
  rw [run_unique hos hot]

/-- A call that returns has made its strokes. -/
theorem perform_plots (h : Fits v) {c : Call} {l : List Stroke} (hr : perform rounds v m c = some m')
    (hl : Paints v m c l) : m' = plots v m l := by
  cases c with
  | putpixel x y color =>
    cases hr
    cases hl
    rfl
  | clear color =>
    cases hr
    cases hl
    exact clear_strokes v m color
  | fillRect x y w h' color =>
    cases hr
    cases hl
    exact fill_strokes v m x y w h' color
  | drawRect x y w h' color =>
    cases hr
    cases hl
    exact rect_strokes v m x y w h' color
  | drawLine x1 y1 x2 y2 color =>
    obtain ⟨i, qs, hqs, rfl⟩ := hl
    obtain ⟨ps, hps, rfl⟩ := Option.map_eq_some_iff.mp hr
    rw [line_unique hqs (Option.join_eq_some_iff.mp hps)]
    exact points_strokes v m color ps
  | drawCircle xc yc r color =>
    obtain ⟨i, qs, hqs, rfl⟩ := hl
    obtain ⟨ps, hps, rfl⟩ := circle_points hr
    rw [circle_unique hqs hps]
  | drawChar x y c fg bg =>
    cases hr
    cases hl
    exact char_strokes v m x y c fg bg
  | drawString x y str fg bg =>
    have hrun : vesaDrawString rounds v m x y str fg bg = some m' := hr
    unfold vesaDrawString at hrun
    rcases hl with ⟨h0, rfl⟩ | ⟨h0, cs, hs, ha, rfl⟩
    · rw [if_pos h0] at hrun
      exact (Option.some.inj hrun).symm
    · rw [if_neg h0] at hrun
      obtain ⟨j, hj⟩ := @string_drawn v m h y fg bg x str cs hs ha
      exact run_unique hrun hj

/-- Strings keep their text while others are drawn. -/
theorem paints_kept (h : SameOff (bufferSpan v) m m') {c : Call} {l : List Stroke} (hl : Paints v m c l) :
    Paints v m' c l := by
  cases c with
  | drawString x y str fg bg =>
    rcases hl with hl | ⟨h0, cs, hs, ha, hl⟩
    · exact Or.inl hl
    · exact Or.inr ⟨h0, cs, (string_kept h ha).mpr hs, ha, hl⟩
  | _ => exact hl

theorem run_off (h : Fits v) {calls : List Call} (hr : performAll rounds v m calls = some m') :
    SameOff (bufferSpan v) m m' := by
  induction calls generalizing m with
  | nil =>
    cases hr
    exact SameOff.refl _ _
  | cons c cs ih =>
    obtain ⟨m1, h1, hrest⟩ := Option.bind_eq_some_iff.mp hr
    exact (perform_off h h1).trans (ih hrest)

theorem run_plots (h : Fits v) {calls : List Call} {ls : List (List Stroke)}
    (hr : performAll rounds v m calls = some m') (hl : List.Forall₂ (Paints v m) calls ls) :
    m' = plots v m ls.flatten := by
  induction calls generalizing m ls with
  | nil =>
    cases hl
    exact (Option.some.inj hr).symm
  | cons c cs ih =>
    obtain ⟨m1, h1, hrest⟩ := Option.bind_eq_some_iff.mp hr
    cases hl with
    | @cons _ l _ ls hc hcs =>
      have hkept : List.Forall₂ (Paints v m1) cs ls := hcs.imp (fun _ _ => paints_kept (perform_off h h1))
      rw [ih hrest hkept, perform_plots h h1 hc, List.flatten_cons, plots_append]

def smallCanvas : Vesa := ⟨4, 2, 32, 16, 4096, true, fun _ => 0⟩

theorem smallCanvas_fits : Fits smallCanvas := ⟨rfl, by decide, Or.inl rfl, by decide, by decide⟩

end Runs

end Dionnex.VesaCanvas
