import Dionnex.StringAppends
import Dionnex.WhileLoops

/-!
# Dumping memory

`debug_hexdump` prints rows of sixteen bytes, first as numbers and then as
characters. The index of a row is a 32-bit number and wraps when the last
row is a full one at the end of the numbers; and the format of a hex cell has
a width, which `printk` does not know.
-/

set_option autoImplicit false

namespace Dionnex.Hexdump
open WhileLoops Dionnex.KernelLog Dionnex.Printk Dionnex.StringAppends

/-! ## The code -/

/-- The calls of `printk`; those that print a byte with the address at which it was read. -/
inductive Item where
  | address (a : UInt32)
  | hex (a : UInt32) (b : UInt8)
  | blank
  | bar
  | char (a : UInt32) (c : UInt8)
  | dot (a : UInt32)
  | endRow
  deriving DecidableEq

def Item.format : Item → List UInt8
  | .address _ => chars "0x%08x  "
  | .hex _ _ => chars "%02x "
  | .blank => chars "   "
  | .bar => chars " |"
  | .char _ _ => chars "%c"
  | .dot _ => chars "."
  | .endRow => chars "|\n"

def Item.args : Item → List UInt32
  | .address a => [a]
  | .hex _ b => [b.toUInt32]
  | .char _ c => [c.toUInt32]
  | _ => []

def printed (strAt : UInt32 → List UInt8) (t : Item) : Option (List Output) :=
  (printk strAt (some t.format) t.args).map Prod.fst

def hexCell (mem : UInt32 → UInt8) (ptr len i : UInt32) (j : ℕ) : Item :=
  if i + UInt32.ofNat j < len then .hex (ptr + (i + UInt32.ofNat j)) (mem (ptr + (i + UInt32.ofNat j))) else .blank

/-- Behind the range nothing is printed. -/
def asciiCell (mem : UInt32 → UInt8) (ptr len i : UInt32) (j : ℕ) : Option Item :=
  if i + UInt32.ofNat j < len then
    let c := mem (ptr + (i + UInt32.ofNat j))
    if c ≥ 32 ∧ c ≤ 126 then some (.char (ptr + (i + UInt32.ofNat j)) c) else some (.dot (ptr + (i + UInt32.ofNat j)))
  else none

def row (mem : UInt32 → UInt8) (ptr len i : UInt32) : List Item :=
  .address (ptr+i) :: ((List.range 16).map (hexCell mem ptr len i) ++
    .bar :: ((List.range 16).filterMap (asciiCell mem ptr len i) ++ [.endRow]))

/-- The outer loop, with what has been printed. -/
def round (mem : UInt32 → UInt8) (ptr len : UInt32) (s : UInt32 × List Item) : Round (UInt32 × List Item) (List Item) :=
  if s.1 < len then .next (s.1+16, s.2 ++ row mem ptr len s.1) else .done s.2

/-- The call returns and has printed these items. -/
def debugHexdump (mem : UInt32 → UInt8) (addr len : UInt32) (out : List Item) : Prop :=
  if addr = 0 ∨ len = 0 then out = [] else Ends (round mem addr len) (0, []) out

/-! ## What a dump should print -/

def byteAddress (addr : UInt32) (k : ℕ) : UInt32 := addr + UInt32.ofNat k

/-- The bytes of the range in their order. -/
def cells (mem : UInt32 → UInt8) (addr : UInt32) (n : ℕ) : List (UInt32 × UInt8) :=
  (List.range n).map (fun k => (byteAddress addr k, mem (byteAddress addr k)))

def Item.hexColumn : Item → Option (UInt32 × UInt8)
  | .hex a b => some (a, b)
  | _ => none

/-- A character cell has an address and shows a byte or a dot. -/
def Item.asciiColumn : Item → Option (UInt32 × UInt8)
  | .char a c => some (a, c)
  | .dot a => some (a, 46)
  | _ => none

def Item.reads (t : Item) : Option UInt32 := (t.hexColumn <|> t.asciiColumn).map Prod.fst

def shown (c : UInt8) : UInt8 := if 32 ≤ c ∧ c ≤ 126 then c else 46

/-- Each byte is passed once in each column, in order, and nothing else is read. -/
structure Passed (mem : UInt32 → UInt8) (addr len : UInt32) (out : List Item) : Prop where
  hex : out.filterMap Item.hexColumn = cells mem addr len.toNat
  ascii : out.filterMap Item.asciiColumn = (cells mem addr len.toNat).map (fun c => (c.1, shown c.2))
  reads : ∀ a ∈ out.filterMap Item.reads, ∃ k < len.toNat, a = byteAddress addr k

/-- Two digits and a blank. -/
def hexText (b : UInt8) : List UInt8 := [digit false (b.toNat/16), digit false (b.toNat%16), 32]

/-- The output of the cells is that of the bytes. -/
structure Shown (strAt : UInt32 → List UInt8) (mem : UInt32 → UInt8) (addr len : UInt32) (out : List Item) : Prop where
  hex : (out.filter (fun t => t.hexColumn.isSome)).map (printed strAt) =
    (cells mem addr len.toNat).map (fun c => some (printkOutStr (hexText c.2)))
  ascii : (out.filter (fun t => t.asciiColumn.isSome)).map (printed strAt) =
    (cells mem addr len.toNat).map (fun c => some (printkOutChar (shown c.2)))

section Texts

variable {strAt : UInt32 → List UInt8} {t : Item} {out : List Item}

theorem hex_printed (a : UInt32) (b : UInt8) : printed strAt (.hex a b) = some (printkOutStr (chars "%02x ")) := by
  rfl

theorem ascii_printed {c : UInt32 × UInt8} (h : t.asciiColumn = some c) : printed strAt t = some (printkOutChar c.2) := by
  cases t with
  | char a b =>
    obtain rfl := Option.some.inj h
    change some (printkOutChar b.toUInt32.toUInt8 ++ []) = some (printkOutChar b)
    rw [UInt8.toUInt8_toUInt32, List.append_nil]
  | dot a =>
    obtain rfl := Option.some.inj h
    rfl
  | _ => cases h

theorem digit_not_percent {v : ℕ} (h : v < 16) : digit false v ≠ 37 := by
  unfold digit
  interval_cases v <;> decide

/-- A hex cell prints its format, which is not the text of any byte. -/
theorem hex_not_shown (a : UInt32) (b c : UInt8) : printed strAt (.hex a b) ≠ some (printkOutStr (hexText c)) := by
  rw [hex_printed]
  intro h
  have hhead : Output.vgaPutchar 37 = Output.vgaPutchar (digit false (c.toNat/16)) :=
    (List.cons.inj (Option.some.inj h)).1
  have hlt : c.toNat/16 < 16 := by
    have hc := c.toNat_lt
    omega
  exact digit_not_percent hlt (Output.vgaPutchar.inj hhead).symm

theorem ascii_texts : (out.filter (fun t => t.asciiColumn.isSome)).map (printed strAt) =
    (out.filterMap Item.asciiColumn).map (fun c => some (printkOutChar c.2)) := by
  induction out with
  | nil => rfl
  | cons t out ih =>
    cases hcol : t.asciiColumn with
    | none =>
      rw [List.filterMap_cons_none hcol, List.filter_cons_of_neg (by rw [hcol]; exact Bool.false_ne_true)]
      exact ih
    | some c =>
      rw [List.filterMap_cons_some hcol, List.filter_cons_of_pos (by rw [hcol]; rfl), List.map_cons, List.map_cons, ih,
        ascii_printed hcol]

end Texts

/-! ## Rows -/

section Rows

variable {α : Type*} {mem : UInt32 → UInt8} {addr len i : UInt32} {out : List Item} {n : ℕ}

theorem range_filterMap (g : ℕ → α) (n m : ℕ) :
    (List.range n).filterMap (fun j => if j < m then some (g j) else none) = (List.range (min n m)).map g := by
  induction n with
  | zero => rw [Nat.zero_min]; rfl
  | succ n ih =>
    rw [List.range_succ, List.filterMap_append, ih]
    by_cases h : n < m
    · rw [Nat.min_eq_left h.le, Nat.min_eq_left h, List.range_succ, List.map_append]
      simp only [List.filterMap_cons, if_pos h, List.filterMap_nil, List.map_cons, List.map_nil]
    · rw [Nat.min_eq_right (Nat.not_lt.mp h), Nat.min_eq_right (by omega)]
      simp only [List.filterMap_cons, if_neg h, List.filterMap_nil, List.append_nil]

/-- A row begins at a multiple of sixteen, so its indexes do not wrap. -/
theorem index_lt (hi : i.toNat % 16 = 0) {j : ℕ} (hj : j < 16) : i + UInt32.ofNat j < len ↔ j < len.toNat - i.toNat := by
  have hlt := i.toNat_lt
  rw [UInt32.lt_iff_toNat_lt, UInt32.toNat_add, UInt32.toNat_ofNat_of_lt' (Nat.lt_trans hj (by decide)), Nat.mod_eq_of_lt (by omega)]
  omega

theorem index_address (addr i : UInt32) (j : ℕ) : addr + (i + UInt32.ofNat j) = byteAddress addr (i.toNat+j) := by
  unfold byteAddress
  rw [UInt32.ofNat_add, UInt32.ofNat_toNat]

/-- The bytes of a row. -/
def rowCells (mem : UInt32 → UInt8) (addr len i : UInt32) : List (UInt32 × UInt8) :=
  (List.range (min 16 (len.toNat - i.toNat))).map
    (fun j => (byteAddress addr (i.toNat+j), mem (byteAddress addr (i.toNat+j))))

theorem row_hex (hi : i.toNat % 16 = 0) : (row mem addr len i).filterMap Item.hexColumn = rowCells mem addr len i := by
  have hcells : ((List.range 16).map (hexCell mem addr len i)).filterMap Item.hexColumn = rowCells mem addr len i := by
    rw [List.filterMap_map]
    unfold rowCells
    rw [← range_filterMap]
    refine List.filterMap_congr (fun j hj => ?_)
    have hlt := @index_lt len i hi j (List.mem_range.mp hj)
    simp only [Function.comp_apply, hexCell, hlt, index_address]
    split_ifs <;> rfl
  have hascii : ((List.range 16).filterMap (asciiCell mem addr len i)).filterMap Item.hexColumn = [] := by
    rw [List.filterMap_filterMap]
    refine List.filterMap_eq_nil_iff.mpr (fun j _ => ?_)
    unfold asciiCell
    dsimp only
    split_ifs <;> rfl
  unfold row
  rw [List.filterMap_cons_none rfl, List.filterMap_append, List.filterMap_cons_none rfl, List.filterMap_append, hcells,
    hascii]
  exact List.append_nil _

theorem row_ascii (hi : i.toNat % 16 = 0) : (row mem addr len i).filterMap Item.asciiColumn =
    (rowCells mem addr len i).map (fun c => (c.1, shown c.2)) := by
  have hhex : ((List.range 16).map (hexCell mem addr len i)).filterMap Item.asciiColumn = [] := by
    rw [List.filterMap_map]
    refine List.filterMap_eq_nil_iff.mpr (fun j _ => ?_)
    simp only [Function.comp_apply, hexCell]
    split_ifs <;> rfl
  have hcells : ((List.range 16).filterMap (asciiCell mem addr len i)).filterMap Item.asciiColumn =
      (rowCells mem addr len i).map (fun c => (c.1, shown c.2)) := by
    rw [List.filterMap_filterMap]
    unfold rowCells
    rw [List.map_map, ← range_filterMap]
    refine List.filterMap_congr (fun j hj => ?_)
    have hlt := @index_lt len i hi j (List.mem_range.mp hj)
    simp only [Function.comp_apply, asciiCell, hlt, index_address, shown]
    split_ifs <;> simp_all [Item.asciiColumn]
  unfold row
  rw [List.filterMap_cons_none rfl, List.filterMap_append, List.filterMap_cons_none rfl, List.filterMap_append, hcells,
    hhex]
  exact List.append_nil _

theorem cells_row (h : i.toNat < len.toNat) : cells mem addr i.toNat ++ rowCells mem addr len i =
    cells mem addr (min (i.toNat+16) len.toNat) := by
  have hsplit : min (i.toNat+16) len.toNat = i.toNat + min 16 (len.toNat - i.toNat) := by omega
  unfold cells rowCells
  rw [hsplit, List.range_add, List.map_append, List.map_map]
  rfl

/-! ## The loop -/

/-- The rows before `i` have printed the bytes before `i`. -/
structure Printed (mem : UInt32 → UInt8) (addr len : UInt32) (s : UInt32 × List Item) : Prop where
  aligned : s.1.toNat % 16 = 0
  hex : s.2.filterMap Item.hexColumn = cells mem addr (min s.1.toNat len.toNat)
  ascii : s.2.filterMap Item.asciiColumn = (cells mem addr (min s.1.toNat len.toNat)).map (fun c => (c.1, shown c.2))

theorem next_index (hi : i.toNat % 16 = 0) (hlt : i < len) (hlen : len ≤ 0xFFFFFFF0) : (i+16).toNat = i.toNat+16 := by
  have hi' := UInt32.lt_iff_toNat_lt.mp hlt
  have hlen' := UInt32.le_iff_toNat_le.mp hlen
  simp only [UInt32.reduceToNat] at hlen'
  rw [UInt32.toNat_add]
  simp only [UInt32.reduceToNat]
  omega

theorem round_printed (hlen : len ≤ 0xFFFFFFF0) {s t : UInt32 × List Item} (h : Printed mem addr len s)
    (hround : round mem addr len s = .next t) :
    Printed mem addr len t ∧ len.toNat + 16 - t.1.toNat < len.toNat + 16 - s.1.toNat := by
  unfold round at hround
  split_ifs at hround with hlt
  · obtain rfl := Round.next.inj hround
    have hnext := next_index h.aligned hlt hlen
    have hlt' := UInt32.lt_iff_toNat_lt.mp hlt
    have haligned := h.aligned
    have hmin : min s.1.toNat len.toNat = s.1.toNat := by omega
    refine ⟨⟨by rw [hnext]; omega, ?_, ?_⟩, by rw [hnext]; omega⟩
    · rw [List.filterMap_append, h.hex, row_hex haligned, hmin, hnext]
      exact cells_row hlt'
    · rw [List.filterMap_append, h.ascii, row_ascii haligned, hmin, hnext, ← List.map_append]
      exact congrArg _ (cells_row hlt')

theorem reads_column {t : Item} {a : UInt32} (h : t.reads = some a) :
    ∃ c, (t.hexColumn = some c ∨ t.asciiColumn = some c) ∧ c.1 = a := by
  unfold Item.reads at h
  cases hhex : t.hexColumn with
  | none =>
    rw [hhex] at h
    obtain ⟨c, hc, rfl⟩ := Option.map_eq_some_iff.mp h
    exact ⟨c, .inr hc, rfl⟩
  | some c =>
    rw [hhex] at h
    exact ⟨c, .inl rfl, Option.some.inj h⟩

theorem cells_address {a : UInt32 × UInt8} (h : a ∈ cells mem addr n) : ∃ k < n, a.1 = byteAddress addr k := by
  obtain ⟨k, hk, rfl⟩ := List.mem_map.mp h
  exact ⟨k, List.mem_range.mp hk, rfl⟩

/-- Whatever has been read is in a column. -/
theorem passed_of_columns (hhex : out.filterMap Item.hexColumn = cells mem addr len.toNat)
    (hascii : out.filterMap Item.asciiColumn = (cells mem addr len.toNat).map (fun c => (c.1, shown c.2))) :
    Passed mem addr len out := by
  refine ⟨hhex, hascii, fun a ha => ?_⟩
  obtain ⟨t, ht, hread⟩ := List.mem_filterMap.mp ha
  obtain ⟨c, hc | hc, rfl⟩ := reads_column hread
  · exact cells_address (hhex ▸ List.mem_filterMap.mpr ⟨t, ht, hc⟩)
  · have hmem : c ∈ (cells mem addr len.toNat).map (fun c => (c.1, shown c.2)) :=
      hascii ▸ List.mem_filterMap.mpr ⟨t, ht, hc⟩
    obtain ⟨c', hc', rfl⟩ := List.mem_map.mp hmem
    exact cells_address (a := c') hc'

theorem round_passed {s : UInt32 × List Item} (h : Printed mem addr len s) (hround : round mem addr len s = .done out) :
    Passed mem addr len out := by
  unfold round at hround
  split_ifs at hround with hlt
  · obtain rfl := Round.done.inj hround
    have hge : len.toNat ≤ s.1.toNat := Nat.not_lt.mp (fun h' => hlt (UInt32.lt_iff_toNat_lt.mpr h'))
    have hhex := h.hex
    have hascii := h.ascii
    rw [Nat.min_eq_right hge] at hhex hascii
    exact passed_of_columns hhex hascii

theorem printed_start : Printed mem addr len (0, []) :=
  ⟨rfl, by rw [UInt32.toNat_zero, Nat.zero_min]; rfl, by rw [UInt32.toNat_zero, Nat.zero_min]; rfl⟩

/-- Up to sixteen bytes less than the numbers there are, the loop ends. -/
theorem hexdump_ends (hlen : len ≤ 0xFFFFFFF0) : ∃ out, Ends (round mem addr len) (0, []) out ∧ Passed mem addr len out :=
  @ends_of_variant _ _ (round mem addr len) (0, []) (Printed mem addr len) (Passed mem addr len)
    (fun s => len.toNat + 16 - s.1.toNat) (fun _ _ h hround => round_printed hlen h hround)
    (fun _ _ h hround => round_passed h hround) printed_start

/-- Beyond that the index goes from the last row to the first. -/
theorem hexdump_never_ends (hlen : 0xFFFFFFF0 < len) : ¬ Ends (round mem addr len) (0, []) out := by
  refine @never_ends _ _ (round mem addr len) (0, []) out (fun s => s.1.toNat % 16 = 0) (fun s hs => ?_) rfl
  have hlen' := UInt32.lt_iff_toNat_lt.mp hlen
  simp only [UInt32.reduceToNat] at hlen'
  have hlt := s.1.toNat_lt
  have hin : s.1 < len := UInt32.lt_iff_toNat_lt.mpr (by omega)
  refine ⟨(s.1+16, s.2 ++ row mem addr len s.1), if_pos hin, ?_⟩
  dsimp only
  rw [UInt32.toNat_add]
  simp only [UInt32.reduceToNat]
  omega

end Rows

/-! ## The whole dump -/

section Dumps

variable {strAt : UInt32 → List UInt8} {mem : UInt32 → UInt8} {addr len : UInt32} {out : List Item}

/-- The call returns, and what it prints are the bytes of the range. -/
def Dumped (strAt : UInt32 → List UInt8) (mem : UInt32 → UInt8) (addr len : UInt32) : Prop :=
  ∃ out, debugHexdump mem addr len out ∧ Passed mem addr len out ∧ Shown strAt mem addr len out

theorem passed_empty (h : len = 0) : Passed mem addr len [] := by
  subst h
  exact passed_of_columns rfl rfl

theorem passed_iff : (∃ out, debugHexdump mem addr len out ∧ Passed mem addr len out) ↔
    len = 0 ∨ addr ≠ 0 ∧ len ≤ 0xFFFFFFF0 := by
  unfold debugHexdump
  constructor
  · rintro ⟨out, hdump, hpassed⟩
    by_contra hnot
    obtain ⟨hlen, hrest⟩ := not_or.mp hnot
    by_cases haddr : addr = 0
    · rw [if_pos (.inl haddr)] at hdump
      subst hdump
      have hcells := congrArg List.length hpassed.hex
      unfold cells at hcells
      rw [List.length_map, List.length_range] at hcells
      exact hlen (UInt32.toNat_inj.mp hcells.symm)
    · rw [if_neg (not_or.mpr ⟨haddr, hlen⟩)] at hdump
      have hgt : 0xFFFFFFF0 < len := UInt32.not_le.mp (fun hle => hrest ⟨haddr, hle⟩)
      exact hexdump_never_ends hgt hdump
  · intro h
    by_cases hskip : addr = 0 ∨ len = 0
    · have hlen : len = 0 := h.elim id (fun h' => hskip.resolve_left h'.1)
      exact ⟨[], by rw [if_pos hskip], passed_empty hlen⟩
    · obtain ⟨haddr, hlen⟩ := not_or.mp hskip
      obtain ⟨out, hends, hpassed⟩ := @hexdump_ends mem addr len (h.resolve_left hlen).2
      exact ⟨out, by rw [if_neg hskip]; exact hends, hpassed⟩

/-- No byte of a hex column is what its cell prints. -/
theorem shown_empty (h : Shown strAt mem addr len out) : len = 0 := by
  by_contra hlen
  have hpos : 0 < len.toNat := Nat.pos_of_ne_zero (fun h0 => hlen (UInt32.toNat_inj.mp h0))
  have hmem : some (printkOutStr (hexText (mem (byteAddress addr 0)))) ∈
      (out.filter (fun t => t.hexColumn.isSome)).map (printed strAt) := by
    rw [h.hex]
    exact List.mem_map.mpr ⟨_, List.mem_map.mpr ⟨0, List.mem_range.mpr hpos, rfl⟩, rfl⟩
  obtain ⟨t, ht, htext⟩ := List.mem_map.mp hmem
  have hcol := (List.mem_filter.mp ht).2
  cases t with
  | hex a b => exact hex_not_shown a b _ htext
  | _ => cases hcol

/-- A dump is right only when it is empty; its calls are right unless the address is refused or the index wraps. -/
theorem hexdump_right_iff (strAt : UInt32 → List UInt8) (mem : UInt32 → UInt8) (addr len : UInt32) :
    (Dumped strAt mem addr len ↔ len = 0) ∧
    ((∃ out, debugHexdump mem addr len out ∧ Passed mem addr len out) ↔ len = 0 ∨ addr ≠ 0 ∧ len ≤ 0xFFFFFFF0) := by
  refine ⟨⟨?_, fun hlen => ?_⟩, passed_iff⟩
  · rintro ⟨out, -, -, hshown⟩
    exact shown_empty hshown
  · subst hlen
    exact ⟨[], by rw [debugHexdump, if_pos (Or.inr rfl)], passed_empty rfl, rfl, rfl⟩

/-- `hexdump 100000 -1` does not return, and `hexdump 100000 1` prints no byte. -/
theorem hexdump_wrong : NumberStrings.atoi (chars "-1") = 0xFFFFFFFF ∧
    (∀ out, ¬ debugHexdump (fun _ => 0) 0x100000 0xFFFFFFFF out) ∧ ¬ Dumped (fun _ => []) (fun _ => 0) 0x100000 1 := by
  refine ⟨by decide, fun out hdump => ?_, ?_⟩
  · rw [debugHexdump, if_neg (by decide)] at hdump
    exact hexdump_never_ends (by decide) hdump
  · rintro ⟨out, -, -, hshown⟩
    exact absurd (shown_empty hshown) (by decide)

end Dumps

end Dionnex.Hexdump
