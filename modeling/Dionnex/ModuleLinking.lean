import Dionnex.ModuleRelocations

/-!
# What a linked module is

For an image whose tables lie apart in the file, the loader places the
allocated sections one after the other, gives each symbol its run-time address
and adds to each relocated word what its entry asks for. The loader changes two
fields of the image, the addresses of the sections and the values of the
symbols, and all that it reads otherwise lies outside of them.
-/

set_option autoImplicit false

namespace Dionnex.ModuleLinking
open ByteMemory Dionnex.KernelHeap Dionnex.HeapBlocks Dionnex.KernelString
open Dionnex.ModuleImage Dionnex.ModuleLoader Dionnex.ModuleRelocations

def shtProgbits : ℕ := 1
def shtStrtab : ℕ := 3

/-- Section indexes from here on name no section; `SHN_ABS` is one of them. -/
def shnLoreserve : ℕ := 0xFF00
def shnAbs : ℕ := 0xFFF1

def InFile (d : Mem) (i : ℕ) : Prop := shType d (eShoff d) i ≠ shtNobits ∧ 0 < shSize d (eShoff d) i

def Allocated (d : Mem) (i : ℕ) : Prop := shFlags d (eShoff d) i &&& shfAlloc ≠ 0

instance (d : Mem) (i : ℕ) : Decidable (InFile d i) := inferInstanceAs (Decidable (_ ∧ _))

instance (d : Mem) (i : ℕ) : Decidable (Allocated d i) := inferInstanceAs (Decidable (_ ≠ _))

def fileStop (d : Mem) (i : ℕ) : ℕ := shOffset d (eShoff d) i + shSize d (eShoff d) i

def headersStop (d : Mem) : ℕ := eShoff d + 40*eShnum d

/-- The 4-aligned sizes of the allocated sections before section `i`. -/
def placed (d : Mem) (i : ℕ) : ℕ :=
  ∑ j ∈ Finset.range i, if Allocated d j then (shSize d (eShoff d) j + 3)/4*4 else 0

/-- The tables of the symbol table section `st`. -/
def tablesAt (d : Mem) (st : ℕ) : Tables :=
  ⟨shOffset d (eShoff d) st, shOffset d (eShoff d) (shLink d (eShoff d) st), shSize d (eShoff d) st / 16⟩

/-- The word of entry `r` of section `i`, relative to its target. -/
def wordAt (d : Mem) (i r : ℕ) : ℕ := rOffset d (shOffset d (eShoff d) i) r

def targetOf (d : Mem) (i : ℕ) : ℕ := shInfo d (eShoff d) i

def symbolOf (d : Mem) (i r : ℕ) : ℕ := rSym (infoAt d (eShoff d) i r)

def typeOf (d : Mem) (i r : ℕ) : ℕ := rType (infoAt d (eShoff d) i r)

def FilesApart (d : Mem) (i j : ℕ) : Prop := InFile d i → InFile d j → i ≠ j →
  fileStop d i ≤ shOffset d (eShoff d) j ∨ fileStop d j ≤ shOffset d (eShoff d) i

/-- An entry for a word inside an allocated section with contents. -/
def EntryFits (d : Mem) (st i r : ℕ) : Prop :=
  (targetOf d i < eShnum d ∧ Allocated d (targetOf d i) ∧ shType d (eShoff d) (targetOf d i) = shtProgbits) ∧
    wordAt d i r + 4 ≤ shSize d (eShoff d) (targetOf d i) ∧ symbolOf d i r < (tablesAt d st).symCount ∧
      (typeOf d i r = r386_32 ∨ typeOf d i r = r386_pc32)

def WordsClear (d : Mem) (i r j q : ℕ) : Prop := targetOf d i = targetOf d j → (i, r) ≠ (j, q) →
  wordAt d i r + 4 ≤ wordAt d j q ∨ wordAt d j q + 4 ≤ wordAt d i r

instance (d : Mem) (i r j q : ℕ) : Decidable (WordsClear d i r j q) := inferInstanceAs (Decidable (_ → _))

/-- No other entry has a byte of the word. -/
def EntryAlone (d : Mem) (i r : ℕ) : Prop :=
  ∀ j < eShnum d, shType d (eShoff d) j = shtRel → ∀ q < shSize d (eShoff d) j / 8, WordsClear d i r j q

instance (d : Mem) (i j : ℕ) : Decidable (FilesApart d i j) := inferInstanceAs (Decidable (_ → _))

instance (d : Mem) (st i r : ℕ) : Decidable (EntryFits d st i r) := inferInstanceAs (Decidable (_ ∧ _))

instance (d : Mem) (i r : ℕ) : Decidable (EntryAlone d i r) := inferInstanceAs (Decidable (∀ _ < _, _))

/-- The headers and the contents of the sections lie apart in the file, there is room for all sections, and the
symbol table is section `st`, of which all names end. -/
structure Layout (d : Mem) (size st : ℕ) : Prop where
  bounded : size < 4294967296
  header : ehdrSize ≤ eShoff d
  headers : headersStop d ≤ size
  few : eShnum d ≤ shnLoreserve
  inside : ∀ i < eShnum d, InFile d i → ehdrSize ≤ shOffset d (eShoff d) i ∧ fileStop d i ≤ size
  beside : ∀ i < eShnum d, InFile d i → fileStop d i ≤ eShoff d ∨ headersStop d ≤ shOffset d (eShoff d) i
  apart : ∀ i < eShnum d, ∀ j < eShnum d, FilesApart d i j
  room : placed d (eShnum d) < 4294967296
  symtab : st < eShnum d ∧ shType d (eShoff d) st = shtSymtab ∧ ∀ i < st, shType d (eShoff d) i ≠ shtSymtab
  strings : shLink d (eShoff d) st < eShnum d ∧ shType d (eShoff d) (shLink d (eShoff d) st) = shtStrtab
  names : ∀ i < (tablesAt d st).symCount, stName d (tablesAt d st).syms i ≠ 0 →
    ∃ n < shSize d (eShoff d) (shLink d (eShoff d) st),
      stName d (tablesAt d st).syms i ≤ n ∧ d ((tablesAt d st).strtab + n) = 0

/-- A fresh image that keeps to the format: its symbols are in no section, in a section or absolute, its
relocations are of the two types of 32-bit words, in bounds of allocated sections with contents, for a symbol of
the table, and no two have a byte in common. -/
structure WellFormed (d : Mem) (size st : ℕ) : Prop extends Layout d size st where
  indexes : ∀ i < (tablesAt d st).symCount,
    stShndx d (tablesAt d st).syms i < eShnum d ∨ stShndx d (tablesAt d st).syms i = shnAbs
  entries : ∀ i < eShnum d, shType d (eShoff d) i = shtRel → ∀ r < shSize d (eShoff d) i / 8, EntryFits d st i r
  single : ∀ i < eShnum d, shType d (eShoff d) i = shtRel → ∀ r < shSize d (eShoff d) i / 8, EntryAlone d i r

/-! ## Run-time addresses -/

/-- Where a section is at run time; a section that is not allocated stays where its header says. -/
def sectionAddress (d : Mem) (base i : ℕ) : ℕ :=
  if Allocated d i then base + placed d i else shAddr d (eShoff d) i

/-- What the kernel exports under the name at an offset of the image. -/
def exported (symbols : List (List UInt8 × ℕ)) (d : Mem) (name : ℕ) : ℕ :=
  (moduleResolveSymbol symbols d name).getD 0

def symbolAddress (symbols : List (List UInt8 × ℕ)) (d : Mem) (t : Tables) (base i : ℕ) : ℕ :=
  if stShndx d t.syms i = shnUndef then
    if stName d t.syms i ≠ 0 then wrap (exported symbols d (t.strtab + stName d t.syms i)) else stValue d t.syms i
  else if stShndx d t.syms i = shnAbs then stValue d t.syms i
  else wrap (sectionAddress d base (stShndx d t.syms i) + stValue d t.syms i)

def Named (d : Mem) (t : Tables) (name : List UInt8) (i : ℕ) : Prop :=
  stName d t.syms i ≠ 0 ∧ NameIs d (t.strtab + stName d t.syms i) name

instance (d : Mem) (t : Tables) (name : List UInt8) (i : ℕ) : Decidable (Named d t name i) :=
  inferInstanceAs (Decidable (_ ∧ _))

/-- Symbol `i` is the last one of the name. -/
def LastNamed (d : Mem) (t : Tables) (name : List UInt8) (i : ℕ) : Prop :=
  i < t.symCount ∧ Named d t name i ∧ ∀ j < t.symCount, i < j → ¬ Named d t name j

/-- Byte `k` of section `i` before any relocation. -/
def content (d : Mem) (i k : ℕ) : UInt8 :=
  if shType d (eShoff d) i = shtNobits then 0 else d (shOffset d (eShoff d) i + k)

/-- The address that entry `r` of section `i` relocates. -/
def placeOf (d : Mem) (base i r : ℕ) : ℕ := base + placed d (targetOf d i) + wordAt d i r

/-- What the entry adds to the word: the address of its symbol, for `R_386_PC32` relative to the word. -/
def addend (symbols : List (List UInt8 × ℕ)) (d : Mem) (t : Tables) (base i r : ℕ) : ℕ :=
  let s := symbolAddress symbols d t base (symbolOf d i r)
  if typeOf d i r = r386_pc32 then sub32 s (placeOf d base i r) else s

/-- The sections are in their places, each byte that is not relocated is that of the image, each relocated word
is the one of the image and what its entry adds, and the functions are the symbols of their names. -/
structure Linked (symbols : List (List UInt8 × ℕ)) (d : Mem) (st base : ℕ) (l : Linking) : Prop where
  starts : ∀ i < eShnum d, Allocated d i → shAddr l.image (eShoff d) i = wrap (base + placed d i)
  bytes : ∀ i < eShnum d, Allocated d i → ∀ k < shSize d (eShoff d) i,
    (∀ j r, IsEntry d (eShoff d) j r → targetOf d j = i → k < wordAt d j r ∨ wordAt d j r + 4 ≤ k) →
      l.mem (base + placed d i + k) = content d i k
  words : ∀ i r, IsEntry d (eShoff d) i r → load32 l.mem (placeOf d base i r) =
    wrap (load32 d (shOffset d (eShoff d) (targetOf d i) + wordAt d i r) +
      addend symbols d (tablesAt d st) base i r)
  functions : ∃ init cleanup, l.functions = some (init, cleanup) ∧
    (∃ i, LastNamed d (tablesAt d st) moduleInitName i ∧
      init = symbolAddress symbols d (tablesAt d st) base i) ∧
    (∀ i, LastNamed d (tablesAt d st) moduleCleanupName i →
      cleanup = symbolAddress symbols d (tablesAt d st) base i) ∧
    ((∀ i < (tablesAt d st).symCount, ¬ Named d (tablesAt d st) moduleCleanupName i) → cleanup = 0)

/-! ## What the loader leaves alone -/

/-- The addresses of the sections and the values of the symbols. -/
def changed (d : Mem) (st : ℕ) : Set ℕ :=
  {x | (∃ i < eShnum d, x ∈ Set.Ico (eShoff d + 40*i + 12) (eShoff d + 40*i + 16)) ∨
    ∃ i < (tablesAt d st).symCount, x ∈ Set.Ico ((tablesAt d st).syms + 16*i + 4) ((tablesAt d st).syms + 16*i + 8)}

/-- Everything else that is read through the headers and the symbols. -/
structure SameFields (d d' : Mem) (st : ℕ) : Prop where
  shnum : eShnum d' = eShnum d
  type : ∀ i < eShnum d, shType d' (eShoff d) i = shType d (eShoff d) i
  flags : ∀ i < eShnum d, shFlags d' (eShoff d) i = shFlags d (eShoff d) i
  offset : ∀ i < eShnum d, shOffset d' (eShoff d) i = shOffset d (eShoff d) i
  size : ∀ i < eShnum d, shSize d' (eShoff d) i = shSize d (eShoff d) i
  link : ∀ i < eShnum d, shLink d' (eShoff d) i = shLink d (eShoff d) i
  info : ∀ i < eShnum d, shInfo d' (eShoff d) i = shInfo d (eShoff d) i
  name : ∀ i < (tablesAt d st).symCount, stName d' (tablesAt d st).syms i = stName d (tablesAt d st).syms i
  shndx : ∀ i < (tablesAt d st).symCount, stShndx d' (tablesAt d st).syms i = stShndx d (tablesAt d st).syms i

section Fields

variable {d d' : Mem} {size st : ℕ}

theorem symbol_range (hl : Layout d size st) {i : ℕ} (hi : i < (tablesAt d st).symCount) :
    InFile d st ∧ ehdrSize ≤ (tablesAt d st).syms ∧ (tablesAt d st).syms + 16*i + 16 ≤ fileStop d st ∧
      fileStop d st ≤ size ∧ (fileStop d st ≤ eShoff d ∨ headersStop d ≤ (tablesAt d st).syms) := by
  obtain ⟨hst, htype, -⟩ := hl.symtab
  unfold tablesAt at hi ⊢
  dsimp only at hi ⊢
  have hfile : InFile d st := ⟨by rw [htype]; decide, by omega⟩
  obtain ⟨hlow, hhigh⟩ := hl.inside st hst hfile
  refine ⟨hfile, hlow, ?_, hhigh, hl.beside st hst hfile⟩
  unfold fileStop
  omega

theorem ehdr_apart (hl : Layout d size st) {x : ℕ} (hx : x < ehdrSize) : x ∉ changed d st := by
  have hhdr := hl.header
  rintro (⟨j, -, hlo, -⟩ | ⟨j, hj, hlo, -⟩)
  · omega
  · obtain ⟨-, hlow, -⟩ := symbol_range hl hj
    omega

theorem header_apart (hl : Layout d size st) {i c n x : ℕ} (hi : i < eShnum d) (hc : c+n ≤ 12 ∨ 16 ≤ c ∧ c+n ≤ 40)
    (hlo : eShoff d + 40*i + c ≤ x) (hhi : x < eShoff d + 40*i + c + n) : x ∉ changed d st := by
  intro hx
  rcases hx with ⟨j, hj, h1, h2⟩ | ⟨j, hj, h1, h2⟩
  · omega
  · obtain ⟨-, -, hstop, -, hbeside⟩ := symbol_range hl hj
    unfold headersStop at hbeside
    omega

theorem symbol_apart (hl : Layout d size st) {i c n x : ℕ} (hi : i < (tablesAt d st).symCount)
    (hc : c+n ≤ 4 ∨ 8 ≤ c ∧ c+n ≤ 16) (hlo : (tablesAt d st).syms + 16*i + c ≤ x)
    (hhi : x < (tablesAt d st).syms + 16*i + c + n) : x ∉ changed d st := by
  intro hx
  obtain ⟨-, -, hstop, -, hbeside⟩ := symbol_range hl hi
  rcases hx with ⟨j, hj, h1, h2⟩ | ⟨j, hj, h1, h2⟩
  · unfold headersStop at hbeside
    omega
  · omega

/-- The contents of the other sections. -/
theorem contents_apart (hl : Layout d size st) {i x : ℕ} (hi : i < eShnum d) (hf : InFile d i) (hne : i ≠ st)
    (hlo : shOffset d (eShoff d) i ≤ x) (hhi : x < fileStop d i) : x ∉ changed d st := by
  intro hx
  rcases hx with ⟨j, hj, h1, h2⟩ | ⟨j, hj, h1, h2⟩
  · have hbeside := hl.beside i hi hf
    unfold headersStop at hbeside
    omega
  · obtain ⟨hst, -, hstop, -, -⟩ := symbol_range hl hj
    have happart := hl.apart i hi st hl.symtab.1 hf hst hne
    unfold tablesAt at *
    dsimp only at *
    omega

theorem load32_kept (h : SameOff (changed d st) d d') {a : ℕ} (ha : a+4 ≤ 4294967296)
    (hout : ∀ x, a ≤ x → x < a+4 → x ∉ changed d st) : load32 d' a = load32 d a := by
  apply load32_off h
  rw [span_eq ha, Set.disjoint_left]
  rintro x ⟨hlo, hhi⟩
  exact hout x hlo hhi

theorem load16_kept (h : SameOff (changed d st) d d') {a : ℕ} (ha : a+2 ≤ 4294967296)
    (hout : ∀ x, a ≤ x → x < a+2 → x ∉ changed d st) : load16 d' a = load16 d a := by
  apply load16_off h
  rw [span_eq ha, Set.disjoint_left]
  rintro x ⟨hlo, hhi⟩
  exact hout x hlo hhi

theorem header_kept (hl : Layout d size st) (h : SameOff (changed d st) d d') {i c : ℕ} (hi : i < eShnum d)
    (hc : c+4 ≤ 12 ∨ 16 ≤ c ∧ c+4 ≤ 40) : load32 d' (eShoff d + 40*i + c) = load32 d (eShoff d + 40*i + c) := by
  have hstop := hl.headers
  have hsize := hl.bounded
  unfold headersStop at hstop
  exact load32_kept h (by omega) (fun x hlo hhi => header_apart hl hi hc hlo hhi)

theorem same_fields (hl : Layout d size st) (h : SameOff (changed d st) d d') : SameFields d d' st where
  shnum := load16_kept h (by decide) (fun x _ hx => ehdr_apart hl (lt_trans hx (by decide)))
  type _ hi := header_kept hl h hi (by omega)
  flags _ hi := header_kept hl h hi (by omega)
  offset _ hi := header_kept hl h hi (by omega)
  size _ hi := header_kept hl h hi (by omega)
  link _ hi := header_kept hl h hi (by omega)
  info _ hi := header_kept hl h hi (by omega)
  name i hi := by
    obtain ⟨-, -, hstop, hsize, -⟩ := symbol_range hl hi
    have hlt := hl.bounded
    exact load32_kept h (by omega) (fun x hlo hhi => @symbol_apart d size st hl i 0 4 x hi (by omega) hlo hhi)
  shndx i hi := by
    obtain ⟨-, -, hstop, hsize, -⟩ := symbol_range hl hi
    have hlt := hl.bounded
    exact load16_kept h (by omega) (fun x hlo hhi => @symbol_apart d size st hl i 14 2 x hi (by omega) hlo hhi)

end Fields

/-! ## The sections -/

section Sections

variable {d d' m : Mem} {size st base i : ℕ}

theorem placed_succ (d : Mem) (i : ℕ) :
    placed d (i+1) = placed d i + if Allocated d i then (shSize d (eShoff d) i + 3)/4*4 else 0 :=
  Finset.sum_range_succ _ i

theorem placed_mono (d : Mem) : Monotone (placed d) := by
  apply monotone_nat_of_le_succ
  intro i
  rw [placed_succ]
  exact Nat.le_add_right _ _

/-- The allocated sections do not reach into each other. -/
theorem placed_stop {j : ℕ} (hij : i < j) (ha : Allocated d i) : placed d i + shSize d (eShoff d) i ≤ placed d j := by
  have hmono := placed_mono d (Nat.succ_le_of_lt hij)
  rw [Nat.succ_eq_add_one, placed_succ, if_pos ha] at hmono
  omega

theorem placed_next (hl : Layout d size st) (hi : i < eShnum d) (ha : Allocated d i) :
    wrap (placed d i + alignUp4 (shSize d (eShoff d) i)) = placed d (i+1) := by
  have hroom := lt_of_le_of_lt (placed_mono d (Nat.succ_le_of_lt hi)) hl.room
  rw [Nat.succ_eq_add_one, placed_succ, if_pos ha] at hroom
  have hmax : shSize d (eShoff d) i ≤ maxRequest := by
    unfold maxRequest
    omega
  rw [alignUp4_eq hmax, placed_succ, if_pos ha, wrap_of_lt hroom]

theorem calcSize_placed (hl : Layout d size st) : moduleCalcSize d = placed d (eShnum d) := by
  have hrun : ∀ n i, i+n = eShnum d → calcSizeFrom d (eShoff d) (placed d i) i n = placed d (eShnum d) := by
    intro n
    induction n with
    | zero =>
      intro i hi
      rw [calcSizeFrom, ← hi, Nat.add_zero]
    | succ n ih =>
      intro i hi
      rw [calcSizeFrom]
      by_cases ha : shFlags d (eShoff d) i &&& shfAlloc ≠ 0
      · rw [if_pos ha, placed_next hl (by omega) ha]
        exact ih (i+1) (by omega)
      · have hsame : placed d (i+1) = placed d i := by
          rw [placed_succ, if_neg (show ¬ Allocated d i from ha), Nat.add_zero]
        rw [if_neg ha, ← hsame]
        exact ih (i+1) (by omega)
  exact hrun (eShnum d) 0 (Nat.zero_add _)

theorem placed_block (hl : Layout d size st) : placed d (eShnum d) ≤ blockSize d := by
  unfold blockSize
  rw [calcSize_placed hl]
  by_cases h0 : placed d (eShnum d) = 0
  · rw [h0]
    exact Nat.zero_le _
  · rw [if_neg h0]

theorem copyIn_off (m : Mem) (dest : ℕ) (d : Mem) (offset n : ℕ) :
    SameOff (span dest n) m (copyIn m dest d offset n) := by
  induction n generalizing m dest offset with
  | zero => exact SameOff.refl _ m
  | succ n ih =>
    exact ((store8_off m dest _).mono (span_mono (by omega))).trans
      ((ih _ (dest+1) (offset+1)).mono (span_shift (by omega)))

theorem copyIn_copied {dest offset n k : ℕ} (hn : dest+n ≤ 4294967296) (hk : k < n) :
    copyIn m dest d offset n (dest+k) = d (wrap (offset+k)) := by
  induction n generalizing m dest offset k with
  | zero => omega
  | succ n ih =>
    rw [copyIn]
    cases k with
    | zero =>
      have hlater : dest+0 ∉ span (dest+1) n := by
        rw [span_eq (by omega)]
        rintro ⟨hlo, -⟩
        omega
      rw [copyIn_off _ _ _ _ _ _ hlater, store8, Nat.add_zero, wrap_of_lt (by omega), Function.update_self, load8,
        UInt8.ofNat_toNat, Nat.add_zero]
    | succ k =>
      have hstep := @ih (store8 m dest (load8 d offset)) (dest+1) (offset+1) k (by omega) (by omega)
      rw [Nat.add_assoc, Nat.add_comm 1 k, Nat.add_assoc, Nat.add_comm 1 k] at hstep
      exact hstep

/-- The addresses of the allocated sections before section `i`. -/
def addressFields (d : Mem) (i : ℕ) : Set ℕ :=
  {x | ∃ j < i, Allocated d j ∧ x ∈ Set.Ico (eShoff d + 40*j + 12) (eShoff d + 40*j + 16)}

theorem addressFields_changed (hi : i ≤ eShnum d) : addressFields d i ⊆ changed d st := by
  rintro x ⟨j, hj, -, hx⟩
  exact Or.inl ⟨j, lt_of_lt_of_le hj hi, hx⟩

theorem addressFields_mono {j : ℕ} (hij : i ≤ j) : addressFields d i ⊆ addressFields d j := by
  rintro x ⟨l, hl, hx⟩
  exact ⟨l, lt_of_lt_of_le hl hij, hx⟩

/-- The sections before section `i` are in their places. -/
structure Copied (d : Mem) (base i : ℕ) (m d' : Mem) : Prop where
  image : SameOff (addressFields d i) d d'
  starts : ∀ j < i, Allocated d j → shAddr d' (eShoff d) j = wrap (base + placed d j)
  bytes : ∀ j < i, Allocated d j → ∀ k < shSize d (eShoff d) j, m (base + placed d j + k) = content d j k

theorem copied_skip (h : Copied d base i m d') (ha : ¬ Allocated d i) : Copied d base (i+1) m d' where
  image := h.image.mono (addressFields_mono (Nat.le_succ i))
  starts j hj hja := by
    rcases Nat.lt_succ_iff_lt_or_eq.mp hj with hj | rfl
    · exact h.starts j hj hja
    · exact (ha hja).elim
  bytes j hj hja := by
    rcases Nat.lt_succ_iff_lt_or_eq.mp hj with hj | rfl
    · exact h.bytes j hj hja
    · exact (ha hja).elim

theorem setShAddr_off (hl : Layout d size st) (hi : i < eShnum d) (v : ℕ) :
    SameOff (Set.Ico (eShoff d + 40*i + 12) (eShoff d + 40*i + 16)) d' (setShAddr d' (eShoff d) i v) := by
  have hstop := hl.headers
  have hsize := hl.bounded
  unfold headersStop at hstop
  have hoff := store32_off d' (eShoff d + 40*i + 12) v
  rw [span_eq (by omega)] at hoff
  exact hoff

theorem copySection_bytes {shdrs o : ℕ} {d1 : Mem} (hd : setShAddr d' shdrs i (base+o) = d1)
    (hstop : base + o + shSize d1 shdrs i ≤ 4294967296) :
    (copySection m d' shdrs base o i).2 = d1 ∧
      SameOff (Set.Ico (base+o) (base + o + shSize d1 shdrs i)) m (copySection m d' shdrs base o i).1 ∧
      ∀ k < shSize d1 shdrs i, (copySection m d' shdrs base o i).1 (base+o+k) =
        if shType d1 shdrs i = shtNobits then 0 else d1 (wrap (shOffset d1 shdrs i + k)) := by
  unfold copySection
  rw [hd]
  dsimp only
  by_cases htype : shType d1 shdrs i = shtNobits
  · rw [if_pos htype]
    have hoff := memset_off m (base+o) 0 (shSize d1 shdrs i)
    rw [span_eq hstop] at hoff
    refine ⟨rfl, hoff, ?_⟩
    intro k hk
    rw [if_pos htype]
    apply memset_span (by omega)
    rw [span_eq hstop]
    exact ⟨Nat.le_add_right _ _, by omega⟩
  · rw [if_neg htype]
    by_cases hpos : 0 < shSize d1 shdrs i
    · rw [if_pos hpos]
      have hoff := copyIn_off m (base+o) d1 (shOffset d1 shdrs i) (shSize d1 shdrs i)
      rw [span_eq hstop] at hoff
      refine ⟨rfl, hoff, ?_⟩
      intro k hk
      rw [if_neg htype]
      exact copyIn_copied hstop hk
    · rw [if_neg hpos]
      exact ⟨rfl, SameOff.refl _ _, fun k hk => (hpos (Nat.zero_lt_of_lt hk)).elim⟩

theorem content_kept (hl : Layout d size st) (hi : i < eShnum d) {j k : ℕ} (hj : j ≤ eShnum d)
    (h : SameOff (addressFields d j) d d') (hk : k < shSize d (eShoff d) i) :
    (if shType d (eShoff d) i = shtNobits then 0 else d' (wrap (shOffset d (eShoff d) i + k))) = content d i k := by
  unfold content
  by_cases htype : shType d (eShoff d) i = shtNobits
  · rw [if_pos htype, if_pos htype]
  · rw [if_neg htype, if_neg htype]
    have hfile : InFile d i := ⟨htype, Nat.zero_lt_of_lt hk⟩
    have hbeside := hl.beside i hi hfile
    have hinside := (hl.inside i hi hfile).2
    have hsize := hl.bounded
    unfold fileStop headersStop at *
    rw [wrap_of_lt (by omega)]
    apply h
    rintro ⟨l, hlj, -, hlo, hhi⟩
    omega

/-- One section more. -/
theorem copied_section (hl : Layout d size st) (hbase : base + placed d (eShnum d) ≤ 4294967296)
    (hi : i < eShnum d) (ha : Allocated d i) (h : Copied d base i m d') :
    Copied d base (i+1) (copySection m d' (eShoff d) base (placed d i) i).1
      (copySection m d' (eShoff d) base (placed d i) i).2 := by
  have hstop := (placed_stop (Nat.lt_succ_self i) ha).trans (placed_mono d (Nat.succ_le_of_lt hi))
  have hheaders := hl.headers
  have hsize := hl.bounded
  unfold headersStop at hheaders
  generalize hd : setShAddr d' (eShoff d) i (base + placed d i) = d1
  have hset : SameOff (Set.Ico (eShoff d + 40*i + 12) (eShoff d + 40*i + 16)) d' d1 := hd ▸ setShAddr_off hl hi _
  have himage : SameOff (addressFields d (i+1)) d d1 := by
    apply (h.image.mono (addressFields_mono (Nat.le_succ i))).trans
    exact hset.mono (fun x hx => ⟨i, Nat.lt_succ_self i, ha, hx⟩)
  have hfields := same_fields hl (himage.mono (addressFields_changed (Nat.succ_le_of_lt hi)))
  obtain ⟨hsecond, hoff, hnew⟩ := @copySection_bytes d' m base i (eShoff d) (placed d i) d1 hd
    (by rw [hfields.size i hi]; omega)
  rw [hfields.size i hi] at hoff hnew
  rw [hfields.type i hi, hfields.offset i hi] at hnew
  rw [hsecond]
  refine ⟨himage, ?_, ?_⟩
  · intro j hj hja
    rcases Nat.lt_succ_iff_lt_or_eq.mp hj with hj | rfl
    · rw [← h.starts j hj hja]
      apply load32_off hset
      rw [span_eq (by omega), Set.Ico_disjoint_Ico]
      omega
    · rw [← hd]
      exact load32_store32 _ _ _
  · intro j hj hja k hk
    rcases Nat.lt_succ_iff_lt_or_eq.mp hj with hj | rfl
    · have hbefore := placed_stop hj hja
      rw [hoff _ (by rintro ⟨hlo, -⟩; omega)]
      exact h.bytes j hj hja k hk
    · rw [hnew k hk]
      exact content_kept hl hi (Nat.succ_le_of_lt hi) himage hk

/-- All sections. -/
theorem copySections_copied (hl : Layout d size st) (hbase : base + placed d (eShnum d) ≤ 4294967296) {n : ℕ}
    (hi : i ≤ eShnum d) (hn : eShnum d ≤ i+n) (h : Copied d base i m d') :
    Copied d base (eShnum d) (copySections m d' (eShoff d) base (placed d i) i n).1
      (copySections m d' (eShoff d) base (placed d i) i n).2 := by
  have hdone : i = eShnum d → Copied d base (eShnum d) m d' := by
    rintro rfl
    exact h
  induction n generalizing i m d' with
  | zero => exact hdone (by omega)
  | succ n ih =>
    have hfields := same_fields hl (h.image.mono (addressFields_changed hi))
    rw [copySections, hfields.shnum]
    by_cases hlt : i < eShnum d
    · rw [if_pos hlt, hfields.flags i hlt]
      by_cases ha : shFlags d (eShoff d) i &&& shfAlloc ≠ 0
      · rw [if_pos ha]
        have hone := copied_section hl hbase hlt ha h
        have hnext := same_fields hl (hone.image.mono (addressFields_changed (Nat.succ_le_of_lt hlt)))
        dsimp only
        rw [hnext.size i hlt, placed_next hl hlt ha]
        exact ih (Nat.succ_le_of_lt hlt) (by omega) hone (fun he => he ▸ hone)
      · rw [if_neg ha]
        have hsame : placed d (i+1) = placed d i := by
          rw [placed_succ, if_neg (show ¬ Allocated d i from ha), Nat.add_zero]
        have hone := copied_skip h ha
        rw [← hsame]
        exact ih (Nat.succ_le_of_lt hlt) (by omega) hone (fun he => he ▸ hone)
    · rw [if_neg hlt]
      exact hdone (by omega)

end Sections

/-! ## The symbols -/

section Symbols

variable {symbols : List (List UInt8 × ℕ)} {d d' m : Mem} {size st base i : ℕ} {V W : ℕ → ℕ}

theorem findSymtab_first {shdrs n : ℕ} (hlo : i ≤ st) (hhi : st < i+n) (htype : shType d shdrs st = shtSymtab)
    (hfirst : ∀ j < st, shType d shdrs j ≠ shtSymtab) : findSymtab d shdrs i n = some st := by
  induction n generalizing i with
  | zero => omega
  | succ n ih =>
    rw [findSymtab]
    by_cases hi : i = st
    · rw [hi, if_pos htype]
    · rw [if_neg (hfirst i (by omega))]
      exact ih (by omega) (by omega)

theorem symbolTables_kept (hl : Layout d size st) (h : SameOff (changed d st) d d') :
    symbolTables d' (eShoff d) = some (tablesAt d st) := by
  have hf := same_fields hl h
  obtain ⟨hst, htype, hfirst⟩ := hl.symtab
  have hfind : findSymtab d' (eShoff d) 0 (eShnum d') = some st := by
    apply findSymtab_first (Nat.zero_le st)
    · rw [hf.shnum, Nat.zero_add]
      exact hst
    · rw [hf.type st hst]
      exact htype
    · intro j hj
      rw [hf.type j (lt_trans hj hst)]
      exact hfirst j hj
  unfold symbolTables tablesAt
  rw [hfind]
  dsimp only
  rw [hf.shnum, hf.link st hst, if_neg (Nat.not_le.mpr hl.strings.1), hf.offset st hst, hf.size st hst,
    hf.offset _ hl.strings.1]

/-- Strings that agree up to a NUL. -/
theorem cstr_range {f g : ℕ → UInt8} {n k : ℕ} (h : ∀ j ≤ n, f j = g j) (hend : f n = 0) :
    cstr ((List.range k).map f) = cstr ((List.range k).map g) := by
  induction k generalizing f g n with
  | zero => rfl
  | succ k ih =>
    rw [List.range_succ_eq_map, List.map_cons, List.map_cons, List.map_map, List.map_map, ← h 0 (Nat.zero_le n)]
    by_cases h0 : f 0 = 0
    · rw [h0, cstr_zero, cstr_zero]
    · obtain ⟨n, rfl⟩ : ∃ p, n = p+1 := by
        apply Nat.exists_eq_succ_of_ne_zero
        rintro rfl
        exact h0 hend
      rw [cstr_cons _ _ h0, cstr_cons _ _ h0]
      exact congrArg _ (@ih (f ∘ Nat.succ) (g ∘ Nat.succ) n (fun j hj => h (j+1) (by omega)) hend)

theorem name_kept (hl : Layout d size st) (h : SameOff (changed d st) d d') (hi : i < (tablesAt d st).symCount)
    (hname : stName d (tablesAt d st).syms i ≠ 0) (s : List UInt8) :
    NameIs d' ((tablesAt d st).strtab + stName d (tablesAt d st).syms i) s ↔
      NameIs d ((tablesAt d st).strtab + stName d (tablesAt d st).syms i) s := by
  obtain ⟨n, hn, hlo, hend⟩ := hl.names i hi hname
  obtain ⟨hlink, htype⟩ := hl.strings
  generalize hq : shLink d (eShoff d) st = q at *
  have hfile : InFile d q := ⟨by rw [htype]; decide, Nat.zero_lt_of_lt hn⟩
  have hne : q ≠ st := by
    rintro rfl
    rw [hl.symtab.2.1] at htype
    cases htype
  have hinside := (hl.inside q hlink hfile).2
  have hsize := hl.bounded
  have hstart : (tablesAt d st).strtab = shOffset d (eShoff d) q := by
    unfold tablesAt
    rw [hq]
  rw [hstart] at hend ⊢
  generalize stName d (tablesAt d st).syms i = o at *
  unfold fileStop at hinside
  unfold NameIs
  rw [strcmp_eq_zero, strcmp_eq_zero]
  have hsame : cstr (stringFor d' (shOffset d (eShoff d) q + o) s) =
      cstr (stringFor d (shOffset d (eShoff d) q + o) s) := by
    apply Eq.symm
    apply @cstr_range _ _ (n-o)
    · intro j hj
      have hwrap : wrap (shOffset d (eShoff d) q + o + j) = shOffset d (eShoff d) q + o + j := wrap_of_lt (by omega)
      rw [hwrap]
      apply Eq.symm
      apply h
      apply contents_apart hl hlink hfile hne (by omega)
      unfold fileStop
      omega
    · have hwrap : wrap (shOffset d (eShoff d) q + o + (n-o)) = shOffset d (eShoff d) q + n := by
        rw [wrap_of_lt (by omega)]
        omega
      rw [hwrap]
      exact hend
  rw [hsame]

theorem resolve_kept (hl : Layout d size st) (h : SameOff (changed d st) d d') (hi : i < (tablesAt d st).symCount)
    (hname : stName d (tablesAt d st).syms i ≠ 0) :
    moduleResolveSymbol symbols d' ((tablesAt d st).strtab + stName d (tablesAt d st).syms i) =
      moduleResolveSymbol symbols d ((tablesAt d st).strtab + stName d (tablesAt d st).syms i) := by
  unfold moduleResolveSymbol
  congr 2
  funext s
  exact decide_eq_decide.mpr (name_kept hl h hi hname s.1)

/-- An image with the addresses of the sections and the values `V` of the symbols. -/
structure Valued (d : Mem) (st base : ℕ) (V : ℕ → ℕ) (d' : Mem) : Prop where
  image : SameOff (changed d st) d d'
  addresses : ∀ j < eShnum d, shAddr d' (eShoff d) j = wrap (sectionAddress d base j)
  values : ∀ j < (tablesAt d st).symCount, stValue d' (tablesAt d st).syms j = V j

theorem valued_congr (h : Valued d st base V d') (hvw : ∀ j < (tablesAt d st).symCount, V j = W j) :
    Valued d st base W d' where
  image := h.image
  addresses := h.addresses
  values j hj := (h.values j hj).trans (hvw j hj)

/-- The section copies leave the values of the file. -/
theorem copied_valued (hl : Layout d size st) (h : Copied d base (eShnum d) m d') :
    Valued d st base (stValue d (tablesAt d st).syms) d' where
  image := h.image.mono (addressFields_changed le_rfl)
  addresses j hj := by
    unfold sectionAddress
    by_cases ha : Allocated d j
    · rw [if_pos ha]
      exact h.starts j hj ha
    · rw [if_neg ha, wrap_of_lt (show shAddr d (eShoff d) j < 4294967296 from load32_lt d _)]
      have hstop := hl.headers
      have hsize := hl.bounded
      unfold headersStop at hstop
      apply load32_off h.image
      rw [span_eq (by omega), Set.disjoint_left]
      rintro x ⟨hlo, hhi⟩ ⟨l, hlt, hla, hlo', hhi'⟩
      have hlj : l = j := by omega
      exact ha (hlj ▸ hla)
  values j hj := by
    obtain ⟨-, -, hstop, hfile, hbeside⟩ := symbol_range hl hj
    have hsize := hl.bounded
    unfold headersStop at hbeside
    apply load32_off h.image
    rw [span_eq (by omega), Set.disjoint_left]
    rintro x ⟨hlo, hhi⟩ ⟨l, hlt, -, hlo', hhi'⟩
    omega

theorem valued_set (hl : Layout d size st) (h : Valued d st base V d') (hi : i < (tablesAt d st).symCount) (v : ℕ) :
    Valued d st base (Function.update V i (wrap v)) (setStValue d' (tablesAt d st).syms i v) := by
  obtain ⟨-, -, hstop, hfile, hbeside⟩ := symbol_range hl hi
  have hsize := hl.bounded
  have hheaders := hl.headers
  unfold headersStop at hbeside hheaders
  have hset := store32_off d' ((tablesAt d st).syms + 16*i + 4) v
  rw [span_eq (by omega)] at hset
  refine ⟨h.image.trans (hset.mono (fun x hx => Or.inr ⟨i, hi, hx⟩)), ?_, ?_⟩
  · intro j hj
    rw [← h.addresses j hj]
    apply load32_off hset
    rw [span_eq (by omega), Set.Ico_disjoint_Ico]
    omega
  · intro j hj
    by_cases hji : j = i
    · subst hji
      rw [Function.update_self]
      exact load32_store32 _ _ _
    · obtain ⟨-, -, hstopj, -, -⟩ := symbol_range hl hj
      rw [Function.update_of_ne hji, ← h.values j hj]
      apply load32_off hset
      rw [span_eq (by omega), Set.Ico_disjoint_Ico]
      omega

/-- The values after the first pass has been at the symbols before symbol `i`. -/
def updated (d : Mem) (st base i j : ℕ) : ℕ :=
  let t := tablesAt d st
  if j < i ∧ stShndx d t.syms j ≠ shnUndef ∧ stShndx d t.syms j < eShnum d then
    wrap (sectionAddress d base (stShndx d t.syms j) + stValue d t.syms j)
  else stValue d t.syms j

theorem updated_other {j : ℕ} (h : j ≠ i) : updated d st base (i+1) j = updated d st base i j := by
  have hlt : j < i+1 ↔ j < i := by omega
  unfold updated
  simp only [hlt]

theorem updated_start {j : ℕ} : updated d st base 0 j = stValue d (tablesAt d st).syms j := by
  unfold updated
  exact if_neg (fun h => absurd h.1 (Nat.not_lt_zero j))

theorem updateSymbols_valued (hl : Layout d size st) {n : ℕ} (hn : i+n = (tablesAt d st).symCount)
    (h : Valued d st base (updated d st base i) d') :
    Valued d st base (updated d st base (tablesAt d st).symCount)
      (updateSymbols d' (eShoff d) (tablesAt d st).syms i n) := by
  induction n generalizing i d' with
  | zero =>
    rw [Nat.add_zero] at hn
    rw [← hn]
    exact h
  | succ n ih =>
    have hi : i < (tablesAt d st).symCount := by omega
    have hf := same_fields hl h.image
    rw [updateSymbols, hf.shndx i hi, hf.shnum]
    by_cases hdef : stShndx d (tablesAt d st).syms i ≠ shnUndef ∧ stShndx d (tablesAt d st).syms i < eShnum d
    · rw [if_pos hdef]
      apply ih (by omega)
      apply valued_congr (valued_set hl h hi _)
      intro j hj
      by_cases hji : j = i
      · subst hji
        have hold : updated d st base j j = stValue d (tablesAt d st).syms j :=
          if_neg (fun h => absurd h.1 (lt_irrefl j))
        have hnew : updated d st base (j+1) j = wrap (sectionAddress d base (stShndx d (tablesAt d st).syms j) +
            stValue d (tablesAt d st).syms j) := if_pos ⟨Nat.lt_succ_self j, hdef⟩
        rw [Function.update_self, h.values j hj, h.addresses _ hdef.2, hold, hnew]
        unfold wrap
        omega
      · rw [Function.update_of_ne hji, updated_other hji]
    · rw [if_neg hdef]
      apply ih (by omega)
      apply valued_congr h
      intro j hj
      by_cases hji : j = i
      · subst hji
        have hold : updated d st base j j = stValue d (tablesAt d st).syms j :=
          if_neg (fun h => absurd h.1 (lt_irrefl j))
        have hnew : updated d st base (j+1) j = stValue d (tablesAt d st).syms j := if_neg (fun h => hdef h.2)
        rw [hold, hnew]
      · exact (updated_other hji).symm

/-- The values after the second pass has been at the symbols before symbol `i`. -/
def resolved (symbols : List (List UInt8 × ℕ)) (d : Mem) (st base i j : ℕ) : ℕ :=
  let t := tablesAt d st
  if j < i ∧ stShndx d t.syms j = shnUndef ∧ stName d t.syms j ≠ 0 then
    wrap (exported symbols d (t.strtab + stName d t.syms j))
  else updated d st base t.symCount j

theorem resolved_other {j : ℕ} (h : j ≠ i) : resolved symbols d st base (i+1) j = resolved symbols d st base i j := by
  have hlt : j < i+1 ↔ j < i := by omega
  unfold resolved
  simp only [hlt]

theorem resolved_start {j : ℕ} :
    resolved symbols d st base 0 j = updated d st base (tablesAt d st).symCount j := by
  unfold resolved
  exact if_neg (fun h => absurd h.1 (Nat.not_lt_zero j))

theorem resolveSymbols_valued (hl : Layout d size st) {n : ℕ} (hn : i+n = (tablesAt d st).symCount)
    (h : Valued d st base (resolved symbols d st base i) d')
    (hok : (resolveSymbols symbols d' (tablesAt d st) i n).1 = true) :
    Valued d st base (resolved symbols d st base (tablesAt d st).symCount)
      (resolveSymbols symbols d' (tablesAt d st) i n).2 := by
  induction n generalizing i d' with
  | zero =>
    rw [Nat.add_zero] at hn
    rw [← hn]
    exact h
  | succ n ih =>
    have hi : i < (tablesAt d st).symCount := by omega
    have hf := same_fields hl h.image
    rw [resolveSymbols, hf.shndx i hi, hf.name i hi] at hok ⊢
    by_cases hundef : stShndx d (tablesAt d st).syms i = shnUndef ∧ stName d (tablesAt d st).syms i ≠ 0
    · rw [if_pos hundef, resolve_kept hl h.image hi hundef.2] at hok ⊢
      cases hres : moduleResolveSymbol symbols d ((tablesAt d st).strtab + stName d (tablesAt d st).syms i) with
      | none =>
        rw [hres] at hok
        cases hok
      | some a =>
        rw [hres] at hok
        dsimp only at hok ⊢
        apply ih (by omega) _ hok
        apply valued_congr (valued_set hl h hi _)
        intro j hj
        by_cases hji : j = i
        · subst hji
          have hnew : resolved symbols d st base (j+1) j =
              wrap (exported symbols d ((tablesAt d st).strtab + stName d (tablesAt d st).syms j)) :=
            if_pos ⟨Nat.lt_succ_self j, hundef⟩
          rw [Function.update_self, hnew, exported, hres, Option.getD_some]
        · rw [Function.update_of_ne hji, resolved_other hji]
    · rw [if_neg hundef] at hok ⊢
      apply ih (by omega) _ hok
      apply valued_congr h
      intro j hj
      by_cases hji : j = i
      · subst hji
        have hold : resolved symbols d st base j j = updated d st base (tablesAt d st).symCount j :=
          if_neg (fun h => absurd h.1 (lt_irrefl j))
        have hnew : resolved symbols d st base (j+1) j = updated d st base (tablesAt d st).symCount j :=
          if_neg (fun h => hundef h.2)
        rw [hold, hnew]
      · exact (resolved_other hji).symm

/-- Every undefined symbol with a name is one that the kernel exports. -/
def AllExported (symbols : List (List UInt8 × ℕ)) (d : Mem) (t : Tables) (i : ℕ) : Prop :=
  ∀ j < t.symCount, i ≤ j → stShndx d t.syms j = shnUndef ∧ stName d t.syms j ≠ 0 →
    (moduleResolveSymbol symbols d (t.strtab + stName d t.syms j)).isSome

theorem resolveSymbols_true (hl : Layout d size st) {n : ℕ} (hn : i+n = (tablesAt d st).symCount)
    (h : Valued d st base V d') : (resolveSymbols symbols d' (tablesAt d st) i n).1 = true ↔
      AllExported symbols d (tablesAt d st) i := by
  induction n generalizing i d' V with
  | zero =>
    refine iff_of_true rfl ?_
    intro j hj hij
    omega
  | succ n ih =>
    have hi : i < (tablesAt d st).symCount := by omega
    have hf := same_fields hl h.image
    have hlater : AllExported symbols d (tablesAt d st) i ↔
        (stShndx d (tablesAt d st).syms i = shnUndef ∧ stName d (tablesAt d st).syms i ≠ 0 →
          (moduleResolveSymbol symbols d ((tablesAt d st).strtab + stName d (tablesAt d st).syms i)).isSome) ∧
        AllExported symbols d (tablesAt d st) (i+1) := by
      constructor
      · intro h
        exact ⟨h i hi le_rfl, fun j hj hij => h j hj (by omega)⟩
      · intro ⟨hone, hrest⟩ j hj hij
        rcases Nat.eq_or_lt_of_le hij with rfl | hlt
        · exact hone
        · exact hrest j hj hlt
    rw [resolveSymbols, hf.shndx i hi, hf.name i hi, hlater]
    by_cases hundef : stShndx d (tablesAt d st).syms i = shnUndef ∧ stName d (tablesAt d st).syms i ≠ 0
    · rw [if_pos hundef, resolve_kept hl h.image hi hundef.2, forall_prop_of_true hundef]
      cases hres : moduleResolveSymbol symbols d ((tablesAt d st).strtab + stName d (tablesAt d st).syms i) with
      | none => exact iff_of_false Bool.false_ne_true (fun h => absurd h.1 Bool.false_ne_true)
      | some a =>
        dsimp only
        rw [ih (by omega) (valued_set hl h hi a), Option.isSome_some, and_iff_right rfl]
    · rw [if_neg hundef, ih (by omega) h, and_iff_right (fun h => (hundef h).elim)]

/-- Both passes together give each symbol its run-time address. -/
theorem resolved_address (hw : WellFormed d size st) (hi : i < (tablesAt d st).symCount) :
    resolved symbols d st base (tablesAt d st).symCount i = symbolAddress symbols d (tablesAt d st) base i := by
  have hfew := hw.few
  unfold resolved updated symbolAddress
  dsimp only
  by_cases hundef : stShndx d (tablesAt d st).syms i = shnUndef
  · rw [if_pos hundef]
    by_cases hname : stName d (tablesAt d st).syms i ≠ 0
    · rw [if_pos ⟨hi, hundef, hname⟩, if_pos hname]
    · rw [if_neg (fun h => hname h.2.2), if_neg (fun h => h.2.1 hundef), if_neg hname]
  · rw [if_neg (fun h => hundef h.2.1), if_neg hundef]
    rcases hw.indexes i hi with hlt | habs
    · have hne : stShndx d (tablesAt d st).syms i ≠ shnAbs := by
        unfold shnLoreserve shnAbs at *
        omega
      rw [if_pos ⟨hi, hundef, hlt⟩, if_neg hne]
    · have hnot : ¬ stShndx d (tablesAt d st).syms i < eShnum d := by
        unfold shnLoreserve shnAbs at *
        omega
      rw [if_neg (fun h => hnot h.2.2), if_pos habs]

end Symbols

/-! ## The relocations -/

section Patches

variable {m : Mem} {ps : List Patch} {p q : Patch}

/-- An addition to a word in the address space. -/
def IsWord (p : Patch) : Prop := ∃ loc v, p = .add32 loc v ∧ loc+4 ≤ 4294967296

def WordsApart (p q : Patch) : Prop := ∀ a v b w, p = .add32 a v → q = .add32 b w → a+4 ≤ b ∨ b+4 ≤ a

theorem patches_off {x : ℕ} (hwords : ∀ p ∈ ps, IsWord p)
    (h : ∀ loc v, Patch.add32 loc v ∈ ps → x < loc ∨ loc+4 ≤ x) : ps.foldl Patch.apply m x = m x := by
  induction ps generalizing m with
  | nil => rfl
  | cons p ps ih =>
    obtain ⟨loc, v, rfl, hloc⟩ := hwords p List.mem_cons_self
    rw [List.foldl_cons, ih (fun q hq => hwords q (List.mem_cons_of_mem _ hq))
      (fun a w ha => h a w (List.mem_cons_of_mem _ ha))]
    apply store32_off
    rw [span_eq hloc]
    rintro ⟨hlo, hhi⟩
    have hout := h loc v List.mem_cons_self
    omega

/-- Of additions to words that lie apart, each is made to the word that was there before all of them. -/
theorem patches_word {loc v : ℕ} (hwords : ∀ p ∈ ps, IsWord p) (hapart : ps.Pairwise WordsApart)
    (hmem : Patch.add32 loc v ∈ ps) : load32 (ps.foldl Patch.apply m) loc = wrap (load32 m loc + v) := by
  induction ps generalizing m with
  | nil => cases hmem
  | cons p ps ih =>
    obtain ⟨hfirst, hrest⟩ := List.pairwise_cons.mp hapart
    have hwords' : ∀ q ∈ ps, IsWord q := fun q hq => hwords q (List.mem_cons_of_mem _ hq)
    obtain ⟨a, w, rfl, ha⟩ := hwords _ List.mem_cons_self
    rw [List.foldl_cons]
    rcases List.mem_cons.mp hmem with he | hmem
    · obtain ⟨rfl, rfl⟩ := Patch.add32.inj he
      have hlater : load32 (ps.foldl Patch.apply (Patch.apply m (.add32 loc v))) loc =
          load32 (Patch.apply m (.add32 loc v)) loc := by
        apply load32_congr
        rw [span_eq ha]
        rintro x ⟨hlo, hhi⟩
        apply patches_off hwords'
        intro b u hb
        have hclear := hfirst _ hb loc v b u rfl rfl
        omega
      rw [hlater]
      exact load32_store32 _ _ _
    · rw [ih hwords' hrest hmem]
      obtain ⟨b, u, he, hb⟩ := hwords' _ hmem
      obtain ⟨rfl, rfl⟩ := Patch.add32.inj he
      have hclear := hfirst _ hmem a w loc v rfl rfl
      have hkept : load32 (Patch.apply m (.add32 a w)) loc = load32 m loc := by
        apply load32_off (store32_off _ _ _)
        rw [span_eq hb, span_eq ha, Set.Ico_disjoint_Ico]
        omega
      rw [hkept]

end Patches

section Relocations

variable {symbols : List (List UInt8 × ℕ)} {d d' m : Mem} {t : Tables} {size st base i r : ℕ}

theorem applyEntries_distinct {targetBase rels index n : ℕ} :
    (applyEntries m d t targetBase rels index r n).2.Pairwise (fun v w => (v.index, v.entry) ≠ (w.index, w.entry)) := by
  induction n generalizing m r with
  | zero => exact List.Pairwise.nil
  | succ n ih =>
    rw [applyEntries]
    refine List.pairwise_cons.mpr ⟨?_, ih⟩
    intro w hw he
    obtain ⟨j, -, rfl⟩ := mem_applyEntries.mp hw
    have hentry := congrArg Prod.snd he
    dsimp only at hentry
    omega

/-- No entry is visited twice. -/
theorem applySections_distinct {shdrs n : ℕ} :
    (applySections m d shdrs t i n).2.Pairwise (fun v w => (v.index, v.entry) ≠ (w.index, w.entry)) := by
  induction n generalizing m i with
  | zero => exact List.Pairwise.nil
  | succ n ih =>
    rw [applySections]
    by_cases h : shType d shdrs i = shtRel ∧ shInfo d shdrs i < eShnum d
    · rw [if_pos h]
      refine List.pairwise_append.mpr ⟨applyEntries_distinct, ih, ?_⟩
      intro v hv w hw he
      obtain ⟨q, -, rfl⟩ := mem_applyEntries.mp hv
      obtain ⟨j, hlo, -, -, e, -, rfl⟩ := mem_applySections.mp hw
      have hindex := congrArg Prod.fst he
      dsimp only at hindex
      omega
    · rw [if_neg h]
      exact ih

/-- An entry of the table as it is in the file. -/
theorem entry_kept (hl : Layout d size st) (h : SameOff (changed d st) d d') (hi : i < eShnum d)
    (hrel : shType d (eShoff d) i = shtRel) (hr : r < shSize d (eShoff d) i / 8) :
    rInfo d' (shOffset d (eShoff d) i) r = infoAt d (eShoff d) i r ∧
      rOffset d' (shOffset d (eShoff d) i) r = wordAt d i r := by
  have hfile : InFile d i := ⟨by rw [hrel]; decide, by omega⟩
  have hne : i ≠ st := by
    rintro rfl
    rw [hl.symtab.2.1] at hrel
    cases hrel
  have hinside := (hl.inside i hi hfile).2
  have hsize := hl.bounded
  have hstop : shOffset d (eShoff d) i + 8*r + 8 ≤ fileStop d i := by
    unfold fileStop
    omega
  constructor
  · apply load32_kept h (by omega)
    intro x hlo hhi
    exact contents_apart hl hi hfile hne (by omega) (by omega)
  · apply load32_kept h (by omega)
    intro x hlo hhi
    exact contents_apart hl hi hfile hne (by omega) (by omega)

theorem place_bound (hw : WellFormed d size st) (hbase : base + placed d (eShnum d) ≤ 4294967296)
    (hi : i < eShnum d) (hrel : shType d (eShoff d) i = shtRel) (hr : r < shSize d (eShoff d) i / 8) :
    placeOf d base i r + 4 ≤ base + placed d (targetOf d i) + shSize d (eShoff d) (targetOf d i) ∧
      base + placed d (targetOf d i) + shSize d (eShoff d) (targetOf d i) ≤ 4294967296 := by
  obtain ⟨⟨htarget, halloc, -⟩, hword, -, -⟩ := hw.entries i hi hrel r hr
  have hstop := (placed_stop (Nat.lt_succ_self _) halloc).trans (placed_mono d (Nat.succ_le_of_lt htarget))
  unfold placeOf
  omega

theorem entryPatch_add (hw : WellFormed d size st) (hbase : base + placed d (eShnum d) ≤ 4294967296)
    (h : Valued d st base (symbolAddress symbols d (tablesAt d st) base) d') (hi : i < eShnum d)
    (hrel : shType d (eShoff d) i = shtRel) (hr : r < shSize d (eShoff d) i / 8) :
    entryPatch d' (tablesAt d st) (shAddr d' (eShoff d) (targetOf d i)) (shOffset d (eShoff d) i) r =
      some (.add32 (placeOf d base i r) (addend symbols d (tablesAt d st) base i r)) := by
  obtain ⟨⟨htarget, halloc, -⟩, -, hsym, htype⟩ := hw.entries i hi hrel r hr
  obtain ⟨hinfo, hoffset⟩ := entry_kept hw.toLayout h.image hi hrel hr
  have hbound := place_bound hw hbase hi hrel hr
  have hplace : wrap (shAddr d' (eShoff d) (targetOf d i) + rOffset d' (shOffset d (eShoff d) i) r) =
      placeOf d base i r := by
    rw [h.addresses _ htarget, sectionAddress, if_pos halloc, hoffset]
    unfold placeOf at *
    unfold wrap
    omega
  unfold entryPatch
  dsimp only
  rw [hplace, hinfo]
  change (if (tablesAt d st).symCount ≤ symbolOf d i r then none else switchPatch (typeOf d i r)
    (stValue d' (tablesAt d st).syms (symbolOf d i r)) (placeOf d base i r)) = _
  rw [if_neg (Nat.not_le.mpr hsym), h.values _ hsym]
  unfold switchPatch addend
  dsimp only
  rcases htype with h32 | hpc
  · rw [h32, if_pos rfl, if_neg (by decide)]
  · rw [hpc, if_neg (by decide), if_pos rfl, if_pos rfl]

theorem places_apart (hw : WellFormed d size st) {j q : ℕ} (hi : i < eShnum d) (hj : j < eShnum d)
    (hri : shType d (eShoff d) i = shtRel) (hrj : shType d (eShoff d) j = shtRel)
    (hr : r < shSize d (eShoff d) i / 8) (hq : q < shSize d (eShoff d) j / 8) (hne : (i, r) ≠ (j, q)) :
    placeOf d base i r + 4 ≤ placeOf d base j q ∨ placeOf d base j q + 4 ≤ placeOf d base i r := by
  obtain ⟨⟨-, hai, -⟩, hwi, -, -⟩ := hw.entries i hi hri r hr
  obtain ⟨⟨-, haj, -⟩, hwj, -, -⟩ := hw.entries j hj hrj q hq
  unfold placeOf
  rcases lt_trichotomy (targetOf d i) (targetOf d j) with hlt | heq | hgt
  · have hstop := placed_stop hlt hai
    omega
  · have hwords := hw.single i hi hri r hr j hj hrj q hq heq hne
    rw [heq]
    omega
  · have hstop := placed_stop hgt haj
    omega

/-- The additions that are made, in their order. -/
def patches (d' : Mem) (m : Mem) (shdrs : ℕ) (t : Tables) : List Patch :=
  (applySections m d' shdrs t 0 (eShnum d')).2.filterMap Visit.patch

theorem mem_patches (hw : WellFormed d size st) (hbase : base + placed d (eShnum d) ≤ 4294967296)
    (h : Valued d st base (symbolAddress symbols d (tablesAt d st) base) d') {p : Patch} :
    p ∈ patches d' m (eShoff d) (tablesAt d st) ↔ ∃ i r, i < eShnum d ∧ shType d (eShoff d) i = shtRel ∧
      r < shSize d (eShoff d) i / 8 ∧
        p = .add32 (placeOf d base i r) (addend symbols d (tablesAt d st) base i r) := by
  have hf := same_fields hw.toLayout h.image
  unfold patches
  rw [List.mem_filterMap]
  constructor
  · rintro ⟨v, hv, hp⟩
    obtain ⟨i, -, hi, ⟨hrel, -⟩, r, hr, rfl⟩ := mem_applySections.mp hv
    rw [hf.shnum, Nat.zero_add] at hi
    rw [hf.type i hi] at hrel
    rw [hf.size i hi] at hr
    dsimp only at hp
    rw [hf.info i hi, hf.offset i hi] at hp
    exact ⟨i, r, hi, hrel, hr, (Option.some.inj ((entryPatch_add hw hbase h hi hrel hr).symm.trans hp)).symm⟩
  · rintro ⟨i, r, hi, hrel, hr, rfl⟩
    obtain ⟨⟨htarget, -⟩, -⟩ := hw.entries i hi hrel r hr
    refine ⟨_, mem_applySections.mpr ⟨i, Nat.zero_le i, ?_, ⟨?_, ?_⟩, r, ?_, rfl⟩, ?_⟩
    · rw [hf.shnum, Nat.zero_add]
      exact hi
    · rw [hf.type i hi]
      exact hrel
    · rw [hf.info i hi, hf.shnum]
      exact htarget
    · rw [hf.size i hi]
      exact hr
    · dsimp only
      rw [hf.info i hi, hf.offset i hi]
      exact entryPatch_add hw hbase h hi hrel hr

theorem patches_words (hw : WellFormed d size st) (hbase : base + placed d (eShnum d) ≤ 4294967296)
    (h : Valued d st base (symbolAddress symbols d (tablesAt d st) base) d') :
    ∀ p ∈ patches d' m (eShoff d) (tablesAt d st), IsWord p := by
  intro p hp
  obtain ⟨i, r, hi, hrel, hr, rfl⟩ := (mem_patches hw hbase h).mp hp
  have hbound := place_bound hw hbase hi hrel hr
  exact ⟨_, _, rfl, by omega⟩

theorem patches_apart (hw : WellFormed d size st) (hbase : base + placed d (eShnum d) ≤ 4294967296)
    (h : Valued d st base (symbolAddress symbols d (tablesAt d st) base) d') :
    (patches d' m (eShoff d) (tablesAt d st)).Pairwise WordsApart := by
  have hf := same_fields hw.toLayout h.image
  have hvisit : ∀ v ∈ (applySections m d' (eShoff d) (tablesAt d st) 0 (eShnum d')).2, ∀ a b,
      v.patch = some (.add32 a b) → ∃ i r, (v.index, v.entry) = (i, r) ∧ i < eShnum d ∧
        shType d (eShoff d) i = shtRel ∧ r < shSize d (eShoff d) i / 8 ∧ a = placeOf d base i r := by
    intro v hv a b hp
    obtain ⟨i, -, hi, ⟨hrel, -⟩, r, hr, rfl⟩ := mem_applySections.mp hv
    rw [hf.shnum, Nat.zero_add] at hi
    rw [hf.type i hi] at hrel
    rw [hf.size i hi] at hr
    dsimp only at hp
    rw [hf.info i hi, hf.offset i hi] at hp
    obtain ⟨rfl, -⟩ := Patch.add32.inj (Option.some.inj ((entryPatch_add hw hbase h hi hrel hr).symm.trans hp))
    exact ⟨i, r, rfl, hi, hrel, hr, rfl⟩
  unfold patches
  apply List.pairwise_filterMap.mpr
  apply applySections_distinct.imp_of_mem
  intro v w hv hw' hne p hp q hq a x b y hpa hqb
  obtain ⟨i, r, he, hi, hri, hr, rfl⟩ := hvisit v hv a x (hpa ▸ hp)
  obtain ⟨j, l, he', hj, hrj, hl, rfl⟩ := hvisit w hw' b y (hqb ▸ hq)
  rw [he, he'] at hne
  exact places_apart hw hi hj hri hrj hr hl hne

theorem applied_off (hw : WellFormed d size st) (hbase : base + placed d (eShnum d) ≤ 4294967296)
    (h : Valued d st base (symbolAddress symbols d (tablesAt d st) base) d') {x : ℕ}
    (hout : ∀ i r, IsEntry d (eShoff d) i r → x < placeOf d base i r ∨ placeOf d base i r + 4 ≤ x) :
    (patches d' m (eShoff d) (tablesAt d st)).foldl Patch.apply m x = m x := by
  apply patches_off (patches_words hw hbase h)
  intro loc v hp
  obtain ⟨i, r, hi, hrel, hr, he⟩ := (mem_patches hw hbase h).mp hp
  obtain ⟨rfl, -⟩ := Patch.add32.inj he
  obtain ⟨⟨htarget, halloc, -⟩, -⟩ := hw.entries i hi hrel r hr
  exact hout i r ⟨hi, hrel, htarget, halloc, hr⟩

/-- A byte of a section that is in no word of the section is in no word at all. -/
theorem outside_words (hw : WellFormed d size st) {j k : ℕ} (ha : Allocated d j) (hk : k < shSize d (eShoff d) j)
    (hout : ∀ i r, IsEntry d (eShoff d) i r → targetOf d i = j → k < wordAt d i r ∨ wordAt d i r + 4 ≤ k)
    (he : IsEntry d (eShoff d) i r) :
    base + placed d j + k < placeOf d base i r ∨ placeOf d base i r + 4 ≤ base + placed d j + k := by
  obtain ⟨⟨-, halloc, -⟩, hword, -, -⟩ := hw.entries i he.1 he.2.1 r he.2.2.2.2
  unfold placeOf
  rcases lt_trichotomy (targetOf d i) j with hlt | heq | hgt
  · have hstop := placed_stop hlt halloc
    omega
  · have hclear := hout i r he heq
    rw [heq]
    omega
  · have hstop := placed_stop hgt ha
    omega

theorem applied_word (hw : WellFormed d size st) (hbase : base + placed d (eShnum d) ≤ 4294967296)
    (h : Valued d st base (symbolAddress symbols d (tablesAt d st) base) d')
    (hcopied : ∀ k < shSize d (eShoff d) (targetOf d i),
      m (base + placed d (targetOf d i) + k) = content d (targetOf d i) k)
    (he : IsEntry d (eShoff d) i r) :
    load32 ((patches d' m (eShoff d) (tablesAt d st)).foldl Patch.apply m) (placeOf d base i r) =
      wrap (load32 d (shOffset d (eShoff d) (targetOf d i) + wordAt d i r) +
        addend symbols d (tablesAt d st) base i r) := by
  obtain ⟨hi, hrel, -, -, hr⟩ := he
  obtain ⟨⟨htarget, -, hprogbits⟩, hword, -, -⟩ := hw.entries i hi hrel r hr
  have hbound := place_bound hw hbase hi hrel hr
  rw [patches_word (patches_words hw hbase h) (patches_apart hw hbase h)
    ((mem_patches hw hbase h).mpr ⟨i, r, hi, hrel, hr, rfl⟩)]
  have hsame : load32 m (placeOf d base i r) =
      load32 d (shOffset d (eShoff d) (targetOf d i) + wordAt d i r) := by
    have htype : shType d (eShoff d) (targetOf d i) ≠ shtNobits := by
      rw [hprogbits]
      decide
    have hinside := (hw.inside _ htarget ⟨htype, by omega⟩).2
    have hsize := hw.bounded
    unfold fileStop at hinside
    apply load32_bytes
    intro k hk
    have hbyte := hcopied (wordAt d i r + k) (by omega)
    rw [content, if_neg htype, ← Nat.add_assoc, ← Nat.add_assoc] at hbyte
    rw [wrap_of_lt (by omega), wrap_of_lt (by omega)]
    exact hbyte
  rw [hsame]

end Relocations

/-! ## The functions -/

section Functions

variable {d d' : Mem} {size st i : ℕ}

theorem nameIs_byte {offset k : ℕ} {s : List UInt8} (hs : (0 : UInt8) ∉ s) (h : NameIs d offset s) (hk : k < s.length) :
    d (wrap (offset+k)) = s[k] := by
  unfold NameIs at h
  rw [strcmp_eq_zero, cstr_of_nulFree s hs] at h
  have hpre : s <+: stringFor d offset s := by
    have htake : cstr (stringFor d offset s) <+: stringFor d offset s := List.takeWhile_prefix _
    rwa [h] at htake
  rw [hpre.getElem hk]
  simp [stringFor]

/-- No symbol has both names. -/
theorem names_differ {offset : ℕ} (h : NameIs d offset moduleInitName) : ¬ NameIs d offset moduleCleanupName := by
  intro hc
  have hi := @nameIs_byte d offset 7 moduleInitName (by decide) h (by decide)
  have hc := @nameIs_byte d offset 7 moduleCleanupName (by decide) hc (by decide)
  rw [hi] at hc
  exact absurd hc (by decide)

/-- The value found for a name among the symbols from `i` on, or the value `a` that was there before. -/
def Found (d : Mem) (t : Tables) (V : ℕ → ℕ) (name : List UInt8) (i a x : ℕ) : Prop :=
  (∃ j, i ≤ j ∧ LastNamed d t name j ∧ x = V j) ∨
    ((∀ j < t.symCount, i ≤ j → ¬ Named d t name j) ∧ x = a)

theorem found_skip {t : Tables} {V : ℕ → ℕ} {name : List UInt8} {a x : ℕ} (h : Found d t V name (i+1) a x)
    (hi : ¬ Named d t name i) : Found d t V name i a x := by
  rcases h with ⟨j, hj, hlast, hx⟩ | ⟨hnone, hx⟩
  · exact Or.inl ⟨j, Nat.le_of_succ_le hj, hlast, hx⟩
  · refine Or.inr ⟨?_, hx⟩
    intro j hj hij
    rcases Nat.eq_or_lt_of_le hij with rfl | hlt
    · exact hi
    · exact hnone j hj hlt

theorem found_here {t : Tables} {V : ℕ → ℕ} {name : List UInt8} {a x : ℕ} (hcount : i < t.symCount)
    (h : Found d t V name (i+1) (V i) x) (hi : Named d t name i) : Found d t V name i a x := by
  rcases h with ⟨j, hj, hlast, hx⟩ | ⟨hnone, hx⟩
  · exact Or.inl ⟨j, Nat.le_of_succ_le hj, hlast, hx⟩
  · exact Or.inl ⟨i, le_rfl, ⟨hcount, hi, fun j hj hij => hnone j hj hij⟩, hx⟩

theorem findFunctions_found (hl : Layout d size st) (h : SameOff (changed d st) d d') {a b n : ℕ}
    (hn : i+n = (tablesAt d st).symCount) :
    Found d (tablesAt d st) (stValue d' (tablesAt d st).syms) moduleInitName i a
        (findFunctions d' (tablesAt d st) a b i n).1 ∧
      Found d (tablesAt d st) (stValue d' (tablesAt d st).syms) moduleCleanupName i b
        (findFunctions d' (tablesAt d st) a b i n).2 := by
  induction n generalizing i a b with
  | zero =>
    have hnone : ∀ name, ∀ j < (tablesAt d st).symCount, i ≤ j → ¬ Named d (tablesAt d st) name j := by
      intro name j hj hij
      omega
    exact ⟨Or.inr ⟨hnone _, rfl⟩, Or.inr ⟨hnone _, rfl⟩⟩
  | succ n ih =>
    have hi : i < (tablesAt d st).symCount := by omega
    have hf := same_fields hl h
    rw [findFunctions, hf.name i hi]
    by_cases hname : stName d (tablesAt d st).syms i ≠ 0
    · rw [if_pos hname]
      simp only [name_kept hl h hi hname]
      by_cases hinit : NameIs d ((tablesAt d st).strtab + stName d (tablesAt d st).syms i) moduleInitName
      · rw [if_pos hinit]
        obtain ⟨hfirst, hsecond⟩ := @ih (i+1) (stValue d' (tablesAt d st).syms i) b (by omega)
        exact ⟨found_here hi hfirst ⟨hname, hinit⟩, found_skip hsecond (fun hc => names_differ hinit hc.2)⟩
      · rw [if_neg hinit]
        by_cases hcleanup : NameIs d ((tablesAt d st).strtab + stName d (tablesAt d st).syms i) moduleCleanupName
        · rw [if_pos hcleanup]
          obtain ⟨hfirst, hsecond⟩ := @ih (i+1) a (stValue d' (tablesAt d st).syms i) (by omega)
          exact ⟨found_skip hfirst (fun hc => hinit hc.2), found_here hi hsecond ⟨hname, hcleanup⟩⟩
        · rw [if_neg hcleanup]
          obtain ⟨hfirst, hsecond⟩ := @ih (i+1) a b (by omega)
          exact ⟨found_skip hfirst (fun hc => hinit hc.2), found_skip hsecond (fun hc => hcleanup hc.2)⟩
    · rw [if_neg hname]
      obtain ⟨hfirst, hsecond⟩ := @ih (i+1) a b (by omega)
      exact ⟨found_skip hfirst (fun hc => hname hc.1), found_skip hsecond (fun hc => hname hc.1)⟩

end Functions

/-! ## The linked module -/

section Links

variable {symbols : List (List UInt8 × ℕ)} {env : Env} {k : Kernel} {d m : Mem} {size st base : ℕ} {out : Outcome}

/-- A linking of the image on top of the copied sections `m'`, and the functions `f` that were found. -/
structure Steps (symbols : List (List UInt8 × ℕ)) (d : Mem) (st base : ℕ) (l : Linking) (m' : Mem) (f : ℕ × ℕ) :
    Prop where
  copied : ∀ i < eShnum d, Allocated d i → ∀ k < shSize d (eShoff d) i, m' (base + placed d i + k) = content d i k
  image : Valued d st base (symbolAddress symbols d (tablesAt d st) base) l.image
  mem : l.mem = (patches l.image m' (eShoff d) (tablesAt d st)).foldl Patch.apply m'
  found : f = findFunctions l.image (tablesAt d st) 0 0 0 (tablesAt d st).symCount
  functions : l.functions = if f.1 = 0 then none else some f

theorem link_copied (hw : WellFormed d size st) (hbase : base + placed d (eShnum d) ≤ 4294967296) :
    Copied d base (eShnum d) (copySections m d (eShoff d) base 0 0 sectionLimit).1
      (copySections m d (eShoff d) base 0 0 sectionLimit).2 := by
  have hstart : Copied d base 0 m d :=
    ⟨SameOff.refl _ _, fun j hj => absurd hj (Nat.not_lt_zero j), fun j hj => absurd hj (Nat.not_lt_zero j)⟩
  have hlimit : eShnum d ≤ 0 + sectionLimit := by
    have hfew := hw.few
    unfold shnLoreserve sectionLimit at *
    omega
  exact copySections_copied hw.toLayout hbase (Nat.zero_le _) hlimit hstart

theorem link_steps (hw : WellFormed d size st) (hbase : base + placed d (eShnum d) ≤ 4294967296)
    (hall : AllExported symbols d (tablesAt d st) 0) :
    ∃ f, Steps symbols d st base (linkModule symbols m d base)
      (copySections m d (eShoff d) base 0 0 sectionLimit).1 f := by
  have hcopied := @link_copied d m size st base hw hbase
  have hvalued := copied_valued hw.toLayout hcopied
  have hupdated := updateSymbols_valued hw.toLayout (Nat.zero_add _)
    (valued_congr hvalued (fun j _ => updated_start.symm))
  have hok := (resolveSymbols_true hw.toLayout (Nat.zero_add _) hupdated).mpr hall
  have hresolved := resolveSymbols_valued hw.toLayout (Nat.zero_add _)
    (valued_congr hupdated (fun j _ => resolved_start.symm)) hok
  have hfinal := valued_congr hresolved (fun j hj => resolved_address hw hj)
  unfold linkModule
  dsimp only
  rw [symbolTables_kept hw.toLayout hvalued.image]
  dsimp only
  rw [if_neg (by rw [hok]; decide)]
  exact ⟨_, hcopied.bytes, hfinal, applySections_mem, rfl, rfl⟩

/-- Linking that finds the functions has resolved every symbol. -/
theorem functions_exported {functions : ℕ × ℕ} (hw : WellFormed d size st)
    (hbase : base + placed d (eShnum d) ≤ 4294967296)
    (hf : (linkModule symbols m d base).functions = some functions) :
    AllExported symbols d (tablesAt d st) 0 := by
  have hvalued := copied_valued hw.toLayout (@link_copied d m size st base hw hbase)
  have hupdated := updateSymbols_valued hw.toLayout (Nat.zero_add _)
    (valued_congr hvalued (fun j _ => updated_start.symm))
  apply (resolveSymbols_true hw.toLayout (Nat.zero_add _) hupdated).mp
  unfold linkModule at hf
  dsimp only at hf
  rw [symbolTables_kept hw.toLayout hvalued.image] at hf
  dsimp only at hf
  apply Bool.eq_true_of_not_eq_false
  intro hfail
  rw [if_pos hfail] at hf
  cases hf

theorem steps_bytes {l : Linking} {f : ℕ × ℕ} (hw : WellFormed d size st)
    (hbase : base + placed d (eShnum d) ≤ 4294967296) (hs : Steps symbols d st base l m f) {i n : ℕ}
    (hi : i < eShnum d) (ha : Allocated d i) (hn : n < shSize d (eShoff d) i)
    (hout : ∀ j r, IsEntry d (eShoff d) j r → targetOf d j = i → n < wordAt d j r ∨ wordAt d j r + 4 ≤ n) :
    l.mem (base + placed d i + n) = content d i n := by
  rw [hs.mem, applied_off hw hbase hs.image (fun j r he => outside_words hw ha hn hout he)]
  exact hs.copied i hi ha n hn

theorem steps_word {l : Linking} {f : ℕ × ℕ} (hw : WellFormed d size st)
    (hbase : base + placed d (eShnum d) ≤ 4294967296) (hs : Steps symbols d st base l m f) {i r : ℕ}
    (he : IsEntry d (eShoff d) i r) : load32 l.mem (placeOf d base i r) =
      wrap (load32 d (shOffset d (eShoff d) (targetOf d i) + wordAt d i r) +
        addend symbols d (tablesAt d st) base i r) := by
  rw [hs.mem]
  exact applied_word hw hbase hs.image (hs.copied _ he.2.2.1 he.2.2.2.1) he

theorem lastNamed_unique {t : Tables} {name : List UInt8} {i j : ℕ} (hi : LastNamed d t name i)
    (hj : LastNamed d t name j) : i = j := by
  rcases lt_trichotomy i j with hlt | heq | hgt
  · exact (hi.2.2 j hj.1 hlt hj.2.1).elim
  · exact heq
  · exact (hj.2.2 i hi.1 hgt hi.2.1).elim

theorem steps_found {l : Linking} {f : ℕ × ℕ} (hw : WellFormed d size st) (hs : Steps symbols d st base l m f) :
    Found d (tablesAt d st) (symbolAddress symbols d (tablesAt d st) base) moduleInitName 0 0 f.1 ∧
      Found d (tablesAt d st) (symbolAddress symbols d (tablesAt d st) base) moduleCleanupName 0 0 f.2 := by
  have hfound := @findFunctions_found d l.image size st 0 hw.toLayout hs.image.image 0 0
    (tablesAt d st).symCount (Nat.zero_add _)
  rw [← hs.found] at hfound
  have hvalue : ∀ name x, Found d (tablesAt d st) (stValue l.image (tablesAt d st).syms) name 0 0 x →
      Found d (tablesAt d st) (symbolAddress symbols d (tablesAt d st) base) name 0 0 x := by
    intro name x h
    rcases h with ⟨i, hi, hlast, hx⟩ | hnone
    · exact Or.inl ⟨i, hi, hlast, hx.trans (hs.image.values i hlast.1)⟩
    · exact Or.inr hnone
  exact ⟨hvalue _ _ hfound.1, hvalue _ _ hfound.2⟩

/-- Linking that finds the functions has linked the image as it is meant. -/
theorem linkModule_linked {functions : ℕ × ℕ} (hw : WellFormed d size st)
    (hbase : base + placed d (eShnum d) ≤ 4294967296)
    (hf : (linkModule symbols m d base).functions = some functions) :
    Linked symbols d st base (linkModule symbols m d base) := by
  obtain ⟨f, hs⟩ := link_steps hw hbase (functions_exported hw hbase hf)
  obtain ⟨hinit, hcleanup⟩ := steps_found hw hs
  have hne : f.1 ≠ 0 := by
    intro h0
    rw [hs.functions, if_pos h0] at hf
    cases hf
  refine ⟨?_, ?_, ?_, f.1, f.2, by rw [hs.functions, if_neg hne], ?_, ?_, ?_⟩
  · intro i hi ha
    rw [hs.image.addresses i hi, sectionAddress, if_pos ha]
  · intro i hi ha n hn hout
    exact steps_bytes hw hbase hs hi ha hn hout
  · intro i r he
    exact steps_word hw hbase hs he
  · rcases hinit with ⟨i, -, hlast, hx⟩ | ⟨-, hx⟩
    · exact ⟨i, hlast, hx⟩
    · exact (hne hx).elim
  · intro i hlast
    rcases hcleanup with ⟨j, -, hj, hx⟩ | ⟨hnone, -⟩
    · rw [hx, lastNamed_unique hj hlast]
    · exact (hnone i hlast.1 (Nat.zero_le i) hlast.2.1).elim
  · intro hnone
    rcases hcleanup with ⟨j, -, hj, -⟩ | ⟨-, hx⟩
    · exact (hnone j hj.1 hj.2.1).elim
    · exact hx

/-- The block that is asked for lies in the address space when the heap can serve the request. -/
theorem served_block {s t : HeapTiling.System} {bs : List FirstFit.Block} {n : ℕ} (hv : HeapSizes.Valid s.heap bs)
    (hs : HeapSizes.Served s.heap bs n (HeapSizes.pagesOf n)) (h : take s n = .ok (base, t)) (h0 : base ≠ 0)
    (hn : 0 < n) : base + n ≤ 4294967296 := by
  obtain ⟨r, hr, he⟩ := map_ok h
  cases he
  obtain ⟨q, h', hk, hreal⟩ := HeapSizes.kmalloc_meets hv hs
  obtain rfl := Except.ok.inj (hr.symm.trans hk)
  exact HeapSizes.real_bound hv hn (hreal h0).2

/-- What a load leaves: the image is linked into the block, `module_init` is called when the descriptor has been
taken from the heap, and the descriptor has the functions. -/
structure Loaded (env : Env) (k : Kernel) (d : Mem) (st : ℕ) (out : Outcome) (base : ℕ) (l : Linking) : Prop where
  linked : Linked (kernelSymbols env.address) d st base l
  called : ∃ t u init cleanup addr name, take k.sys (blockSize d) = .ok (base, t) ∧
    l.functions = some (init, cleanup) ∧ take (withMem t l.mem) descriptorSize = .ok (addr, u) ∧
    out.kernel = run env { k with
      sys := u
      modules := describe addr base (blockSize d) name (init, cleanup) :: k.modules } init

/-- A load of a well-formed image that returns 0 has linked it as it is meant. -/
theorem load_links (hw : WellFormed d size st)
    (hblock : ∀ base t, take k.sys (blockSize d) = .ok (base, t) → base ≠ 0 → base + blockSize d ≤ 4294967296)
    {name : Option (List UInt8)} (hload : moduleLoadBinary env k name (some d) size = .ok out)
    (hzero : out.result = 0) : ∃ base l, Loaded env k d st out base l := by
  rcases load_cases hload with ⟨hfail, -⟩ | ⟨n, d', base, t, -, hd, -, -, ht, h0, l, hl, hreg⟩
  · rw [hfail] at hzero
    cases hzero
  cases hd
  obtain ⟨-, hout⟩ := register_cases hreg
  rcases hout with ⟨hfail, -⟩ | ⟨functions, addr, u, hfunctions, hu, -, -, hk⟩
  · rw [hfail] at hzero
    cases hzero
  have hbase := (Nat.add_le_add_left (placed_block hw.toLayout) base).trans (hblock base t ht h0)
  have hlinked := linkModule_linked hw hbase (hl ▸ hfunctions)
  rw [← hl] at hlinked
  exact ⟨base, l, hlinked, t, u, functions.1, functions.2, addr, n, ht, hfunctions, hu, hk⟩

end Links

/-! ## The small module -/

theorem sample_wellFormed : WellFormed (imageWith shtSymtab 257) 312 2 where
  bounded := by decide
  header := by decide
  headers := by decide +kernel
  few := by decide
  inside := by decide +kernel
  beside := by decide +kernel
  apart := by decide +kernel
  room := by decide +kernel
  symtab := by decide +kernel
  strings := by decide +kernel
  names := by decide +kernel
  indexes := by decide +kernel
  entries := by decide +kernel
  single := by decide +kernel

/-- The small module is linked and its function is called. -/
theorem load_links_sample : ∃ out base l,
    moduleLoadBinary sampleEnv sampleKernel (some []) (some (imageWith shtSymtab 257)) 312 = .ok out ∧
      Loaded sampleEnv sampleKernel (imageWith shtSymtab 257) 2 out base l := by
  have heval : resultOf (moduleLoadBinary sampleEnv sampleKernel (some []) (some (imageWith shtSymtab 257)) 312) =
      some 0 := by decide +kernel
  have hsize : blockSize (imageWith shtSymtab 257) = 4 := by decide +kernel
  have hserved : HeapSizes.Served sampleKernel.sys.heap HeapRealloc.pairBlocks 4 (HeapSizes.pagesOf 4) :=
    Or.inr (Or.inl ⟨by decide, ⟨4209, 500, true⟩, by simp [HeapRealloc.pairBlocks], rfl, by decide⟩)
  obtain ⟨out, hout, hzero⟩ := resultOf_some heval
  have hblock : ∀ base t, take sampleKernel.sys (blockSize (imageWith shtSymtab 257)) = .ok (base, t) → base ≠ 0 →
      base + blockSize (imageWith shtSymtab 257) ≤ 4294967296 := by
    rw [hsize]
    intro base t ht h0
    exact served_block sampleKernel_held.valid hserved ht h0 (by decide)
  obtain ⟨base, l, hl⟩ := load_links sample_wellFormed hblock hout hzero
  exact ⟨out, base, l, hout, hl⟩

end Dionnex.ModuleLinking
