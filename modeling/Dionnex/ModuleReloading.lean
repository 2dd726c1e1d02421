import Dionnex.ModuleLinking

/-!
# Loading an image again

The loader adds the address of a section to the value of each symbol in it, and
keeps the sum in the image. An image that has been linked once is well formed
still, but the next load adds to the sums of the first. So a reload is right
only where no symbol that matters has been moved.
-/

set_option autoImplicit false

namespace Dionnex.ModuleReloading
open ByteMemory Dionnex.KernelHeap Dionnex.KernelString
open Dionnex.ModuleImage Dionnex.ModuleLoader Dionnex.ModuleRelocations Dionnex.ModuleLinking

/-! ## The image after a load -/

section Kept

variable {d d' : Mem} {size st i r : ℕ}

theorem shoff_kept (hl : Layout d size st) (h : SameOff (changed d st) d d') : eShoff d' = eShoff d :=
  load32_kept h (by decide) (fun _ _ hx => ehdr_apart hl (lt_trans hx (by decide)))

theorem tables_kept (hl : Layout d size st) (h : SameOff (changed d st) d d') : tablesAt d' st = tablesAt d st := by
  have hf := same_fields hl h
  have hst := hl.symtab.1
  unfold tablesAt
  rw [shoff_kept hl h, hf.offset st hst, hf.link st hst, hf.offset _ hl.strings.1, hf.size st hst]

theorem inFile_kept (hl : Layout d size st) (h : SameOff (changed d st) d d') (hi : i < eShnum d) :
    InFile d' i ↔ InFile d i := by
  have hf := same_fields hl h
  unfold InFile
  rw [shoff_kept hl h, hf.type i hi, hf.size i hi]

theorem fileStop_kept (hl : Layout d size st) (h : SameOff (changed d st) d d') (hi : i < eShnum d) :
    fileStop d' i = fileStop d i := by
  have hf := same_fields hl h
  unfold fileStop
  rw [shoff_kept hl h, hf.offset i hi, hf.size i hi]

theorem headersStop_kept (hl : Layout d size st) (h : SameOff (changed d st) d d') :
    headersStop d' = headersStop d := by
  unfold headersStop
  rw [shoff_kept hl h, (same_fields hl h).shnum]

theorem allocated_kept (hl : Layout d size st) (h : SameOff (changed d st) d d') (hi : i < eShnum d) :
    Allocated d' i ↔ Allocated d i := by
  unfold Allocated
  rw [shoff_kept hl h, (same_fields hl h).flags i hi]

theorem placed_kept (hl : Layout d size st) (h : SameOff (changed d st) d d') (hi : i ≤ eShnum d) :
    placed d' i = placed d i := by
  unfold placed
  apply Finset.sum_congr rfl
  intro j hj
  have hlt := lt_of_lt_of_le (Finset.mem_range.mp hj) hi
  simp only [allocated_kept hl h hlt, shoff_kept hl h, (same_fields hl h).size j hlt]

theorem targetOf_kept (hl : Layout d size st) (h : SameOff (changed d st) d d') (hi : i < eShnum d) :
    targetOf d' i = targetOf d i := by
  unfold targetOf
  rw [shoff_kept hl h, (same_fields hl h).info i hi]

/-- An entry has the same word, symbol and type. -/
theorem relocation_kept (hl : Layout d size st) (h : SameOff (changed d st) d d') (hi : i < eShnum d)
    (hrel : shType d (eShoff d) i = shtRel) (hr : r < shSize d (eShoff d) i / 8) :
    wordAt d' i r = wordAt d i r ∧ symbolOf d' i r = symbolOf d i r ∧ typeOf d' i r = typeOf d i r := by
  obtain ⟨hinfo, hoffset⟩ := entry_kept hl h hi hrel hr
  have hsame : infoAt d' (eShoff d') i r = infoAt d (eShoff d) i r := by
    rw [infoAt, shoff_kept hl h, (same_fields hl h).offset i hi, hinfo]
  refine ⟨?_, ?_, ?_⟩
  · rw [wordAt, shoff_kept hl h, (same_fields hl h).offset i hi, hoffset]
  · rw [symbolOf, hsame, symbolOf]
  · rw [typeOf, hsame, typeOf]

theorem isEntry_kept (hl : Layout d size st) (h : SameOff (changed d st) d d') :
    IsEntry d' (eShoff d') i r ↔ IsEntry d (eShoff d) i r := by
  have hf := same_fields hl h
  unfold IsEntry
  rw [shoff_kept hl h, hf.shnum]
  apply and_congr_right
  intro hi
  rw [hf.type i hi, hf.info i hi, hf.size i hi]
  apply and_congr_right
  intro
  apply and_congr_right
  intro htarget
  rw [hf.flags _ htarget]

theorem layout_kept (hl : Layout d size st) (h : SameOff (changed d st) d d') : Layout d' size st := by
  have hf := same_fields hl h
  have hshoff := shoff_kept hl h
  have hshnum := hf.shnum
  have hst := hl.symtab
  refine ⟨hl.bounded, ?_, ?_, ?_, ?_, ?_, ?_, ?_, ?_, ?_, ?_⟩
  · rw [hshoff]
    exact hl.header
  · rw [headersStop_kept hl h]
    exact hl.headers
  · rw [hshnum]
    exact hl.few
  · intro i hi hfile
    rw [hshnum] at hi
    rw [hshoff, hf.offset i hi, fileStop_kept hl h hi]
    exact hl.inside i hi ((inFile_kept hl h hi).mp hfile)
  · intro i hi hfile
    rw [hshnum] at hi
    rw [fileStop_kept hl h hi, hshoff, headersStop_kept hl h, hf.offset i hi]
    exact hl.beside i hi ((inFile_kept hl h hi).mp hfile)
  · intro i hi j hj hfi hfj
    rw [hshnum] at hi hj
    rw [fileStop_kept hl h hi, fileStop_kept hl h hj, hshoff, hf.offset i hi, hf.offset j hj]
    exact hl.apart i hi j hj ((inFile_kept hl h hi).mp hfi) ((inFile_kept hl h hj).mp hfj)
  · rw [hshnum, placed_kept hl h le_rfl]
    exact hl.room
  · rw [hshnum, hshoff, hf.type st hst.1]
    refine ⟨hst.1, hst.2.1, ?_⟩
    intro i hi
    rw [hf.type i (lt_trans hi hst.1)]
    exact hst.2.2 i hi
  · rw [hshnum, hshoff, hf.link st hst.1, hf.type _ hl.strings.1]
    exact hl.strings
  · intro i hi hname
    rw [tables_kept hl h] at hi hname ⊢
    rw [hf.name i hi] at hname ⊢
    obtain ⟨n, hn, hlo, hend⟩ := hl.names i hi hname
    rw [hshoff, hf.link st hst.1, hf.size _ hl.strings.1]
    refine ⟨n, hn, hlo, ?_⟩
    rw [← hend]
    apply h
    obtain ⟨hlink, htype⟩ := hl.strings
    refine contents_apart hl hlink ⟨by rw [htype]; decide, Nat.zero_lt_of_lt hn⟩ ?_ (Nat.le_add_right _ _)
      (Nat.add_lt_add_left hn _)
    intro he
    rw [he, hst.2.1] at htype
    cases htype

/-- A linked image is well formed still. -/
theorem wellFormed_kept (hw : WellFormed d size st) (h : SameOff (changed d st) d d') : WellFormed d' size st := by
  have hl := hw.toLayout
  have hf := same_fields hl h
  have hshoff := shoff_kept hl h
  refine ⟨layout_kept hl h, ?_, ?_, ?_⟩
  · intro i hi
    rw [tables_kept hl h] at hi ⊢
    rw [hf.shndx i hi, hf.shnum]
    exact hw.indexes i hi
  · intro i hi hrel r hr
    rw [hf.shnum] at hi
    rw [hshoff, hf.type i hi] at hrel
    rw [hshoff, hf.size i hi] at hr
    obtain ⟨hword, hsym, htype⟩ := relocation_kept hl h hi hrel hr
    have hfits := hw.entries i hi hrel r hr
    have htarget := hfits.1.1
    unfold EntryFits
    rw [targetOf_kept hl h hi, hf.shnum, allocated_kept hl h htarget, hshoff, hf.type _ htarget, hword,
      hf.size _ htarget, hsym, htype, tables_kept hl h]
    exact hfits
  · intro i hi hrel r hr j hj hrelj q hq
    rw [hf.shnum] at hi hj
    rw [hshoff, hf.type i hi] at hrel
    rw [hshoff, hf.size i hi] at hr
    rw [hshoff, hf.type j hj] at hrelj
    rw [hshoff, hf.size j hj] at hq
    unfold WordsClear
    rw [targetOf_kept hl h hi, targetOf_kept hl h hj, (relocation_kept hl h hi hrel hr).1,
      (relocation_kept hl h hj hrelj hq).1]
    exact hw.single i hi hrel r hr j hj hrelj q hq

end Kept

/-! ## Symbols -/

/-- Symbol `i` belongs to a section, and not to one at address 0. -/
def Moved (d : Mem) (st base i : ℕ) : Prop :=
  let j := stShndx d (tablesAt d st).syms i
  j ≠ shnUndef ∧ j ≠ shnAbs ∧ wrap (sectionAddress d base j) ≠ 0

instance (d : Mem) (st base i : ℕ) : Decidable (Moved d st base i) := inferInstanceAs (Decidable (_ ∧ _))

/-- An entry asks for symbol `i`, or it is a function of the module. -/
def Used (d : Mem) (st i : ℕ) : Prop :=
  (∃ j r, IsEntry d (eShoff d) j r ∧ symbolOf d j r = i) ∨
    LastNamed d (tablesAt d st) moduleInitName i ∨ LastNamed d (tablesAt d st) moduleCleanupName i

section Again

variable {symbols : List (List UInt8 × ℕ)} {d d' : Mem} {size st base base' i r : ℕ} {V : ℕ → ℕ}

theorem symbolAddress_lt {t : Tables} : symbolAddress symbols d t base i < 4294967296 := by
  unfold symbolAddress
  split_ifs
  · exact wrap_lt _
  · exact load32_lt _ _
  · exact load32_lt _ _
  · exact wrap_lt _

theorem sectionAddress_kept (hl : Layout d size st) (h : Valued d st base V d') (hi : i < eShnum d) :
    sectionAddress d' base' i = sectionAddress d base' i := by
  unfold sectionAddress
  by_cases ha : Allocated d i
  · rw [if_pos ((allocated_kept hl h.image hi).mpr ha), if_pos ha, placed_kept hl h.image (Nat.le_of_lt hi)]
  · rw [if_neg (fun h' => ha ((allocated_kept hl h.image hi).mp h')), if_neg ha, shoff_kept hl h.image,
      h.addresses i hi, sectionAddress, if_neg ha]
    exact wrap_of_lt (load32_lt d _)

/-- A second load gives a symbol the right address exactly if the first did not move it. -/
theorem symbolAddress_again (hw : WellFormed d size st)
    (h : Valued d st base (symbolAddress symbols d (tablesAt d st) base) d') (hi : i < (tablesAt d st).symCount) :
    symbolAddress symbols d' (tablesAt d' st) base' i = symbolAddress symbols d (tablesAt d st) base' i ↔
      ¬ Moved d st base i := by
  have hl := hw.toLayout
  have hf := same_fields hl h.image
  have hvalue := h.values i hi
  unfold Moved symbolAddress
  dsimp only
  rw [tables_kept hl h.image, hf.shndx i hi, hf.name i hi]
  by_cases hundef : stShndx d (tablesAt d st).syms i = shnUndef
  · refine iff_of_true ?_ (fun hm => hm.1 hundef)
    rw [if_pos hundef, if_pos hundef]
    by_cases hname : stName d (tablesAt d st).syms i ≠ 0
    · rw [if_pos hname, if_pos hname, exported, resolve_kept hl h.image hi hname, exported]
    · rw [if_neg hname, if_neg hname, hvalue, symbolAddress, if_pos hundef, if_neg hname]
  · by_cases habs : stShndx d (tablesAt d st).syms i = shnAbs
    · refine iff_of_true ?_ (fun hm => hm.2.1 habs)
      rw [if_neg hundef, if_neg hundef, if_pos habs, if_pos habs, hvalue, symbolAddress, if_neg hundef, if_pos habs]
    · have hsec : stShndx d (tablesAt d st).syms i < eShnum d := (hw.indexes i hi).resolve_right habs
      rw [if_neg hundef, if_neg hundef, if_neg habs, if_neg habs, sectionAddress_kept hl h hsec, hvalue, symbolAddress,
        if_neg hundef, if_neg habs]
      -- the address of the section is in the sum once more
      have hlt : stValue d (tablesAt d st).syms i < 4294967296 := load32_lt d _
      simp only [ne_eq, hundef, habs, not_false_eq_true, true_and, not_not]
      unfold wrap
      omega

/-! ## Relocations -/

theorem placeOf_kept (hl : Layout d size st) (h : SameOff (changed d st) d d') (he : IsEntry d (eShoff d) i r) :
    placeOf d' base i r = placeOf d base i r := by
  obtain ⟨hi, hrel, htarget, -, hr⟩ := he
  have hplaced : placed d' (targetOf d i) = placed d (targetOf d i) := placed_kept hl h (Nat.le_of_lt htarget)
  unfold placeOf
  rw [targetOf_kept hl h hi, (relocation_kept hl h hi hrel hr).1, hplaced]

/-- The word in the file is that of the fresh image. -/
theorem original_kept (hw : WellFormed d size st) (h : SameOff (changed d st) d d') (he : IsEntry d (eShoff d) i r) :
    load32 d' (shOffset d' (eShoff d') (targetOf d' i) + wordAt d' i r) =
      load32 d (shOffset d (eShoff d) (targetOf d i) + wordAt d i r) := by
  have hl := hw.toLayout
  obtain ⟨hi, hrel, -, -, hr⟩ := he
  obtain ⟨⟨htarget, -, hprogbits⟩, hword, -, -⟩ := hw.entries i hi hrel r hr
  have hsize := hl.bounded
  have hfile : InFile d (targetOf d i) := ⟨by rw [hprogbits]; decide, by omega⟩
  have hinside := (hl.inside _ htarget hfile).2
  have hne : targetOf d i ≠ st := by
    intro hst
    rw [hst, hl.symtab.2.1] at hprogbits
    cases hprogbits
  rw [targetOf_kept hl h hi, shoff_kept hl h, (same_fields hl h).offset _ htarget, (relocation_kept hl h hi hrel hr).1]
  unfold fileStop at hinside
  apply load32_kept h (by omega)
  intro x hlo hhi
  apply contents_apart hl htarget hfile hne (by omega)
  unfold fileStop
  omega

theorem addend_kept (hl : Layout d size st) (h : SameOff (changed d st) d d') (he : IsEntry d (eShoff d) i r) :
    addend symbols d' (tablesAt d' st) base i r =
      if typeOf d i r = r386_pc32 then
        sub32 (symbolAddress symbols d' (tablesAt d' st) base (symbolOf d i r)) (placeOf d base i r)
      else symbolAddress symbols d' (tablesAt d' st) base (symbolOf d i r) := by
  obtain ⟨-, hsym, htype⟩ := relocation_kept hl h he.1 he.2.1 he.2.2.2.2
  unfold addend
  dsimp only
  rw [hsym, htype, placeOf_kept hl h he]

/-- A word tells the address of its symbol. -/
theorem addends_eq {s t w p type : ℕ} (hs : s < 4294967296) (ht : t < 4294967296) :
    wrap (w + if type = r386_pc32 then sub32 s p else s) = wrap (w + if type = r386_pc32 then sub32 t p else t) ↔
      s = t := by
  unfold sub32 wrap
  split_ifs <;> omega

end Again

/-! ## Contents -/

/-- The files of the allocated sections have the same bytes in both images. -/
def SameContents (d d1 d2 : Mem) : Prop := ∀ i < eShnum d, Allocated d i → InFile d i →
  ∀ x, shOffset d (eShoff d) i ≤ x → x < fileStop d i → d1 x = d2 x

section Contents

variable {d d' d1 d2 m : Mem} {size st base i : ℕ}

/-- The bytes of the symbol table are those of the file if its values are. -/
theorem symtab_kept (hl : Layout d size st) (h : SameOff (changed d st) d d')
    (hvalues : ∀ i < (tablesAt d st).symCount, stValue d' (tablesAt d st).syms i = stValue d (tablesAt d st).syms i)
    (hfile : InFile d st) {x : ℕ} (hlo : shOffset d (eShoff d) st ≤ x) (hhi : x < fileStop d st) : d' x = d x := by
  by_cases hx : x ∈ changed d st
  · rcases hx with ⟨j, hj, h1, h2⟩ | ⟨j, hj, h1, h2⟩
    · have hbeside := hl.beside st hl.symtab.1 hfile
      unfold headersStop at hbeside
      omega
    · have hinside := (hl.inside st hl.symtab.1 hfile).2
      have hsize := hl.bounded
      have hbyte := @load32_inj d' d _ _ (x - ((tablesAt d st).syms + 16*j + 4)) (hvalues j hj) (by omega)
      rw [Nat.add_sub_cancel' h1, wrap_of_lt (by omega)] at hbyte
      exact hbyte
  · exact h x hx

/-- An image whose symbol table is not copied, or has the values of the file, has the contents of the file. -/
theorem sameContents_kept (hl : Layout d size st) (h : SameOff (changed d st) d d')
    (hvalues : Allocated d st → ∀ i < (tablesAt d st).symCount,
      stValue d' (tablesAt d st).syms i = stValue d (tablesAt d st).syms i) : SameContents d d' d := by
  intro i hi ha hfile x hlo hhi
  by_cases hst : i = st
  · subst hst
    exact symtab_kept hl h (hvalues ha) hfile hlo hhi
  · exact h x (contents_apart hl hi hfile hst hlo hhi)

theorem copyIn_congr {dest offset n : ℕ} (hn : offset+n ≤ 4294967296)
    (h : ∀ x, offset ≤ x → x < offset+n → d1 x = d2 x) : copyIn m dest d1 offset n = copyIn m dest d2 offset n := by
  induction n generalizing m dest offset with
  | zero => rfl
  | succ n ih =>
    have hfirst : load8 d1 offset = load8 d2 offset := by
      apply load8_congr
      rw [wrap_of_lt (by omega)]
      exact h offset le_rfl (by omega)
    rw [copyIn, copyIn, hfirst]
    exact ih (by omega) (fun x hlo hhi => h x (by omega) (by omega))

theorem sameContents_set (hl : Layout d size st) (h : SameContents d d1 d2) (hi : i < eShnum d) (v : ℕ) :
    SameContents d (setShAddr d1 (eShoff d) i v) (setShAddr d2 (eShoff d) i v) := by
  intro j hj ha hfile x hlo hhi
  have hbeside := hl.beside j hj hfile
  unfold headersStop at hbeside
  have hout : x ∉ Set.Ico (eShoff d + 40*i + 12) (eShoff d + 40*i + 16) := by
    rintro ⟨h1, h2⟩
    omega
  rw [setShAddr_off hl hi v x hout, setShAddr_off hl hi v x hout]
  exact h j hj ha hfile x hlo hhi

theorem setShAddr_changed (hl : Layout d size st) (h : SameOff (changed d st) d d') (hi : i < eShnum d) (v : ℕ) :
    SameOff (changed d st) d (setShAddr d' (eShoff d) i v) :=
  h.trans ((setShAddr_off hl hi v).mono (fun _ hx => Or.inl ⟨i, hi, hx⟩))

theorem copySection_image {shdrs offset : ℕ} :
    (copySection m d shdrs base offset i).2 = setShAddr d shdrs i (base+offset) := by
  unfold copySection
  dsimp only
  split_ifs <;> rfl

theorem copySection_congr (hl : Layout d size st) (hd1 : SameOff (changed d st) d d1)
    (hd2 : SameOff (changed d st) d d2) (hsame : SameContents d d1 d2) (hi : i < eShnum d) (ha : Allocated d i)
    {offset : ℕ} :
    (copySection m d1 (eShoff d) base offset i).1 = (copySection m d2 (eShoff d) base offset i).1 := by
  have hf1 := same_fields hl (setShAddr_changed hl hd1 hi (base+offset))
  have hf2 := same_fields hl (setShAddr_changed hl hd2 hi (base+offset))
  have hbytes := sameContents_set hl hsame hi (base+offset) i hi ha
  unfold copySection
  dsimp only
  rw [hf1.type i hi, hf2.type i hi, hf1.size i hi, hf2.size i hi, hf1.offset i hi, hf2.offset i hi]
  by_cases htype : shType d (eShoff d) i = shtNobits
  · rw [if_pos htype, if_pos htype]
  · rw [if_neg htype, if_neg htype]
    by_cases hpos : 0 < shSize d (eShoff d) i
    · have hinside := (hl.inside i hi ⟨htype, hpos⟩).2
      have hsize := hl.bounded
      unfold fileStop at hinside
      rw [if_pos hpos, if_pos hpos]
      exact copyIn_congr (by omega) (hbytes ⟨htype, hpos⟩)
    · rw [if_neg hpos, if_neg hpos]

/-- Images with the same contents are copied to the same memory. -/
theorem copySections_congr (hl : Layout d size st) (hd1 : SameOff (changed d st) d d1)
    (hd2 : SameOff (changed d st) d d2) (hsame : SameContents d d1 d2) {offset n : ℕ} :
    (copySections m d1 (eShoff d) base offset i n).1 = (copySections m d2 (eShoff d) base offset i n).1 := by
  induction n generalizing m d1 d2 offset i with
  | zero => rfl
  | succ n ih =>
    have hf1 := same_fields hl hd1
    have hf2 := same_fields hl hd2
    rw [copySections, copySections, hf1.shnum, hf2.shnum]
    by_cases hi : i < eShnum d
    · rw [if_pos hi, if_pos hi, hf1.flags i hi, hf2.flags i hi]
      by_cases ha : shFlags d (eShoff d) i &&& shfAlloc ≠ 0
      · rw [if_pos ha, if_pos ha]
        have hset1 := setShAddr_changed hl hd1 hi (base+offset)
        have hset2 := setShAddr_changed hl hd2 hi (base+offset)
        dsimp only
        rw [copySection_congr hl hd1 hd2 hsame hi ha, copySection_image, copySection_image,
          (same_fields hl hset1).size i hi, (same_fields hl hset2).size i hi]
        exact ih hset1 hset2 (sameContents_set hl hsame hi (base+offset))
      · rw [if_neg ha, if_neg ha]
        exact ih hd1 hd2 hsame
    · rw [if_neg hi, if_neg hi]

end Contents

/-! ## Two linkings -/

/-- The same functions, and the same bytes in all sections. -/
structure SameModule (d : Mem) (base : ℕ) (l l' : Linking) : Prop where
  functions : l'.functions = l.functions
  bytes : ∀ i < eShnum d, Allocated d i → ∀ k < shSize d (eShoff d) i,
    l'.mem (base + placed d i + k) = l.mem (base + placed d i + k)

/-- The load with its block at `base` leaves something in the image that the next one goes wrong with: the moved
value of a symbol that is used, or any new value where the symbol table is itself part of the module. -/
def Stale (symbols : List (List UInt8 × ℕ)) (d : Mem) (st base : ℕ) : Prop :=
  (∃ i < (tablesAt d st).symCount, Used d st i ∧ Moved d st base i) ∨
    Allocated d st ∧ ∃ i < (tablesAt d st).symCount,
      symbolAddress symbols d (tablesAt d st) base i ≠ stValue d (tablesAt d st).syms i

section Linkings

variable {symbols : List (List UInt8 × ℕ)} {d d' m m' : Mem} {l l' : Linking} {f f' : ℕ × ℕ}
  {size st base base' i r : ℕ}

theorem named_kept (hl : Layout d size st) (h : SameOff (changed d st) d d') (hi : i < (tablesAt d st).symCount)
    (name : List UInt8) : Named d' (tablesAt d' st) name i ↔ Named d (tablesAt d st) name i := by
  unfold Named
  rw [tables_kept hl h, (same_fields hl h).name i hi]
  apply and_congr_right
  intro hname
  exact name_kept hl h hi hname name

theorem lastNamed_kept (hl : Layout d size st) (h : SameOff (changed d st) d d') (name : List UInt8) :
    LastNamed d' (tablesAt d' st) name i ↔ LastNamed d (tablesAt d st) name i := by
  have hcount : (tablesAt d' st).symCount = (tablesAt d st).symCount := congrArg Tables.symCount (tables_kept hl h)
  unfold LastNamed
  rw [hcount]
  apply and_congr_right
  intro hi
  rw [named_kept hl h hi]
  apply and_congr_right
  intro
  constructor
  · intro hlast j hj hij hn
    exact hlast j hj hij ((named_kept hl h hj name).mpr hn)
  · intro hlast j hj hij hn
    exact hlast j hj hij ((named_kept hl h hj name).mp hn)

/-- The values found for a name agree if the last symbol of the name has the same in both images. -/
theorem found_same {V V' : ℕ → ℕ} {name : List UInt8} {a x x' : ℕ} (hl : Layout d size st)
    (h : SameOff (changed d st) d d') (hx : Found d (tablesAt d st) V name 0 a x)
    (hx' : Found d' (tablesAt d' st) V' name 0 a x') :
    x' = x ↔ ∀ i, LastNamed d (tablesAt d st) name i → V' i = V i := by
  rcases hx with ⟨j, -, hlast, rfl⟩ | ⟨hnone, rfl⟩
  · have hfound : x' = V' j := by
      rcases hx' with ⟨q, -, hq, rfl⟩ | ⟨hnone, -⟩
      · rw [lastNamed_unique ((lastNamed_kept hl h name).mp hq) hlast]
      · have hlast' := (lastNamed_kept hl h name).mpr hlast
        exact (hnone j hlast'.1 (Nat.zero_le j) hlast'.2.1).elim
    rw [hfound]
    constructor
    · intro he i hi
      rw [lastNamed_unique hi hlast, he]
    · intro hall
      exact hall j hlast
  · have hno : ∀ i, ¬ LastNamed d (tablesAt d st) name i := fun i hi => hnone i hi.1 (Nat.zero_le i) hi.2.1
    refine iff_of_true ?_ (fun i hi => (hno i hi).elim)
    rcases hx' with ⟨q, -, hq, -⟩ | ⟨-, rfl⟩
    · exact (hno q ((lastNamed_kept hl h name).mp hq)).elim
    · rfl

/-- The words of an entry agree exactly if the first load did not move its symbol. -/
theorem word_same (hw : WellFormed d size st) (hv : Valued d st base (symbolAddress symbols d (tablesAt d st) base) d')
    (hbase : base' + placed d (eShnum d) ≤ 4294967296) (hbase' : base' + placed d' (eShnum d') ≤ 4294967296)
    (hs : Steps symbols d st base' l m f) (hs' : Steps symbols d' st base' l' m' f')
    (he : IsEntry d (eShoff d) i r) :
    load32 l'.mem (placeOf d base' i r) = load32 l.mem (placeOf d base' i r) ↔ ¬ Moved d st base (symbolOf d i r) := by
  have hl := hw.toLayout
  have hw' := wellFormed_kept hw hv.image
  have hsym := (hw.entries i he.1 he.2.1 r he.2.2.2.2).2.2.1
  have hword := steps_word hw hbase hs he
  have hword' := steps_word hw' hbase' hs' ((isEntry_kept hl hv.image).mpr he)
  rw [placeOf_kept hl hv.image he, original_kept hw hv.image he, addend_kept hl hv.image he] at hword'
  rw [hword, hword', addend, addends_eq symbolAddress_lt symbolAddress_lt]
  exact symbolAddress_again hw hv hsym

/-- The functions agree exactly if the first load did not move them. -/
theorem functions_same (hw : WellFormed d size st)
    (hv : Valued d st base (symbolAddress symbols d (tablesAt d st) base) d')
    (hs : Steps symbols d st base' l m f) (hs' : Steps symbols d' st base' l' m' f') :
    f' = f ↔ ∀ i, LastNamed d (tablesAt d st) moduleInitName i ∨ LastNamed d (tablesAt d st) moduleCleanupName i →
      ¬ Moved d st base i := by
  have hl := hw.toLayout
  obtain ⟨hinit, hcleanup⟩ := steps_found hw hs
  obtain ⟨hinit', hcleanup'⟩ := steps_found (wellFormed_kept hw hv.image) hs'
  rw [Prod.ext_iff, found_same hl hv.image hinit hinit', found_same hl hv.image hcleanup hcleanup']
  constructor
  · rintro ⟨h1, h2⟩ i (hlast | hlast)
    · exact (symbolAddress_again hw hv hlast.1).mp (h1 i hlast)
    · exact (symbolAddress_again hw hv hlast.1).mp (h2 i hlast)
  · intro h
    exact ⟨fun i hlast => (symbolAddress_again hw hv hlast.1).mpr (h i (Or.inl hlast)),
      fun i hlast => (symbolAddress_again hw hv hlast.1).mpr (h i (Or.inr hlast))⟩

/-- All of memory agrees after the relocations if it did before and no symbol of an entry was moved. -/
theorem mem_same (hw : WellFormed d size st) (hv : Valued d st base (symbolAddress symbols d (tablesAt d st) base) d')
    (hbase : base' + placed d (eShnum d) ≤ 4294967296) (hbase' : base' + placed d' (eShnum d') ≤ 4294967296)
    (hs : Steps symbols d st base' l m f) (hs' : Steps symbols d' st base' l' m f')
    (hstay : ∀ i r, IsEntry d (eShoff d) i r → ¬ Moved d st base (symbolOf d i r)) : l'.mem = l.mem := by
  have hl := hw.toLayout
  have hw' := wellFormed_kept hw hv.image
  funext x
  by_cases hx : ∃ i r, IsEntry d (eShoff d) i r ∧ placeOf d base' i r ≤ x ∧ x < placeOf d base' i r + 4
  · obtain ⟨i, r, he, hlo, hhi⟩ := hx
    have hbound := place_bound hw hbase he.1 he.2.1 he.2.2.2.2
    have hbyte := @load32_inj l'.mem l.mem _ _ (x - placeOf d base' i r)
      ((word_same hw hv hbase hbase' hs hs' he).mpr (hstay i r he)) (by omega)
    rw [Nat.add_sub_cancel' hlo, wrap_of_lt (by omega)] at hbyte
    exact hbyte
  · have hout : ∀ i r, IsEntry d (eShoff d) i r → x < placeOf d base' i r ∨ placeOf d base' i r + 4 ≤ x := by
      intro i r he
      by_contra hin
      exact hx ⟨i, r, he, by omega, by omega⟩
    have hout' : ∀ i r, IsEntry d' (eShoff d') i r → x < placeOf d' base' i r ∨ placeOf d' base' i r + 4 ≤ x := by
      intro i r he
      have hentry := (isEntry_kept hl hv.image).mp he
      rw [placeOf_kept hl hv.image hentry]
      exact hout i r hentry
    rw [hs.mem, hs'.mem, applied_off hw hbase hs.image hout, applied_off hw' hbase' hs'.image hout']

/-- Sections with the same bytes have the same words. -/
theorem sameModule_word (hw : WellFormed d size st) (hbase : base' + placed d (eShnum d) ≤ 4294967296)
    (h : SameModule d base' l l') (he : IsEntry d (eShoff d) i r) :
    load32 l'.mem (placeOf d base' i r) = load32 l.mem (placeOf d base' i r) := by
  obtain ⟨⟨htarget, halloc, -⟩, hword, -, -⟩ := hw.entries i he.1 he.2.1 r he.2.2.2.2
  have hbound := place_bound hw hbase he.1 he.2.1 he.2.2.2.2
  apply load32_bytes
  intro n hn
  have hbyte := h.bytes _ htarget halloc (wordAt d i r + n) (by omega)
  rw [← Nat.add_assoc] at hbyte
  rw [wrap_of_lt (by omega)]
  exact hbyte

/-- A symbol table that is part of the module shows the values it was linked with. -/
theorem sameModule_value (hw : WellFormed d size st) (hv : SameOff (changed d st) d d')
    (hbase : base' + placed d (eShnum d) ≤ 4294967296) (hbase' : base' + placed d' (eShnum d') ≤ 4294967296)
    (hs : Steps symbols d st base' l m f) (hs' : Steps symbols d' st base' l' m' f')
    (h : SameModule d base' l l') (ha : Allocated d st) (hi : i < (tablesAt d st).symCount) :
    stValue d' (tablesAt d st).syms i = stValue d (tablesAt d st).syms i := by
  have hl := hw.toLayout
  have hw' := wellFormed_kept hw hv
  have hf := same_fields hl hv
  obtain ⟨hst, htype, -⟩ := hl.symtab
  have hnobits : shType d (eShoff d) st ≠ shtNobits := by
    rw [htype]
    decide
  obtain ⟨hfile, -, hstop, hsize, -⟩ := symbol_range hl hi
  have hlt := hl.bounded
  unfold fileStop at hstop hsize
  have hstart : (tablesAt d st).syms = shOffset d (eShoff d) st := rfl
  rw [hstart] at hstop ⊢
  -- no entry relocates the symbol table
  have hnone : ∀ j r, IsEntry d (eShoff d) j r → targetOf d j ≠ st := by
    intro j r he hj
    have hprogbits := (hw.entries j he.1 he.2.1 r he.2.2.2.2).1.2.2
    rw [hj, htype] at hprogbits
    cases hprogbits
  apply load32_bytes
  intro n hn
  have hbyte := h.bytes st hst ha (16*i+4+n) (by omega)
  have hfirst := steps_bytes hw hbase hs hst ha (n := 16*i+4+n) (by omega)
    (fun j r he hj => (hnone j r he hj).elim)
  have hsecond := steps_bytes hw' hbase' hs' (hf.shnum.symm ▸ hst) ((allocated_kept hl hv hst).mpr ha) (n := 16*i+4+n)
    (by rw [shoff_kept hl hv, hf.size st hst]; omega)
    (fun j r he hj => (hnone j r ((isEntry_kept hl hv).mp he)
      ((targetOf_kept hl hv ((isEntry_kept hl hv).mp he).1).symm.trans hj)).elim)
  rw [placed_kept hl hv (Nat.le_of_lt hst), hbyte, hfirst] at hsecond
  unfold content at hsecond
  rw [if_neg hnobits, shoff_kept hl hv, hf.type st hst, if_neg hnobits, hf.offset st hst] at hsecond
  rw [wrap_of_lt (by omega)]
  rw [← Nat.add_assoc, ← Nat.add_assoc] at hsecond
  exact hsecond.symm

theorem exported_kept (hl : Layout d size st) (h : SameOff (changed d st) d d')
    (hall : AllExported symbols d (tablesAt d st) 0) : AllExported symbols d' (tablesAt d' st) 0 := by
  intro i hi hij hundef
  rw [tables_kept hl h] at hi hundef ⊢
  rw [(same_fields hl h).shndx i hi, (same_fields hl h).name i hi] at hundef
  rw [(same_fields hl h).name i hi, resolve_kept hl h hi hundef.2]
  exact hall i hi hij hundef

/-- Where the first load left nothing behind, linking again gives the same memory and the same functions. -/
theorem link_same (hw : WellFormed d size st) (hv : Valued d st base (symbolAddress symbols d (tablesAt d st) base) d')
    (hbase : base' + placed d (eShnum d) ≤ 4294967296) (hall : AllExported symbols d (tablesAt d st) 0)
    (hclear : ¬ Stale symbols d st base) : (linkModule symbols m d' base').mem = (linkModule symbols m d base').mem ∧
      (linkModule symbols m d' base').functions = (linkModule symbols m d base').functions := by
  have hl := hw.toLayout
  have hw' := wellFormed_kept hw hv.image
  have hbase' : base' + placed d' (eShnum d') ≤ 4294967296 := by
    rw [(same_fields hl hv.image).shnum, placed_kept hl hv.image le_rfl]
    exact hbase
  have hvalues : Allocated d st → ∀ i < (tablesAt d st).symCount,
      stValue d' (tablesAt d st).syms i = stValue d (tablesAt d st).syms i := by
    intro ha i hi
    rw [hv.values i hi]
    by_contra hne
    exact hclear (Or.inr ⟨ha, i, hi, hne⟩)
  have hcopied := @copySections_congr d d' d m size st base' 0 hl hv.image (SameOff.refl _ d)
    (sameContents_kept hl hv.image hvalues) 0 sectionLimit
  obtain ⟨f, hs⟩ := @link_steps symbols d m size st base' hw hbase hall
  obtain ⟨f', hs'⟩ := @link_steps symbols d' m size st base' hw' hbase' (exported_kept hl hv.image hall)
  rw [shoff_kept hl hv.image, hcopied] at hs'
  have hstay : ∀ i r, IsEntry d (eShoff d) i r → ¬ Moved d st base (symbolOf d i r) := by
    intro i r he hmoved
    have hsym := (hw.entries i he.1 he.2.1 r he.2.2.2.2).2.2.1
    exact hclear (Or.inl ⟨_, hsym, Or.inl ⟨i, r, he, rfl⟩, hmoved⟩)
  have hfunctions : f' = f := by
    rw [functions_same hw hv hs hs']
    intro i hlast hmoved
    rcases hlast with hlast | hlast
    · exact hclear (Or.inl ⟨i, hlast.1, Or.inr (Or.inl hlast), hmoved⟩)
    · exact hclear (Or.inl ⟨i, hlast.1, Or.inr (Or.inr hlast), hmoved⟩)
  exact ⟨mem_same hw hv hbase hbase' hs hs' hstay, by rw [hs'.functions, hs.functions, hfunctions]⟩

/-- A second linking that makes the same module has found nothing left behind. -/
theorem sameModule_clear {functions : ℕ × ℕ} (hw : WellFormed d size st)
    (hv : Valued d st base (symbolAddress symbols d (tablesAt d st) base) d')
    (hbase : base' + placed d (eShnum d) ≤ 4294967296) (hf : (linkModule symbols m d base').functions = some functions)
    (h : SameModule d base' (linkModule symbols m d base') (linkModule symbols m d' base')) :
    ¬ Stale symbols d st base := by
  have hl := hw.toLayout
  have hw' := wellFormed_kept hw hv.image
  have hbase' : base' + placed d' (eShnum d') ≤ 4294967296 := by
    rw [(same_fields hl hv.image).shnum, placed_kept hl hv.image le_rfl]
    exact hbase
  have hall := functions_exported hw hbase hf
  obtain ⟨f, hs⟩ := @link_steps symbols d m size st base' hw hbase hall
  obtain ⟨f', hs'⟩ := @link_steps symbols d' m size st base' hw' hbase' (exported_kept hl hv.image hall)
  have hsame : f' = f := by
    have hfunctions := h.functions
    rw [hf, hs'.functions] at hfunctions
    rw [hs.functions] at hf
    split_ifs at hf hfunctions
    rw [Option.some.inj hf, Option.some.inj hfunctions]
  rintro (⟨i, hi, ⟨j, r, he, rfl⟩ | hlast, hmoved⟩ | ⟨ha, i, hi, hne⟩)
  · exact (word_same hw hv hbase hbase' hs hs' he).mp (sameModule_word hw hbase h he) hmoved
  · exact (functions_same hw hv hs hs').mp hsame i hlast hmoved
  · have hvalue := sameModule_value hw hv.image hbase hbase' hs hs' h ha hi
    rw [hv.values i hi] at hvalue
    exact hne hvalue

end Linkings

/-! ## Two loads -/

/-- A load of the image passes its checks and gets the block at `base`. -/
def GetsBlock (k : Kernel) (name : Option (List UInt8)) (size : ℕ) (d : Mem) (base : ℕ) : Prop :=
  ∃ n t, name = some n ∧ isLoaded k n = false ∧ moduleValidateElf (some d) size = true ∧
    take k.sys (blockSize d) = .ok (base, t) ∧ base ≠ 0

/-- A load returns 0, and `l` is what it has linked into its block. -/
structure Links (env : Env) (k : Kernel) (name : List UInt8) (size : ℕ) (d : Mem) (base : ℕ) (l : Linking) : Prop where
  block : ∃ t, take k.sys (blockSize d) = .ok (base, t) ∧
    l = linkModule (kernelSymbols env.address) (memset t.heap.mem base 0 (blockSize d)) d base
  load : ∃ out, moduleLoadBinary env k (some name) (some d) size = .ok out ∧ out.result = 0 ∧
    out.image = some l.image

/-- The image `d'` loads as a fresh copy of it would. -/
def ReloadRight (env : Env) (k : Kernel) (name : List UInt8) (size : ℕ) (d d' : Mem) : Prop :=
  ∃ base l l', Links env k name size d base l ∧ Links env k name size d' base l' ∧ SameModule d base l l'

section Loads

variable {env : Env} {k k' : Kernel} {d d' : Mem} {l : Linking} {size st base : ℕ} {out first : Outcome}

theorem validate_size (h : moduleValidateElf (some d) size = true) : size ≠ 0 := by
  rintro rfl
  unfold moduleValidateElf at h
  dsimp only at h
  rw [if_pos (by decide)] at h
  cases h

/-- The load of an image that gets a block. -/
theorem load_block {n : List UInt8} {t : HeapTiling.System} (hloaded : isLoaded k n = false)
    (hvalid : moduleValidateElf (some d) size = true) (ht : take k.sys (blockSize d) = .ok (base, t)) (h0 : base ≠ 0)
    (hl : linkModule (kernelSymbols env.address) (memset t.heap.mem base 0 (blockSize d)) d base = l) :
    moduleLoadBinary env k (some n) (some d) size =
      registerModule env { k with sys := withMem t l.mem } n base (blockSize d) l := by
  unfold moduleLoadBinary
  dsimp only
  rw [if_neg (validate_size hvalid), if_neg (by rw [hloaded]; decide), if_neg (by rw [hvalid]; decide), ht]
  change (if base = 0 then _ else _) = _
  rw [if_neg h0]
  dsimp only
  rw [hl]

theorem blockSize_kept (hl : Layout d size st) (h : SameOff (changed d st) d d') : blockSize d' = blockSize d := by
  unfold blockSize
  rw [calcSize_placed hl, calcSize_placed (layout_kept hl h), (same_fields hl h).shnum, placed_kept hl h le_rfl]

theorem validate_kept (hl : Layout d size st) (h : SameOff (changed d st) d d') :
    moduleValidateElf (some d') size = moduleValidateElf (some d) size := by
  have hbyte : ∀ x < ehdrSize, load8 d' x = load8 d x := by
    intro x hx
    apply load8_off h
    rw [wrap_of_lt (lt_trans hx (by decide))]
    exact ehdr_apart hl hx
  have htype : eType d' = eType d := load16_kept h (by decide) (fun _ _ hx => ehdr_apart hl (lt_trans hx (by decide)))
  unfold moduleValidateElf
  dsimp only
  rw [hbyte 0 (by decide), hbyte 1 (by decide), hbyte 2 (by decide), hbyte 3 (by decide), hbyte 4 (by decide),
    hbyte 5 (by decide), htype, shoff_kept hl h, (same_fields hl h).shnum]

/-- A load that returns 0, with its block, its linking and its descriptor. -/
theorem load_zero {n : List UInt8} (h : moduleLoadBinary env k (some n) (some d) size = .ok out)
    (hzero : out.result = 0) : ∃ base t functions addr u, isLoaded k n = false ∧
      moduleValidateElf (some d) size = true ∧ take k.sys (blockSize d) = .ok (base, t) ∧ base ≠ 0 ∧
      ∃ l, linkModule (kernelSymbols env.address) (memset t.heap.mem base 0 (blockSize d)) d base = l ∧
        out.image = some l.image ∧ l.functions = some functions ∧
        take (withMem t l.mem) descriptorSize = .ok (addr, u) ∧ addr ≠ 0 := by
  rcases load_cases h with ⟨hfail, -⟩ | ⟨n', d', base, t, hn, hd, hloaded, hvalid, ht, h0, l, hl, hreg⟩
  · rw [hfail] at hzero
    cases hzero
  cases hn
  cases hd
  obtain ⟨⟨himage, -⟩, hout⟩ := register_cases hreg
  rcases hout with ⟨hfail, -⟩ | ⟨functions, addr, u, hfunctions, hu, haddr, -, -⟩
  · rw [hfail] at hzero
    cases hzero
  exact ⟨base, t, functions, addr, u, hloaded, hvalid, ht, h0, l, hl.symm, himage, hfunctions, hu, haddr⟩

theorem links_unique {name : List UInt8} {base' : ℕ} {l' : Linking} (h : Links env k name size d base l)
    (h' : Links env k name size d base' l') : base' = base ∧ l' = l := by
  obtain ⟨t, ht, rfl⟩ := h.block
  obtain ⟨t', ht', rfl⟩ := h'.block
  cases ht.symm.trans ht'
  exact ⟨rfl, rfl⟩

/-- Of a second load of a linked image, in a state in which a fresh copy loads. -/
theorem reload_linked {n : List UInt8} {base' : ℕ} {t : HeapTiling.System} (hw : WellFormed d size st)
    (hblock : ∀ base t, take k'.sys (blockSize d) = .ok (base, t) → base ≠ 0 → base + blockSize d ≤ 4294967296)
    (hbase : base' + placed d (eShnum d) ≤ 4294967296)
    (hd : d' = (linkModule (kernelSymbols env.address) (memset t.heap.mem base' 0 (blockSize d)) d base').image)
    (hload : moduleLoadBinary env k' (some n) (some d) size = .ok out) (hzero : out.result = 0) :
    ReloadRight env k' n size d d' ↔ ¬ Stale (kernelSymbols env.address) d st base' := by
  have hl := hw.toLayout
  obtain ⟨base, u, functions, addr, v, hloaded, hvalid, hu, h0, l, hlink, himage, hf, hv, haddr⟩ := load_zero hload hzero
  have hroom := (Nat.add_le_add_left (placed_block hl) base).trans (hblock base u hu h0)
  have hall : AllExported (kernelSymbols env.address) d (tablesAt d st) 0 :=
    functions_exported hw hroom (hlink ▸ hf)
  obtain ⟨f, hs⟩ := @link_steps _ d (memset t.heap.mem base' 0 (blockSize d)) size st base' hw hbase hall
  have hvalued := hs.image
  rw [← hd] at hvalued
  have hfresh : Links env k' n size d base l := ⟨⟨u, hu, hlink.symm⟩, out, hload, hzero, himage⟩
  have hsize := blockSize_kept hl hvalued.image
  constructor
  · rintro ⟨b, l1, l', h1, h2, hsame⟩
    obtain ⟨rfl, rfl⟩ := links_unique hfresh h1
    obtain ⟨u', hu', rfl⟩ := h2.block
    rw [hsize] at hu' hsame
    cases hu.symm.trans hu'
    rw [← hlink] at hsame hf
    exact sameModule_clear hw hvalued hroom hf hsame
  · intro hclear
    obtain ⟨hmem, hfunctions⟩ := @link_same _ d d' (memset u.heap.mem base 0 (blockSize d)) size st base' base
      hw hvalued hroom hall hclear
    rw [hlink] at hmem hfunctions
    generalize hagain : linkModule (kernelSymbols env.address) (memset u.heap.mem base 0 (blockSize d)) d' base = l' at *
    refine ⟨base, l, l', hfresh, ⟨⟨u, hsize.symm ▸ hu, ?_⟩, ?_⟩, hfunctions, fun i _ _ n _ => by rw [hmem]⟩
    · rw [hsize]
      exact hagain.symm
    · rw [load_block (l := l') hloaded ((validate_kept hl hvalued.image).trans hvalid) (hsize.symm ▸ hu) h0
        (by rw [hsize]; exact hagain)]
      unfold registerModule
      rw [hfunctions, hf, hmem]
      dsimp only
      rw [hv]
      change ∃ out, (if addr = 0 then _ else _) = Except.ok out ∧ _
      rw [if_neg haddr]
      exact ⟨_, rfl, rfl, rfl⟩

/-- In a state in which a fresh copy of a well-formed image loads, the image that an earlier load has been at,
whatever came of it, loads as the fresh copy does exactly if that load got no block or left nothing behind. -/
theorem reload_right_iff {name : Option (List UInt8)} {n : List UInt8} (hw : WellFormed d size st)
    (hblock : ∀ base t, take k.sys (blockSize d) = .ok (base, t) → base ≠ 0 → base + blockSize d ≤ 4294967296)
    (hblock' : ∀ base t, take k'.sys (blockSize d) = .ok (base, t) → base ≠ 0 → base + blockSize d ≤ 4294967296)
    (hfirst : moduleLoadBinary env k name (some d) size = .ok first) (himage : first.image = some d')
    (hload : moduleLoadBinary env k' (some n) (some d) size = .ok out) (hzero : out.result = 0) :
    ReloadRight env k' n size d d' ↔
      ¬ ∃ base, GetsBlock k name size d base ∧ Stale (kernelSymbols env.address) d st base := by
  by_cases hgets : ∃ base, GetsBlock k name size d base
  · obtain ⟨base, n', t, rfl, hloaded, hvalid, ht, h0⟩ := hgets
    have hbase := (Nat.add_le_add_left (placed_block hw.toLayout) base).trans (hblock base t ht h0)
    rw [load_block hloaded hvalid ht h0 rfl] at hfirst
    have hd := Option.some.inj (himage.symm.trans (register_cases hfirst).1.1)
    rw [reload_linked hw hblock' hbase hd hload hzero]
    constructor
    · rintro hclear ⟨base', ⟨n'', t', -, -, -, ht', -⟩, hstale⟩
      cases ht.symm.trans ht'
      exact hclear hstale
    · intro hno hstale
      exact hno ⟨base, ⟨n', t, rfl, hloaded, hvalid, ht, h0⟩, hstale⟩
  · refine iff_of_true ?_ (fun ⟨base, hb, _⟩ => hgets ⟨base, hb⟩)
    rcases load_cases hfirst with ⟨-, -, -, -, hsame⟩ | ⟨n', d1, base, t, rfl, hd1, hloaded, hvalid, ht, h0, -⟩
    · obtain rfl := Option.some.inj (himage.symm.trans hsame)
      obtain ⟨base, u, functions, addr, v, -, -, hu, -, l, hlink, hl, -⟩ := load_zero hload hzero
      have hlinks : Links env k' n size d' base l := ⟨⟨u, hu, hlink.symm⟩, out, hload, hzero, hl⟩
      exact ⟨base, l, l, hlinks, hlinks, rfl, fun i _ _ n _ => rfl⟩
    · cases hd1
      exact (hgets ⟨base, n', t, rfl, hloaded, hvalid, ht, h0⟩).elim

end Loads

/-! ## The small module -/

section Sample

variable {symbols : List (List UInt8 × ℕ)} {base : ℕ}

/-- Wherever the small module is loaded, its function is moved. -/
theorem sample_stale (h0 : base ≠ 0) (hbase : base < 4294967296) : Stale symbols (imageWith shtSymtab 257) 2 base := by
  have hlast : LastNamed (imageWith shtSymtab 257) (tablesAt (imageWith shtSymtab 257) 2) moduleInitName 1 := by
    refine ⟨by decide +kernel, by decide +kernel, ?_⟩
    have hcount : (tablesAt (imageWith shtSymtab 257) 2).symCount = 2 := by decide +kernel
    intro j hj hlt
    omega
  have hsection : stShndx (imageWith shtSymtab 257) (tablesAt (imageWith shtSymtab 257) 2).syms 1 = 1 := by
    decide +kernel
  have haddr : sectionAddress (imageWith shtSymtab 257) base 1 = base := by
    have hplaced : placed (imageWith shtSymtab 257) 1 = 0 := by decide +kernel
    rw [sectionAddress, if_pos (by decide +kernel), hplaced, Nat.add_zero]
  refine Or.inl ⟨1, hlast.1, Or.inr (Or.inl hlast), ?_⟩
  unfold Moved
  dsimp only
  rw [hsection, haddr, wrap_of_lt hbase]
  exact ⟨by decide, by decide, h0⟩

theorem sample_blocks : ∀ base t, take sampleKernel.sys (blockSize (imageWith shtSymtab 257)) = .ok (base, t) →
    base ≠ 0 → base + blockSize (imageWith shtSymtab 257) ≤ 4294967296 := by
  have hsize : blockSize (imageWith shtSymtab 257) = 4 := by decide +kernel
  have hserved : HeapSizes.Served sampleKernel.sys.heap HeapRealloc.pairBlocks 4 (HeapSizes.pagesOf 4) :=
    Or.inr (Or.inl ⟨by decide, ⟨4209, 500, true⟩, by simp [HeapRealloc.pairBlocks], rfl, by decide⟩)
  rw [hsize]
  intro base t ht h0
  exact served_block sampleKernel_held.valid hserved ht h0 (by decide)

/-- The image of the small module does not load a second time as it did the first. -/
theorem reload_right_iff_sample : ∃ first d',
    moduleLoadBinary sampleEnv sampleKernel (some []) (some (imageWith shtSymtab 257)) 312 = .ok first ∧
      first.image = some d' ∧ ¬ ReloadRight sampleEnv sampleKernel [] 312 (imageWith shtSymtab 257) d' := by
  have heval : resultOf (moduleLoadBinary sampleEnv sampleKernel (some []) (some (imageWith shtSymtab 257)) 312) =
      some 0 := by decide +kernel
  have hsize : blockSize (imageWith shtSymtab 257) = 4 := by decide +kernel
  obtain ⟨first, hfirst, hzero⟩ := resultOf_some heval
  obtain ⟨base, t, functions, addr, u, hloaded, hvalid, ht, h0, l, -, himage, -⟩ := load_zero hfirst hzero
  have hroom := sample_blocks base t ht h0
  refine ⟨first, l.image, hfirst, himage, ?_⟩
  rw [reload_right_iff sample_wellFormed sample_blocks sample_blocks hfirst himage hfirst hzero, not_not]
  exact ⟨base, ⟨[], t, rfl, hloaded, hvalid, ht, h0⟩, sample_stale h0 (by omega)⟩

/-- The results of a load, of the unload after it and of the load of a fresh copy after both, and the block of the
last. -/
def reloadReport (d : Mem) (size : ℕ) : Option (ℤ × ℤ × ℤ × ℕ) := do
  let first ← (moduleLoadBinary sampleEnv sampleKernel (some []) (some d) size).toOption
  let unload ← (moduleUnloadBinary sampleEnv first.kernel (some [])).toOption
  let fresh ← (moduleLoadBinary sampleEnv unload.2 (some []) (some d) size).toOption
  let block ← (take unload.2.sys (blockSize d)).toOption
  return (first.result, unload.1, fresh.result, block.1)

theorem toOption_ok {α : Type} {x : Except Fault α} {a : α} (h : x.toOption = some a) : x = .ok a := by
  cases x with
  | error e => cases h
  | ok b => exact congrArg Except.ok (Option.some.inj h)

theorem report_runs {d : Mem} {size b : ℕ} {x y z : ℤ} (h : reloadReport d size = some (x, y, z, b)) :
    ∃ first k' fresh t, moduleLoadBinary sampleEnv sampleKernel (some []) (some d) size = .ok first ∧
      first.result = x ∧ moduleUnloadBinary sampleEnv first.kernel (some []) = .ok (y, k') ∧
      moduleLoadBinary sampleEnv k' (some []) (some d) size = .ok fresh ∧ fresh.result = z ∧
      take k'.sys (blockSize d) = .ok (b, t) := by
  obtain ⟨first, hfirst, h⟩ := Option.bind_eq_some_iff.mp h
  obtain ⟨unload, hunload, h⟩ := Option.bind_eq_some_iff.mp h
  obtain ⟨fresh, hfresh, h⟩ := Option.bind_eq_some_iff.mp h
  obtain ⟨block, hblock, h⟩ := Option.bind_eq_some_iff.mp h
  cases h
  exact ⟨first, unload.2, fresh, block.2, toOption_ok hfirst, rfl, toOption_ok hunload, toOption_ok hfresh, rfl,
    toOption_ok hblock⟩

/-- Loaded, unloaded and loaded again, the small module has its function in the wrong place. -/
theorem reload_moved : ¬ ∀ (env : Env) (k k' : Kernel) (name : List UInt8) (d d' : Mem) (size st : ℕ)
    (first fresh : Outcome), WellFormed d size st → moduleLoadBinary env k (some name) (some d) size = .ok first →
      first.result = 0 → first.image = some d' → moduleUnloadBinary env first.kernel (some name) = .ok (0, k') →
        moduleLoadBinary env k' (some name) (some d) size = .ok fresh → fresh.result = 0 →
          ReloadRight env k' name size d d' := by
  intro hclaim
  have heval : reloadReport (imageWith shtSymtab 257) 312 = some (0, 0, 0, 4222) := by decide +kernel
  have hsize : blockSize (imageWith shtSymtab 257) = 4 := by decide +kernel
  obtain ⟨first, k', fresh, u, hfirst, hzero, hunload, hfresh, hdone, hu⟩ := report_runs heval
  obtain ⟨base, t, functions, addr, v, -, -, ht, h0, l, hl, himage, -⟩ := load_zero hfirst hzero
  have hroom := sample_blocks base t ht h0
  have hbase := (Nat.add_le_add_left (placed_block sample_wellFormed.toLayout) base).trans hroom
  have hblock : ∀ b s, take k'.sys (blockSize (imageWith shtSymtab 257)) = .ok (b, s) → b ≠ 0 →
      b + blockSize (imageWith shtSymtab 257) ≤ 4294967296 := by
    intro b s hs _
    cases hu.symm.trans hs
    rw [hsize]
    decide
  have hright := hclaim sampleEnv sampleKernel k' [] _ l.image 312 2 first fresh sample_wellFormed hfirst hzero himage
    hunload hfresh hdone
  rw [reload_linked sample_wellFormed hblock hbase (congrArg Linking.image hl.symm) hfresh hdone] at hright
  exact hright (sample_stale h0 (by omega))

end Sample

end Dionnex.ModuleReloading
