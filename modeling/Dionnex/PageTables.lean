import Dionnex.ByteMemory

/-!
# Two-level page tables

The 32-bit scheme: a directory of 1024 words whose present entries give the
frame and the flags of a table of 1024 words. Tables live in raw frames of
memory, so everything rests on their being apart: no table is the directory
and no two directory entries share a table. Under that condition a write of
one entry changes the translation of one page, and a new empty table
changes none.
-/

set_option autoImplicit false

namespace PageTables
open ByteMemory

def dirIndex (va : ℕ) : ℕ := va / 4194304 % 1024

def tblIndex (va : ℕ) : ℕ := va / 4096 % 1024

/-- The frame an entry or an address belongs to. -/
def frameOf (e : ℕ) : ℕ := e / 4096 * 4096

def Present (e : ℕ) : Prop := e % 2 = 1

instance (e : ℕ) : Decidable (Present e) := inferInstanceAs (Decidable (_ = _))

def entry (m : Mem) (base i : ℕ) : ℕ := load32 m (base+4*i)

def setEntry (m : Mem) (base i v : ℕ) : Mem := store32 m (base+4*i) v

/-- `n` consecutive entries from `i` on, written upwards. -/
def fillEntries (m : Mem) (base : ℕ) (f : ℕ → ℕ) (i : ℕ) : ℕ → Mem
  | 0 => m
  | n+1 => fillEntries (setEntry m base i (f i)) base f (i+1) n

def pde (m : Mem) (dir va : ℕ) : ℕ := entry m dir (dirIndex va)

/-- The table entry of a page; 0, which is not present, where there is no table. -/
def pte (m : Mem) (dir va : ℕ) : ℕ :=
  if Present (pde m dir va) then entry m (frameOf (pde m dir va)) (tblIndex va) else 0

/-- The translation that the tables give. -/
def translate (m : Mem) (dir va : ℕ) : Option ℕ :=
  if Present (pte m dir va) then some (frameOf (pte m dir va) + va % 4096) else none

/-- The address of a frame. -/
def Aligned (a : ℕ) : Prop := a % 4096 = 0 ∧ a < 4294967296

def tables (m : Mem) (dir : ℕ) : Set ℕ :=
  {t | ∃ i < 1024, Present (entry m dir i) ∧ t = frameOf (entry m dir i)}

/-- The bytes of the directory and of its tables. -/
def footprint (m : Mem) (dir : ℕ) : Set ℕ := {x | frameOf x = dir ∨ frameOf x ∈ tables m dir}

structure Apart (m : Mem) (dir : ℕ) : Prop where
  aligned : Aligned dir
  notDir : ∀ i < 1024, Present (entry m dir i) → frameOf (entry m dir i) ≠ dir
  distinct : ∀ i < 1024, ∀ j < 1024, Present (entry m dir i) → Present (entry m dir j) →
    frameOf (entry m dir i) = frameOf (entry m dir j) → i = j

theorem dirIndex_lt (va : ℕ) : dirIndex va < 1024 := Nat.mod_lt _ (by decide)

theorem tblIndex_lt (va : ℕ) : tblIndex va < 1024 := Nat.mod_lt _ (by decide)

theorem same_page {va wa : ℕ} (hv : va < 4294967296) (hw : wa < 4294967296) :
    dirIndex wa = dirIndex va ∧ tblIndex wa = tblIndex va ↔ wa/4096 = va/4096 := by
  unfold dirIndex tblIndex
  omega

theorem entry_lt (m : Mem) (base i : ℕ) : entry m base i < 4294967296 := load32_lt m _

theorem frameOf_aligned {e : ℕ} (h : e < 4294967296) : Aligned (frameOf e) := by
  unfold Aligned frameOf
  omega

theorem aligned_frame {a : ℕ} (h : Aligned a) : frameOf a = a := by
  unfold Aligned at h
  unfold frameOf
  omega

theorem span_frame {a : ℕ} (h : Aligned a) : span a 4096 = {x | frameOf x = a} := by
  unfold Aligned at h
  rw [span_eq (by omega)]
  ext x
  simp only [Set.mem_Ico, Set.mem_ofPred_eq, frameOf]
  omega

theorem span_entry {a i : ℕ} (h : Aligned a) (hi : i < 1024) :
    span (a+4*i) 4 = Set.Ico (a+4*i) (a+4*i+4) := by
  unfold Aligned at h
  exact span_eq (by omega)

/-- An entry lies in its table. -/
theorem entry_frame {a i x : ℕ} (h : Aligned a) (hi : i < 1024) (hx : x ∈ span (a+4*i) 4) :
    frameOf x = a := by
  rw [span_entry h hi, Set.mem_Ico] at hx
  unfold Aligned at h
  unfold frameOf
  omega

theorem frameOf_flags {a f : ℕ} (h : Aligned a) (hf : f < 4096) : frameOf (a+f) = a := by
  unfold Aligned at h
  unfold frameOf
  omega

theorem entry_set_same (m : Mem) (base i v : ℕ) : entry (setEntry m base i v) base i = wrap v :=
  load32_store32 m _ v

theorem setEntry_off (m : Mem) (base i v : ℕ) :
    SameOff (span (base+4*i) 4) m (setEntry m base i v) := store32_off m _ v

theorem setEntry_frame (m : Mem) {base i : ℕ} (v : ℕ) (h : Aligned base) (hi : i < 1024) :
    SameOff {x | frameOf x = base} m (setEntry m base i v) :=
  (setEntry_off m base i v).mono (fun _ hx => entry_frame h hi hx)

/-- Memory that agrees on a whole frame has the same entries there. -/
theorem entry_off {R : Set ℕ} {m m' : Mem} {base i : ℕ} (hm : SameOff R m m') (h : Aligned base)
    (hi : i < 1024) (hd : ∀ x, frameOf x = base → x ∉ R) : entry m' base i = entry m base i := by
  refine load32_off hm (Set.disjoint_left.mpr (fun x hx => ?_))
  exact hd x (entry_frame h hi hx)

theorem entry_set_frame {m : Mem} {a b i j : ℕ} (v : ℕ) (ha : Aligned a) (hb : Aligned b)
    (hi : i < 1024) (hj : j < 1024) (hne : b ≠ a) :
    entry (setEntry m a i v) b j = entry m b j := by
  refine entry_off (setEntry_frame m v ha hi) hb hj (fun x hx hxa => ?_)
  exact hne (hx.symm.trans hxa)

theorem entry_set_index {m : Mem} {a i j : ℕ} (v : ℕ) (ha : Aligned a) (hi : i < 1024)
    (hj : j < 1024) (hne : j ≠ i) : entry (setEntry m a i v) a j = entry m a j := by
  refine load32_off (setEntry_off m a i v) ?_
  rw [span_entry ha hi, span_entry ha hj]
  refine Set.disjoint_left.mpr (fun x hx hxi => ?_)
  rw [Set.mem_Ico] at hx hxi
  omega

theorem fill_off {base : ℕ} (h : Aligned base) (f : ℕ → ℕ) (m : Mem) (i n : ℕ)
    (hn : i+n ≤ 1024) : SameOff {x | frameOf x = base} m (fillEntries m base f i n) := by
  induction n generalizing m i with
  | zero => exact SameOff.refl _ m
  | succ n ih =>
    have hset := setEntry_frame m (f i) h (show i < 1024 by omega)
    exact hset.trans (ih (setEntry m base i (f i)) (i+1) (by omega))

theorem fill_entry {base : ℕ} (h : Aligned base) (f : ℕ → ℕ) (m : Mem) (i n j : ℕ)
    (hn : i+n ≤ 1024) (hj : j < 1024) :
    entry (fillEntries m base f i n) base j =
      if i ≤ j ∧ j < i+n then wrap (f j) else entry m base j := by
  induction n generalizing m i with
  | zero =>
    rw [fillEntries, if_neg (by omega)]
  | succ n ih =>
    rw [fillEntries, ih _ (i+1) (by omega)]
    by_cases hin : i+1 ≤ j ∧ j < i+1+n
    · rw [if_pos hin, if_pos (by omega)]
    · rw [if_neg hin]
      by_cases hij : j = i
      · subst hij
        rw [entry_set_same, if_pos (by omega)]
      · rw [entry_set_index (f i) h (by omega) hj hij, if_neg (by omega)]

theorem setEntry_both {R : Set ℕ} {m m' : Mem} (h : SameOff R m m') (base i v : ℕ) :
    SameOff (R \ span (base+4*i) 4) (setEntry m base i v) (setEntry m' base i v) :=
  store32_both h _ v

theorem fill_both {R : Set ℕ} {m m' : Mem} (h : SameOff R m m') (base : ℕ) (f : ℕ → ℕ) (i n : ℕ) :
    SameOff (R \ span (base+4*i) (4*n)) (fillEntries m base f i n) (fillEntries m' base f i n) := by
  induction n generalizing R m m' i with
  | zero =>
    rw [Nat.mul_zero, span_zero, Set.sdiff_empty]
    exact h
  | succ n ih =>
    refine (ih (setEntry_both h base i (f i)) (i+1)).mono ?_
    rintro x ⟨⟨hr, h1⟩, h2⟩
    refine ⟨hr, ?_⟩
    rintro ⟨k, hk, rfl⟩
    by_cases hk4 : k < 4
    · exact h1 ⟨k, hk4, rfl⟩
    · exact h2 ⟨k-4, by omega, by rw [show base+4*(i+1)+(k-4) = base+4*i+k by omega]⟩

/-- A whole table written to both memories is the same in both. -/
theorem fill_table_both {R : Set ℕ} {m m' : Mem} {base : ℕ} (hm : SameOff R m m') (h : Aligned base)
    (f : ℕ → ℕ) :
    SameOff (R \ {x | frameOf x = base}) (fillEntries m base f 0 1024) (fillEntries m' base f 0 1024) := by
  rw [← span_frame h]
  exact fill_both hm base f 0 1024

theorem mem_tables {m : Mem} {dir va : ℕ} (h : Present (pde m dir va)) :
    frameOf (pde m dir va) ∈ tables m dir := ⟨dirIndex va, dirIndex_lt va, h, rfl⟩

theorem tables_aligned {m : Mem} {dir t : ℕ} (h : t ∈ tables m dir) : Aligned t := by
  obtain ⟨i, -, -, rfl⟩ := h
  exact frameOf_aligned (entry_lt m dir i)

theorem dir_not_table {m : Mem} {dir : ℕ} (h : Apart m dir) : dir ∉ tables m dir := by
  rintro ⟨i, hi, hp, he⟩
  exact h.notDir i hi hp he.symm

/-- Where the directory reads the same, so do its tables and their separation. -/
theorem Apart.congr {m m' : Mem} {dir : ℕ} (h : Apart m dir)
    (he : ∀ i < 1024, entry m' dir i = entry m dir i) : Apart m' dir ∧ tables m' dir = tables m dir := by
  refine ⟨⟨h.aligned, ?_, ?_⟩, ?_⟩
  · intro i hi
    rw [he i hi]
    exact h.notDir i hi
  · intro i hi j hj
    rw [he i hi, he j hj]
    exact h.distinct i hi j hj
  · ext t
    constructor
    · rintro ⟨i, hi, hp, ht⟩
      rw [he i hi] at hp ht
      exact ⟨i, hi, hp, ht⟩
    · rintro ⟨i, hi, hp, ht⟩
      rw [← he i hi] at hp ht
      exact ⟨i, hi, hp, ht⟩

theorem pde_congr {m m' : Mem} {dir : ℕ} (he : ∀ i < 1024, entry m' dir i = entry m dir i)
    (va : ℕ) : pde m' dir va = pde m dir va := he _ (dirIndex_lt va)

/-- Writes outside the directory and its tables change nothing. -/
theorem tables_off {R : Set ℕ} {m m' : Mem} {dir : ℕ} (h : Apart m dir) (hm : SameOff R m m')
    (hd : Disjoint R (footprint m dir)) :
    Apart m' dir ∧ tables m' dir = tables m dir ∧
      ∀ va, pde m' dir va = pde m dir va ∧ pte m' dir va = pte m dir va := by
  have hentry : ∀ i < 1024, entry m' dir i = entry m dir i := fun i hi =>
    entry_off hm h.aligned hi (fun x hx hr => Set.disjoint_left.mp hd hr (Or.inl hx))
  obtain ⟨hapart, htables⟩ := h.congr hentry
  refine ⟨hapart, htables, fun va => ⟨pde_congr hentry va, ?_⟩⟩
  unfold pte
  rw [pde_congr hentry va]
  by_cases hp : Present (pde m dir va)
  · have ht := mem_tables hp
    rw [if_pos hp, if_pos hp]
    refine entry_off hm (tables_aligned ht) (tblIndex_lt va) (fun x hx hr => ?_)
    rw [← hx] at ht
    exact Set.disjoint_left.mp hd hr (Or.inr ht)
  · rw [if_neg hp, if_neg hp]

/-- A write of the entry of one page. -/
theorem set_pte {m : Mem} {dir va : ℕ} (v : ℕ) (h : Apart m dir) (hp : Present (pde m dir va))
    (hva : va < 4294967296) :
    let m' := setEntry m (frameOf (pde m dir va)) (tblIndex va) v
    Apart m' dir ∧ tables m' dir = tables m dir ∧ (∀ wa, pde m' dir wa = pde m dir wa) ∧
      ∀ wa < 4294967296, pte m' dir wa = if wa/4096 = va/4096 then wrap v else pte m dir wa := by
  intro m'
  have ht := mem_tables hp
  have hal := tables_aligned ht
  have hentry : ∀ i < 1024, entry m' dir i = entry m dir i := by
    intro i hi
    exact entry_set_frame v hal h.aligned (tblIndex_lt va) hi
      (ne_of_mem_of_not_mem ht (dir_not_table h)).symm
  obtain ⟨hapart, htables⟩ := h.congr hentry
  refine ⟨hapart, htables, pde_congr hentry, fun wa hwa => ?_⟩
  unfold pte
  rw [pde_congr hentry wa]
  by_cases hdir : dirIndex wa = dirIndex va
  · have hpde : pde m dir wa = pde m dir va := by unfold pde; rw [hdir]
    rw [hpde, if_pos hp, if_pos hp]
    by_cases htbl : tblIndex wa = tblIndex va
    · rw [if_pos ((same_page hva hwa).mp ⟨hdir, htbl⟩), htbl]
      exact entry_set_same m _ _ v
    · have hne : ¬ wa/4096 = va/4096 := fun he => htbl ((same_page hva hwa).mpr he).2
      rw [if_neg hne]
      exact entry_set_index v hal (tblIndex_lt va) (tblIndex_lt wa) htbl
  · have hne : ¬ wa/4096 = va/4096 := fun he => hdir ((same_page hva hwa).mpr he).1
    rw [if_neg hne]
    by_cases hpw : Present (pde m dir wa)
    · rw [if_pos hpw, if_pos hpw]
      refine entry_set_frame v hal (tables_aligned (mem_tables hpw)) (tblIndex_lt va) (tblIndex_lt wa) ?_
      intro he
      exact hdir (h.distinct _ (dirIndex_lt wa) _ (dirIndex_lt va) hpw hp he)
    · rw [if_neg hpw, if_neg hpw]

/-! A directory whose entry `i`, absent before, is `e` with a table in the frame `pt`. -/

section Added

variable {m m' : Mem} {dir pt i e : ℕ}

theorem added_old {j : ℕ} (hentry : ∀ j < 1024, entry m' dir j = if j = i then e else entry m dir j) (hj : j < 1024)
    (hji : j ≠ i) (hp : Present (entry m' dir j)) :
    Present (entry m dir j) ∧ frameOf (entry m' dir j) = frameOf (entry m dir j) := by
  rw [hentry j hj, if_neg hji] at hp ⊢
  exact ⟨hp, rfl⟩

theorem added_tables (habs : ¬ Present (entry m dir i)) (hpres : Present e) (hframe : frameOf e = pt)
    (hentry : ∀ j < 1024, entry m' dir j = if j = i then e else entry m dir j) (hi : i < 1024) :
    tables m' dir = insert pt (tables m dir) := by
  have hi' : entry m' dir i = e := by rw [hentry i hi, if_pos rfl]
  ext t
  rw [Set.mem_insert_iff]
  constructor
  · rintro ⟨j, hj, hp, rfl⟩
    by_cases hji : j = i
    · subst hji
      exact Or.inl (hi' ▸ hframe)
    · obtain ⟨hpo, hf⟩ := added_old hentry hj hji hp
      exact Or.inr ⟨j, hj, hpo, hf⟩
  · rintro (rfl | ⟨j, hj, hp, rfl⟩)
    · exact ⟨i, hi, hi'.symm ▸ hpres, by rw [hi', hframe]⟩
    · have hji : j ≠ i := by
        rintro rfl
        exact habs hp
      have hje : entry m' dir j = entry m dir j := by rw [hentry j hj, if_neg hji]
      exact ⟨j, hj, hje.symm ▸ hp, by rw [hje]⟩

theorem added_apart (hframe : frameOf e = pt)
    (hentry : ∀ j < 1024, entry m' dir j = if j = i then e else entry m dir j) (h : Apart m dir) (hi : i < 1024)
    (hdir : pt ≠ dir) (hfresh : pt ∉ tables m dir) : Apart m' dir := by
  have hi' : entry m' dir i = e := by rw [hentry i hi, if_pos rfl]
  refine ⟨h.aligned, ?_, ?_⟩
  · intro j hj hp
    by_cases hji : j = i
    · subst hji
      rw [hi', hframe]
      exact hdir
    · obtain ⟨hpo, hf⟩ := added_old hentry hj hji hp
      rw [hf]
      exact h.notDir j hj hpo
  · intro j hj k hk hpj hpk hjk
    by_cases hji : j = i
    · by_cases hki : k = i
      · rw [hji, hki]
      · obtain ⟨hpo, hf⟩ := added_old hentry hk hki hpk
        rw [hji, hi', hframe, hf] at hjk
        exact (hfresh ⟨k, hk, hpo, hjk⟩).elim
    · obtain ⟨hpo, hf⟩ := added_old hentry hj hji hpj
      by_cases hki : k = i
      · rw [hki, hi', hframe, hf] at hjk
        exact (hfresh ⟨j, hj, hpo, hjk.symm⟩).elim
      · obtain ⟨hpo', hf'⟩ := added_old hentry hk hki hpk
        rw [hf, hf'] at hjk
        exact h.distinct j hj k hk hpo hpo' hjk

end Added

/-- The directory entry `i`, absent before, receives a cleared table in a fresh frame. -/
theorem add_table {m : Mem} {dir pt i e : ℕ} (h : Apart m dir) (hi : i < 1024)
    (habs : ¬ Present (entry m dir i)) (hpt : Aligned pt) (hdir : pt ≠ dir)
    (hfresh : pt ∉ tables m dir) (he : e < 4294967296) (hpres : Present e) (hframe : frameOf e = pt) :
    let m' := setEntry (fillEntries m pt (fun _ => 0) 0 1024) dir i e
    Apart m' dir ∧ tables m' dir = insert pt (tables m dir) ∧
      (∀ j < 1024, entry m' dir j = if j = i then e else entry m dir j) ∧
      ∀ va, pte m' dir va = pte m dir va := by
  intro m'
  have hfill := fill_off hpt (fun _ => 0) m 0 1024 (by omega)
  have hentry : ∀ j < 1024, entry m' dir j = if j = i then e else entry m dir j := by
    intro j hj
    by_cases hji : j = i
    · subst hji
      rw [if_pos rfl]
      exact (entry_set_same _ dir j e).trans (wrap_of_lt he)
    · rw [if_neg hji]
      refine (entry_set_index e h.aligned hi hj hji).trans ?_
      exact entry_off hfill h.aligned hj (fun x hx hxp => hdir (hxp.symm.trans hx))
  refine ⟨added_apart hframe hentry h hi hdir hfresh, added_tables habs hpres hframe hentry hi, hentry, fun va => ?_⟩
  unfold pte pde
  rw [hentry _ (dirIndex_lt va)]
  by_cases hdi : dirIndex va = i
  · rw [if_pos hdi, hdi, if_pos hpres, if_neg habs, hframe]
    refine (entry_set_frame e h.aligned hpt hi (tblIndex_lt va) hdir).trans ?_
    rw [fill_entry hpt _ m 0 1024 _ (by omega) (tblIndex_lt va), if_pos (by have := tblIndex_lt va; omega)]
    rfl
  · rw [if_neg hdi]
    by_cases hp : Present (entry m dir (dirIndex va))
    · have ht : frameOf (entry m dir (dirIndex va)) ∈ tables m dir := @mem_tables _ _ va hp
      have hal := tables_aligned ht
      rw [if_pos hp, if_pos hp]
      refine (entry_set_frame e h.aligned hal hi (tblIndex_lt va) ?_).trans ?_
      · exact ne_of_mem_of_not_mem ht (dir_not_table h)
      · refine entry_off hfill hal (tblIndex_lt va) (fun x hx hxp => ?_)
        exact ne_of_mem_of_not_mem ht hfresh (hx.symm.trans hxp)
    · rw [if_neg hp, if_neg hp]

/-! ## Flags packed into addresses -/

theorem land_frame {x : ℕ} (h : x < 4294967296) : x &&& 0xFFFFF000 = frameOf x := by
  have hmask : (0xFFFFF000 : ℕ) = (2^20-1) <<< 12 := by decide
  unfold frameOf
  rw [hmask, show (4096 : ℕ) = 2^12 by decide, ← Nat.shiftLeft_eq, ← Nat.shiftRight_eq_div_pow]
  apply Nat.eq_of_testBit_eq
  intro i
  rw [Nat.testBit_and, Nat.testBit_shiftLeft, Nat.testBit_shiftLeft, Nat.testBit_shiftRight,
    Nat.testBit_two_pow_sub_one]
  by_cases hi : 12 ≤ i
  · by_cases hbit : i-12 < 20
    · simp [hi, hbit]
    · have hlow : x.testBit i = false :=
        Nat.testBit_lt_two_pow (lt_of_lt_of_le h
          (Nat.pow_le_pow_right (show 0 < 2 by decide) (show 32 ≤ i by omega)))
      simp [hi, hbit, hlow]
  · simp [hi]

theorem lor_flags {a f : ℕ} (h : Aligned a) (hf : f < 4096) : a ||| f = a+f := by
  have hshift : a = (a/4096) <<< 12 := by
    unfold Aligned at h
    rw [Nat.shiftLeft_eq]
    omega
  rw [hshift, Nat.shiftLeft_add_eq_or_of_lt (show f < 2^12 from hf)]

theorem flags_lt {f g : ℕ} (hf : f < 4096) (hg : g < 4096) : f ||| g < 4096 :=
  Nat.or_lt_two_pow (n := 12) hf hg

theorem present_land (e : ℕ) : e &&& 1 ≠ 0 ↔ Present e := by
  rw [Nat.and_one_is_mod]
  unfold Present
  omega

theorem present_lor (f : ℕ) : Present (f ||| 1) := by
  rw [← present_land, Nat.and_comm]
  intro h
  have hb := congrArg (fun y => y.testBit 0) h
  simp at hb

end PageTables
