import Dionnex.VmmTranslation

/-!
# Pages granted to user space

Process creation, the loader, `sys_sbrk` and `sys_mmap` give memory away in
the same way: one page from the pool, mapped at the next address, as often
as asked, and a refused page is passed over. From a sound state such a loop
serves an initial part of its addresses with distinct free frames. It serves
all of them, and leaves a sound state, when the pool has a frame for each
page and for each table that is missing.
-/

set_option autoImplicit false

namespace Dionnex.UserPages
open ByteMemory PageTables Dionnex.PmmBitmap Dionnex.Vmm

def takePmmPage (s : VmState) : VmState := { s with pmm := (pmmAllocPage s.pmm).2 }

/-- A page from the pool mapped at `va`, unless the pool refuses it. -/
def grantPage (s : VmState) (va flags : ℕ) : VmState :=
  if (pmmAllocPage s.pmm).1 ≠ 0 then
    vmmMapPage (takePmmPage s) va (pmmAllocPage s.pmm).1 flags
  else takePmmPage s

/-- The loop over `n` pages from index `i` on. -/
def grantPages (s : VmState) (base flags i : ℕ) : ℕ → VmState
  | 0 => s
  | n+1 => grantPages (grantPage s (wrap (base + i*4096)) flags) base flags (i+1) n

/-- The flags of a user page. -/
def userFlags : ℕ := vmmPresent ||| vmmWritable ||| vmmUser

/-- The pool never holds page 0, the directory or a table. -/
structure Sound (s : VmState) : Prop where
  space : Space s
  padded : Padded s.pmm
  zeroTaken : 0 ∉ freeSet s.pmm
  reserved : ∀ p ∈ freeSet s.pmm, p*pageSize ∉ kernelFrames s

/-- No table was refused so far, so that none lies in frame 0. -/
def Plain (s : VmState) : Prop := 0 ∉ kernelFrames s

/-- A page granted at `va` in the frame `f`. -/
structure Granted (s : VmState) (va flags f : ℕ) (t : VmState) : Prop where
  free : f ∈ freeSet s.pmm
  space : Space t
  directory : t.pageDirectory = s.pageDirectory
  padded : Padded t.pmm
  pages : ∀ wa < 4294967296, pageEntryAt t wa =
    if wa/4096 = va/4096 then pageEntry (f*pageSize) flags else pageEntryAt s wa
  dirs : ∀ wa, Present (dirEntryAt s wa) ∨ dirIndex wa ≠ dirIndex va → dirEntryAt t wa = dirEntryAt s wa
  newDir : NeedsTable s va → ∃ pt, Aligned pt ∧ ∀ wa, dirIndex wa = dirIndex va →
    dirEntryAt t wa = tableEntry pt flags
  pool : freeSet t.pmm ⊆ freeSet s.pmm \ {f}
  frames : ∀ x ∈ kernelFrames t, x ∈ kernelFrames s ∨ x = 0 ∨
    ∃ p ∈ freeSet s.pmm \ {f}, p ∉ freeSet t.pmm ∧ x = p*pageSize
  grows : kernelFrames s ⊆ kernelFrames t
  off : SameOff {x | frameOf x ∈ kernelFrames t} s.mem t.mem
  sound : freeSet t.pmm = ∅ ∨ Sound t
  plain : Plain s → freeSet t.pmm = ∅ ∨ Plain t

theorem page_lt {s : Pmm} {p : ℕ} (hs : Padded s) (h : p ∈ freeSet s) : p*pageSize < 4294967296 := by
  have hlt := h.1
  have haddr := hs.addressable
  unfold pageSize
  omega

theorem kernelFrames_map {s t : VmState} {va phys flags : ℕ} (h : Mapped s va phys flags t) :
    kernelFrames t = if NeedsTable s va then insert (pmmAllocPage s.pmm).1 (kernelFrames s)
      else kernelFrames s := by
  unfold kernelFrames
  rw [h.directory, h.tables]
  split
  · exact Set.insert_comm _ _ _
  · rfl

theorem map_grows {s t : VmState} {va phys flags : ℕ} (h : Mapped s va phys flags t) :
    kernelFrames s ⊆ kernelFrames t := by
  rw [kernelFrames_map h]
  split
  · exact Set.subset_insert _ _
  · exact subset_rfl

/-- The frames of a mapping's result. -/
theorem mapped_frames {s t : VmState} {va phys flags : ℕ} (hm : Mapped (takePmmPage s) va phys flags t)
    {x : ℕ} (hx : x ∈ kernelFrames t) : x ∈ kernelFrames s ∨
      NeedsTable s va ∧ x = (pmmAllocPage (takePmmPage s).pmm).1 := by
  rw [kernelFrames_map hm] at hx
  by_cases hn : NeedsTable s va
  · rw [if_pos (show NeedsTable (takePmmPage s) va from hn)] at hx
    rcases Set.mem_insert_iff.mp hx with hx | hx
    · exact Or.inr ⟨hn, hx⟩
    · exact Or.inl hx
  · rw [if_neg (show ¬ NeedsTable (takePmmPage s) va from hn)] at hx
    exact Or.inl hx

/-- What a mapping does once the frame `f` has left the pool, whatever table frame it takes. -/
theorem granted_of_mapped {s t : VmState} {va flags f : ℕ} (hf : f ∈ freeSet s.pmm)
    (hfree : freeSet (takePmmPage s).pmm = freeSet s.pmm \ {f})
    (hm : Mapped (takePmmPage s) va (f*pageSize) flags t) (hpad : Padded t.pmm)
    (hpool : freeSet t.pmm ⊆ freeSet (takePmmPage s).pmm)
    (hpt : NeedsTable s va → (pmmAllocPage (takePmmPage s).pmm).1 = 0 ∨
      ∃ p ∈ freeSet (takePmmPage s).pmm, p ∉ freeSet t.pmm ∧
        (pmmAllocPage (takePmmPage s).pmm).1 = p*pageSize)
    (hsound : freeSet t.pmm = ∅ ∨ Sound t) (hplain : Plain s → freeSet t.pmm = ∅ ∨ Plain t) :
    Granted s va flags f t where
  free := hf
  space := hm.space
  directory := hm.directory
  padded := hpad
  pages := hm.pages
  dirs wa hwa := by
    rw [hm.dirs wa, if_neg]
    · rfl
    · rintro ⟨hn, hi⟩
      rcases hwa with hwa | hwa
      · refine hn ?_
        unfold dirEntryAt pde at hwa
        rw [hi] at hwa
        exact hwa
      · exact hwa hi
  newDir hn := by
    refine ⟨_, alloc_aligned (takePmmPage s).pmm, fun wa hi => ?_⟩
    rw [hm.dirs wa, if_pos ⟨hn, hi⟩]
  pool := hfree ▸ hpool
  frames x hx := by
    rcases mapped_frames hm hx with hx | ⟨hn, rfl⟩
    · exact Or.inl hx
    · rcases hpt hn with h0 | ⟨p, hp, hout, he⟩
      · exact Or.inr (Or.inl h0)
      · rw [hfree] at hp
        exact Or.inr (Or.inr ⟨p, hp, hout, he⟩)
  grows := map_grows (s := takePmmPage s) hm
  off := hm.off
  sound := hsound
  plain := hplain

/-- The state after a mapping is sound as long as the pool keeps no frame of a table. -/
theorem sound_of_mapped {s t : VmState} {va phys flags : ℕ} (hs : Sound s)
    (hm : Mapped (takePmmPage s) va phys flags t) (hpad : Padded t.pmm)
    (hpool : freeSet t.pmm ⊆ freeSet s.pmm)
    (hpt : NeedsTable s va → ∀ p ∈ freeSet t.pmm,
      p*pageSize ≠ (pmmAllocPage (takePmmPage s).pmm).1) : Sound t := by
  refine ⟨hm.space, hpad, fun h => hs.zeroTaken (hpool h), ?_⟩
  intro p hp h
  rcases mapped_frames hm h with h | ⟨hn, h⟩
  · exact hs.reserved p (hpool hp) h
  · exact hpt hn p hp h

theorem alloc_pool {s : Pmm} (hs : Padded s) (h : (pmmAllocPage s).1 ≠ 0) :
    ∃ p ∈ freeSet s, (pmmAllocPage s).1 = p*pageSize ∧ freeSet (pmmAllocPage s).2 = freeSet s \ {p} := by
  rcases alloc_cases s hs with ⟨-, ha⟩ | ⟨p, hp, ha⟩
  · rw [ha] at h
    exact absurd rfl h
  · rw [ha]
    exact ⟨p, hp.1, rfl, takePage_free s p⟩

/-- The frame of a missing table is not yet a table: frame 0 when the pool is empty by then, else the
next free one. -/
theorem table_fresh {s : VmState} {va : ℕ} (hs : Sound s) (hne : (pmmAllocPage s.pmm).1 ≠ 0)
    (hplain : Plain s ∨ 1 + (if NeedsTable s va then 1 else 0) ≤ (freeSet s.pmm).ncard)
    (hn : NeedsTable s va) : FreshFrame (takePmmPage s) (pmmAllocPage (takePmmPage s).pmm).1 := by
  obtain ⟨f, hf, -, hpool⟩ := alloc_pool hs.padded hne
  have hpad : Padded (takePmmPage s).pmm := alloc_padded s.pmm hs.padded
  rcases alloc_cases (takePmmPage s).pmm hpad with ⟨he, hb⟩ | ⟨p, hp, hb⟩
  · have hcard := Set.ncard_sdiff_singleton_add_one hf (freeSet_finite s.pmm)
    have hempty : freeSet s.pmm \ {f} = ∅ := hpool.symm.trans he
    rw [hempty, Set.ncard_empty] at hcard
    rw [if_pos hn] at hplain
    have h0 : Plain s := hplain.resolve_right (by omega)
    rw [hb]
    exact ⟨fun h => h0 (Or.inl h), fun h => h0 (Or.inr h)⟩
  · have hin : p ∈ freeSet s.pmm := by
      have hp' : p ∈ freeSet (pmmAllocPage s.pmm).2 := hp.1
      rw [hpool] at hp'
      exact hp'.1
    rw [hb]
    exact ⟨fun h => hs.reserved p hin (Or.inl h), fun h => hs.reserved p hin (Or.inr h)⟩

theorem takePmmPage_free {s : VmState} {f : ℕ} (ha : pmmAllocPage s.pmm = (f*pageSize, takePage s.pmm f)) :
    freeSet (takePmmPage s).pmm = freeSet s.pmm \ {f} := by
  have hpmm : (takePmmPage s).pmm = takePage s.pmm f := congrArg Prod.snd ha
  rw [hpmm, takePage_free]

theorem mapped_padded {s t : VmState} {va phys flags : ℕ} (hm : Mapped s va phys flags t) (hs : Padded s.pmm) :
    Padded t.pmm := by
  rw [hm.pmm]
  split
  · exact alloc_padded s.pmm hs
  · exact hs

section Tables

variable {s t : VmState} {va phys flags p : ℕ}

/-- The pool loses the frame of the table that was missing. -/
theorem mapped_pool (hm : Mapped s va phys flags t) (hb : pmmAllocPage s.pmm = (p*pageSize, takePage s.pmm p)) :
    freeSet t.pmm = if NeedsTable s va then freeSet s.pmm \ {p} else freeSet s.pmm := by
  rw [hm.pmm, hb]
  by_cases hn : NeedsTable s va
  · rw [if_pos hn, if_pos hn, takePage_free]
  · rw [if_neg hn, if_neg hn]

theorem mapped_pool_le (hm : Mapped s va phys flags t) (hb : pmmAllocPage s.pmm = (p*pageSize, takePage s.pmm p)) :
    freeSet t.pmm ⊆ freeSet s.pmm := by
  rw [mapped_pool hm hb]
  split
  · exact Set.sdiff_subset
  · exact subset_rfl

theorem mapped_table (hm : Mapped s va phys flags t) (hb : pmmAllocPage s.pmm = (p*pageSize, takePage s.pmm p))
    (hn : NeedsTable s va) : p ∉ freeSet t.pmm := by
  rw [mapped_pool hm hb, if_pos hn]
  exact fun h => h.2 rfl

theorem mapped_count (hm : Mapped s va phys flags t) (hb : pmmAllocPage s.pmm = (p*pageSize, takePage s.pmm p))
    (hp : p ∈ freeSet s.pmm) :
    (freeSet t.pmm).ncard + (if NeedsTable s va then 1 else 0) = (freeSet s.pmm).ncard := by
  rw [mapped_pool hm hb]
  by_cases hn : NeedsTable s va
  · rw [if_pos hn, if_pos hn]
    exact Set.ncard_sdiff_singleton_add_one hp (freeSet_finite _)
  · rw [if_neg hn, if_neg hn, Nat.add_zero]

end Tables

/-- A table in a frame other than frame 0 keeps the state plain. -/
theorem mapped_plain {s t : VmState} {va phys flags : ℕ} (hm : Mapped (takePmmPage s) va phys flags t)
    (hpt : NeedsTable s va → (pmmAllocPage (takePmmPage s).pmm).1 ≠ 0) (h0 : Plain s) : Plain t := by
  intro hx
  rcases mapped_frames hm hx with hx | ⟨hn, hx⟩
  · exact h0 hx
  · exact hpt hn hx.symm

/-- From a sound state a page is refused without effect or granted; with a frame for the page and
one for the table that is missing the state stays sound. -/
theorem grant_cases {s : VmState} {va : ℕ} (flags : ℕ) (hs : Sound s) (hva : va < 4294967296)
    (hf : flags < 4096)
    (hplain : Plain s ∨ 1 + (if NeedsTable s va then 1 else 0) ≤ (freeSet s.pmm).ncard) :
    (freeSet s.pmm = ∅ ∧ grantPage s va flags = s) ∨
    ∃ f, Granted s va flags f (grantPage s va flags) ∧
      (1 + (if NeedsTable s va then 1 else 0) ≤ (freeSet s.pmm).ncard →
        Sound (grantPage s va flags) ∧ (Plain s → Plain (grantPage s va flags)) ∧
        (freeSet (grantPage s va flags).pmm).ncard + (1 + if NeedsTable s va then 1 else 0) =
          (freeSet s.pmm).ncard) := by
  rcases alloc_cases s.pmm hs.padded with ⟨he, ha⟩ | ⟨f, hleast, ha⟩
  · refine Or.inl ⟨he, ?_⟩
    unfold grantPage takePmmPage
    rw [ha, if_neg (not_not.mpr rfl)]
  · right
    have hf0 : f ≠ 0 := fun h => hs.zeroTaken (h ▸ hleast.1)
    have hne : (pmmAllocPage s.pmm).1 ≠ 0 := by
      rw [ha]
      exact Nat.mul_ne_zero hf0 (by decide)
    have hgrant : grantPage s va flags = vmmMapPage (takePmmPage s) va (f*pageSize) flags := by
      unfold grantPage
      rw [if_pos hne, ha]
    have hfree := takePmmPage_free ha
    have hsub : freeSet (takePmmPage s).pmm ⊆ freeSet s.pmm := hfree ▸ Set.sdiff_subset
    have hpad : Padded (takePmmPage s).pmm := alloc_padded s.pmm hs.padded
    have hcard : (freeSet (takePmmPage s).pmm).ncard + 1 = (freeSet s.pmm).ncard := by
      rw [hfree]
      exact Set.ncard_sdiff_singleton_add_one hleast.1 (freeSet_finite s.pmm)
    have hm : Mapped (takePmmPage s) va (f*pageSize) flags _ :=
      map_spec hs.space hva (page_lt hs.padded hleast.1) hf (table_fresh hs hne hplain)
    have hpad' := mapped_padded hm hpad
    rw [hgrant]
    rcases alloc_cases (takePmmPage s).pmm hpad with ⟨he, hb⟩ | ⟨p, hp, hb⟩
    · -- the page was the last one: a table that is missing ends up in frame 0
      rw [he, Set.ncard_empty] at hcard
      have hpool : (vmmMapPage (takePmmPage s) va (f*pageSize) flags).pmm = (takePmmPage s).pmm := by
        rw [hm.pmm, hb, ite_self]
      have hempty := hpool.symm ▸ he
      refine ⟨f, granted_of_mapped hleast.1 hfree hm hpad' (hpool.symm ▸ subset_rfl)
        (fun _ => Or.inl (by rw [hb])) (Or.inl hempty) (fun _ => Or.inl hempty), fun hn => ?_⟩
      have hno : ¬ NeedsTable s va := by
        intro h
        rw [if_pos h] at hn
        omega
      refine ⟨sound_of_mapped hs hm hpad' (hpool.symm ▸ hsub) (fun h => absurd h hno),
        mapped_plain hm (fun h => absurd h hno), ?_⟩
      rw [hpool, he, if_neg hno, Set.ncard_empty]
      omega
    · have hpool := mapped_pool_le hm hb
      have hp0 : p ≠ 0 := fun h => hs.zeroTaken (hsub (h ▸ hp.1))
      have hsound : Sound (vmmMapPage (takePmmPage s) va (f*pageSize) flags) := by
        refine sound_of_mapped hs hm hpad' (hpool.trans hsub) (fun hn => ?_)
        rw [hb]
        intro q hq he
        exact mapped_table hm hb hn (page_mul_injective he ▸ hq)
      have hkeep : Plain s → Plain (vmmMapPage (takePmmPage s) va (f*pageSize) flags) := by
        refine mapped_plain hm (fun _ => ?_)
        rw [hb]
        exact Nat.mul_ne_zero hp0 (by decide)
      refine ⟨f, granted_of_mapped hleast.1 hfree hm hpad' hpool
        (fun hn => Or.inr ⟨p, hp.1, mapped_table hm hb hn, by rw [hb]⟩) (Or.inr hsound)
        (fun h => Or.inr (hkeep h)), fun _ => ⟨hsound, hkeep, ?_⟩⟩
      have hcount : (freeSet (vmmMapPage (takePmmPage s) va (f*pageSize) flags).pmm).ncard +
          (if NeedsTable s va then 1 else 0) = (freeSet (takePmmPage s).pmm).ncard := mapped_count hm hb hp.1
      omega

/-- The address of the page with index `i`. -/
def pageAt (base i : ℕ) : ℕ := wrap (base + i*4096)

def SamePage (va wa : ℕ) : Prop := wa/4096 = va/4096

theorem pageAt_lt (base i : ℕ) : pageAt base i < 4294967296 := wrap_lt _

/-- Indices less than `2^20` apart are distinct pages. -/
theorem pageAt_injective {base i j : ℕ} (hij : i < j) (hlt : j < i + 1048576) :
    ¬ SamePage (pageAt base i) (pageAt base j) := by
  unfold SamePage pageAt wrap
  omega

/-- The first `k` of the `n` pages got the frames `f 0`, …, `f (k-1)`; then the pool was empty. -/
structure Served (s : VmState) (base flags i n k : ℕ) (f : ℕ → ℕ) (t : VmState) : Prop where
  length : k ≤ n
  free : ∀ j < k, f j ∈ freeSet s.pmm
  taken : ∀ j < k, f j ∉ freeSet t.pmm
  distinct : ∀ j < k, ∀ l < k, f j = f l → j = l
  plain : ∀ j < k, f j*pageSize ∉ kernelFrames t
  space : Space t
  directory : t.pageDirectory = s.pageDirectory
  padded : Padded t.pmm
  pages : ∀ j < k, ∀ wa < 4294967296, SamePage (pageAt base (i+j)) wa →
    pageEntryAt t wa = pageEntry (f j*pageSize) flags
  kept : ∀ wa < 4294967296, (∀ j < k, ¬ SamePage (pageAt base (i+j)) wa) →
    pageEntryAt t wa = pageEntryAt s wa
  dirs : ∀ wa, Present (dirEntryAt s wa) ∨ (∀ j < k, dirIndex wa ≠ dirIndex (pageAt base (i+j))) →
    dirEntryAt t wa = dirEntryAt s wa
  newDirs : ∀ j < k, NeedsTable s (pageAt base (i+j)) → ∃ pt, Aligned pt ∧
    ∀ wa, dirIndex wa = dirIndex (pageAt base (i+j)) → dirEntryAt t wa = tableEntry pt flags
  pool : freeSet t.pmm ⊆ freeSet s.pmm
  stopped : k < n → freeSet t.pmm = ∅
  started : k = 0 → n = 0 ∨ freeSet s.pmm = ∅
  frames : ∀ x ∈ kernelFrames t, x ∈ kernelFrames s ∨ x = 0 ∨
    ∃ p ∈ freeSet s.pmm, p ∉ freeSet t.pmm ∧ (∀ j < k, p ≠ f j) ∧ x = p*pageSize
  grows : kernelFrames s ⊆ kernelFrames t
  off : SameOff {x | frameOf x ∈ kernelFrames t} s.mem t.mem
  sound : freeSet t.pmm = ∅ ∨ Sound t
  stillPlain : Plain s → freeSet t.pmm = ∅ ∨ Plain t

theorem grantPages_empty {s : VmState} {base flags i n : ℕ} (he : freeSet s.pmm = ∅) :
    grantPages s base flags i n = s := by
  induction n generalizing i with
  | zero => rfl
  | succ n ih =>
    have hone : ∀ va flags, grantPage s va flags = s := by
      intro va flags
      unfold grantPage takePmmPage
      rw [alloc_empty s.pmm he, if_neg (not_not.mpr rfl)]
    rw [grantPages, hone]
    exact ih

theorem frames_mono {A B : Set ℕ} (h : A ⊆ B) : {x | frameOf x ∈ A} ⊆ {x | frameOf x ∈ B} :=
  fun x hx => h (show frameOf x ∈ A from hx)

theorem served_none {s : VmState} {base flags i n : ℕ} (hs : Space s) (hp : Padded s.pmm)
    (h : n = 0 ∨ freeSet s.pmm = ∅) (hsound : freeSet s.pmm = ∅ ∨ Sound s) (f : ℕ → ℕ) :
    Served s base flags i n 0 f s where
  length := Nat.zero_le n
  free j hj := absurd hj (Nat.not_lt_zero j)
  taken j hj := absurd hj (Nat.not_lt_zero j)
  distinct j hj := absurd hj (Nat.not_lt_zero j)
  plain j hj := absurd hj (Nat.not_lt_zero j)
  space := hs
  directory := rfl
  padded := hp
  pages j hj := absurd hj (Nat.not_lt_zero j)
  kept _ _ _ := rfl
  dirs _ _ := rfl
  newDirs j hj := absurd hj (Nat.not_lt_zero j)
  pool := subset_rfl
  stopped hn := h.resolve_left (Nat.ne_of_gt hn)
  started _ := h
  frames _ hx := Or.inl hx
  grows := subset_rfl
  off := SameOff.refl _ _
  sound := hsound
  stillPlain h := Or.inr h

/-! One granted page in front of a loop over the rest. -/

section Cons

variable {s t u : VmState} {base flags i n k f : ℕ} {g : ℕ → ℕ}

theorem cons_forall {P : ℕ → ℕ → Prop} (h0 : P 0 f) (h : ∀ j < k, P (j+1) (g j)) :
    ∀ j < k+1, P j (if j = 0 then f else g (j-1)) := by
  intro j hj
  cases j with
  | zero => exact h0
  | succ j =>
    rw [if_neg (Nat.succ_ne_zero j)]
    exact h j (by omega)

theorem cons_distinct (hnew : ∀ j < k, g j ≠ f) (h : ∀ j < k, ∀ l < k, g j = g l → j = l) :
    ∀ j < k+1, ∀ l < k+1, (if j = 0 then f else g (j-1)) = (if l = 0 then f else g (l-1)) → j = l := by
  intro j hj l hl he
  cases j with
  | zero =>
    cases l with
    | zero => rfl
    | succ l =>
      rw [if_pos rfl, if_neg (Nat.succ_ne_zero l)] at he
      exact absurd he.symm (hnew l (by omega))
  | succ j =>
    rw [if_neg (Nat.succ_ne_zero j)] at he
    cases l with
    | zero =>
      rw [if_pos rfl] at he
      exact absurd he (hnew j (by omega))
    | succ l =>
      rw [if_neg (Nat.succ_ne_zero l)] at he
      exact congrArg Nat.succ (h j (by omega) l (by omega) he)

/-- The condition on the pages from `i` on, for the first and for the others. -/
theorem pages_succ {P : ℕ → Prop} (h : ∀ j < k+1, P (pageAt base (i+j))) :
    P (pageAt base i) ∧ ∀ j < k, P (pageAt base (i+1+j)) := by
  refine ⟨h 0 (Nat.succ_pos k), fun j hj => ?_⟩
  rw [Nat.add_assoc, Nat.add_comm 1 j]
  exact h (j+1) (Nat.succ_lt_succ hj)

theorem frame_pos (hs : Sound s) (hf : f ∈ freeSet s.pmm) : f*pageSize ≠ 0 := by
  intro h0
  have hf0 : f = 0 := (Nat.mul_eq_zero.mp h0).resolve_right (by decide)
  exact hs.zeroTaken (hf0 ▸ hf)

theorem granted_taken {va : ℕ} (hg : Granted s va flags f t) : f ∉ freeSet t.pmm := fun h => (hg.pool h).2 rfl

theorem granted_plain {va : ℕ} (hs : Sound s) (hg : Granted s va flags f t) : f*pageSize ∉ kernelFrames t := by
  intro hx
  rcases hg.frames _ hx with hx | hx | ⟨p, hp, -, hx⟩
  · exact hs.reserved f hg.free hx
  · exact frame_pos hs hg.free hx
  · exact hp.2 (page_mul_injective hx).symm

theorem cons_plain {va : ℕ} (hs : Sound s) (hg : Granted s va flags f t) (h : Served t base flags i n k g u) :
    f*pageSize ∉ kernelFrames u := by
  intro hx
  rcases h.frames _ hx with hx | hx | ⟨p, hp, -, -, hx⟩
  · exact granted_plain hs hg hx
  · exact frame_pos hs hg.free hx
  · exact granted_taken hg (page_mul_injective hx ▸ hp)

theorem cons_newDirs (hg : Granted s (pageAt base i) flags f t) (h : Served t base flags (i+1) n k g u) {j : ℕ}
    (hj : j < k+1) (hn : NeedsTable s (pageAt base (i+j))) : ∃ pt, Aligned pt ∧
      ∀ wa, dirIndex wa = dirIndex (pageAt base (i+j)) → dirEntryAt u wa = tableEntry pt flags := by
  by_cases hi : dirIndex (pageAt base (i+j)) = dirIndex (pageAt base i)
  · have hn0 : NeedsTable s (pageAt base i) := by
      unfold NeedsTable pde at hn ⊢
      rwa [← hi]
    obtain ⟨pt, hpt, hnew⟩ := hg.newDir hn0
    refine ⟨pt, hpt, fun wa hw => ?_⟩
    have ht := hnew wa (hw.trans hi)
    rw [h.dirs wa (Or.inl (ht ▸ tableEntry_present flags hpt)), ht]
  · have hnt : NeedsTable t (pageAt base (i+j)) := by
      have hd := hg.dirs (pageAt base (i+j)) (Or.inr hi)
      unfold dirEntryAt at hd
      unfold NeedsTable
      rwa [hd]
    obtain ⟨l, rfl⟩ : ∃ l, j = l+1 := by
      apply Nat.exists_eq_succ_of_ne_zero
      rintro rfl
      exact hi rfl
    have hshift : i+(l+1) = i+1+l := by omega
    rw [hshift] at hnt ⊢
    exact h.newDirs l (by omega) hnt

theorem cons_frames (hg : Granted s (pageAt base i) flags f t) (h : Served t base flags (i+1) n k g u) {x : ℕ}
    (hx : x ∈ kernelFrames u) : x ∈ kernelFrames s ∨ x = 0 ∨
      ∃ p ∈ freeSet s.pmm, p ∉ freeSet u.pmm ∧ (∀ j < k+1, p ≠ if j = 0 then f else g (j-1)) ∧ x = p*pageSize := by
  rcases h.frames x hx with hx | hx | ⟨p, hp, hpu, hne, hx⟩
  · rcases hg.frames x hx with hx | hx | ⟨p, hp, hpt, hx⟩
    · exact Or.inl hx
    · exact Or.inr (Or.inl hx)
    · have hother : ∀ j < k, p ≠ g j := fun j hj he => hpt (he ▸ h.free j hj)
      exact Or.inr (Or.inr ⟨p, hp.1, fun hin => hpt (h.pool hin), cons_forall hp.2 hother, hx⟩)
  · exact Or.inr (Or.inl hx)
  · exact Or.inr (Or.inr ⟨p, (hg.pool hp).1, hpu, cons_forall (hg.pool hp).2 hne, hx⟩)

theorem served_cons (hs : Sound s) (hn : n < 1048576) (hg : Granted s (pageAt base i) flags f t)
    (h : Served t base flags (i+1) n k g u) :
    Served s base flags i (n+1) (k+1) (fun j => if j = 0 then f else g (j-1)) u where
  length := Nat.succ_le_succ h.length
  free := cons_forall (P := fun _ f => f ∈ freeSet s.pmm) hg.free (fun j hj => (hg.pool (h.free j hj)).1)
  taken := cons_forall (P := fun _ f => f ∉ freeSet u.pmm) (fun hin => granted_taken hg (h.pool hin)) h.taken
  distinct := cons_distinct (fun j hj => ne_of_mem_of_not_mem (h.free j hj) (granted_taken hg)) h.distinct
  plain := cons_forall (P := fun _ f => f*pageSize ∉ kernelFrames u) (cons_plain hs hg h) h.plain
  space := h.space
  directory := h.directory.trans hg.directory
  padded := h.padded
  pages := by
    refine cons_forall (P := fun j f => ∀ wa < 4294967296, SamePage (pageAt base (i+j)) wa →
      pageEntryAt u wa = pageEntry (f*pageSize) flags) ?_ ?_
    · intro wa hwa hsame
      rw [h.kept wa hwa, hg.pages wa hwa, if_pos (show wa/4096 = pageAt base i/4096 from hsame)]
      intro j hj hother
      have hkn := h.length
      exact pageAt_injective (by omega) (by omega) (hother.symm.trans hsame)
    · intro j hj wa hwa hsame
      apply h.pages j hj wa hwa
      rw [Nat.add_assoc, Nat.add_comm 1 j]
      exact hsame
  kept wa hwa hall := by
    obtain ⟨hfirst, hrest⟩ := pages_succ (P := fun va => ¬ SamePage va wa) hall
    rw [h.kept wa hwa hrest, hg.pages wa hwa, if_neg (show ¬ wa/4096 = pageAt base i/4096 from hfirst)]
  dirs wa hwa := by
    have hsplit := hwa.imp_right (pages_succ (P := fun va => dirIndex wa ≠ dirIndex va))
    have hone := hg.dirs wa (hsplit.imp_right And.left)
    rw [h.dirs wa (by rw [hone]; exact hsplit.imp_right And.right), hone]
  newDirs _ hj hneeds := cons_newDirs hg h hj hneeds
  pool := h.pool.trans (hg.pool.trans Set.sdiff_subset)
  stopped hk := h.stopped (by omega)
  started hk := absurd hk (Nat.succ_ne_zero k)
  frames _ hx := cons_frames hg h hx
  grows := hg.grows.trans h.grows
  off := (hg.off.mono (frames_mono h.grows)).trans h.off
  sound := h.sound
  stillPlain h0 := by
    rcases hg.plain h0 with he | ht
    · exact Or.inl (Set.subset_eq_empty h.pool he)
    · exact h.stillPlain ht

end Cons

/-! ## How many frames a loop needs -/

/-- The addresses of the `n` pages from index `i` on. -/
def pageRun (base i : ℕ) : ℕ → List ℕ
  | 0 => []
  | n+1 => pageAt base i :: pageRun base (i+1) n

/-- The directory entries without a table among those that the addresses fall under. -/
def missingTables (s : VmState) (vas : List ℕ) : Finset ℕ :=
  (Finset.range 1024).filter (fun d => ¬ Present (entry s.mem s.pageDirectory d) ∧
    ∃ va ∈ vas, dirIndex va = d)

/-- A frame for each page and for each missing table. -/
def framesFor (s : VmState) (vas : List ℕ) : ℕ := vas.length + (missingTables s vas).card

def framesNeeded (s : VmState) (base i n : ℕ) : ℕ := framesFor s (pageRun base i n)

theorem missingTables_mem {s : VmState} {vas : List ℕ} {d : ℕ} : d ∈ missingTables s vas ↔
    ¬ Present (entry s.mem s.pageDirectory d) ∧ ∃ va ∈ vas, dirIndex va = d := by
  unfold missingTables
  rw [Finset.mem_filter, Finset.mem_range]
  constructor
  · exact And.right
  · rintro ⟨habs, va, hva, rfl⟩
    exact ⟨dirIndex_lt _, habs, va, hva, rfl⟩

theorem framesFor_same {s t : VmState} (h : ∀ wa, dirEntryAt t wa = dirEntryAt s wa) (vas : List ℕ) :
    framesFor t vas = framesFor s vas := by
  have hentry : ∀ wa, entry t.mem t.pageDirectory (dirIndex wa) = entry s.mem s.pageDirectory (dirIndex wa) := h
  have hmissing : missingTables t vas = missingTables s vas := by
    ext e
    rw [missingTables_mem, missingTables_mem]
    constructor
    · rintro ⟨habs, wa, hwa, rfl⟩
      rw [hentry] at habs
      exact ⟨habs, wa, hwa, rfl⟩
    · rintro ⟨habs, wa, hwa, rfl⟩
      rw [← hentry] at habs
      exact ⟨habs, wa, hwa, rfl⟩
  unfold framesFor
  rw [hmissing]

theorem dirEntryAt_index (s : VmState) {d : ℕ} (hd : d < 1024) :
    dirEntryAt s (d*4194304) = entry s.mem s.pageDirectory d := by
  unfold dirEntryAt pde
  rw [show dirIndex (d*4194304) = d by unfold dirIndex; omega]

/-- After a page has been granted, its table is no longer missing. -/
theorem missingTables_granted {s t : VmState} {va flags f : ℕ} (vas : List ℕ)
    (hg : Granted s va flags f t) : missingTables t vas = (missingTables s (va::vas)).erase (dirIndex va) := by
  ext d
  rw [Finset.mem_erase, missingTables_mem, missingTables_mem]
  have hidx : ∀ wa, dirIndex (dirIndex wa*4194304) = dirIndex wa := by
    intro wa
    have hlt := dirIndex_lt wa
    unfold dirIndex at *
    omega
  have hkept : ∀ wa, dirIndex wa ≠ dirIndex va →
      entry t.mem t.pageDirectory (dirIndex wa) = entry s.mem s.pageDirectory (dirIndex wa) := by
    intro wa hne
    have hdirs := hg.dirs (dirIndex wa*4194304) (Or.inr (by rw [hidx]; exact hne))
    rwa [dirEntryAt_index t (dirIndex_lt wa), dirEntryAt_index s (dirIndex_lt wa)] at hdirs
  constructor
  · rintro ⟨habs, wa, hwa, rfl⟩
    have hne : dirIndex wa ≠ dirIndex va := by
      intro he
      refine habs ?_
      by_cases hn : NeedsTable s va
      · obtain ⟨pt, hpt, hnew⟩ := hg.newDir hn
        have hentry := hnew (dirIndex wa*4194304) ((hidx wa).trans he)
        rw [dirEntryAt_index t (dirIndex_lt wa)] at hentry
        rw [hentry]
        exact tableEntry_present flags hpt
      · have hp : Present (dirEntryAt s va) := not_not.mp hn
        have hsame : dirEntryAt t va = dirEntryAt s va := hg.dirs va (Or.inl hp)
        rw [← hsame] at hp
        rw [he]
        exact hp
    rw [hkept wa hne] at habs
    exact ⟨hne, habs, wa, List.mem_cons_of_mem _ hwa, rfl⟩
  · rintro ⟨hne, habs, wa, hwa, rfl⟩
    rw [← hkept wa hne] at habs
    rcases List.mem_cons.mp hwa with rfl | hwa
    · exact absurd rfl hne
    · exact ⟨habs, wa, hwa, rfl⟩

theorem framesFor_granted {s t : VmState} {va flags f : ℕ} (vas : List ℕ) (hg : Granted s va flags f t) :
    framesFor s (va::vas) = framesFor t vas + (1 + if NeedsTable s va then 1 else 0) := by
  unfold framesFor
  rw [missingTables_granted vas hg, List.length_cons]
  by_cases hn : NeedsTable s va
  · have hmem : dirIndex va ∈ missingTables s (va::vas) :=
      missingTables_mem.mpr ⟨hn, va, List.mem_cons_self, rfl⟩
    have hcard := Finset.card_erase_add_one hmem
    rw [if_pos hn]
    omega
  · have hout : dirIndex va ∉ missingTables s (va::vas) := fun h => hn (missingTables_mem.mp h).1
    rw [if_neg hn, Finset.erase_eq_of_notMem hout]
    omega

theorem framesFor_first (s : VmState) (va : ℕ) (vas : List ℕ) :
    1 + (if NeedsTable s va then 1 else 0) ≤ framesFor s (va::vas) := by
  unfold framesFor
  rw [List.length_cons]
  by_cases hn : NeedsTable s va
  · have hmem : dirIndex va ∈ missingTables s (va::vas) :=
      missingTables_mem.mpr ⟨hn, va, List.mem_cons_self, rfl⟩
    have hpos := Finset.card_pos.mpr ⟨_, hmem⟩
    rw [if_pos hn]
    omega
  · rw [if_neg hn]
    omega

/-- Every page brings at most one missing table. -/
theorem framesFor_le (s : VmState) (vas : List ℕ) : framesFor s vas ≤ 2*vas.length := by
  have hsub : missingTables s vas ⊆ (vas.map dirIndex).toFinset := by
    intro d hd
    obtain ⟨-, va, hva, hdva⟩ := missingTables_mem.mp hd
    exact List.mem_toFinset.mpr (List.mem_map.mpr ⟨va, hva, hdva⟩)
  have hcard := (Finset.card_le_card hsub).trans (List.toFinset_card_le _)
  rw [List.length_map] at hcard
  unfold framesFor
  omega

theorem pageRun_length (base i n : ℕ) : (pageRun base i n).length = n := by
  induction n generalizing i with
  | zero => rfl
  | succ n ih => rw [pageRun, List.length_cons, ih]

theorem framesNeeded_le (s : VmState) (base i n : ℕ) : framesNeeded s base i n ≤ 2*n := by
  have hle := framesFor_le s (pageRun base i n)
  rwa [pageRun_length] at hle

/-- Page `j+1` of a loop is page `j` of the rest, and gets a frame under the same condition. -/
theorem count_cons {s t : VmState} {base flags i n k f : ℕ} (hg : Granted s (pageAt base i) flags f t)
    (hroom : 1 + (if NeedsTable s (pageAt base i) then 1 else 0) ≤ (freeSet s.pmm).ncard →
      (freeSet t.pmm).ncard + (1 + if NeedsTable s (pageAt base i) then 1 else 0) = (freeSet s.pmm).ncard)
    (hcount : ∀ j < n, j < k ↔ framesNeeded t base (i+1) j < (freeSet t.pmm).ncard) :
    ∀ j < n+1, j < k+1 ↔ framesNeeded s base i j < (freeSet s.pmm).ncard := by
  have hpos : 0 < (freeSet s.pmm).ncard := (Set.ncard_pos (freeSet_finite _)).mpr ⟨f, hg.free⟩
  intro j hj
  cases j with
  | zero =>
    have hnone := framesNeeded_le s base i 0
    exact iff_of_true (Nat.succ_pos k) (by omega)
  | succ j =>
    have hneed : framesNeeded s base i (j+1) = framesNeeded t base (i+1) j +
        (1 + if NeedsTable s (pageAt base i) then 1 else 0) := framesFor_granted _ hg
    have hrest := hcount j (by omega)
    rw [hneed]
    by_cases hle : 1 + (if NeedsTable s (pageAt base i) then 1 else 0) ≤ (freeSet s.pmm).ncard
    · have hcard := hroom hle
      omega
    · have hlast := Set.ncard_le_ncard hg.pool ((freeSet_finite _).sdiff)
      have hone := Set.ncard_sdiff_singleton_add_one hg.free (freeSet_finite s.pmm)
      split at hle
      · omega
      · omega

/-- The loop from a sound state serves its pages as long as the pool lasts. -/
theorem grantPages_served {s : VmState} {base flags i n : ℕ} (hs : Sound s) (hplain : Plain s)
    (hf : flags < 4096) (hn : n ≤ 1048576) :
    ∃ k f, Served s base flags i n k f (grantPages s base flags i n) ∧
      ∀ j < n, j < k ↔ framesNeeded s base i j < (freeSet s.pmm).ncard := by
  induction n generalizing s i with
  | zero =>
    exact ⟨0, fun _ => 0, served_none hs.space hs.padded (Or.inl rfl) (Or.inr hs) _,
      fun j hj => absurd hj (Nat.not_lt_zero j)⟩
  | succ n ih =>
    rcases grant_cases flags hs (pageAt_lt base i) hf (Or.inl hplain) with ⟨he, -⟩ | ⟨f, hg, hroom⟩
    · refine ⟨0, fun _ => 0, ?_, fun j _ => ?_⟩
      · rw [grantPages_empty he]
        exact served_none hs.space hs.padded (Or.inr he) (Or.inr hs) _
      · rw [he, Set.ncard_empty]
        omega
    · change ∃ k f, Served s base flags i (n+1) k f
        (grantPages (grantPage s (pageAt base i) flags) base flags (i+1) n) ∧ _
      generalize grantPage s (pageAt base i) flags = t at *
      have hrest : ∃ k g, Served t base flags (i+1) n k g (grantPages t base flags (i+1) n) ∧
          ∀ j < n, j < k ↔ framesNeeded t base (i+1) j < (freeSet t.pmm).ncard := by
        by_cases he : freeSet t.pmm = ∅
        · refine ⟨0, fun _ => 0, ?_, fun j _ => ?_⟩
          · rw [grantPages_empty he]
            exact served_none hg.space hg.padded (Or.inr he) (Or.inl he) _
          · rw [he, Set.ncard_empty]
            omega
        · exact ih (hg.sound.resolve_left he) ((hg.plain hplain).resolve_left he) (by omega)
      obtain ⟨k, g, h, hcount⟩ := hrest
      exact ⟨k+1, _, served_cons hs (by omega) hg h, count_cons hg (fun hle => (hroom hle).2.2) hcount⟩

/-- With a frame for every page and every missing table, every page is served, and the pool loses
these frames. -/
theorem grantPages_full {s : VmState} {base flags i n : ℕ} (hs : Sound s) (hf : flags < 4096)
    (hn : n ≤ 1048576) (hfree : framesNeeded s base i n ≤ (freeSet s.pmm).ncard) :
    ∃ f, Served s base flags i n n f (grantPages s base flags i n) ∧ Sound (grantPages s base flags i n) ∧
      (Plain s → Plain (grantPages s base flags i n)) ∧
      ∀ vas, framesFor s (pageRun base i n ++ vas) + (freeSet (grantPages s base flags i n).pmm).ncard =
        framesFor (grantPages s base flags i n) vas + (freeSet s.pmm).ncard := by
  induction n generalizing s i with
  | zero =>
    exact ⟨fun _ => 0, served_none hs.space hs.padded (Or.inl rfl) (Or.inr hs) _, hs, id, fun _ => rfl⟩
  | succ n ih =>
    have hfirst := framesFor_first s (pageAt base i) (pageRun base (i+1) n)
    rcases grant_cases flags hs (pageAt_lt base i) hf (Or.inr (hfirst.trans hfree)) with
      ⟨he, -⟩ | ⟨f, hg, hroom⟩
    · have hpos := hfirst.trans hfree
      rw [he, Set.ncard_empty] at hpos
      omega
    · obtain ⟨hsound, hplain, hcount⟩ := hroom (hfirst.trans hfree)
      have hneed : framesNeeded s base i (n+1) = framesNeeded _ base (i+1) n + _ := framesFor_granted _ hg
      obtain ⟨g, h, hlast, hkeep, hrest⟩ := ih (i := i+1) hsound (by omega) (by omega)
      refine ⟨_, served_cons hs (by omega) hg h, hlast, fun h0 => hkeep (hplain h0), fun vas => ?_⟩
      have hall : framesFor s (pageRun base i (n+1) ++ vas) = framesFor _ (pageRun base (i+1) n ++ vas) + _ :=
        framesFor_granted _ hg
      have hlater := hrest vas
      change _ + (freeSet (grantPages (grantPage s (pageAt base i) flags) base flags (i+1) n).pmm).ncard =
        framesFor (grantPages (grantPage s (pageAt base i) flags) base flags (i+1) n) vas + _
      omega

/-- With fewer frames the loop leaves nothing in the pool. -/
theorem grantPages_short {s : VmState} {base flags i n : ℕ} (hs : Sound s) (hplain : Plain s)
    (hf : flags < 4096) (hn : n ≤ 1048576) (hshort : (freeSet s.pmm).ncard < framesNeeded s base i n) :
    freeSet (grantPages s base flags i n).pmm = ∅ := by
  induction n generalizing s i with
  | zero =>
    have hnone := framesNeeded_le s base i 0
    omega
  | succ n ih =>
    rcases grant_cases flags hs (pageAt_lt base i) hf (Or.inl hplain) with ⟨he, -⟩ | ⟨f, hg, hroom⟩
    · rw [grantPages_empty he]
      exact he
    · have hneed : framesNeeded s base i (n+1) = framesNeeded _ base (i+1) n + _ := framesFor_granted _ hg
      change freeSet (grantPages (grantPage s (pageAt base i) flags) base flags (i+1) n).pmm = ∅
      by_cases he : freeSet (grantPage s (pageAt base i) flags).pmm = ∅
      · rw [grantPages_empty he]
        exact he
      · refine ih (hg.sound.resolve_left he) ((hg.plain hplain).resolve_left he) (by omega) ?_
        by_cases hle : 1 + (if NeedsTable s (pageAt base i) then 1 else 0) ≤ (freeSet s.pmm).ncard
        · have hcount := (hroom hle).2.2
          omega
        · have hcard := Set.ncard_le_ncard hg.pool ((freeSet_finite _).sdiff)
          have hone := Set.ncard_sdiff_singleton_add_one hg.free (freeSet_finite s.pmm)
          have hpos : 0 < (freeSet (grantPage s (pageAt base i) flags).pmm).ncard :=
            (Set.ncard_pos (freeSet_finite _)).mpr (Set.nonempty_iff_ne_empty.mpr he)
          split at hle
          · omega
          · omega

/-! ## The state after boot -/

/-- `vmm_init` leaves a sound state when the pool never held page 0. -/
theorem init_sound {s : VmState} (hp : Padded s.pmm) (h0 : 0 ∉ freeSet s.pmm)
    (hb : VmmTranslation.BootFrames s) : Sound (vmmInit s) ∧ Plain (vmmInit s) := by
  have hp' := alloc_padded s.pmm hp
  obtain ⟨d, hd, hdir, hpool⟩ := alloc_pool hp hb.directory
  obtain ⟨f, hf, hfirst, hpool'⟩ := alloc_pool hp' hb.first
  have hframes : ∀ x ∈ kernelFrames (vmmInit s), x = d*pageSize ∨ x = f*pageSize := by
    intro x hx
    rcases Set.mem_insert_iff.mp hx with hx | ⟨i, hi, hpres, hx⟩
    · exact Or.inl (hx.trans hdir)
    · obtain rfl := (VmmTranslation.init_tables hb hi).mp hpres
      right
      rw [hx, VmmTranslation.init_frame hb, hfirst]
  have hfree : freeSet (vmmInit s).pmm = (freeSet s.pmm \ {d}) \ {f} := by
    rw [← hpool, ← hpool']
    rfl
  refine ⟨⟨(VmmTranslation.init_inv hb).space, alloc_padded _ hp', ?_, ?_⟩, ?_⟩
  · rw [hfree]
    exact fun h => h0 h.1.1
  · intro p hin hx
    rw [hfree] at hin
    rcases hframes _ hx with hx | hx
    · exact hin.1.2 (page_mul_injective hx)
    · exact hin.2 (page_mul_injective hx)
  · intro hx
    rw [hpool] at hf
    rcases hframes 0 hx with hx | hx
    · refine h0 ?_
      have hd0 : d = 0 := by
        unfold pageSize at hx
        omega
      exact hd0 ▸ hd
    · refine h0 ?_
      have hf0 : f = 0 := by
        unfold pageSize at hx
        omega
      exact hf0 ▸ hf.1

/-- A machine of 4 MiB whose page 0 is taken, after boot. -/
def sampleKernel : VmState := vmmInit VmmTranslation.sampleMachine

theorem sampleMachine_padded : Padded VmmTranslation.sampleMachine.pmm where
  covered := by decide
  padding p hp hb := by
    unfold VmmTranslation.sampleMachine at hp hb
    dsimp only at hp hb
    omega
  addressable := by decide

theorem sampleKernel_sound : Sound sampleKernel ∧ Plain sampleKernel := by
  refine init_sound sampleMachine_padded ?_ VmmTranslation.sample_boot
  intro h
  exact absurd h.2 (by decide)

/-- Only the first table is there. -/
theorem sampleKernel_needsTable {va : ℕ} (h : dirIndex va ≠ 0) : NeedsTable sampleKernel va := fun hp =>
  h ((VmmTranslation.init_tables VmmTranslation.sample_boot (dirIndex_lt va)).mp hp)

theorem sampleKernel_free : 2 ≤ (freeSet sampleKernel.pmm).ncard := by
  have hsub : ({3, 4} : Set ℕ) ⊆ freeSet sampleKernel.pmm := by
    intro p hp
    rcases hp with rfl | rfl
    · exact ⟨by decide, by decide⟩
    · exact ⟨by decide, by decide⟩
  have hcard := Set.ncard_le_ncard hsub (freeSet_finite _)
  rwa [Set.ncard_pair (by decide)] at hcard

end Dionnex.UserPages
