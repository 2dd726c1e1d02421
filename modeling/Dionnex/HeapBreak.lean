import Dionnex.LabelledRuns
import Dionnex.UserMemory

/-!
# The program break

The promise of `sys_sbrk`: the break stays inside the user heap, every page
below the limit is user-writable, and a call that cannot be served changes
nothing. The code answers every call with the old break. It compares the
new break as a 32-bit sum, lets it fall below the heap's base, skips the
pages it is refused and lets the limit wrap; a run keeps the promise exactly
when none of its calls comes to that.
-/

set_option autoImplicit false

namespace Dionnex.HeapBreak
open ByteMemory LabelledRuns PageTables Dionnex.PmmBitmap Dionnex.Vmm Dionnex.UserPages Dionnex.UserMemory

/-- The heap of the current process. -/
structure HeapOk (s : System) (p : UserHeap) : Prop where
  current : s.currentProcess = some p
  low : procHeapBase ≤ p.brk
  high : p.brk ≤ p.brkMax
  word : p.brkMax < 4294967296
  mapped : ∀ va, procHeapBase ≤ va → va < p.brkMax → UserWritable s.vm va

/-- A call's increment and its answer. -/
abbrev Event := ℕ × ℕ

def Step (s : System) (e : Event) (t : System) : Prop :=
  e.1 < 4294967296 ∧ (e.2, t) = sysSbrk s e.1

def CannotGetPage (s : System) (p : UserHeap) (increment : ℕ) : Prop :=
  p.brkMax < wrap (p.brk+increment) ∧
    (freeSet s.vm.pmm).ncard < framesNeeded s.vm p.brkMax 0 (pagesOf increment)

def SameMappings (s t : System) : Prop :=
  ∀ va, pageEntryAt t.vm va = pageEntryAt s.vm va ∧ dirEntryAt t.vm va = dirEntryAt s.vm va

/-- What a call owes the process. -/
structure Kept (s : System) (e : Event) (t : System) : Prop where
  heap : ∃ q, HeapOk t q
  moved : ∀ p, s.currentProcess = some p → e.2 ≠ minusOne →
    e.2 = p.brk ∧ ∃ q, t.currentProcess = some q ∧ q.brk = wrap (p.brk+e.1)
  refused : ∀ p, s.currentProcess = some p → CannotGetPage s p e.1 →
    e.2 = minusOne ∧ t.currentProcess = s.currentProcess ∧ SameMappings s t

/-- The pool, the address range and the directory have room for the new pages. -/
structure Supplied (s : System) (p : UserHeap) (increment : ℕ) : Prop where
  frames : framesNeeded s.vm p.brkMax 0 (pagesOf increment) ≤ (freeSet s.vm.pmm).ncard
  room : p.brkMax + pagesOf increment * 4096 < 4294967296
  tables : ∀ j < pagesOf increment, NeedsTable s.vm (pageAt p.brkMax j) ∨
    dirEntryAt s.vm (pageAt p.brkMax j) % 8 = 7
  lastPage : p.brkMax % 4096 = 0 ∨ UserWritable s.vm (p.brkMax + pagesOf increment * 4096 - 1)

/-- Within the limit the break stays above the base; beyond it the call is supplied. -/
def Harmless (s : System) (e : Event) (_ : System) : Prop :=
  ∀ p, s.currentProcess = some p →
    (wrap (p.brk+e.1) ≤ p.brkMax → procHeapBase ≤ wrap (p.brk+e.1)) ∧
    (p.brkMax < wrap (p.brk+e.1) → Supplied s p e.1)

def Inv (s : System) : Prop := Sound s.vm ∧ ∃ p, HeapOk s p

theorem entry_samePage {s : VmState} {va wa : ℕ} (hv : va < 4294967296) (hw : wa < 4294967296)
    (h : SamePage va wa) : pageEntryAt s wa = pageEntryAt s va ∧ dirEntryAt s wa = dirEntryAt s va := by
  obtain ⟨hdir, htbl⟩ := (same_page hv hw).mpr h
  unfold pageEntryAt dirEntryAt pte pde
  rw [hdir, htbl]
  exact ⟨rfl, rfl⟩

theorem writable_samePage {s : VmState} {va wa : ℕ} (hv : va < 4294967296) (hw : wa < 4294967296)
    (h : SamePage va wa) (hok : UserWritable s va) : UserWritable s wa := by
  obtain ⟨hentry, hdir⟩ := entry_samePage (s := s) hv hw h
  exact ⟨hentry ▸ hok.1, hdir ▸ hok.2⟩

theorem entry_dir_present {s : VmState} {va : ℕ} (h : Present (pageEntryAt s va)) :
    Present (dirEntryAt s va) := by
  by_contra hn
  unfold pageEntryAt pte at h
  rw [if_neg (show ¬ Present (pde s.mem s.pageDirectory va) from hn)] at h
  exact absurd h (by decide)

/-- Beyond the limit the sum has not wrapped, and the page count is the rounded quotient. -/
theorem beyond_limit {s : System} {p : UserHeap} {increment : ℕ} (hp : HeapOk s p)
    (hi : increment < 4294967296) (h : p.brkMax < wrap (p.brk+increment)) :
    wrap (p.brk+increment) = p.brk+increment ∧ pagesOf increment = (increment+4095)/4096 := by
  have hlow := hp.low
  have hhigh := hp.high
  unfold procHeapBase at hlow
  unfold pagesOf wrap at *
  omega

theorem page_no_wrap {b j n : ℕ} (hj : j < n) (h : b + n*4096 < 4294967296) :
    pageAt b (0+j) = b + j*4096 := by
  unfold pageAt wrap
  omega

/-- After a supplied call every page below the new limit is user-writable. -/
theorem supplied_mapped {s : System} {p : UserHeap} {increment : ℕ} {f : ℕ → ℕ} {t : VmState}
    (hs : Sound s.vm) (hp : HeapOk s p) (hsup : Supplied s p increment)
    (h : Served s.vm p.brkMax userFlags 0 (pagesOf increment) (pagesOf increment) f t) (va : ℕ)
    (hlow : procHeapBase ≤ va) (hva : va < p.brkMax + pagesOf increment * 4096) :
    UserWritable t va := by
  have hroom := hsup.room
  have hlt : va < 4294967296 := by omega
  by_cases hold : va < p.brkMax
  · exact served_writable hs h hlt (hp.mapped va hlow hold)
  · by_cases hin : va/4096 < p.brkMax/4096 + pagesOf increment
    · have hj : va/4096 - p.brkMax/4096 < pagesOf increment := by omega
      have hpage := page_no_wrap hj hroom
      have hsame : SamePage (pageAt p.brkMax (0 + (va/4096 - p.brkMax/4096))) va := by
        unfold SamePage
        rw [hpage]
        omega
      refine (served_page hs h hj hlt hsame).mpr ?_
      have hdir := (entry_samePage (s := s.vm) (pageAt_lt _ _) hlt hsame).2
      have htab := hsup.tables _ hj
      rw [Nat.zero_add] at hdir
      unfold NeedsTable at htab ⊢
      unfold dirEntryAt at hdir htab ⊢
      rw [hdir]
      exact htab
    · have hunaligned : p.brkMax % 4096 ≠ 0 := by omega
      have hlast := hsup.lastPage.resolve_left hunaligned
      have hsame : SamePage (p.brkMax + pagesOf increment * 4096 - 1) va := by
        unfold SamePage
        omega
      exact served_writable hs h hlt (writable_samePage (by omega) hlt hsame hlast)

theorem harmless_kept {s t : System} {e : Event} (hs : Inv s) (h : Step s e t)
    (hok : Harmless s e t) : Inv t ∧ Kept s e t := by
  obtain ⟨hsound, p, hp⟩ := hs
  obtain ⟨hinc, hstep⟩ := h
  obtain ⟨hbelow, hbeyond⟩ := hok p hp.current
  unfold sysSbrk at hstep
  rw [hp.current] at hstep
  dsimp only at hstep
  by_cases hfast : wrap (p.brk+e.1) ≤ p.brkMax
  · rw [if_pos hfast] at hstep
    obtain ⟨hret, rfl⟩ := Prod.mk.inj hstep
    have hheap : HeapOk { s with currentProcess := some { p with brk := wrap (p.brk+e.1) } }
        { p with brk := wrap (p.brk+e.1) } := ⟨rfl, hbelow hfast, hfast, hp.word, hp.mapped⟩
    refine ⟨⟨hsound, _, hheap⟩, ⟨⟨_, hheap⟩, ?_, ?_⟩⟩
    · intro p' hp' _
      obtain rfl := Option.some.inj (hp.current.symm.trans hp')
      exact ⟨hret, _, rfl, rfl⟩
    · intro p' hp' hc
      obtain rfl := Option.some.inj (hp.current.symm.trans hp')
      exact absurd hc.1 (Nat.not_lt.mpr hfast)
  · rw [if_neg hfast] at hstep
    obtain ⟨hret, rfl⟩ := Prod.mk.inj hstep
    have hslow : p.brkMax < wrap (p.brk+e.1) := Nat.not_le.mp hfast
    have hsup := hbeyond hslow
    have hroom := hsup.room
    obtain ⟨hsum, hpages⟩ := beyond_limit hp hinc hslow
    obtain ⟨f, hserved, hsound', -, -⟩ := @grantPages_full _ _ userFlags _ _ hsound (by decide)
      (pagesOf_le e.1) hsup.frames
    have hhigh := hp.high
    have hlow := hp.low
    have hlimit : wrap (p.brkMax + pagesOf e.1 * 4096) = p.brkMax + pagesOf e.1 * 4096 := wrap_of_lt hroom
    have hheap : HeapOk ⟨grantPages s.vm p.brkMax userFlags 0 (pagesOf e.1),
          some ⟨wrap (p.brk+e.1), wrap (p.brkMax + pagesOf e.1 * 4096)⟩⟩
        ⟨wrap (p.brk+e.1), wrap (p.brkMax + pagesOf e.1 * 4096)⟩ := by
      refine ⟨rfl, ?_, ?_, ?_, ?_⟩
      · dsimp only
        omega
      · dsimp only
        omega
      · exact wrap_lt _
      · intro va hva hlt
        dsimp only at hlt
        rw [hlimit] at hlt
        exact supplied_mapped hsound hp hsup hserved va hva hlt
    refine ⟨⟨hsound', _, hheap⟩, ⟨⟨_, hheap⟩, ?_, ?_⟩⟩
    · intro p' hp' _
      obtain rfl := Option.some.inj (hp.current.symm.trans hp')
      exact ⟨hret, _, rfl, rfl⟩
    · intro p' hp' hc
      obtain rfl := Option.some.inj (hp.current.symm.trans hp')
      exact absurd hsup.frames (Nat.not_le.mpr hc.2)

theorem kept_harmless {s t : System} {e : Event} (hs : Inv s) (h : Step s e t)
    (hk : Kept s e t) : Harmless s e t := by
  obtain ⟨hsound, p, hp⟩ := hs
  obtain ⟨hinc, hstep⟩ := h
  unfold sysSbrk at hstep
  rw [hp.current] at hstep
  dsimp only at hstep
  intro p' hp'
  obtain rfl := Option.some.inj (hp.current.symm.trans hp')
  obtain ⟨q, hq⟩ := hk.heap
  constructor
  · intro hfast
    rw [if_pos hfast] at hstep
    obtain ⟨-, rfl⟩ := Prod.mk.inj hstep
    obtain rfl := Option.some.inj hq.current
    exact hq.low
  · intro hslow
    rw [if_neg (Nat.not_le.mpr hslow)] at hstep
    obtain ⟨hret, rfl⟩ := Prod.mk.inj hstep
    obtain ⟨hsum, hpages⟩ := beyond_limit hp hinc hslow
    have hframes : framesNeeded s.vm p.brkMax 0 (pagesOf e.1) ≤ (freeSet s.vm.pmm).ncard := by
      by_contra hshort
      have hans := (hk.refused p hp.current ⟨hslow, Nat.not_le.mp hshort⟩).1
      have hword := wrap_lt (p.brk+e.1)
      have hhigh := hp.high
      rw [hret] at hans
      unfold minusOne at hans
      omega
    obtain ⟨f, hserved, -, -, -⟩ := @grantPages_full _ _ userFlags _ _ hsound (by decide)
      (pagesOf_le e.1) hframes
    obtain rfl := Option.some.inj hq.current
    have hhigh := hq.high
    have hmapped := hq.mapped
    dsimp only at hhigh hmapped
    have hpl := hp.low
    have hph := hp.high
    have hword := hp.word
    have hroom : p.brkMax + pagesOf e.1 * 4096 < 4294967296 := by
      rw [hsum] at hhigh hslow
      unfold wrap at hhigh
      omega
    rw [wrap_of_lt hroom] at hmapped
    refine ⟨hframes, hroom, ?_, ?_⟩
    · intro j hj
      have hpage := page_no_wrap hj hroom
      have hin := hmapped (pageAt p.brkMax (0+j)) (by omega) (by omega)
      have hcond := (served_page hsound hserved hj (pageAt_lt _ _) rfl).mp hin
      rwa [Nat.zero_add] at hcond
    · by_cases hal : p.brkMax % 4096 = 0
      · exact Or.inl hal
      · right
        have hpos : 0 < pagesOf e.1 := by omega
        have hlast := hmapped (p.brkMax + pagesOf e.1 * 4096 - 1) (by omega) (by omega)
        have hkept := hserved.kept (p.brkMax + pagesOf e.1 * 4096 - 1) (by omega) (by
          intro j hj hsame
          unfold SamePage at hsame
          rw [page_no_wrap hj hroom] at hsame
          omega)
        have hentry := hlast.1
        rw [hkept] at hentry
        have hdir := hserved.dirs _ (Or.inl (entry_dir_present (flags_present hentry)))
        have hflags := hlast.2
        rw [hdir] at hflags
        exact ⟨hentry, hflags⟩

def sbrkCall (s : System) (increment : ℕ) : Event × System :=
  ((increment, (sysSbrk s increment).1), (sysSbrk s increment).2)

theorem sbrkCall_step (s : System) {increment : ℕ} (h : increment < 4294967296) :
    Step s (sbrkCall s increment).1 (sbrkCall s increment).2 := ⟨h, rfl⟩

/-- A process whose heap is still empty. -/
def sampleProcess : System := ⟨sampleKernel, some ⟨procHeapBase, procHeapBase⟩⟩

theorem sampleProcess_heap : HeapOk sampleProcess ⟨procHeapBase, procHeapBase⟩ where
  current := rfl
  low := le_rfl
  high := le_rfl
  word := by decide
  mapped va hlow hva := absurd hva (Nat.not_lt.mpr hlow)

theorem sampleProcess_inv : Inv sampleProcess := ⟨sampleKernel_sound.1, _, sampleProcess_heap⟩

end Dionnex.HeapBreak
