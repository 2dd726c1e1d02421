import Dionnex.UserPages

/-!
# The memory system calls

`sys_sbrk`, `sys_mmap` and `sys_munmap` on the shared page directory. Every
sum is a 32-bit one, so that a length near the top of the range rounds up to
no page at all. Of the current process only its two heap limits take part.
Return values are 32-bit words; -1 is `0xFFFFFFFF`.
-/

set_option autoImplicit false

namespace Dionnex.UserMemory
open ByteMemory PageTables Dionnex.PmmBitmap Dionnex.Vmm Dionnex.UserPages

def procHeapBase : ℕ := 0x08100000

def minusOne : ℕ := 0xFFFFFFFF

/-- `(len + 4095) / 4096` on unsigned 32-bit numbers. -/
def pagesOf (len : ℕ) : ℕ := wrap (len+4095) / 4096

structure UserHeap where
  brk : ℕ
  brkMax : ℕ
  deriving DecidableEq, Repr

structure System where
  vm : VmState
  currentProcess : Option UserHeap

def sysSbrk (s : System) (increment : ℕ) : ℕ × System :=
  match s.currentProcess with
  | none => (minusOne, s)
  | some p =>
    if wrap (p.brk+increment) ≤ p.brkMax then
      (p.brk, { s with currentProcess := some { p with brk := wrap (p.brk+increment) } })
    else
      let newPages := pagesOf increment
      (p.brk,
        { vm := grantPages s.vm p.brkMax userFlags 0 newPages
          currentProcess := some ⟨wrap (p.brk+increment), wrap (p.brkMax + newPages*4096)⟩ })

def sysMmap (s : VmState) (addr len : ℕ) : ℕ × VmState :=
  if len = 0 then (0, s)
  else
    let start := if addr ≠ 0 then addr else 0x40000000
    (start, grantPages s start userFlags 0 (pagesOf len))

/-- The loop of `sys_munmap` from index `i` on. -/
def unmapPages (s : VmState) (base i : ℕ) : ℕ → VmState
  | 0 => s
  | n+1 => unmapPages (vmmUnmapPage s (wrap (base + i*4096))) base (i+1) n

def sysMunmap (s : VmState) (addr len : ℕ) : ℕ × VmState := (0, unmapPages s addr 0 (pagesOf len))

/-- Present, writable and open to user mode, in the table and in the directory. -/
def UserWritable (s : VmState) (va : ℕ) : Prop := pageEntryAt s va % 8 = 7 ∧ dirEntryAt s va % 8 = 7

instance (s : VmState) (va : ℕ) : Decidable (UserWritable s va) := inferInstanceAs (Decidable (_ ∧ _))

theorem pagesOf_le (len : ℕ) : pagesOf len ≤ 1048576 := by
  unfold pagesOf wrap
  omega

theorem userEntry_flags {f : ℕ} (h : Aligned (f*pageSize)) : pageEntry (f*pageSize) userFlags % 8 = 7 := by
  have hflags : userFlags ||| 1 = 7 := by decide
  unfold pageEntry
  rw [hflags, aligned_frame h]
  unfold Aligned at h
  omega

theorem userTable_flags {pt : ℕ} (h : Aligned pt) : tableEntry pt userFlags % 8 = 7 := by
  have hflags : 3 ||| (userFlags &&& 4) = 7 := by decide
  unfold tableEntry
  rw [hflags]
  unfold Aligned at h
  omega

theorem page_aligned {s : Pmm} {f : ℕ} (hs : Padded s) (h : f ∈ freeSet s) : Aligned (f*pageSize) := by
  refine ⟨?_, page_lt hs h⟩
  unfold pageSize
  omega

theorem flags_present {e : ℕ} (h : e % 8 = 7) : Present e := by
  unfold Present
  omega

theorem served_frame {s t : VmState} {base flags i n k j : ℕ} {f : ℕ → ℕ} (hf : flags < 4096)
    (hp : Padded s.pmm) (h : Served s base flags i n k f t) (hj : j < k) {wa : ℕ} (hwa : wa < 4294967296)
    (hsame : SamePage (pageAt base (i+j)) wa) : frameOf (pageEntryAt t wa) = f j*pageSize := by
  have hal := page_aligned hp (h.free j hj)
  rw [h.pages j hj wa hwa hsame, pageEntry_frame hal.2 hf]
  exact aligned_frame hal

/-- Pages that were user-writable before a loop still are. -/
theorem served_writable {s t : VmState} {base i n k : ℕ} {f : ℕ → ℕ} (hs : Sound s)
    (h : Served s base userFlags i n k f t) {wa : ℕ} (hwa : wa < 4294967296) (hw : UserWritable s wa) :
    UserWritable t wa := by
  constructor
  · by_cases hin : ∃ j < k, SamePage (pageAt base (i+j)) wa
    · obtain ⟨j, hj, hsame⟩ := hin
      rw [h.pages j hj wa hwa hsame]
      exact userEntry_flags (page_aligned hs.padded (h.free j hj))
    · rw [h.kept wa hwa (fun j hj hsame => hin ⟨j, hj, hsame⟩)]
      exact hw.1
  · rw [h.dirs wa (Or.inl (flags_present hw.2))]
    exact hw.2

/-- A served page is user-writable unless its table already stood behind a restricted entry. -/
theorem served_page {s t : VmState} {base i n k j : ℕ} {f : ℕ → ℕ} (hs : Sound s)
    (h : Served s base userFlags i n k f t) (hj : j < k) {wa : ℕ} (hwa : wa < 4294967296)
    (hsame : SamePage (pageAt base (i+j)) wa) :
    UserWritable t wa ↔ NeedsTable s wa ∨ dirEntryAt s wa % 8 = 7 := by
  have hidx : dirIndex wa = dirIndex (pageAt base (i+j)) :=
    ((same_page (pageAt_lt _ _) hwa).mpr hsame).1
  have hentry : pageEntryAt t wa % 8 = 7 := by
    rw [h.pages j hj wa hwa hsame]
    exact userEntry_flags (page_aligned hs.padded (h.free j hj))
  by_cases hn : NeedsTable s wa
  · have hn' : NeedsTable s (pageAt base (i+j)) := by
      unfold NeedsTable pde at hn ⊢
      rwa [← hidx]
    obtain ⟨pt, hpt, hnew⟩ := h.newDirs j hj hn'
    have hdir : dirEntryAt t wa % 8 = 7 := by
      rw [hnew wa hidx]
      exact userTable_flags hpt
    exact iff_of_true ⟨hentry, hdir⟩ (Or.inl hn)
  · have hkept : dirEntryAt t wa = dirEntryAt s wa := h.dirs wa (Or.inl (not_not.mp hn))
    constructor
    · intro hw
      right
      rw [← hkept]
      exact hw.2
    · intro hd
      have hflags := hd.resolve_left hn
      rw [← hkept] at hflags
      exact ⟨hentry, hflags⟩

/-- The `n` pages are gone and nothing else has moved. -/
structure Unmapped (s : VmState) (base i n : ℕ) (t : VmState) : Prop where
  space : Space t
  directory : t.pageDirectory = s.pageDirectory
  pmm : t.pmm = s.pmm
  gone : ∀ j < n, ∀ wa < 4294967296, SamePage (pageAt base (i+j)) wa → pageEntryAt t wa = 0
  kept : ∀ wa < 4294967296, (∀ j < n, ¬ SamePage (pageAt base (i+j)) wa) →
    pageEntryAt t wa = pageEntryAt s wa
  dirs : ∀ wa, dirEntryAt t wa = dirEntryAt s wa
  frames : kernelFrames t = kernelFrames s
  off : SameOff {x | frameOf x ∈ kernelFrames s} s.mem t.mem

theorem unmapPages_spec {s : VmState} {base i n : ℕ} (hs : Space s) :
    Unmapped s base i n (unmapPages s base i n) := by
  induction n generalizing s i with
  | zero =>
    exact ⟨hs, rfl, rfl, fun j hj => absurd hj (Nat.not_lt_zero j), fun _ _ _ => rfl, fun _ => rfl,
      rfl, SameOff.refl _ _⟩
  | succ n ih =>
    have hva := pageAt_lt base i
    obtain ⟨hspace, hpages, hdirs, htables, hoff⟩ := unmap_spec hs hva
    have hframes : kernelFrames (vmmUnmapPage s (pageAt base i)) = kernelFrames s := by
      unfold kernelFrames
      rw [htables, unmap_directory]
    have h := ih (i := i+1) hspace
    have hshift : ∀ j, 0 < j → i+1+(j-1) = i+j := by
      intro j hj
      omega
    change Unmapped s base i (n+1) (unmapPages (vmmUnmapPage s (pageAt base i)) base (i+1) n)
    refine ⟨h.space, h.directory.trans (unmap_directory s _), h.pmm.trans (unmap_pmm s _), ?_, ?_,
      fun wa => (h.dirs wa).trans (hdirs wa), h.frames.trans hframes, hoff.trans (hframes ▸ h.off)⟩
    · intro j hj wa hwa hsame
      by_cases hlater : ∃ l < n, SamePage (pageAt base (i+1+l)) wa
      · obtain ⟨l, hl, hlsame⟩ := hlater
        exact h.gone l hl wa hwa hlsame
      · have hj0 : j = 0 := by
          by_contra hne
          refine hlater ⟨j-1, by omega, ?_⟩
          rw [hshift j (by omega)]
          exact hsame
        subst hj0
        rw [h.kept wa hwa (fun l hl hls => hlater ⟨l, hl, hls⟩), hpages wa hwa]
        exact if_pos hsame
    · intro wa hwa hall
      have hfirst : ¬ wa/4096 = pageAt base i/4096 := hall 0 (by omega)
      rw [h.kept wa hwa, hpages wa hwa, if_neg hfirst]
      intro j hj
      have hout := hall (j+1) (by omega)
      rwa [← hshift (j+1) (by omega)] at hout

/-- The byte seen at an address through the tables. -/
def readByte (s : VmState) (va : ℕ) : Option UInt8 := (translate s.mem s.pageDirectory va).map s.mem

theorem translate_eq (s : VmState) (va : ℕ) : translate s.mem s.pageDirectory va =
    if Present (pageEntryAt s va) then some (frameOf (pageEntryAt s va) + va % 4096) else none := rfl

theorem pageEntryAt_lt (s : VmState) (va : ℕ) : pageEntryAt s va < 4294967296 := by
  unfold pageEntryAt pte
  split
  · exact entry_lt _ _ _
  · decide

/-- A page whose entry and frame are left alone reads the same. -/
theorem readByte_same {s t : VmState} {va : ℕ} (hentry : pageEntryAt t va = pageEntryAt s va)
    (hoff : SameOff {x | frameOf x ∈ kernelFrames t} s.mem t.mem)
    (hframe : Present (pageEntryAt s va) → frameOf (pageEntryAt s va) ∉ kernelFrames t) :
    readByte t va = readByte s va := by
  unfold readByte
  rw [translate_eq, translate_eq, hentry]
  by_cases hp : Present (pageEntryAt s va)
  · rw [if_pos hp, Option.map_some, Option.map_some]
    refine congrArg some (hoff _ (fun hx => hframe hp ?_))
    have hal : Aligned (frameOf (pageEntryAt s va)) := frameOf_aligned (pageEntryAt_lt s va)
    have hin : frameOf (frameOf (pageEntryAt s va) + va % 4096) ∈ kernelFrames t := hx
    rwa [frameOf_flags hal (Nat.mod_lt _ (by decide))] at hin
  · rw [if_neg hp]
    rfl

end Dionnex.UserMemory
