import Dionnex.ProcessImage
import Dionnex.TwinRuns

/-!
# Old data in new user pages

A call keeps old data hidden when the bytes that user mode can read in the
pages it was given do not depend on what the free frames held before. None
of the four allocation paths clears a frame as a whole. `sys_sbrk`,
`sys_mmap` and `process_create` hide nothing, so they meet the condition
only where no page they are served is open to user mode; the loader meets it
where every open page is covered by its last segment.
-/

set_option autoImplicit false

namespace Dionnex.FreshMemory
open ByteMemory PageTables Dionnex.PmmBitmap Dionnex.Vmm Dionnex.UserPages Dionnex.UserMemory
open Dionnex.PagedAccess Dionnex.ElfLoader Dionnex.TwinRuns Dionnex.ProcessImage

def UserReadable (s : VmState) (va : ℕ) : Prop :=
  UserBits (pageEntryAt s va) ∧ UserBits (dirEntryAt s va)

/-- The bytes of the free frames. -/
def freeBytes (s : VmState) : Set ℕ := {x | ∃ p ∈ freeSet s.pmm, frameOf x = p*pageSize}

/-- The address is readable in user mode and lies in a frame that the call took from the pool. -/
def Shown (s t : VmState) (va : ℕ) : Prop := UserReadable t va ∧ frameOf (pageEntryAt t va) ∈ taken s t

/-- Two runs that start with different bytes in the free frames show the same. -/
def Hidden {α : Type} (op : VmState → Option (α × VmState)) (s : VmState) : Prop :=
  ∀ m r r', SameOff (freeBytes s) s.mem m → op s = some r → op { s with mem := m } = some r' →
    ∀ va < 4294967296, Shown s r.2 va → readByte r'.2 va = readByte r.2 va

/-- A state of the running kernel: no user page leads to a free frame. -/
structure Running (s : VmState) : Prop where
  sound : Sound s
  plain : Plain s
  low : Present (dirEntryAt s 0)
  owned : ∀ va < 4294967296, UserReadable s va → ∀ p ∈ freeSet s.pmm, frameOf (pageEntryAt s va) ≠ p*pageSize

/-- The table of the page is still to come, or its directory entry is open to user mode. -/
def Open (s : VmState) (va : ℕ) : Prop := NeedsTable s va ∨ UserBits (dirEntryAt s va)

/-- The pages of a run that the pool can still serve, after the pages `before`, are closed to user mode. -/
def Closed (s : VmState) (before : List ℕ) (base n : ℕ) : Prop :=
  ∀ i < n, framesFor s (before ++ pageRun base 0 i) < (freeSet s.pmm).ncard → ¬ Open s (pageAt base i)

def sbrkOn (p : Option UserHeap) (increment : ℕ) (s : VmState) : Option (ℕ × VmState) :=
  let r := sysSbrk ⟨s, p⟩ increment
  some (r.1, r.2.vm)

def mmapOn (addr len : ℕ) (s : VmState) : Option (ℕ × VmState) := some (sysMmap s addr len)

/-- The part of `process_create` that maps memory. -/
def createOn (s : VmState) : Option (Unit × VmState) := some ((), mapUserSpace s)

def loadOn (data : Option Mem) (size : ℕ) (s : VmState) : Option (ℕ × VmState) :=
  elfLoadSegments s data size

theorem Running.ready {s : VmState} (hs : Running s) : Ready s :=
  ⟨hs.sound.space, hs.sound.padded, Or.inr ⟨hs.sound, hs.plain⟩⟩

theorem freeBytes_apart {s : VmState} (hs : Sound s) : Disjoint (freeBytes s) (kernelBytes s) := by
  refine Set.disjoint_left.mpr ?_
  rintro x ⟨p, hp, hx⟩ hk
  have hin : frameOf x ∈ kernelFrames s := hk
  rw [hx] at hin
  exact hs.reserved p hp hin

theorem shown_byte {s t : VmState} {va x : ℕ} (hva : va < 4294967296) (h : Shown s t va)
    (hx : translateAt t va = some x) : frameOf x = frameOf (pageEntryAt t va) ∧ x ∈ freeBytes s := by
  unfold translateAt at hx
  rw [wrap_of_lt hva, translate_eq] at hx
  split at hx
  · have hframe : frameOf x = frameOf (pageEntryAt t va) := by
      rw [← Option.some.inj hx]
      exact frameOf_flags (frameOf_aligned (pageEntryAt_lt t va)) (Nat.mod_lt _ (by decide))
    obtain ⟨p, hp, -, he⟩ := h.2
    exact ⟨hframe, p, hp, hframe.trans he⟩
  · cases hx

theorem shown_translate {s t : VmState} {va : ℕ} (hva : va < 4294967296) (h : Shown s t va) :
    ∃ x, translateAt t va = some x := by
  have hp : Present (pageEntryAt t va) := h.1.1.1
  unfold translateAt
  rw [wrap_of_lt hva, translate_eq, if_pos hp]
  exact ⟨_, rfl⟩

/-- With the tables out of reach, a call hides exactly the bytes it writes. -/
theorem hidden_iff {α : Type} {op : VmState → Option (α × VmState)} {s t : VmState} {W : Set ℕ} {a : α}
    (ht : Space t) (h : Uniform op (freeBytes s) W s a t) (hk : kernelBytes t ⊆ W) :
    Hidden op s ↔ ∀ va < 4294967296, Shown s t va → ∀ x, translateAt t va = some x → x ∈ W := by
  have hsame : ∀ m', SameOff (freeBytes s \ W) t.mem m' → SameTables t { t with mem := m' } :=
    fun m' hm' => sameTables_off ht hm' (disjoint_rest hk)
  have hread : ∀ m', SameOff (freeBytes s \ W) t.mem m' → ∀ va < 4294967296, ∀ x,
      translateAt t va = some x → readByte { t with mem := m' } va = some (m' x) := by
    intro m' hm' va hva x hx
    have htr := (hsame m' hm').translate va
    unfold translateAt at htr hx
    rw [wrap_of_lt hva] at htr hx
    unfold readByte
    rw [htr, hx]
    rfl
  constructor
  · intro hhid va hva hshown x hx
    by_contra hout
    obtain ⟨v, hv⟩ : ∃ v : UInt8, v ≠ s.mem x := by
      by_cases h0 : s.mem x = 0
      · exact ⟨1, by rw [h0]; decide⟩
      · exact ⟨0, fun he => h0 he.symm⟩
    have hm : SameOff (freeBytes s) s.mem (Function.update s.mem x v) := by
      intro y hy
      refine Function.update_of_ne ?_ _ _
      rintro rfl
      exact hy (shown_byte hva hshown hx).2
    obtain ⟨m', hm', hoff, hrest⟩ := h.twin _ hm
    have heq := hhid _ _ _ hm h.result hm' va hva hshown
    rw [hread m' hrest va hva x hx, hread t.mem (SameOff.refl _ _) va hva x hx] at heq
    have hbyte := Option.some.inj heq
    rw [hoff x hout, h.off x hout, Function.update_self] at hbyte
    exact hv hbyte
  · intro hall m r r' hm hr hr' va hva hshown
    obtain ⟨m', hm', -, hrest⟩ := h.twin m hm
    obtain rfl := Option.some.inj (h.result.symm.trans hr)
    obtain rfl := Option.some.inj (hm'.symm.trans hr')
    obtain ⟨x, hx⟩ := shown_translate hva hshown
    have hin := hall va hva hshown x hx
    rw [hread m' hrest va hva x hx, hread t.mem (SameOff.refl _ _) va hva x hx, hrest x (fun hd => hd.2 hin)]

/-! ## Pages that a call gives -/

/-- The addresses `V` were given pages in frames from the pool; all others are as before. -/
structure Filled (s : VmState) (V : Set ℕ) (t : VmState) : Prop where
  user : ∀ va < 4294967296, va ∈ V → UserBits (pageEntryAt t va) ∧
    frameOf (pageEntryAt t va) ∈ taken s t ∧ frameOf (pageEntryAt t va) ∉ kernelFrames t
  rest : ∀ va < 4294967296, va ∉ V → pageEntryAt t va = pageEntryAt s va

theorem open_lent {s t : VmState} {V : Set ℕ} (h : Lent s V t) (va : ℕ) : Open t va ↔ Open s va := by
  unfold Open
  by_cases hn : NeedsTable s va
  · exact iff_of_true (h.opened va hn) (Or.inl hn)
  · have hdir := h.dirs va (not_not.mp hn)
    have hn' : ¬ NeedsTable t va := by
      intro ht
      change ¬ Present (dirEntryAt t va) at ht
      rw [hdir] at ht
      exact hn ht
    rw [or_iff_right hn', or_iff_right hn, hdir]

/-- What is shown of a call's pages is what its open pages hold. -/
theorem shown_filled {s t : VmState} {U V : Set ℕ} {va : ℕ} (hs : Running s) (hl : Lent s U t)
    (hf : Filled s V t) (hva : va < 4294967296) : Shown s t va ↔ va ∈ V ∧ Open s va := by
  constructor
  · rintro ⟨⟨hpage, hdir⟩, hin⟩
    refine ⟨?_, (open_lent hl va).mp (Or.inr hdir)⟩
    by_contra hout
    have hentry := hf.rest va hva hout
    rw [hentry] at hpage hin
    have hp : Present (dirEntryAt s va) := by
      by_contra hn
      have hzero : pageEntryAt s va = 0 := if_neg hn
      rw [hzero] at hpage
      exact absurd hpage.1 (by decide)
    rw [hl.dirs va hp] at hdir
    obtain ⟨p, hp, -, he⟩ := hin
    exact hs.owned va hva ⟨hpage, hdir⟩ p hp he
  · rintro ⟨hin, hopen⟩
    obtain ⟨hbits, htaken, -⟩ := hf.user va hva hin
    refine ⟨⟨hbits, ?_⟩, htaken⟩
    refine ((open_lent hl va).mpr hopen).resolve_left (fun hn => ?_)
    have hzero : pageEntryAt t va = 0 := if_neg hn
    rw [hzero] at hbits
    exact absurd hbits.1 (by decide)

/-- A call that only grants pages hides nothing that is open; `s'` is the state before its first grant. -/
theorem hidden_filled {α : Type} {op : VmState → Option (α × VmState)} {s s' t : VmState} {U V : Set ℕ}
    {a : α} (hs : Running s') (hpmm : s'.pmm = s.pmm) (h : Uniform op (freeBytes s) (kernelBytes t) s a t)
    (hl : Lent s' U t) (hf : Filled s' V t) : Hidden op s ↔ ∀ va < 4294967296, va ∈ V → ¬ Open s' va := by
  have hbase : ∀ va, Shown s t va ↔ Shown s' t va := by
    intro va
    unfold Shown taken
    rw [hpmm]
  rw [hidden_iff hl.ready.space h subset_rfl]
  constructor
  · intro hall va hva hin hopen
    have hshown := (shown_filled hs hl hf hva).mpr ⟨hin, hopen⟩
    obtain ⟨x, hx⟩ := shown_translate hva hshown
    have hk : frameOf x ∈ kernelFrames t := hall va hva ((hbase va).mpr hshown) x hx
    rw [(shown_byte hva hshown hx).1] at hk
    exact (hf.user va hva hin).2.2 hk
  · intro hall va hva hshown
    obtain ⟨hin, hopen⟩ := (shown_filled hs hl hf hva).mp ((hbase va).mp hshown)
    exact absurd hopen (hall va hva hin)

/-- The addresses in the first `k` pages of a run. -/
def runBytes (base k : ℕ) : Set ℕ := {va | ∃ j < k, SamePage (pageAt base (0+j)) va}

theorem served_filled {s t : VmState} {base n k : ℕ} {f : ℕ → ℕ} (hs : Sound s)
    (h : Served s base userFlags 0 n k f t) : Filled s (runBytes base k) t where
  user va hva := by
    rintro ⟨j, hj, hsame⟩
    have hal := page_aligned hs.padded (h.free j hj)
    have hframe := served_frame (by decide) hs.padded h hj hva hsame
    refine ⟨?_, ?_, ?_⟩
    · rw [h.pages j hj va hva hsame]
      exact pageEntry_user hal (by decide)
    · rw [hframe]
      exact ⟨f j, h.free j hj, h.taken j hj, rfl⟩
    · rw [hframe]
      exact h.plain j hj
  rest va hva hout := h.kept va hva (fun j hj hsame => hout ⟨j, hj, hsame⟩)

theorem filled_trans {s t u : VmState} {A B U V : Set ℕ} (hs : Sound s) (hst : Lent s A t)
    (htu : Lent t B u) (h : Filled s U t) (g : Filled t V u) : Filled s (U ∪ V) u where
  user va hva hin := by
    obtain ⟨hfirst, hlast⟩ := taken_trans hst.pool htu.pool
    by_cases hv : va ∈ V
    · obtain ⟨hbits, htaken, hout⟩ := g.user va hva hv
      exact ⟨hbits, hlast htaken, hout⟩
    · obtain ⟨hbits, htaken, hout⟩ := h.user va hva (hin.resolve_right hv)
      rw [g.rest va hva hv]
      refine ⟨hbits, hfirst htaken, fun hk => ?_⟩
      rcases htu.frames _ hk with hk | h0 | hk
      · exact hout hk
      · exact (taken_reserved hs htaken).2 h0
      · exact taken_apart htaken hk
  rest va hva hout := by
    rw [g.rest va hva (fun hv => hout (Or.inr hv)), h.rest va hva (fun hu => hout (Or.inl hu))]

theorem open_samePage (s : VmState) {va wa : ℕ} (hva : va < 4294967296) (hwa : wa < 4294967296)
    (h : SamePage va wa) : Open s wa ↔ Open s va := by
  have hidx : dirIndex wa = dirIndex va := ((same_page hva hwa).mpr h).1
  unfold Open NeedsTable dirEntryAt pde
  rw [hidx]

/-- The open addresses of a run, page by page. -/
theorem closed_run {s : VmState} {base n k : ℕ} (before : List ℕ) (hk : k ≤ n)
    (hcount : ∀ j < n, j < k ↔ framesFor s (before ++ pageRun base 0 j) < (freeSet s.pmm).ncard) :
    (∀ va < 4294967296, va ∈ runBytes base k → ¬ Open s va) ↔ Closed s before base n := by
  constructor
  · intro hall i hi hroom
    refine hall _ (pageAt_lt base i) ⟨i, (hcount i hi).mpr hroom, ?_⟩
    rw [Nat.zero_add]
    rfl
  · rintro hall va hva ⟨j, hj, hsame⟩ hopen
    rw [Nat.zero_add] at hsame
    have hjn := hj.trans_le hk
    exact hall j hjn ((hcount j hjn).mp hj) ((open_samePage s (pageAt_lt base j) hva hsame).mp hopen)

theorem hidden_same {α : Type} {op : VmState → Option (α × VmState)} {s : VmState} {a : α}
    (hop : ∀ m, op { s with mem := m } = some (a, { s with mem := m })) : Hidden op s := by
  intro m r r' _ hr _ va _ hshown
  obtain rfl := Option.some.inj ((hop s.mem).symm.trans hr)
  obtain ⟨p, hp, hout, -⟩ := hshown.2
  exact absurd hp hout

theorem grant_hidden {s : VmState} {base n : ℕ} (hs : Running s) (hn : n ≤ 1048576) :
    Hidden (fun s => some ((), grantPages s base userFlags 0 n)) s ↔ Closed s [] base n := by
  obtain ⟨k, f, h, hcount⟩ := @grantPages_served _ base userFlags 0 _ hs.sound
    hs.plain (by decide) hn
  have huni := @grantPages_uniform _ _ base userFlags 0 _ hs.ready (by decide)
    (by decide) hn (freeBytes_apart hs.sound)
  rw [hidden_filled hs rfl huni (served_lent hs.ready (by decide) h) (served_filled hs.sound h)]
  exact closed_run [] h.length hcount

/-- The result of a call does not matter for what it hides. -/
theorem hidden_result {α β : Type} {op : VmState → Option (α × VmState)} {op' : VmState → Option (β × VmState)}
    {s : VmState} (h : ∀ m, (op { s with mem := m }).map Prod.snd = (op' { s with mem := m }).map Prod.snd) :
    Hidden op s → Hidden op' s := by
  intro hall m r r' hm hr hr' va hva hshown
  have h1 := h s.mem
  have h2 := h m
  rw [show op' { s with mem := s.mem } = some r from hr] at h1
  rw [hr'] at h2
  obtain ⟨q, hq, hq2⟩ := Option.map_eq_some_iff.mp h1
  obtain ⟨q', hq', hq2'⟩ := Option.map_eq_some_iff.mp h2
  rw [← hq2] at hshown
  rw [← hq2, ← hq2']
  exact hall m q q' hm hq hq' va hva hshown

theorem mmap_hidden {s : VmState} (hs : Running s) (addr len : ℕ) : Hidden (mmapOn addr len) s ↔
    (len ≠ 0 → Closed s [] (if addr ≠ 0 then addr else 0x40000000) (pagesOf len)) := by
  by_cases h0 : len = 0
  · refine iff_of_true ?_ (fun h => absurd h0 h)
    refine hidden_same (a := 0) (fun m => ?_)
    unfold mmapOn sysMmap
    rw [if_pos h0]
  · have hpages : ∀ m, (mmapOn addr len { s with mem := m }).map Prod.snd =
        (some ((), grantPages { s with mem := m } (if addr ≠ 0 then addr else 0x40000000) userFlags 0
          (pagesOf len))).map Prod.snd := by
      intro m
      unfold mmapOn sysMmap
      rw [if_neg h0]
      rfl
    have hgrant := @grant_hidden _ (if addr ≠ 0 then addr else 0x40000000) _ hs (pagesOf_le len)
    constructor
    · intro hhid _
      exact hgrant.mp (hidden_result hpages hhid)
    · intro hclosed
      exact hidden_result (fun m => (hpages m).symm) (hgrant.mpr (hclosed h0))

theorem sbrk_hidden {s : VmState} (hs : Running s) (p : Option UserHeap) (increment : ℕ) :
    Hidden (sbrkOn p increment) s ↔ ∀ h, p = some h → h.brkMax < wrap (h.brk+increment) →
      Closed s [] h.brkMax (pagesOf increment) := by
  cases p with
  | none => exact iff_of_true (hidden_same (fun _ => rfl)) (fun h hp => by cases hp)
  | some q =>
    by_cases hle : wrap (q.brk+increment) ≤ q.brkMax
    · refine iff_of_true (hidden_same (a := q.brk) (fun m => ?_)) ?_
      · unfold sbrkOn sysSbrk
        dsimp only
        rw [if_pos hle]
      · intro h hp hlt
        obtain rfl := Option.some.inj hp
        omega
    · have hpages : ∀ m, (sbrkOn (some q) increment { s with mem := m }).map Prod.snd =
          (some ((), grantPages { s with mem := m } q.brkMax userFlags 0 (pagesOf increment))).map Prod.snd := by
        intro m
        unfold sbrkOn sysSbrk
        dsimp only
        rw [if_neg hle]
        rfl
      have hgrant := @grant_hidden _ q.brkMax _ hs (pagesOf_le increment)
      constructor
      · intro hhid h hp _
        obtain rfl := Option.some.inj hp
        exact hgrant.mp (hidden_result hpages hhid)
      · intro hclosed
        exact hidden_result (fun m => (hpages m).symm) (hgrant.mpr (hclosed q rfl (by omega)))

/-! ## Process creation -/

theorem identity_uniform {s : VmState} {R : Set ℕ} {i n : ℕ} (hs : Ready s) (h0 : Present (dirEntryAt s 0))
    (hn : i+n ≤ 1024) (hR : Disjoint R (kernelBytes s)) :
    Uniform (fun s => some ((), identityPages s i n)) R (kernelBytes s) s () (identityPages s i n) := by
  induction n generalizing s R i with
  | zero => exact empty_uniform hR (fun _ => rfl)
  | succ n ih =>
    have hlow := low_table h0 (show i < 1024 by omega)
    have hone := identity_one hs h0 (show i < 1024 by omega)
    have hbytes : kernelBytes (vmmMapPage s (i*4096) (i*4096) kernelFlags) = kernelBytes s := by
      unfold kernelBytes
      rw [hone.frames]
    have hm : Mapped s (i*4096) (i*4096) kernelFlags _ :=
      map_spec hs.space (by omega) (by omega) (by decide) (fun h => absurd h hlow)
    have hfirst : Uniform (fun s => some ((), vmmMapPage s (i*4096) (i*4096) kernelFlags)) R
        (kernelBytes s) s () (vmmMapPage s (i*4096) (i*4096) kernelFlags) := by
      refine ⟨rfl, ?_, fun m hm' => ?_⟩
      · rw [← hbytes]
        exact hm.off
      · obtain ⟨m', hmap, hoff, hrest⟩ := @map_twin _ _ _ _ _ kernelFlags hs.space hR hm'
          (show i*4096 < 4294967296 by omega) (show i*4096 < 4294967296 by omega) (by decide)
          (fun h => absurd h hlow)
        rw [hbytes] at hoff hrest
        exact ⟨m', congrArg (fun t => some ((), t)) hmap, hoff, hrest⟩
    have hrest := ih (i := i+1) (R := R \ kernelBytes s) hone.lent.ready (by rw [hone.dirs 0]; exact h0)
      (by omega) (by rw [hbytes]; exact disjoint_rest subset_rfl)
    rw [hbytes] at hrest
    have hboth := hfirst.bind (f := fun _ s => some ((), identityPages s (i+1) n)) hrest
    rw [Set.union_self] at hboth
    exact hboth

theorem identity_running {s : VmState} (hs : Running s) : Running (identityPages s 0 1024) := by
  have hid := identity_spec (i := 0) (n := 1024) hs.ready hs.low le_rfl
  generalize identityPages s 0 1024 = t at *
  refine ⟨⟨hid.lent.ready.space, hid.pmm ▸ hs.sound.padded, hid.pmm ▸ hs.sound.zeroTaken, ?_⟩, ?_, ?_, ?_⟩
  · rw [hid.pmm, hid.frames]
    exact hs.sound.reserved
  · unfold Plain
    rw [hid.frames]
    exact hs.plain
  · rw [hid.dirs 0]
    exact hs.low
  · rintro va hva ⟨hpage, hdir⟩ p hp
    rw [hid.pmm] at hp
    by_cases hlow : va/4096 < 1024
    · rw [hid.pages va hva (Nat.zero_le _) (by omega)] at hpage
      have hflags : kernelFlags ||| 1 = 3 := by decide
      unfold pageEntry frameOf at hpage
      rw [hflags] at hpage
      unfold UserBits at hpage
      omega
    · have hentry := hid.lent.kept va hva (fun h => hlow (by rw [Set.mem_Ico] at h; omega))
      rw [hentry] at hpage ⊢
      rw [hid.dirs va] at hdir
      exact hs.owned va hva ⟨hpage, hdir⟩ p hp

/-- What the pool still serves after a loop, counted from before it. -/
theorem grantPages_count {s : VmState} {base flags n : ℕ} (hs : Sound s) (hplain : Plain s)
    (hf : flags < 4096) (hn : n ≤ 1048576) (vas : List ℕ) :
    framesFor (grantPages s base flags 0 n) vas < (freeSet (grantPages s base flags 0 n).pmm).ncard ↔
      framesFor s (pageRun base 0 n ++ vas) < (freeSet s.pmm).ncard := by
  by_cases hle : framesNeeded s base 0 n ≤ (freeSet s.pmm).ncard
  · obtain ⟨f, -, -, -, hsum⟩ := grantPages_full hs hf hn hle
    have heq := hsum vas
    omega
  · have he := grantPages_short hs hplain hf hn (not_le.mp hle)
    have hmore := framesFor_append s (pageRun base 0 n) vas
    unfold framesNeeded at hle
    rw [he, Set.ncard_empty]
    omega

/-- A second loop serves what the first one leaves. -/
theorem loops_filled {s : VmState} {b c n m : ℕ} (hs : Running s) (hn : n ≤ 1048576) (hm : m ≤ 1048576) :
    ∃ U k l, Lent s U (grantPages (grantPages s b userFlags 0 n) c userFlags 0 m) ∧
      Filled s (runBytes b k ∪ runBytes c l) (grantPages (grantPages s b userFlags 0 n) c userFlags 0 m) ∧
      (k ≤ n ∧ ∀ j < n, j < k ↔ framesFor s ([] ++ pageRun b 0 j) < (freeSet s.pmm).ncard) ∧
      (l ≤ m ∧ ∀ j < m, j < l ↔ framesFor s (pageRun b 0 n ++ pageRun c 0 j) < (freeSet s.pmm).ncard) := by
  obtain ⟨k, f, h, hcount⟩ := @grantPages_served _ b userFlags 0 _ hs.sound
    hs.plain (by decide) hn
  have htotal := @grantPages_count _ b userFlags _ hs.sound hs.plain (by decide) hn
  have hlent := served_lent hs.ready (by decide) h
  have hfirst := served_filled hs.sound h
  generalize grantPages s b userFlags 0 n = t at *
  by_cases he : freeSet t.pmm = ∅
  · rw [grantPages_empty he]
    refine ⟨_, k, 0, hlent, ?_, ⟨h.length, hcount⟩, Nat.zero_le m, fun j _ => ?_⟩
    · have hnone : runBytes c 0 = ∅ := Set.eq_empty_of_forall_notMem
        (fun va ⟨j, hj, _⟩ => Nat.not_lt_zero j hj)
      rw [hnone, Set.union_empty]
      exact hfirst
    · rw [← htotal, he, Set.ncard_empty]
      omega
  · obtain ⟨hsound, hplain⟩ := hlent.ready.next.resolve_left he
    obtain ⟨l, g, h', hcount'⟩ := @grantPages_served _ c userFlags 0 _ hsound hplain
      (by decide) hm
    have hlent' := served_lent hlent.ready (by decide) h'
    refine ⟨_, k, l, hlent.trans hlent', filled_trans hs.sound hlent hlent' hfirst (served_filled hsound h'),
      ⟨h.length, hcount⟩, h'.length, fun j hj => ?_⟩
    rw [← htotal]
    exact hcount' j hj

theorem loops_uniform {s : VmState} {R : Set ℕ} {b c n m : ℕ} (hs : Ready s) (hn : n ≤ 1048576)
    (hm : m ≤ 1048576) (hR : Disjoint R (kernelBytes s)) :
    Uniform (fun s => some ((), grantPages (grantPages s b userFlags 0 n) c userFlags 0 m)) R
      (kernelBytes (grantPages (grantPages s b userFlags 0 n) c userFlags 0 m)) s ()
      (grantPages (grantPages s b userFlags 0 n) c userFlags 0 m) := by
  have hlent := @grantPages_lent _ b userFlags 0 n hs (by decide)
    (by decide) hn
  have hlent' := @grantPages_lent _ c userFlags 0 m hlent.ready (by decide)
    (by decide) hm
  have hfirst := @grantPages_uniform _ _ b userFlags 0 n hs (by decide)
    (by decide) hn hR
  have hrest := @grantPages_uniform _ (R \ kernelBytes (grantPages s b userFlags 0 n)) c userFlags 0 m hlent.ready
    (by decide) (by decide) hm (disjoint_rest subset_rfl)
  have hboth := hfirst.bind (f := fun _ s => some ((), grantPages s c userFlags 0 m)) hrest
  rw [Set.union_eq_self_of_subset_left (kernelBytes_mono hlent'.grows)] at hboth
  exact hboth

theorem create_hidden {s : VmState} (hs : Running s) : Hidden createOn s ↔
    Closed s [] stackBottom 256 ∧ Closed s (pageRun stackBottom 0 256) Dionnex.Process.procHeapBase 16 := by
  have hid := identity_spec (i := 0) (n := 1024) hs.ready hs.low le_rfl
  have hrun := identity_running hs
  have hfirst := identity_uniform (i := 0) (n := 1024) hs.ready hs.low le_rfl (freeBytes_apart hs.sound)
  have hcongr : ∀ before base n, Closed (identityPages s 0 1024) before base n ↔ Closed s before base n := by
    intro before base n
    unfold Closed
    rw [hid.pmm]
    refine forall₂_congr (fun i _ => ?_)
    rw [framesFor_same hid.dirs, open_lent hid.lent]
  have hop : createOn = fun s => (some ((), identityPages s 0 1024)).bind (fun r =>
      some ((), grantPages (grantPages r.2 stackBottom userFlags 0 256) Dionnex.Process.procHeapBase
        userFlags 0 16)) := by
    funext s
    unfold createOn mapUserSpace
    rw [Option.bind_some, show procStackSize/4096 = 256 by decide]
  have hbytes : kernelBytes (identityPages s 0 1024) = kernelBytes s := by
    unfold kernelBytes
    rw [hid.frames]
  have hpmm := hid.pmm
  rw [hop, ← hcongr, ← hcongr]
  generalize identityPages s 0 1024 = s' at hid hrun hfirst hcongr hbytes hpmm ⊢
  obtain ⟨U, k, l, hlent, hfilled, ⟨hk, hcount⟩, hl, hcount'⟩ := loops_filled (b := stackBottom) (n := 256)
    (c := Dionnex.Process.procHeapBase) (m := 16) hrun (by decide) (by decide)
  have hrest := loops_uniform (R := freeBytes s \ kernelBytes s) (b := stackBottom) (n := 256)
    (c := Dionnex.Process.procHeapBase) (m := 16) hrun.ready (by decide) (by decide)
    (by rw [hbytes]; exact disjoint_rest subset_rfl)
  generalize grantPages (grantPages s' stackBottom userFlags 0 256) Dionnex.Process.procHeapBase
    userFlags 0 16 = t at hlent hfilled hrest
  have hboth := hfirst.bind (f := fun _ s => some ((), grantPages (grantPages s stackBottom userFlags 0 256)
    Dionnex.Process.procHeapBase userFlags 0 16)) hrest
  rw [Set.union_eq_self_of_subset_left (by rw [← hbytes]; exact kernelBytes_mono hlent.grows)] at hboth
  rw [hidden_filled hrun hpmm hboth hlent hfilled]
  have hstack := @closed_run _ stackBottom _ _ [] hk hcount
  have hheap := @closed_run _ Dionnex.Process.procHeapBase _ _ _ hl hcount'
  rw [← hstack, ← hheap]
  constructor
  · intro hall
    exact ⟨fun va hva hin => hall va hva (Or.inl hin), fun va hva hin => hall va hva (Or.inr hin)⟩
  · rintro ⟨h1, h2⟩ va hva hin
    exact hin.elim (h1 va hva) (h2 va hva)

/-! ## The loader -/

theorem delivered_filled {s t : VmState} {d : Mem} {size : ℕ} {phs : List Phdr} {W : Set ℕ}
    (h : Delivered s d size phs W t) : Filled s {va | lastSegment phs va ≠ none} t where
  user va hva hin := by
    obtain ⟨ph, hph⟩ := Option.ne_none_iff_exists'.mp hin
    obtain ⟨hbits, x, hx, htaken, hout, -⟩ := h.pages va hva ph hph
    have hframe : frameOf x = frameOf (pageEntryAt t va) := by
      unfold translateAt at hx
      have hp : Present (pageEntryAt t va) := hbits.1
      rw [wrap_of_lt hva, translate_eq, if_pos hp] at hx
      rw [← Option.some.inj hx]
      exact frameOf_flags (frameOf_aligned (pageEntryAt_lt t va)) (Nat.mod_lt _ (by decide))
    rw [← hframe]
    exact ⟨hbits, htaken, hout⟩
  rest va hva hout := h.others va hva (not_not.mp hout)

theorem load_hidden {s : VmState} {d : Mem} {size : ℕ} (hs : Running s) (hv : elfValidate (some d) size = true)
    (ht : ∀ ph ∈ phdrs d, ph.pType = ptLoad → Tame ph size)
    (hfree : framesFor s (imageRun (phdrs d)) ≤ (freeSet s.pmm).ncard) :
    Hidden (loadOn (some d) size) s ↔
      ∀ va < 4294967296, ∀ ph, lastSegment (phdrs d) va = some ph → Open s va → Covers ph va := by
  obtain ⟨W, t, h⟩ := segments_delivered d hs.sound hs.plain ht hfree
  have hfilled := delivered_filled h
  have hop : ∀ m, (loadOn (some d) size { s with mem := m }).map Prod.snd =
      (loadSegments { s with mem := m } d size (phdrs d)).map Prod.snd := by
    intro m
    unfold loadOn elfLoadSegments
    dsimp only
    rw [if_neg (by rw [hv]; exact Bool.true_eq_false_eq_False), Option.map_map]
    rfl
  have hhid : Hidden (loadOn (some d) size) s ↔ Hidden (fun s => loadSegments s d size (phdrs d)) s :=
    ⟨hidden_result hop, hidden_result (fun m => (hop m).symm)⟩
  rw [hhid, hidden_iff h.lent.ready.space (h.uniform _ (freeBytes_apart hs.sound)) h.kernel]
  constructor
  · intro hall va hva ph hph hopen
    obtain ⟨-, x, hx, -, -, hcover⟩ := h.pages va hva ph hph
    have hin : va ∈ {va | lastSegment (phdrs d) va ≠ none} := by
      change lastSegment (phdrs d) va ≠ none
      rw [hph]
      exact Option.some_ne_none ph
    exact hcover.mp (hall va hva ((shown_filled hs h.lent hfilled hva).mpr ⟨hin, hopen⟩) x hx)
  · intro hall va hva hshown x hx
    obtain ⟨hin, hopen⟩ := (shown_filled hs h.lent hfilled hva).mp hshown
    obtain ⟨ph, hph⟩ := Option.ne_none_iff_exists'.mp hin
    obtain ⟨-, y, hy, -, -, hcover⟩ := h.pages va hva ph hph
    obtain rfl := Option.some.inj (hx.symm.trans hy)
    exact hcover.mpr (hall va hva ph hph hopen)

theorem sampleKernel_directory (va : ℕ) : ¬ UserBits (dirEntryAt sampleKernel va) := by
  by_cases h : dirIndex va = 0
  · have hentry : dirEntryAt sampleKernel va = dirEntryAt sampleKernel 0 := by
      unfold dirEntryAt pde
      rw [h]
      rfl
    rw [hentry]
    decide +kernel
  · exact fun hu => sampleKernel_needsTable h hu.1

theorem sampleKernel_running : Running sampleKernel where
  sound := sampleKernel_sound.1
  plain := sampleKernel_sound.2
  low := by decide +kernel
  owned va _ hu := absurd hu.2 (sampleKernel_directory va)

end Dionnex.FreshMemory
