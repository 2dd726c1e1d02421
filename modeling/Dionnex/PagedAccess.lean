import Dionnex.UserMemory

/-!
# Stores through the page tables

The loader and several system calls write to addresses as the tables
translate them; a store to a page that is not present is a page fault. Besides
the effect of such stores, this module follows one computation on two
memories: `Uniform` says that an operation does the same on every memory
that differs from the given one only on `R`, and that what it writes is no
difference afterwards.
-/

set_option autoImplicit false

namespace Dionnex.PagedAccess
open ByteMemory PageTables Dionnex.PmmBitmap Dionnex.Vmm Dionnex.UserPages Dionnex.UserMemory

def translateAt (s : VmState) (va : ℕ) : Option ℕ := translate s.mem s.pageDirectory (wrap va)

/-- `none` is a page fault. -/
def storeByte (s : VmState) (va v : ℕ) : Option VmState :=
  (translateAt s va).map (fun pa => { s with mem := store8 s.mem pa v })

/-- `f i`, `f (i+1)`, … to the `n` addresses from `va+i` on. -/
def storeBytes (s : VmState) (va : ℕ) (f : ℕ → ℕ) (i : ℕ) : ℕ → Option VmState
  | 0 => some s
  | n+1 => (storeByte s (va+i) (f i)).bind (fun s => storeBytes s va f (i+1) n)

def memsetAt (s : VmState) (va v n : ℕ) : Option VmState := storeBytes s va (fun _ => v) 0 n

/-- The source is data that the stores do not reach. -/
def memcpyAt (s : VmState) (va : ℕ) (data : Mem) (offset n : ℕ) : Option VmState :=
  storeBytes s va (fun i => load8 data (offset+i)) 0 n

/-- The bytes of the directory and its tables. -/
def kernelBytes (s : VmState) : Set ℕ := {x | frameOf x ∈ kernelFrames s}

/-- Where the `n` addresses from `va+i` on lie in memory. -/
def targets (s : VmState) (va i n : ℕ) : Set ℕ :=
  {x | ∃ j, i ≤ j ∧ j < i+n ∧ translateAt s (va+j) = some x}

/-- The addresses are mapped, and not to tables. -/
def Writable (s : VmState) (va i n : ℕ) : Prop :=
  ∀ j, i ≤ j → j < i+n → ∃ x, translateAt s (va+j) = some x ∧ frameOf x ∉ kernelFrames s

/-- Two states with the same tables. -/
structure SameTables (s t : VmState) : Prop where
  space : Space t
  directory : t.pageDirectory = s.pageDirectory
  pmm : t.pmm = s.pmm
  pages : ∀ wa, pageEntryAt t wa = pageEntryAt s wa
  dirs : ∀ wa, dirEntryAt t wa = dirEntryAt s wa
  frames : kernelFrames t = kernelFrames s

theorem SameTables.refl {s : VmState} (hs : Space s) : SameTables s s :=
  ⟨hs, rfl, rfl, fun _ => rfl, fun _ => rfl, rfl⟩

theorem SameTables.trans {s t u : VmState} (h : SameTables s t) (g : SameTables t u) : SameTables s u where
  space := g.space
  directory := g.directory.trans h.directory
  pmm := g.pmm.trans h.pmm
  pages wa := (g.pages wa).trans (h.pages wa)
  dirs wa := (g.dirs wa).trans (h.dirs wa)
  frames := g.frames.trans h.frames

theorem SameTables.translate {s t : VmState} (h : SameTables s t) (va : ℕ) :
    translateAt t va = translateAt s va := by
  have hpage := h.pages (wrap va)
  unfold pageEntryAt at hpage
  unfold translateAt PageTables.translate
  rw [hpage]

/-- Writes outside the tables keep them. -/
theorem sameTables_off {s : VmState} {R : Set ℕ} {m : Mem} (hs : Space s) (hm : SameOff R s.mem m)
    (hd : Disjoint R (kernelBytes s)) : SameTables s { s with mem := m } := by
  obtain ⟨hspace, htables, hentries⟩ := tables_off hs hm hd
  refine ⟨hspace, rfl, rfl, fun wa => (hentries wa).2, fun wa => (hentries wa).1, ?_⟩
  unfold kernelFrames tableFrames
  rw [htables]

theorem sound_sameTables {s t : VmState} (hs : Sound s) (h : SameTables s t) : Sound t where
  space := h.space
  padded := h.pmm ▸ hs.padded
  zeroTaken := h.pmm ▸ hs.zeroTaken
  reserved := by
    rw [h.pmm, h.frames]
    exact hs.reserved

theorem translateAt_lt {s : VmState} {va x : ℕ} (h : translateAt s va = some x) : x < 4294967296 := by
  unfold translateAt at h
  rw [translate_eq] at h
  split at h
  · have hal := frameOf_aligned (pageEntryAt_lt s (wrap va))
    have hx := Option.some.inj h
    unfold Aligned at hal
    omega
  · cases h

theorem storeByte_some {s : VmState} {va v x : ℕ} (h : translateAt s va = some x) :
    storeByte s va v = some { s with mem := store8 s.mem x v } := by
  unfold storeByte
  rw [h]
  rfl

theorem store8_kernel {s : VmState} {x v : ℕ} (hs : Space s) (hx : x < 4294967296)
    (hp : frameOf x ∉ kernelFrames s) : SameTables s { s with mem := store8 s.mem x v } := by
  refine sameTables_off hs (store8_off s.mem x v) (Set.disjoint_left.mpr ?_)
  rintro y ⟨i, hi, rfl⟩ hk
  have hi0 : i = 0 := by omega
  subst hi0
  rw [Nat.add_zero, wrap_of_lt hx] at hk
  exact hp hk

/-- Stores to writable addresses do not fault, keep the tables and change only their targets. -/
theorem storeBytes_spec {s : VmState} {va i n : ℕ} (f : ℕ → ℕ) (hs : Space s) (hw : Writable s va i n) :
    ∃ t, storeBytes s va f i n = some t ∧ SameTables s t ∧ SameOff (targets s va i n) s.mem t.mem := by
  induction n generalizing s i with
  | zero => exact ⟨s, rfl, SameTables.refl hs, SameOff.refl _ _⟩
  | succ n ih =>
    obtain ⟨x, hx, hp⟩ := hw i le_rfl (by omega)
    have hlt := translateAt_lt hx
    have hone := store8_kernel (v := f i) hs hlt hp
    have hrest : Writable { s with mem := store8 s.mem x (f i) } va (i+1) n := by
      intro j hj hjn
      obtain ⟨y, hy, hyp⟩ := hw j (by omega) (by omega)
      refine ⟨y, (hone.translate _).trans hy, ?_⟩
      rw [hone.frames]
      exact hyp
    obtain ⟨t, ht, hsame, hoff⟩ := ih hone.space hrest
    refine ⟨t, ?_, hone.trans hsame, ?_⟩
    · rw [storeBytes, storeByte_some hx]
      exact ht
    · refine ((store8_off s.mem x (f i)).mono ?_).trans (hoff.mono ?_)
      · rintro y ⟨k, hk, rfl⟩
        have hk0 : k = 0 := by omega
        subst hk0
        rw [show wrap (x+0) = x from wrap_of_lt hlt]
        exact ⟨i, le_rfl, by omega, hx⟩
      · rintro y ⟨j, hj, hjn, hy⟩
        exact ⟨j, by omega, by omega, (hone.translate _).symm.trans hy⟩

/-- Stores to different places leave their bytes there. -/
theorem storeBytes_bytes {s t : VmState} {va i n : ℕ} {f : ℕ → ℕ} (hs : Space s) (hw : Writable s va i n)
    (happart : ∀ j l x, i ≤ j → j < i+n → i ≤ l → l < i+n → translateAt s (va+j) = some x →
      translateAt s (va+l) = some x → j = l)
    (ht : storeBytes s va f i n = some t) (j x : ℕ) (hj : i ≤ j) (hjn : j < i+n)
    (hx : translateAt s (va+j) = some x) : t.mem x = UInt8.ofNat (f j) := by
  induction n generalizing s i with
  | zero => omega
  | succ n ih =>
    obtain ⟨y, hy, hp⟩ := hw i le_rfl (by omega)
    have hlt := translateAt_lt hy
    have hone := store8_kernel (v := f i) hs hlt hp
    have hrest : Writable { s with mem := store8 s.mem y (f i) } va (i+1) n := by
      intro l hl hln
      obtain ⟨z, hz, hzp⟩ := hw l (by omega) (by omega)
      refine ⟨z, (hone.translate _).trans hz, ?_⟩
      rw [hone.frames]
      exact hzp
    rw [storeBytes, storeByte_some hy, Option.bind_some] at ht
    by_cases hji : j = i
    · subst hji
      obtain rfl := Option.some.inj (hx.symm.trans hy)
      obtain ⟨u, hu, -, hoff⟩ := storeBytes_spec f hone.space hrest
      obtain rfl := Option.some.inj (ht.symm.trans hu)
      rw [hoff x]
      · change store8 s.mem x (f j) x = _
        rw [store8, wrap_of_lt hlt, Function.update_self]
      · rintro ⟨l, hl, hln, hxl⟩
        have hsame := happart j l x le_rfl (by omega) (by omega) (by omega) hx ((hone.translate _).symm.trans hxl)
        omega
    · refine ih hone.space hrest ?_ ht (by omega) (by omega) ((hone.translate _).trans hx)
      intro a b z ha han hb hbn hza hzb
      exact happart a b z (by omega) (by omega) (by omega) (by omega) ((hone.translate _).symm.trans hza)
        ((hone.translate _).symm.trans hzb)

/-! ## Grants and stores in sequence -/

/-- The frames that have left the pool. -/
def taken (s t : VmState) : Set ℕ := {x | ∃ p ∈ freeSet s.pmm, p ∉ freeSet t.pmm ∧ x = p*pageSize}

/-- The page numbers of `n` pages from index `i` on. -/
def runPages (base i n : ℕ) : Set ℕ := {p | ∃ j < n, p = pageAt base (i+j) / 4096}

/-- Present and open to user mode. -/
def UserBits (e : ℕ) : Prop := e % 2 = 1 ∧ e / 4 % 2 = 1

instance (e : ℕ) : Decidable (UserBits e) := inferInstanceAs (Decidable (_ ∧ _))

/-- A state from which pages can be granted, or whose pool is empty. -/
structure Ready (s : VmState) : Prop where
  space : Space s
  padded : Padded s.pmm
  next : freeSet s.pmm = ∅ ∨ Sound s ∧ Plain s

/-- What grants of the user pages `V` and stores to the granted frames leave. -/
structure Lent (s : VmState) (V : Set ℕ) (t : VmState) : Prop where
  ready : Ready t
  directory : t.pageDirectory = s.pageDirectory
  pool : freeSet t.pmm ⊆ freeSet s.pmm
  kept : ∀ wa < 4294967296, wa/4096 ∉ V → pageEntryAt t wa = pageEntryAt s wa
  dirs : ∀ wa, Present (dirEntryAt s wa) → dirEntryAt t wa = dirEntryAt s wa
  opened : ∀ wa, NeedsTable s wa → NeedsTable t wa ∨ UserBits (dirEntryAt t wa)
  frames : ∀ x ∈ kernelFrames t, x ∈ kernelFrames s ∨ x = 0 ∨ x ∈ taken s t
  grows : kernelFrames s ⊆ kernelFrames t
  off : SameOff {x | frameOf x ∈ kernelFrames t ∪ taken s t} s.mem t.mem

theorem taken_trans {s t u : VmState} (hst : freeSet t.pmm ⊆ freeSet s.pmm)
    (htu : freeSet u.pmm ⊆ freeSet t.pmm) : taken s t ⊆ taken s u ∧ taken t u ⊆ taken s u := by
  constructor
  · rintro x ⟨p, hp, hout, rfl⟩
    exact ⟨p, hp, fun h => hout (htu h), rfl⟩
  · rintro x ⟨p, hp, hout, rfl⟩
    exact ⟨p, hst hp, hout, rfl⟩

theorem Lent.refl {s : VmState} (hs : Ready s) (V : Set ℕ) : Lent s V s :=
  ⟨hs, rfl, subset_rfl, fun _ _ _ => rfl, fun _ _ => rfl, fun _ h => Or.inl h, fun _ h => Or.inl h,
    subset_rfl, SameOff.refl _ _⟩

theorem Lent.trans {s t u : VmState} {V W : Set ℕ} (h : Lent s V t) (g : Lent t W u) :
    Lent s (V ∪ W) u := by
  obtain ⟨hfirst, hlast⟩ := taken_trans h.pool g.pool
  refine ⟨g.ready, g.directory.trans h.directory, g.pool.trans h.pool, ?_, ?_, ?_, ?_,
    h.grows.trans g.grows, ?_⟩
  · intro wa hwa hout
    rw [g.kept wa hwa (fun hw => hout (Or.inr hw)), h.kept wa hwa (fun hv => hout (Or.inl hv))]
  · intro wa hp
    have hone := h.dirs wa hp
    rw [g.dirs wa (by rw [hone]; exact hp), hone]
  · intro wa hn
    rcases h.opened wa hn with hn | hu
    · exact g.opened wa hn
    · rw [g.dirs wa hu.1]
      exact Or.inr hu
  · intro x hx
    rcases g.frames x hx with hx | hx | hx
    · exact (h.frames x hx).imp_right (Or.imp_right (fun hin => hfirst hin))
    · exact Or.inr (Or.inl hx)
    · exact Or.inr (Or.inr (hlast hx))
  · refine (h.off.mono ?_).trans (g.off.mono ?_)
    · intro x hx
      exact hx.imp (fun hk => g.grows hk) (fun hin => hfirst hin)
    · intro x hx
      exact hx.imp_right (fun hin => hlast hin)

theorem Lent.mono {s t : VmState} {V W : Set ℕ} (h : Lent s V t) (hs : V ⊆ W) : Lent s W t :=
  { h with kept := fun wa hwa hout => h.kept wa hwa (fun hv => hout (hs hv)) }

theorem tableEntry_user {pt flags : ℕ} (h : Aligned pt) (hu : flags &&& 4 = 4) :
    UserBits (tableEntry pt flags) := by
  have h7 : 3 ||| 4 = 7 := by decide
  unfold tableEntry
  rw [hu, h7]
  unfold Aligned at h
  unfold UserBits
  omega

theorem served_lent {s t : VmState} {base flags i n k : ℕ} {f : ℕ → ℕ} (hs : Ready s)
    (hu : flags &&& 4 = 4) (h : Served s base flags i n k f t) : Lent s (runPages base i n) t where
  ready := by
    refine ⟨h.space, h.padded, ?_⟩
    by_cases he : freeSet t.pmm = ∅
    · exact Or.inl he
    · rcases hs.next with hempty | ⟨-, hplain⟩
      · exact Or.inl (Set.subset_eq_empty h.pool hempty)
      · exact Or.inr ⟨h.sound.resolve_left he, (h.stillPlain hplain).resolve_left he⟩
  directory := h.directory
  pool := h.pool
  kept wa hwa hout := h.kept wa hwa (fun j hj hsame => hout ⟨j, hj.trans_le h.length, hsame⟩)
  dirs wa hp := h.dirs wa (Or.inl hp)
  opened wa hn := by
    by_cases hin : ∃ j < k, dirIndex wa = dirIndex (pageAt base (i+j))
    · obtain ⟨j, hj, hidx⟩ := hin
      unfold NeedsTable pde at hn
      rw [hidx] at hn
      obtain ⟨pt, hpt, hnew⟩ := h.newDirs j hj hn
      rw [hnew wa hidx]
      exact Or.inr (tableEntry_user hpt hu)
    · have hsame := h.dirs wa (Or.inr (fun j hj hidx => hin ⟨j, hj, hidx⟩))
      refine Or.inl ?_
      change ¬ Present (dirEntryAt t wa)
      rw [hsame]
      exact hn
  frames x hx := by
    rcases h.frames x hx with hx | hx | ⟨p, hp, hout, -, hx⟩
    · exact Or.inl hx
    · exact Or.inr (Or.inl hx)
    · exact Or.inr (Or.inr ⟨p, hp, hout, hx⟩)
  grows := h.grows
  off := h.off.mono (fun _ hx => Or.inl hx)

/-- Stores to frames that were granted. -/
theorem Lent.stores {s t u : VmState} {V A : Set ℕ} (h : Lent s V t) (hsame : SameTables t u)
    (hoff : SameOff A t.mem u.mem) (hA : ∀ x ∈ A, frameOf x ∈ taken s t) : Lent s V u where
  ready := by
    refine ⟨hsame.space, hsame.pmm ▸ h.ready.padded, ?_⟩
    rw [hsame.pmm]
    rcases h.ready.next with he | ⟨hsound, hplain⟩
    · exact Or.inl he
    · refine Or.inr ⟨sound_sameTables hsound hsame, ?_⟩
      unfold Plain
      rw [hsame.frames]
      exact hplain
  directory := hsame.directory.trans h.directory
  pool := hsame.pmm ▸ h.pool
  kept wa hwa hout := (hsame.pages wa).trans (h.kept wa hwa hout)
  dirs wa hp := (hsame.dirs wa).trans (h.dirs wa hp)
  opened wa hn := by
    have hdir := hsame.dirs wa
    change ¬ Present (dirEntryAt u wa) ∨ _
    rw [hdir]
    exact h.opened wa hn
  frames x hx := by
    unfold taken
    rw [hsame.pmm]
    exact h.frames x (hsame.frames ▸ hx)
  grows := hsame.frames ▸ h.grows
  off := by
    unfold taken
    rw [hsame.pmm, hsame.frames]
    exact h.off.trans (hoff.mono (fun x hx => Or.inr (hA x hx)))

/-! ## One operation on two memories -/

structure Uniform {α : Type} (op : VmState → Option (α × VmState)) (R W : Set ℕ) (s : VmState) (a : α)
    (t : VmState) : Prop where
  result : op s = some (a, t)
  off : SameOff W s.mem t.mem
  twin : ∀ m, SameOff R s.mem m → ∃ m', op { s with mem := m } = some (a, { t with mem := m' }) ∧
    SameOff W m m' ∧ SameOff (R \ W) t.mem m'

theorem Uniform.pure {α : Type} (R : Set ℕ) (s : VmState) (a : α) :
    Uniform (fun s => some (a, s)) R ∅ s a s := by
  refine ⟨rfl, SameOff.refl _ _, fun m hm => ⟨m, rfl, SameOff.refl _ _, ?_⟩⟩
  rw [Set.sdiff_empty]
  exact hm

theorem Uniform.congr {α : Type} {op p : VmState → Option (α × VmState)} {R W : Set ℕ} {s t : VmState}
    {a : α} (h : Uniform op R W s a t)
    (he : ∀ m, p { s with mem := m } = op { s with mem := m }) : Uniform p R W s a t where
  result := (he s.mem).trans h.result
  off := h.off
  twin m hm := by
    rw [he m]
    exact h.twin m hm

/-- Bytes that do not differ may count as written. -/
theorem Uniform.widen {α : Type} {op : VmState → Option (α × VmState)} {R W V : Set ℕ} {s t : VmState}
    {a : α} (h : Uniform op R W s a t) (hV : Disjoint R V) : Uniform op R (W ∪ V) s a t where
  result := h.result
  off := h.off.mono Set.subset_union_left
  twin m hm := by
    obtain ⟨m', hm', hoff, hrest⟩ := h.twin m hm
    refine ⟨m', hm', hoff.mono Set.subset_union_left, hrest.mono ?_⟩
    rintro x ⟨hx, hout⟩
    refine ⟨hx, fun hin => ?_⟩
    exact hin.elim hout (fun hv => Set.disjoint_left.mp hV hx hv)

theorem Uniform.bind {α β : Type} {op : VmState → Option (α × VmState)}
    {f : α → VmState → Option (β × VmState)} {R W V : Set ℕ} {s t u : VmState} {a : α} {b : β}
    (h : Uniform op R W s a t) (g : Uniform (f a) (R \ W) V t b u) :
    Uniform (fun s => (op s).bind (fun r => f r.1 r.2)) R (W ∪ V) s b u := by
  refine ⟨?_, ?_, fun m hm => ?_⟩
  · rw [h.result, Option.bind_some]
    exact g.result
  · exact (h.off.mono Set.subset_union_left).trans (g.off.mono Set.subset_union_right)
  · obtain ⟨m', hm', hoff, hrest⟩ := h.twin m hm
    obtain ⟨m'', hm'', hoff', hrest'⟩ := g.twin m' hrest
    refine ⟨m'', ?_, ?_, ?_⟩
    · rw [hm', Option.bind_some]
      exact hm''
    · exact (hoff.mono Set.subset_union_left).trans (hoff'.mono Set.subset_union_right)
    · rw [← Set.sdiff_sdiff]
      exact hrest'

/-- Stores are the same on two memories with the same tables. -/
theorem storeBytes_uniform {α : Type} {s t : VmState} {R : Set ℕ} {va i n : ℕ} (f : ℕ → ℕ) (a : α) (hs : Space s)
    (hR : Disjoint R (kernelBytes s)) (hw : Writable s va i n)
    (ht : storeBytes s va f i n = some t) :
    Uniform (fun s => (storeBytes s va f i n).map (fun t => (a, t))) R (targets s va i n) s a t := by
  have hspec := storeBytes_spec f hs hw
  obtain ⟨t', ht', -, hoff⟩ := hspec
  obtain rfl := Option.some.inj (ht.symm.trans ht')
  refine ⟨by rw [ht]; rfl, hoff, fun m hm => ?_⟩
  clear hoff ht'
  induction n generalizing s R m i with
  | zero =>
    obtain rfl := Option.some.inj ht
    refine ⟨m, rfl, SameOff.refl _ _, hm.mono (fun x hx => ⟨hx, ?_⟩)⟩
    rintro ⟨j, hj, hjn, -⟩
    omega
  | succ n ih =>
    obtain ⟨x, hx, hp⟩ := hw i le_rfl (by omega)
    have hlt := translateAt_lt hx
    have hone := store8_kernel (v := f i) hs hlt hp
    have hsame := sameTables_off hs hm hR
    have hx' : translateAt { s with mem := m } (va+i) = some x := (hsame.translate _).trans hx
    have hrest : Writable { s with mem := store8 s.mem x (f i) } va (i+1) n := by
      intro j hj hjn
      obtain ⟨y, hy, hyp⟩ := hw j (by omega) (by omega)
      refine ⟨y, (hone.translate _).trans hy, ?_⟩
      rw [hone.frames]
      exact hyp
    rw [storeBytes, storeByte_some hx] at ht
    have hboth := store8_both hm x (f i)
    rw [wrap_of_lt hlt] at hboth
    have hR' : Disjoint (R \ {x}) (kernelBytes { s with mem := store8 s.mem x (f i) }) := by
      unfold kernelBytes
      rw [hone.frames]
      exact Disjoint.mono_left Set.sdiff_subset hR
    obtain ⟨m', hm', hoff, hlast⟩ := ih (i := i+1) hone.space hR' hrest ht _ hboth
    have htargets : targets { s with mem := store8 s.mem x (f i) } va (i+1) n ⊆ targets s va i (n+1) := by
      rintro y ⟨j, hj, hjn, hy⟩
      exact ⟨j, by omega, by omega, (hone.translate _).symm.trans hy⟩
    have hxin : x ∈ targets s va i (n+1) := ⟨i, le_rfl, by omega, hx⟩
    refine ⟨m', ?_, ?_, ?_⟩
    · rw [storeBytes, storeByte_some hx']
      exact hm'
    · refine ((store8_off m x (f i)).mono ?_).trans (hoff.mono htargets)
      rintro y ⟨k, hk, rfl⟩
      have hk0 : k = 0 := by omega
      subst hk0
      rw [show wrap (x+0) = x from wrap_of_lt hlt]
      exact hxin
    · refine hlast.mono ?_
      rintro y ⟨⟨hy, hyx⟩, hout⟩
      refine ⟨hy, ?_⟩
      rintro ⟨j, hj, hjn, hyj⟩
      by_cases hji : j = i
      · subst hji
        exact hyx (Option.some.inj (hyj.symm.trans hx))
      · exact hout ⟨j, by omega, by omega, (hone.translate _).trans hyj⟩

theorem ensureTable_twin {s : VmState} {R : Set ℕ} {m : Mem} {virt : ℕ} (flags : ℕ) (hs : Space s)
    (hR : Disjoint R (kernelBytes s)) (hm : SameOff R s.mem m)
    (hfresh : NeedsTable s virt → FreshFrame s (pmmAllocPage s.pmm).1) :
    ∃ m', ensureTable { s with mem := m } (dirIndex virt) flags =
        { ensureTable s (dirIndex virt) flags with mem := m' } ∧
      SameOff (R \ kernelBytes (ensureTable s (dirIndex virt) flags))
        (ensureTable s (dirIndex virt) flags).mem m' := by
  have hsame := sameTables_off hs hm hR
  have hentry : entry m s.pageDirectory (dirIndex virt) = entry s.mem s.pageDirectory (dirIndex virt) :=
    hsame.dirs virt
  obtain ⟨-, -, -, -, htables, -, -⟩ := ensureTable_spec virt flags hs hfresh
  unfold ensureTable at *
  dsimp only at htables ⊢
  rw [hentry]
  by_cases hn : entry s.mem s.pageDirectory (dirIndex virt) &&& vmmPresent = 0
  · have hneed : NeedsTable s virt := (not_present_land (pde s.mem s.pageDirectory virt)).mp hn
    rw [if_pos hn, if_pos hneed] at htables
    rw [if_pos hn, if_pos hn]
    refine ⟨_, rfl, ?_⟩
    have hfill := fill_table_both hm (alloc_aligned s.pmm) (fun _ => 0)
    refine (setEntry_both hfill s.pageDirectory (dirIndex virt) _).mono ?_
    rintro x ⟨⟨hx, hpt⟩, -⟩
    refine ⟨hx, fun hk => ?_⟩
    have hin : frameOf x ∈ kernelFrames (addTable s (dirIndex virt) flags) := hk
    unfold kernelFrames at hin
    rw [htables] at hin
    rcases Set.mem_insert_iff.mp hin with h | h
    · exact Set.disjoint_left.mp hR hx (Or.inl h)
    · rcases Set.mem_insert_iff.mp h with h | h
      · exact hpt h
      · exact Set.disjoint_left.mp hR hx (Or.inr h)
  · rw [if_neg hn, if_neg hn]
    exact ⟨m, rfl, hm.mono (fun x hx => ⟨hx, fun hk => Set.disjoint_left.mp hR hx hk⟩)⟩

theorem map_twin {s : VmState} {R : Set ℕ} {m : Mem} {virt phys flags : ℕ} (hs : Space s)
    (hR : Disjoint R (kernelBytes s)) (hm : SameOff R s.mem m) (hv : virt < 4294967296)
    (hp : phys < 4294967296) (hf : flags < 4096)
    (hfresh : NeedsTable s virt → FreshFrame s (pmmAllocPage s.pmm).1) :
    ∃ m', vmmMapPage { s with mem := m } virt phys flags =
        { vmmMapPage s virt phys flags with mem := m' } ∧
      SameOff (kernelBytes (vmmMapPage s virt phys flags)) m m' ∧
      SameOff (R \ kernelBytes (vmmMapPage s virt phys flags)) (vmmMapPage s virt phys flags).mem m' := by
  have hsame := sameTables_off hs hm hR
  have hneeds : NeedsTable { s with mem := m } virt ↔ NeedsTable s virt := by
    have hd := hsame.dirs virt
    unfold dirEntryAt at hd
    unfold NeedsTable
    rw [hd]
  have hfresh' : NeedsTable { s with mem := m } virt →
      FreshFrame { s with mem := m } (pmmAllocPage s.pmm).1 := by
    intro hn
    obtain ⟨hdir, htab⟩ := hfresh (hneeds.mp hn)
    refine ⟨hdir, fun hin => ?_⟩
    have hk : (pmmAllocPage s.pmm).1 ∈ kernelFrames { s with mem := m } := Or.inr hin
    rw [hsame.frames] at hk
    exact hk.elim hdir htab
  have hmap : Mapped s virt phys flags _ := map_spec hs hv hp hf hfresh
  have hmap' : Mapped { s with mem := m } virt phys flags _ := map_spec hsame.space hv hp hf hfresh'
  have hframes : kernelFrames (vmmMapPage { s with mem := m } virt phys flags) =
      kernelFrames (vmmMapPage s virt phys flags) := by
    rw [kernelFrames_map hmap', kernelFrames_map hmap, hsame.frames]
    by_cases hn : NeedsTable s virt
    · rw [if_pos (hneeds.mpr hn), if_pos hn]
    · rw [if_neg (mt hneeds.mp hn), if_neg hn]
  have hoff := hmap'.off
  rw [hframes] at hoff
  obtain ⟨m1, hens, hdiff⟩ := ensureTable_twin flags hs hR hm hfresh
  obtain ⟨hspace1, hpres1, -, -, htab1, -, -⟩ := ensureTable_spec virt flags hs hfresh
  have hkernel : kernelFrames (vmmMapPage s virt phys flags) =
      kernelFrames (ensureTable s (dirIndex virt) flags) := by
    unfold kernelFrames
    rw [hmap.directory, hmap.tables, htab1, ensureTable_directory]
  have hd1 : Disjoint (R \ kernelBytes (ensureTable s (dirIndex virt) flags))
      (kernelBytes (ensureTable s (dirIndex virt) flags)) := Set.disjoint_sdiff_left
  have hsame1 := sameTables_off hspace1 hdiff hd1
  have hentry : entry m1 (ensureTable s (dirIndex virt) flags).pageDirectory (dirIndex virt) =
      entry (ensureTable s (dirIndex virt) flags).mem
        (ensureTable s (dirIndex virt) flags).pageDirectory (dirIndex virt) := hsame1.dirs virt
  have htwin : ∃ m', vmmMapPage { s with mem := m } virt phys flags =
        { vmmMapPage s virt phys flags with mem := m' } ∧
      SameOff (R \ kernelBytes (vmmMapPage s virt phys flags)) (vmmMapPage s virt phys flags).mem m' := by
    unfold kernelBytes
    rw [hkernel]
    unfold vmmMapPage
    rw [pageDirIndex_eq, hens]
    dsimp only
    rw [hentry]
    exact ⟨_, rfl, (setEntry_both hdiff _ _ _).mono Set.sdiff_subset⟩
  obtain ⟨m', hm', hrest⟩ := htwin
  refine ⟨m', hm', ?_, hrest⟩
  rw [hm'] at hoff
  exact hoff

theorem grant_uniform {s : VmState} {R : Set ℕ} {va : ℕ} (flags : ℕ) (hs : Sound s)
    (hva : va < 4294967296) (hf : flags < 4096)
    (hplain : Plain s ∨ 1 + (if NeedsTable s va then 1 else 0) ≤ (freeSet s.pmm).ncard)
    (hR : Disjoint R (kernelBytes s)) :
    Uniform (fun s => some ((), grantPage s va flags)) R (kernelBytes (grantPage s va flags)) s ()
      (grantPage s va flags) := by
  by_cases hne : (pmmAllocPage s.pmm).1 ≠ 0
  · obtain ⟨f, hfin, hphys, -⟩ := alloc_pool hs.padded hne
    have hlt : (pmmAllocPage s.pmm).1 < 4294967296 := by
      rw [hphys]
      exact page_lt hs.padded hfin
    have hfresh := table_fresh hs hne hplain
    have hgrant : grantPage s va flags = vmmMapPage (takePmmPage s) va (pmmAllocPage s.pmm).1 flags :=
      if_pos hne
    have hm : Mapped (takePmmPage s) va (pmmAllocPage s.pmm).1 flags _ :=
      map_spec hs.space hva hlt hf hfresh
    rw [hgrant]
    refine ⟨by rw [hgrant], hm.off, fun m hm' => ?_⟩
    obtain ⟨m', hmap, hoff, hrest⟩ := map_twin (s := takePmmPage s) hs.space hR hm' hva hlt hf hfresh
    refine ⟨m', ?_, hoff, hrest⟩
    rw [← hmap]
    exact congrArg (fun t => some ((), t)) (if_pos hne)
  · have hsame : grantPage s va flags = takePmmPage s := if_neg hne
    rw [hsame]
    refine ⟨by rw [hsame], SameOff.refl _ _, fun m hm => ⟨m, ?_, SameOff.refl _ _, ?_⟩⟩
    · exact congrArg (fun t => some ((), t)) (if_neg hne)
    · exact hm.mono (fun x hx => ⟨hx, fun hk => Set.disjoint_left.mp hR hx hk⟩)

end Dionnex.PagedAccess
