import Mathlib.Tactic
import Mathlib.Order.CompletePartialOrder

/-!
# First fit allocation on a list of blocks

A block is a header of `hdr` bytes followed by `size` bytes of data. A
request takes the first free block that is large enough and splits it when
the rest can hold a header and `slack` more bytes; a release marks its block
and merges free list neighbours. The list order is that of the links, so
neighbours in the list need not be neighbours in memory: `Tiles` is the case
where they are, and `Apart` is all that survives otherwise.
-/

set_option autoImplicit false

namespace FirstFit

structure Block where
  addr : ℕ
  size : ℕ
  free : Bool
  deriving DecidableEq, Repr

variable (hdr slack : ℕ)

def Block.stop (b : Block) : ℕ := b.addr + hdr + b.size

def Fits (req : ℕ) (b : Block) : Prop := b.free = true ∧ req ≤ b.size

instance (req : ℕ) (b : Block) : Decidable (Fits req b) := inferInstanceAs (Decidable (_ ∧ _))

/-- The block that satisfies the request and, after a split, the free rest. -/
def carve (req : ℕ) (b : Block) : List Block :=
  if req + hdr + slack ≤ b.size then
    [⟨b.addr, req, false⟩, ⟨b.addr+hdr+req, b.size-req-hdr, true⟩]
  else [⟨b.addr, b.size, false⟩]

def place (req : ℕ) : List Block → Option (ℕ × List Block)
  | [] => none
  | b::bs =>
    if Fits req b then some (b.addr, carve hdr slack req b ++ bs)
    else (place req bs).map (fun r => (r.1, b::r.2))

def coalesceFrom : Block → List Block → List Block
  | a, [] => [a]
  | a, b::bs =>
    if a.free = true ∧ b.free = true then coalesceFrom { a with size := a.size+hdr+b.size } bs
    else a :: coalesceFrom b bs

def coalesce : List Block → List Block
  | [] => []
  | b::bs => coalesceFrom hdr b bs

/-- The blocks lie one behind the other from `s` to `e`. -/
def Tiles : ℕ → List Block → ℕ → Prop
  | s, [], e => s = e
  | s, b::bs, e => b.addr = s ∧ Tiles (b.stop hdr) bs e

def Clear (a b : Block) : Prop := a.stop hdr ≤ b.addr ∨ b.stop hdr ≤ a.addr

def Apart (bs : List Block) : Prop := bs.Pairwise (Clear hdr)

/-- Free neighbours in the list are neighbours in memory. -/
def FreeAdjacent (bs : List Block) : Prop :=
  bs.IsChain (fun a b => a.free = true → b.free = true → b.addr = a.stop hdr)

def NoFreePair (bs : List Block) : Prop := bs.IsChain (fun a b => ¬ (a.free = true ∧ b.free = true))

/-- The addresses of the blocks, headers included. -/
def extent (bs : List Block) : Set ℕ := {x | ∃ b ∈ bs, b.addr ≤ x ∧ x < b.stop hdr}

/-- The bytes of the blocks, headers included. -/
def weight (bs : List Block) : ℕ := (bs.map (fun b => hdr+b.size)).sum

variable {hdr slack}

theorem clear_symm {a b : Block} (h : Clear hdr a b) : Clear hdr b a := h.symm

theorem place_some {req p : ℕ} {bs bs' : List Block} (h : place hdr slack req bs = some (p, bs')) :
    ∃ l b r, bs = l++b::r ∧ (∀ x ∈ l, ¬ Fits req x) ∧ Fits req b ∧ p = b.addr ∧
      bs' = l ++ carve hdr slack req b ++ r := by
  induction bs generalizing bs' with
  | nil => cases h
  | cons b bs ih =>
    rw [place] at h
    by_cases hb : Fits req b
    · rw [if_pos hb] at h
      cases h
      refine ⟨[], b, bs, rfl, ?_, hb, rfl, rfl⟩
      intro x hx
      cases hx
    · rw [if_neg hb] at h
      obtain ⟨r, hr, he⟩ := Option.map_eq_some_iff.mp h
      cases he
      obtain ⟨l, c, rest, rfl, hl, hc, hp, hrest⟩ := ih hr
      refine ⟨b::l, c, rest, rfl, ?_, hc, hp, ?_⟩
      · intro x hx
        rcases List.mem_cons.mp hx with rfl | hx
        · exact hb
        · exact hl x hx
      · rw [hrest]
        rfl

theorem place_none {req : ℕ} {bs : List Block} :
    place hdr slack req bs = none ↔ ∀ b ∈ bs, ¬ Fits req b := by
  induction bs with
  | nil => simp [place]
  | cons b bs ih =>
    rw [place, List.forall_mem_cons]
    by_cases hb : Fits req b
    · simp [hb]
    · simp [hb, ih]

theorem carve_within {req : ℕ} {b x : Block} (hsize : req ≤ b.size)
    (hx : x ∈ carve hdr slack req b) : b.addr ≤ x.addr ∧ x.stop hdr ≤ b.stop hdr := by
  unfold carve at hx
  split at hx
  · rcases List.mem_pair.mp hx with rfl | rfl
    · simp only [Block.stop]
      omega
    · simp only [Block.stop]
      omega
  · rw [List.mem_singleton] at hx
    subst hx
    simp [Block.stop]

theorem carve_tiles {req : ℕ} {b : Block} :
    Tiles hdr b.addr (carve hdr slack req b) (b.stop hdr) := by
  unfold carve
  split
  · refine ⟨rfl, rfl, ?_⟩
    simp only [Tiles, Block.stop]
    omega
  · exact ⟨rfl, rfl⟩

theorem tiles_append {s e : ℕ} {l r : List Block} :
    Tiles hdr s (l++r) e ↔ ∃ m, Tiles hdr s l m ∧ Tiles hdr m r e := by
  induction l generalizing s with
  | nil => simp [Tiles]
  | cons b l ih => simp [Tiles, ih, and_assoc]

theorem tiles_replace {s e : ℕ} {l r c : List Block} {b : Block} (h : Tiles hdr s (l++b::r) e)
    (hmid : Tiles hdr b.addr c (b.stop hdr)) : Tiles hdr s (l++c++r) e := by
  obtain ⟨m, hl, hb, hr⟩ := tiles_append.mp h
  subst hb
  rw [List.append_assoc]
  exact tiles_append.mpr ⟨_, hl, tiles_append.mpr ⟨_, hmid, hr⟩⟩

theorem tiles_place {s e req p : ℕ} {bs bs' : List Block} (h : Tiles hdr s bs e)
    (hp : place hdr slack req bs = some (p, bs')) : Tiles hdr s bs' e := by
  obtain ⟨l, b, r, rfl, -, hb, -, rfl⟩ := place_some hp
  exact tiles_replace h carve_tiles

theorem tiles_coalesceFrom {s e : ℕ} {a : Block} {bs : List Block} (h : Tiles hdr s (a::bs) e) :
    Tiles hdr s (coalesceFrom hdr a bs) e := by
  induction bs generalizing s a with
  | nil => exact h
  | cons b bs ih =>
    obtain ⟨ha, hb, hrest⟩ := h
    rw [coalesceFrom]
    by_cases hfree : a.free = true ∧ b.free = true
    · rw [if_pos hfree]
      apply ih
      refine ⟨ha, ?_⟩
      have hstop : Block.stop hdr { a with size := a.size+hdr+b.size } = b.stop hdr := by
        simp only [Block.stop] at hb ⊢
        omega
      rw [hstop]
      exact hrest
    · rw [if_neg hfree]
      exact ⟨ha, ih ⟨hb, hrest⟩⟩

theorem tiles_coalesce {s e : ℕ} {bs : List Block} (h : Tiles hdr s bs e) :
    Tiles hdr s (coalesce hdr bs) e := by
  cases bs with
  | nil => exact h
  | cons b bs => exact tiles_coalesceFrom h

theorem tiles_le {s e : ℕ} {bs : List Block} (h : Tiles hdr s bs e) : s ≤ e := by
  induction bs generalizing s with
  | nil => exact le_of_eq h
  | cons b bs ih =>
    have hrest := ih h.2
    have hb := h.1
    unfold Block.stop at hrest
    omega

theorem tiles_mem {s e : ℕ} {bs : List Block} (h : Tiles hdr s bs e) {b : Block} (hb : b ∈ bs) :
    s ≤ b.addr ∧ b.stop hdr ≤ e := by
  obtain ⟨l, r, rfl⟩ := List.append_of_mem hb
  obtain ⟨m, hl, hbm, hr⟩ := tiles_append.mp h
  have h1 := tiles_le hl
  have h2 := tiles_le hr
  omega

theorem tiles_apart {s e : ℕ} {bs : List Block} (h : Tiles hdr s bs e) : Apart hdr bs := by
  induction bs generalizing s with
  | nil => exact List.Pairwise.nil
  | cons b bs ih =>
    refine List.Pairwise.cons ?_ (ih h.2)
    intro c hc
    exact Or.inl (tiles_mem h.2 hc).1

/-- Data and headers together fill the region. -/
theorem tiles_total {s e : ℕ} {bs : List Block} (h : Tiles hdr s bs e) :
    s + (bs.map Block.size).sum + hdr*bs.length = e := by
  induction bs generalizing s with
  | nil => simpa [Tiles] using h
  | cons b bs ih =>
    have hrest := ih h.2
    have hb := h.1
    simp only [List.map_cons, List.sum_cons, List.length_cons, Block.stop] at hrest ⊢
    rw [Nat.mul_add]
    omega

theorem apart_append {l r : List Block} :
    Apart hdr (l++r) ↔ Apart hdr l ∧ Apart hdr r ∧ ∀ a ∈ l, ∀ b ∈ r, Clear hdr a b :=
  List.pairwise_append

theorem clear_within {a b c : Block} (h : Clear hdr a b) (hc : b.addr ≤ c.addr ∧ c.stop hdr ≤ b.stop hdr) :
    Clear hdr a c := by
  rcases h with h | h
  · exact Or.inl (h.trans hc.1)
  · exact Or.inr (hc.2.trans h)

theorem apart_replace {l r c : List Block} {b : Block} (h : Apart hdr (l++b::r))
    (hin : ∀ x ∈ c, b.addr ≤ x.addr ∧ x.stop hdr ≤ b.stop hdr) (hmid : Apart hdr c) :
    Apart hdr (l++c++r) := by
  obtain ⟨hl, hbr, hcross⟩ := apart_append.mp h
  obtain ⟨hb, hr⟩ := List.pairwise_cons.mp hbr
  rw [List.append_assoc]
  refine apart_append.mpr ⟨hl, apart_append.mpr ⟨hmid, hr, ?_⟩, ?_⟩
  · intro x hx y hy
    exact clear_symm (clear_within (clear_symm (hb y hy)) (hin x hx))
  · intro x hx y hy
    rcases List.mem_append.mp hy with hy | hy
    · exact clear_within (hcross x hx b List.mem_cons_self) (hin y hy)
    · exact hcross x hx y (List.mem_cons_of_mem b hy)

theorem apart_place {req p : ℕ} {bs bs' : List Block} (h : Apart hdr bs)
    (hp : place hdr slack req bs = some (p, bs')) : Apart hdr bs' := by
  obtain ⟨l, b, r, rfl, -, hb, -, rfl⟩ := place_some hp
  exact apart_replace h (fun x hx => carve_within hb.2 hx) (tiles_apart carve_tiles)

theorem clear_addr {a b : Block} (hhdr : 0 < hdr) (h : Clear hdr a b) : a.addr ≠ b.addr := by
  unfold Clear Block.stop at h
  omega

theorem apart_addr_nodup (hhdr : 0 < hdr) {bs : List Block} (h : Apart hdr bs) :
    (bs.map Block.addr).Nodup :=
  List.pairwise_map.mpr (h.imp (fun hab => clear_addr hhdr hab))

/-- Merging two neighbours keeps every block that is clear of both clear of the result. -/
theorem clear_merge (hhdr : 0 < hdr) {z a b : Block} (ha : Clear hdr z a) (hb : Clear hdr z b)
    (hadj : b.addr = a.stop hdr) : Clear hdr z { a with size := a.size+hdr+b.size } := by
  unfold Clear Block.stop at *
  dsimp only at *
  omega

theorem merge_freeAdjacent {a b : Block} {bs : List Block} (hadj : b.addr = a.stop hdr)
    (hfree : a.free = b.free) (h : FreeAdjacent hdr (b::bs)) :
    FreeAdjacent hdr ({ a with size := a.size+hdr+b.size }::bs) := by
  cases bs with
  | nil => exact List.IsChain.singleton _
  | cons c bs =>
    obtain ⟨hbc, hrest⟩ := List.isChain_cons_cons.mp h
    refine List.isChain_cons_cons.mpr ⟨?_, hrest⟩
    intro h1 h2
    have hc := hbc (hfree ▸ h1) h2
    simp only [Block.stop] at hadj hc ⊢
    omega

theorem coalesceFrom_clear (hhdr : 0 < hdr) {z a : Block} {bs : List Block}
    (hadj : FreeAdjacent hdr (a::bs)) (h : ∀ x ∈ a::bs, Clear hdr z x) :
    ∀ x ∈ coalesceFrom hdr a bs, Clear hdr z x := by
  induction bs generalizing a with
  | nil => exact h
  | cons b bs ih =>
    obtain ⟨hab, hrest⟩ := List.isChain_cons_cons.mp hadj
    obtain ⟨ha, hb, hbs⟩ := List.forall_mem_cons.mp h |>.imp_right List.forall_mem_cons.mp
    rw [coalesceFrom]
    by_cases hfree : a.free = true ∧ b.free = true
    · rw [if_pos hfree]
      have hstop := hab hfree.1 hfree.2
      apply ih (merge_freeAdjacent hstop (hfree.1.trans hfree.2.symm) hrest)
      exact List.forall_mem_cons.mpr ⟨clear_merge hhdr ha hb hstop, hbs⟩
    · rw [if_neg hfree]
      exact List.forall_mem_cons.mpr ⟨ha, ih hrest (List.forall_mem_cons.mpr ⟨hb, hbs⟩)⟩

theorem coalesceFrom_apart (hhdr : 0 < hdr) {a : Block} {bs : List Block}
    (hadj : FreeAdjacent hdr (a::bs)) (h : Apart hdr (a::bs)) :
    Apart hdr (coalesceFrom hdr a bs) := by
  induction bs generalizing a with
  | nil => exact h
  | cons b bs ih =>
    obtain ⟨hab, hrest⟩ := List.isChain_cons_cons.mp hadj
    obtain ⟨ha, hbbs⟩ := List.pairwise_cons.mp h
    obtain ⟨hb, hbs⟩ := List.pairwise_cons.mp hbbs
    rw [coalesceFrom]
    by_cases hfree : a.free = true ∧ b.free = true
    · rw [if_pos hfree]
      have hstop := hab hfree.1 hfree.2
      apply ih (merge_freeAdjacent hstop (hfree.1.trans hfree.2.symm) hrest)
      refine List.pairwise_cons.mpr ⟨?_, hbs⟩
      intro c hc
      exact clear_symm (clear_merge hhdr (clear_symm (ha c (List.mem_cons_of_mem b hc)))
        (clear_symm (hb c hc)) hstop)
    · rw [if_neg hfree]
      exact List.pairwise_cons.mpr ⟨coalesceFrom_clear hhdr hrest ha, ih hrest hbbs⟩

/-- Merging covers no new address. -/
theorem coalesceFrom_extent {a : Block} {bs : List Block} (hadj : FreeAdjacent hdr (a::bs)) :
    extent hdr (coalesceFrom hdr a bs) ⊆ extent hdr (a::bs) := by
  induction bs generalizing a with
  | nil => exact subset_rfl
  | cons b bs ih =>
    obtain ⟨hab, hrest⟩ := List.isChain_cons_cons.mp hadj
    rw [coalesceFrom]
    by_cases hfree : a.free = true ∧ b.free = true
    · rw [if_pos hfree]
      have hstop := hab hfree.1 hfree.2
      refine (ih (merge_freeAdjacent hstop (hfree.1.trans hfree.2.symm) hrest)).trans ?_
      rintro x ⟨c, hc, hlo, hhi⟩
      rcases List.mem_cons.mp hc with rfl | hc
      · by_cases hx : x < a.stop hdr
        · exact ⟨a, List.mem_cons_self, hlo, hx⟩
        · refine ⟨b, by simp, ?_, ?_⟩
          · omega
          · simp only [Block.stop] at hhi hstop ⊢
            omega
      · exact ⟨c, by simp [hc], hlo, hhi⟩
    · rw [if_neg hfree]
      rintro x ⟨c, hc, hx⟩
      rcases List.mem_cons.mp hc with rfl | hc
      · exact ⟨c, List.mem_cons_self, hx⟩
      · obtain ⟨d, hd, hxd⟩ := ih hrest ⟨c, hc, hx⟩
        exact ⟨d, List.mem_cons_of_mem a hd, hxd⟩

/-- Blocks that do not fit are neither moved nor resized by a request. -/
theorem place_kept {req p : ℕ} {bs bs' : List Block} (hp : place hdr slack req bs = some (p, bs'))
    {x : Block} (hx : x ∈ bs) (hfit : ¬ Fits req x) : x ∈ bs' := by
  obtain ⟨l, b, r, rfl, -, hb, -, rfl⟩ := place_some hp
  rcases List.mem_append.mp hx with hx | hx
  · simp [hx]
  · rcases List.mem_cons.mp hx with rfl | hx
    · exact (hfit hb).elim
    · simp [hx]

theorem used_not_fits {req : ℕ} {x : Block} (h : x.free = false) : ¬ Fits req x := by
  intro hx
  rw [hx.1] at h
  cases h

theorem carve_first {req : ℕ} {b : Block} (hb : req ≤ b.size) :
    ∃ c ∈ carve hdr slack req b, c.addr = b.addr ∧ c.free = false ∧ req ≤ c.size := by
  unfold carve
  by_cases hs : req + hdr + slack ≤ b.size
  · rw [if_pos hs]
    exact ⟨⟨b.addr, req, false⟩, by simp, rfl, rfl, le_rfl⟩
  · rw [if_neg hs]
    exact ⟨⟨b.addr, b.size, false⟩, by simp, rfl, rfl, hb⟩

/-- The block handed out is in the new list, in use, and large enough. -/
theorem place_taken {req p : ℕ} {bs bs' : List Block} (hp : place hdr slack req bs = some (p, bs')) :
    ∃ c ∈ bs', c.addr = p ∧ c.free = false ∧ req ≤ c.size := by
  obtain ⟨l, b, r, rfl, -, hb, rfl, rfl⟩ := place_some hp
  have hcarve : ∃ c ∈ carve hdr slack req b, c.addr = b.addr ∧ c.free = false ∧ req ≤ c.size :=
    carve_first hb.2
  obtain ⟨c, hc, hfirst⟩ := hcarve
  exact ⟨c, by simp [hc], hfirst⟩

theorem carve_used {req : ℕ} {b x : Block} (hx : x ∈ carve hdr slack req b) (hfree : x.free = false) :
    x.addr = b.addr := by
  unfold carve at hx
  by_cases hs : req + hdr + slack ≤ b.size
  · rw [if_pos hs] at hx
    rcases List.mem_pair.mp hx with rfl | rfl
    · rfl
    · cases hfree
  · rw [if_neg hs, List.mem_singleton] at hx
    rw [hx]

/-- A request adds one block in use, at the address it returns. -/
theorem place_used {req p : ℕ} {bs bs' : List Block} (hp : place hdr slack req bs = some (p, bs'))
    {x : Block} (hx : x ∈ bs') (hfree : x.free = false) : x ∈ bs ∨ x.addr = p := by
  obtain ⟨l, b, r, rfl, -, -, rfl, rfl⟩ := place_some hp
  simp only [List.mem_append] at hx
  rcases hx with (hx | hx) | hx
  · exact Or.inl (by simp [hx])
  · exact Or.inr (carve_used hx hfree)
  · exact Or.inl (by simp [hx])

/-- Merging makes no new addresses. -/
theorem coalesceFrom_addr {a x : Block} {bs : List Block} (hx : x ∈ coalesceFrom hdr a bs) :
    ∃ y ∈ a::bs, y.addr = x.addr := by
  induction bs generalizing a with
  | nil => exact ⟨x, hx, rfl⟩
  | cons b bs ih =>
    rw [coalesceFrom] at hx
    by_cases hpair : a.free = true ∧ b.free = true
    · rw [if_pos hpair] at hx
      obtain ⟨y, hy, hyx⟩ := ih hx
      rcases List.mem_cons.mp hy with rfl | hy
      · exact ⟨a, List.mem_cons_self, hyx⟩
      · exact ⟨y, List.mem_cons_of_mem _ (List.mem_cons_of_mem _ hy), hyx⟩
    · rw [if_neg hpair] at hx
      rcases List.mem_cons.mp hx with rfl | hx
      · exact ⟨x, List.mem_cons_self, rfl⟩
      · obtain ⟨y, hy, hyx⟩ := ih hx
        exact ⟨y, List.mem_cons_of_mem _ hy, hyx⟩

/-- Blocks in use survive merging. -/
theorem coalesceFrom_used {a x : Block} {bs : List Block} (hx : x ∈ a::bs) (hfree : x.free = false) :
    x ∈ coalesceFrom hdr a bs := by
  induction bs generalizing a with
  | nil => exact hx
  | cons b bs ih =>
    rw [coalesceFrom]
    by_cases hpair : a.free = true ∧ b.free = true
    · rw [if_pos hpair]
      apply ih
      rcases List.mem_cons.mp hx with rfl | hx
      · rw [hpair.1] at hfree
        cases hfree
      · rcases List.mem_cons.mp hx with rfl | hx
        · rw [hpair.2] at hfree
          cases hfree
        · exact List.mem_cons_of_mem _ hx
    · rw [if_neg hpair]
      rcases List.mem_cons.mp hx with rfl | hx
      · exact List.mem_cons_self
      · exact List.mem_cons_of_mem a (ih hx)

theorem coalesce_used {x : Block} {bs : List Block} (hx : x ∈ bs) (hfree : x.free = false) :
    x ∈ coalesce hdr bs := by
  cases bs with
  | nil => cases hx
  | cons b bs => exact coalesceFrom_used hx hfree

/-- Merging adds no block in use. -/
theorem coalesceFrom_old {a x : Block} {bs : List Block} (hx : x ∈ coalesceFrom hdr a bs)
    (hfree : x.free = false) : x ∈ a::bs := by
  induction bs generalizing a with
  | nil => exact hx
  | cons b bs ih =>
    rw [coalesceFrom] at hx
    by_cases hpair : a.free = true ∧ b.free = true
    · rw [if_pos hpair] at hx
      rcases List.mem_cons.mp (ih hx) with rfl | hx
      · rw [hpair.1] at hfree
        cases hfree
      · exact List.mem_cons_of_mem _ (List.mem_cons_of_mem _ hx)
    · rw [if_neg hpair] at hx
      rcases List.mem_cons.mp hx with rfl | hx
      · exact List.mem_cons_self
      · exact List.mem_cons_of_mem _ (ih hx)

theorem coalesce_used_iff {x : Block} {bs : List Block} (hfree : x.free = false) :
    x ∈ coalesce hdr bs ↔ x ∈ bs := by
  cases bs with
  | nil => exact Iff.rfl
  | cons b bs => exact ⟨fun hx => coalesceFrom_old hx hfree, fun hx => coalesceFrom_used hx hfree⟩

theorem apart_mem (hhdr : 0 < hdr) {bs : List Block} (h : Apart hdr bs) {a b : Block} (ha : a ∈ bs)
    (hb : b ∈ bs) (hab : a.addr = b.addr) : a = b := by
  have hinj := List.inj_on_of_nodup_map (apart_addr_nodup hhdr h)
  exact hinj ha hb hab

theorem apart_clear {bs : List Block} (h : Apart hdr bs) {a b : Block} (ha : a ∈ bs) (hb : b ∈ bs)
    (hab : a ≠ b) : Clear hdr a b := by
  have hsymm : Std.Symm (Clear hdr) := ⟨fun _ _ => clear_symm⟩
  exact h.forall ha hb hab

theorem noFreePair_adjacent {bs : List Block} (h : NoFreePair bs) : FreeAdjacent hdr bs :=
  List.IsChain.imp (fun _ _ hab h1 h2 => (hab ⟨h1, h2⟩).elim) h

theorem noFreePair_join {l r : List Block} {u : Block} (hl : NoFreePair l) (hr : NoFreePair (u::r))
    (hu : u.free = false) : NoFreePair (l++u::r) := by
  refine List.isChain_append.mpr ⟨hl, hr, ?_⟩
  intro x hx y hy
  cases hy
  rintro ⟨-, h⟩
  rw [hu] at h
  cases h

theorem noFreePair_carve {req : ℕ} {b : Block} {l r : List Block} (hl : NoFreePair l)
    (hr : NoFreePair ({ b with free := true }::r)) :
    NoFreePair (l ++ carve hdr slack req b ++ r) := by
  have hrest : NoFreePair r := (List.isChain_cons.mp hr).2
  unfold carve
  by_cases hs : req + hdr + slack ≤ b.size
  · rw [if_pos hs, List.append_assoc]
    refine noFreePair_join hl ?_ rfl
    refine List.isChain_cons_cons.mpr ⟨by simp, ?_⟩
    refine List.isChain_cons.mpr ⟨?_, hrest⟩
    intro y hy
    exact (List.isChain_cons.mp hr).1 y hy
  · rw [if_neg hs, List.append_assoc]
    refine noFreePair_join hl (List.isChain_cons.mpr ⟨?_, hrest⟩) rfl
    intro y hy
    simp

theorem noFreePair_place {req p : ℕ} {bs bs' : List Block} (h : NoFreePair bs)
    (hp : place hdr slack req bs = some (p, bs')) : NoFreePair bs' := by
  obtain ⟨l, b, r, rfl, -, hb, -, rfl⟩ := place_some hp
  obtain ⟨hl, hbr, -⟩ := List.isChain_append.mp h
  refine noFreePair_carve hl ?_
  have heta : ({ b with free := true } : Block) = b := by
    rw [← hb.1]
  rw [heta]
  exact hbr

/-- A block just handed out can go back: then the blocks in use are those from before. -/
theorem place_returned {req p : ℕ} {bs bs' : List Block}
    (hp : place hdr slack req bs = some (p, bs')) :
    ∃ l c r, bs' = l++c::r ∧ c.addr = p ∧
      ∀ x, x.free = false → (x ∈ l ++ { c with free := true }::r ↔ x ∈ bs) := by
  obtain ⟨l, b, r, rfl, -, hb, rfl, rfl⟩ := place_some hp
  have hused : ∀ x : Block, x.free = false → ∀ y : Block, y.free = true → x ≠ y := by
    rintro x hx y hy rfl
    rw [hx] at hy
    cases hy
  unfold carve
  by_cases hs : req + hdr + slack ≤ b.size
  · rw [if_pos hs]
    refine ⟨l, ⟨b.addr, req, false⟩, ⟨b.addr+hdr+req, b.size-req-hdr, true⟩::r, by simp, rfl, ?_⟩
    intro x hx
    have h1 := hused x hx ⟨b.addr, req, true⟩ rfl
    have h2 := hused x hx ⟨b.addr+hdr+req, b.size-req-hdr, true⟩ rfl
    have h3 := hused x hx b hb.1
    simp [h1, h2, h3]
  · rw [if_neg hs]
    refine ⟨l, ⟨b.addr, b.size, false⟩, r, by simp, rfl, ?_⟩
    intro x hx
    have h1 := hused x hx ⟨b.addr, b.size, true⟩ rfl
    have h3 := hused x hx b hb.1
    simp [h1, h3]

theorem coalesceFrom_head (a : Block) (bs : List Block) :
    ∃ c rest, coalesceFrom hdr a bs = c::rest ∧ c.free = a.free := by
  induction bs generalizing a with
  | nil => exact ⟨a, [], rfl, rfl⟩
  | cons b bs ih =>
    rw [coalesceFrom]
    by_cases hfree : a.free = true ∧ b.free = true
    · rw [if_pos hfree]
      exact ih { a with size := a.size+hdr+b.size }
    · rw [if_neg hfree]
      exact ⟨a, _, rfl, rfl⟩

/-- After merging, no two list neighbours are free. -/
theorem noFreePair_coalesceFrom (a : Block) (bs : List Block) :
    NoFreePair (coalesceFrom hdr a bs) := by
  induction bs generalizing a with
  | nil => exact List.IsChain.singleton a
  | cons b bs ih =>
    rw [coalesceFrom]
    by_cases hfree : a.free = true ∧ b.free = true
    · rw [if_pos hfree]
      exact ih { a with size := a.size+hdr+b.size }
    · rw [if_neg hfree]
      have hrest := ih b
      have hhead : ∃ c rest, coalesceFrom hdr b bs = c::rest ∧ c.free = b.free :=
        coalesceFrom_head b bs
      obtain ⟨c, rest, hc, hcb⟩ := hhead
      rw [hc] at hrest ⊢
      exact List.isChain_cons_cons.mpr ⟨by rw [hcb]; exact hfree, hrest⟩

theorem noFreePair_coalesce (bs : List Block) : NoFreePair (coalesce hdr bs) := by
  cases bs with
  | nil => exact List.IsChain.nil
  | cons b bs => exact noFreePair_coalesceFrom b bs

/-- A region whose blocks are all free and merged is one block. -/
theorem tiles_free {s e : ℕ} {bs : List Block} (ht : Tiles hdr s bs e) (hn : NoFreePair bs)
    (hfree : ∀ b ∈ bs, b.free = true) (he : s < e) : bs = [⟨s, e-s-hdr, true⟩] := by
  cases bs with
  | nil => exact absurd ht (Nat.ne_of_lt he)
  | cons b bs =>
    cases bs with
    | nil =>
      obtain ⟨haddr, hstop⟩ := ht
      have hb : b.free = true := hfree b List.mem_cons_self
      have hsize : b.size = e-s-hdr := by
        simp only [Tiles, Block.stop] at hstop
        omega
      rw [← hsize, ← haddr, ← hb]
    | cons c bs =>
      have hpair := (List.isChain_cons_cons.mp hn).1
      exact (hpair ⟨hfree b (by simp), hfree c (by simp)⟩).elim

theorem coalesce_extent {bs : List Block} (hadj : FreeAdjacent hdr bs) :
    extent hdr (coalesce hdr bs) ⊆ extent hdr bs := by
  cases bs with
  | nil => exact subset_rfl
  | cons b bs => exact coalesceFrom_extent hadj

theorem coalesce_apart (hhdr : 0 < hdr) {bs : List Block} (hadj : FreeAdjacent hdr bs)
    (h : Apart hdr bs) : Apart hdr (coalesce hdr bs) := by
  cases bs with
  | nil => exact h
  | cons b bs => exact coalesceFrom_apart hhdr hadj h

theorem carve_extent {req : ℕ} {b : Block} (hb : req ≤ b.size) :
    extent hdr (carve hdr slack req b) ⊆ extent hdr [b] := by
  rintro x ⟨c, hc, hlo, hhi⟩
  have hin := carve_within hb hc
  exact ⟨b, List.mem_singleton_self b, hin.1.trans hlo, hhi.trans_le hin.2⟩

theorem extent_append (l r : List Block) : extent hdr (l++r) = extent hdr l ∪ extent hdr r := by
  ext x
  simp only [extent, List.mem_append, Set.mem_ofPred_eq, Set.mem_union]
  constructor
  · rintro ⟨b, hb | hb, hx⟩
    · exact Or.inl ⟨b, hb, hx⟩
    · exact Or.inr ⟨b, hb, hx⟩
  · rintro (⟨b, hb, hx⟩ | ⟨b, hb, hx⟩)
    · exact ⟨b, Or.inl hb, hx⟩
    · exact ⟨b, Or.inr hb, hx⟩

theorem place_extent {req p : ℕ} {bs bs' : List Block}
    (hp : place hdr slack req bs = some (p, bs')) : extent hdr bs' ⊆ extent hdr bs := by
  obtain ⟨l, b, r, rfl, -, hb, -, rfl⟩ := place_some hp
  rw [show l++b::r = l++[b]++r by simp, extent_append, extent_append, extent_append, extent_append]
  exact Set.union_subset_union_left _ (Set.union_subset_union_right _ (carve_extent hb.2))

@[simp] theorem weight_cons (b : Block) (bs : List Block) :
    weight hdr (b::bs) = hdr + b.size + weight hdr bs := by
  simp [weight]

theorem weight_coalesceFrom (a : Block) (bs : List Block) :
    weight hdr (coalesceFrom hdr a bs) = weight hdr (a::bs) := by
  induction bs generalizing a with
  | nil => rfl
  | cons b bs ih =>
    rw [coalesceFrom]
    by_cases hpair : a.free = true ∧ b.free = true
    · rw [if_pos hpair, ih, weight_cons, weight_cons, weight_cons]
      dsimp only
      omega
    · rw [if_neg hpair, weight_cons, ih, weight_cons a]

theorem extent_cons (b : Block) (bs : List Block) :
    extent hdr (b::bs) = Set.Ico b.addr (b.stop hdr) ∪ extent hdr bs := by
  ext x
  simp [extent]

/-- Blocks that are apart are counted once each. -/
theorem extent_ncard {bs : List Block} (h : Apart hdr bs) :
    (extent hdr bs).Finite ∧ (extent hdr bs).ncard = weight hdr bs := by
  induction bs with
  | nil => simp [extent, weight]
  | cons b bs ih =>
    obtain ⟨hb, hbs⟩ := List.pairwise_cons.mp h
    obtain ⟨hfin, hcard⟩ := ih hbs
    have hd : Disjoint (Set.Ico b.addr (b.stop hdr)) (extent hdr bs) := by
      rw [Set.disjoint_right]
      rintro x ⟨c, hc, hlo, hhi⟩ hx
      have hclear := hb c hc
      simp only [Clear, Set.mem_Ico] at hclear hx
      omega
    have hown : (Set.Ico b.addr (b.stop hdr)).ncard = hdr + b.size := by
      rw [← Finset.coe_Ico, Set.ncard_coe_finset, Nat.card_Ico, Block.stop]
      omega
    rw [extent_cons, weight_cons]
    refine ⟨(Set.finite_Ico _ _).union hfin, ?_⟩
    rw [Set.ncard_union_eq hd (Set.finite_Ico _ _) hfin, hown, hcard]

theorem weight_le {bs : List Block} {n : ℕ} (h : Apart hdr bs) (hn : ∀ b ∈ bs, b.stop hdr ≤ n) :
    weight hdr bs ≤ n := by
  have hsub : extent hdr bs ⊆ Set.Iio n := by
    rintro x ⟨b, hb, -, hx⟩
    exact hx.trans_le (hn b hb)
  have hle := Set.ncard_le_ncard hsub (Set.finite_Iio n)
  rw [(extent_ncard h).2, ← Finset.coe_Iio, Set.ncard_coe_finset, Nat.card_Iio] at hle
  exact hle
/-- Appending new memory, split for a request. -/
theorem apart_grown {req : ℕ} {bs : List Block} {nb : Block} (h : Apart hdr bs)
    (hclear : ∀ b ∈ bs, Clear hdr b nb) (hsize : req ≤ nb.size) :
    Apart hdr (bs ++ carve hdr slack req nb) := by
  apply apart_append.mpr ⟨h, tiles_apart carve_tiles, ?_⟩
  intro b hb x hx
  exact clear_within (hclear b hb) (carve_within hsize hx)

/-- Blocks without a common address are clear of each other. -/
theorem clear_of_disjoint (hhdr : 0 < hdr) {a b : Block}
    (h : Disjoint (extent hdr [a]) (extent hdr [b])) : Clear hdr a b := by
  by_contra hc
  unfold Clear Block.stop at hc
  have hx : ∀ c : Block, max a.addr b.addr ∈ Set.Ico c.addr (c.stop hdr) →
      max a.addr b.addr ∈ extent hdr [c] := fun c hx => ⟨c, List.mem_singleton_self c, hx⟩
  refine Set.disjoint_left.mp h (hx a ?_) (hx b ?_)
  · simp only [Set.mem_Ico, Block.stop]
    omega
  · simp only [Set.mem_Ico, Block.stop]
    omega

end FirstFit
