import Dionnex.HeapTiling
import Dionnex.HeapRealloc

/-!
# What heap calls leave alone

In a run that does not grow the heap, no call changes a byte of a live
allocation that it was not given. A request writes to the free block that it
takes, a release to headers, and a move to the new block before it releases
the old one; the data of the other blocks in use is none of these.
-/

set_option autoImplicit false

namespace Dionnex.HeapFrames
open ByteMemory LabelledRuns FirstFit Dionnex.PmmBitmap Dionnex.KernelHeap Dionnex.HeapBlocks Dionnex.HeapTiling
  Dionnex.HeapRealloc

theorem map_ok_iff {ε α β : Type} {x : Except ε α} {f : α → β} {b : β} :
    x.map f = .ok b ↔ ∃ a, x = .ok a ∧ f a = b := by
  cases x with
  | error e =>
    constructor
    · intro h
      cases h
    · rintro ⟨a, ha, -⟩
      cases ha
  | ok a =>
    constructor
    · intro h
      exact ⟨a, rfl, Except.ok.inj h⟩
    · rintro ⟨c, hc, rfl⟩
      rw [Except.ok.inj hc]
      rfl

/-- The answer to a request that does not grow the heap: nothing, or a block that was not in use. -/
structure Answered (h : Heap) (bs : List Block) (size q : ℕ) (h' : Heap) (bs' : List Block) : Prop where
  heap : WellFormed h' bs'
  kept : ∀ x ∈ bs, x.free = false → x ∈ bs' ∧ Kept h.mem h'.mem x
  new : q = 0 ∨ ∃ c ∈ bs', q = c.addr+headerSize ∧ c.free = false ∧ size ≤ c.size ∧
    ∀ x ∈ bs, x.free = false → x ≠ c

section Calls

variable {h h' : Heap} {bs : List Block} {size q : ℕ} {b : Block}

theorem kmalloc_answered (hw : WellFormed h bs) (hmax : size ≤ maxRequest) (hg : ¬ Grows h size)
    (hk : kmalloc h size = .ok (q, h')) : ∃ bs', Answered h bs size q h' bs' := by
  by_cases h0 : size = 0
  · rw [kmalloc, if_pos h0] at hk
    cases hk
    exact ⟨bs, hw, fun x hx _ => ⟨hx, fun _ _ => rfl⟩, Or.inl rfl⟩
  cases hplace : place headerSize 16 (alignUp4 size) bs with
  | some r =>
    obtain ⟨p, bs'⟩ := r
    obtain ⟨t, c, hk', -, hr⟩ := kmalloc_found_requested hw h0 hmax hplace
    obtain ⟨rfl, rfl⟩ := Prod.mk.inj (Except.ok.inj (hk.symm.trans hk'))
    refine ⟨bs', hr.heap, hr.kept, Or.inr ⟨c, hr.new, rfl, hr.used, hr.size, ?_⟩⟩
    rintro x hx hfree rfl
    exact hr.fresh x hx hfree rfl
  | none =>
    have hfind := @findFit_missing _ _ _ _ 0 _ hw.blocks (place_none.mp hplace) (represents_length hw.blocks hw.space)
    have hpage : (takeHeapPage h).1 = 0 := by
      by_contra hne
      exact hg ⟨h0, ⟨_, hfind⟩, hne⟩
    rw [kmalloc_missing hw.blocks hw.space h0 hplace, growHeap_null hpage] at hk
    obtain ⟨rfl, rfl⟩ := Prod.mk.inj (Except.ok.inj hk)
    exact ⟨bs, ⟨hw.blocks, hw.apart, hw.space⟩, fun x hx _ => ⟨hx, fun _ _ => rfl⟩, Or.inl rfl⟩

/-- A write into the new block does not reach the others. -/
theorem Answered.write {bs' : List Block} {c x : Block} {m : Mem} {n : ℕ} (hw : WellFormed h' bs') (hc : c ∈ bs')
    (hn : n ≤ c.size) (hoff : SameOff (span (c.addr+headerSize) n) h'.mem m) (hx : x ∈ bs') (hne : x ≠ c) :
    Kept h'.mem m x := by
  apply kept_off hoff
  have hstop := (hw.space c hc).2
  unfold Block.stop at hstop
  rw [span_eq (by omega)]
  refine (HeapRealloc.data_clear (apart_clear hw.apart hx hc hne)).mono_right ?_
  unfold Block.stop
  exact Set.Ico_subset_Ico (by omega) (by omega)

theorem kcalloc_keeps {count n : ℕ} (hw : WellFormed h bs) (hmax : wrap (count*n) ≤ maxRequest)
    (hg : ¬ Grows h (wrap (count*n))) (hk : kcalloc h count n = .ok (q, h')) :
    ∀ x ∈ bs, x.free = false → Kept h.mem h'.mem x := by
  unfold kcalloc at hk
  dsimp only at hk
  cases hmalloc : kmalloc h (wrap (count*n)) with
  | error f =>
    rw [hmalloc] at hk
    cases hk
  | ok r =>
    obtain ⟨p, t⟩ := r
    rw [hmalloc] at hk
    obtain ⟨bs', ha⟩ := kmalloc_answered hw hmax hg hmalloc
    intro x hx hfree
    rcases ha.new with rfl | ⟨c, hc, rfl, -, hsize, hfresh⟩
    · cases hk
      exact (ha.kept x hx hfree).2
    · have hp : c.addr+headerSize ≠ 0 := by
        unfold headerSize
        omega
      simp only [Except.map, if_neg hp, Except.ok.injEq, Prod.mk.injEq] at hk
      obtain ⟨-, rfl⟩ := hk
      obtain ⟨hin, hkept⟩ := ha.kept x hx hfree
      exact hkept.trans (Answered.write ha.heap hc hsize (memset_off _ _ _ _) hin (hfresh x hx hfree))

theorem kfree_keeps (hw : WellFormed h bs) (hb : b ∈ bs) (hp : b.addr+headerSize < 4294967296)
    (hk : kfree h (b.addr+headerSize) = .ok h') : ∀ x ∈ bs, Kept h.mem h'.mem x := by
  obtain ⟨l, r, rfl⟩ := List.append_of_mem hb
  have h0 : b.addr+headerSize ≠ 0 := by
    unfold headerSize
    omega
  obtain ⟨m', hk', -, hoff⟩ := kfree_blocks hw.blocks hw.apart hw.space (ptr_block hp) h0
  obtain rfl := Except.ok.inj (hk.symm.trans hk')
  exact fun x hx => kept_off hoff (data_headers hw.apart hx)

theorem krealloc_keeps (hw : WellFormed h bs) (hb : b ∈ bs) (hfree : b.free = false)
    (hp : b.addr+headerSize < 4294967296) (hmax : size ≤ maxRequest)
    (hg : b.size < size → ¬ Grows h size) (hk : krealloc h (b.addr+headerSize) size = .ok (q, h')) :
    ∀ x ∈ bs, x.free = false → x ≠ b → Kept h.mem h'.mem x := by
  have hp0 : b.addr+headerSize ≠ 0 := by
    unfold headerSize
    omega
  by_cases h0 : size = 0
  · subst h0
    rw [krealloc, if_neg hp0, if_pos rfl] at hk
    cases hf : kfree h (b.addr+headerSize) with
    | error f =>
      rw [hf] at hk
      cases hk
    | ok t =>
      rw [hf] at hk
      cases hk
      exact fun x hx _ _ => kfree_keeps hw hb hp hf x hx
  by_cases hbig : size ≤ b.size
  · obtain ⟨-, rfl⟩ := Prod.mk.inj (Except.ok.inj (hk.symm.trans (krealloc_stays (hw.blocks.2 b hb) hp h0 hbig)))
    exact fun x _ _ _ _ _ => rfl
  have hsmall : b.size < size := Nat.not_le.mp hbig
  rw [krealloc_small (hw.blocks.2 b hb) hp hsmall] at hk
  cases hmalloc : kmalloc h size with
  | error f =>
    rw [hmalloc] at hk
    cases hk
  | ok r =>
    obtain ⟨p, t⟩ := r
    rw [hmalloc] at hk
    obtain ⟨bs', ha⟩ := kmalloc_answered hw hmax (hg hsmall) hmalloc
    intro x hx hxfree hxb
    obtain ⟨hin, hkept⟩ := ha.kept x hx hxfree
    rcases ha.new with rfl | ⟨c, hc, rfl, -, hsize, hfresh⟩
    · cases hk
      exact hkept
    · have hc0 : c.addr+headerSize ≠ 0 := by
        unfold headerSize
        omega
      have hold := (ha.kept b hb hfree).1
      have hbsize : sizeAt t.mem b.addr = b.size := (ha.heap.blocks.2 b hold).size
      simp only [Except.bind, if_neg hc0, hbsize] at hk
      obtain ⟨hrep, hothers⟩ := @copy_kept _ _ _ ha.heap hc (b.addr+headerSize) b.size (by omega)
      cases hf : kfree { t with mem := memcpy t.mem (c.addr+headerSize) (b.addr+headerSize) b.size } (b.addr+headerSize) with
      | error f =>
        rw [hf] at hk
        cases hk
      | ok u =>
        rw [hf] at hk
        cases hk
        have hreleased := kfree_keeps (h := { t with mem := memcpy t.mem (c.addr+headerSize) (b.addr+headerSize) b.size })
          ⟨hrep, ha.heap.apart, ha.heap.space⟩ hold hp hf x hin
        exact (hkept.trans (hothers x hin (hfresh x hx hxfree))).trans hreleased

end Calls

section Events

variable {base total : ℕ} {s s' : System} {bs : List Block} {e : Event} {a : ℕ × ℕ}

/-- The event is not about this allocation, and an owner who writes does not write here. -/
def Spares (s : System) (a : ℕ × ℕ) : Event → Prop
  | .krealloc ptr _ => ptr ≠ a.1
  | .kfree ptr => ptr ≠ a.1
  | .write mem => ∀ x, a.1 ≤ x → x < a.1+a.2 → mem x = s.heap.mem x
  | _ => True

theorem Inv.wellFormed (hi : HeapTiling.Inv base total s bs) : WellFormed s.heap bs := ⟨hi.blocks, hi.apart, hi.space⟩

theorem mem_granted {live : List (ℕ × ℕ)} {ret size : ℕ} (ha : a ∈ live) : a ∈ granted live ret size := by
  unfold granted
  split
  · exact ha
  · exact List.mem_cons_of_mem _ ha

/-- A live allocation survives every event that spares it, with its data. -/
theorem event_keeps (hi : HeapTiling.Inv base total s bs) (hok : Allowed s e) (ha : a ∈ s.live) (hs : Spares s a e)
    (hp : perform s e = .ok s') : a ∈ s'.live ∧ ∀ x, a.1 ≤ x → x < a.1+a.2 → s'.heap.mem x = s.heap.mem x := by
  have hw := Inv.wellFormed hi
  obtain ⟨b, hb, hpb, hfree, hle, hlt, -⟩ := hi.block ha
  have hdata : ∀ {m : Mem}, Kept s.heap.mem m b → ∀ x, a.1 ≤ x → x < a.1+a.2 → m x = s.heap.mem x := by
    intro m hk x hlo hhi
    refine hk x ⟨by omega, ?_⟩
    unfold Block.stop
    omega
  cases e with
  | kmalloc size =>
    obtain ⟨⟨q, h'⟩, hk, rfl⟩ := map_ok_iff.mp hp
    obtain ⟨bs', hans⟩ := kmalloc_answered hw hok.1 hok.2 hk
    exact ⟨mem_granted ha, hdata (hans.kept b hb hfree).2⟩
  | kcalloc count size =>
    obtain ⟨⟨q, h'⟩, hk, rfl⟩ := map_ok_iff.mp hp
    exact ⟨mem_granted ha, hdata (kcalloc_keeps hw hok.1 hok.2 hk b hb hfree)⟩
  | krealloc ptr size =>
    obtain ⟨⟨q, h'⟩, hk, rfl⟩ := map_ok_iff.mp hp
    obtain ⟨hptr, hmax, hg⟩ := hok
    have hlive : a ∈ moved s.live ptr q size := by
      unfold moved
      split
      · exact ha
      · exact mem_granted (mem_without.mpr ⟨ha, Ne.symm hs⟩)
    refine ⟨hlive, hdata ?_⟩
    by_cases h0 : ptr = 0
    · rw [h0, krealloc, if_pos rfl] at hk
      obtain ⟨bs', hans⟩ := kmalloc_answered hw hmax (hg (Or.inl h0)) hk
      exact (hans.kept b hb hfree).2
    · obtain ⟨c, hc, rfl⟩ := hptr.resolve_left h0
      obtain ⟨d, hd, hpd, hdfree, -, hdlt, -⟩ := hi.block hc
      have hdb : b ≠ d := by
        rintro rfl
        exact hs (hpd.trans hpb.symm)
      have hgrow : d.size < size → ¬ Grows s.heap size := by
        intro hlt
        refine hg (Or.inr ?_)
        rw [hpd, ptr_block hdlt, (hi.blocks.2 d hd).size]
        exact hlt
      rw [hpd] at hk
      exact krealloc_keeps hw hd hdfree hdlt hmax hgrow hk b hb hfree hdb
  | kfree ptr =>
    obtain ⟨h', hk, rfl⟩ := map_ok_iff.mp hp
    refine ⟨mem_without.mpr ⟨ha, Ne.symm hs⟩, hdata ?_⟩
    rcases hok with rfl | ⟨c, hc, rfl⟩
    · rw [kfree, if_pos rfl] at hk
      cases hk
      exact fun _ _ => rfl
    · obtain ⟨d, hd, hpd, -, -, hdlt, -⟩ := hi.block hc
      rw [hpd] at hk
      exact kfree_keeps hw hd hdlt hk b hb
  | write mem =>
    cases hp
    exact ⟨ha, hs⟩

end Events

end Dionnex.HeapFrames
