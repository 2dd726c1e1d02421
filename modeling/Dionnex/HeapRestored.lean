import Dionnex.HeapTiling

/-!
# Freeing restores the heap

The runs of one region again, now for how far the free blocks are merged.
A request splits a free block and puts the block in use before the rest, so
no two free blocks become neighbours; a release merges in one pass over the
list. Once the last allocation is gone every block is free, and a merged
region of free blocks is a single one.
-/

set_option autoImplicit false

namespace Dionnex.HeapRestored
open LabelledRuns FirstFit Dionnex.KernelHeap Dionnex.HeapBlocks Dionnex.HeapTiling

/-- No fault, no two consecutive free blocks, and without allocations the one block of the start. -/
def Restored (base total : ℕ) (t : Except Fault System) : Prop :=
  ∃ s bs, t = .ok s ∧ Represents s.heap bs ∧ NoFreePair bs ∧
    (s.live = [] → bs = [⟨base, total-headerSize, true⟩])

structure Merged (base total : ℕ) (s : System) (bs : List Block) : Prop where
  inv : Inv base total s bs
  packed : Packed s bs
  room : headerSize ≤ total

theorem merged_restored {base total : ℕ} {s : System} {bs : List Block} (h : Merged base total s bs) :
    Restored base total (.ok s) := by
  refine ⟨s, bs, rfl, h.inv.blocks, h.packed.nopair, ?_⟩
  intro hnone
  have hfree : ∀ b ∈ bs, b.free = true := by
    intro b hb
    by_contra hused
    obtain ⟨a, ha, -⟩ := h.packed.owned b hb (by simpa using hused)
    rw [hnone] at ha
    cases ha
  have hroom := h.room
  have hone := tiles_free h.inv.tiles h.packed.nopair hfree (by unfold headerSize at hroom; omega)
  rw [hone, Nat.add_sub_cancel_left]

theorem fresh_merged {base total : ℕ} {h : Heap} (hf : FreshRegion base total h) :
    Merged base total ⟨h, []⟩ [⟨base, total-headerSize, true⟩] where
  inv := fresh_inv hf
  packed := by
    constructor
    · exact List.IsChain.singleton _
    · intro b hb hused
      rw [List.mem_singleton] at hb
      subst hb
      cases hused
  room := hf.room

theorem perform_merged {base total : ℕ} {s : System} {bs : List Block} {e : Event}
    (h : Merged base total s bs) (ha : Allowed s e) :
    ∃ s' bs', perform s e = .ok s' ∧ Merged base total s' bs' := by
  obtain ⟨s', bs', hs', hi', hp'⟩ := perform_inv h.inv ha
  exact ⟨s', bs', hs', hi', hp' h.packed, h.room⟩

/-- In every run inside the region the list stays merged, and it is the initial block again
whenever no allocation is left. -/
theorem freeing_restores (base total : ℕ) (h : Heap) (hf : FreshRegion base total h)
    (tr : List (Event × Except Fault System)) (hr : Run Step (.ok ⟨h, []⟩) tr) :
    Along (fun _ _ t => Restored base total t) (.ok ⟨h, []⟩) tr := by
  apply along_mono (fun s e t h => h.2) _ _
    (run_invariant (I := fun t => ∃ s bs, t = .ok s ∧ Merged base total s bs) ?_ _ tr
      ⟨_, _, rfl, fresh_merged hf⟩ hr)
  rintro _ e t ⟨s, bs, rfl, hm⟩ ⟨ha, rfl⟩
  obtain ⟨s', bs', hs', hm'⟩ := perform_merged hm ha
  refine ⟨⟨s', bs', hs', hm'⟩, ?_⟩
  rw [hs']
  exact merged_restored hm'

/-- A request, its move to a larger block, and the release of that block. -/
theorem freeing_restores_sample :
    Along (fun _ _ t => Restored (1*PmmBitmap.pageSize) (pagesFor (initSize 0)*PmmBitmap.pageSize) t)
      (.ok ⟨sampleInit, []⟩) sampleRun :=
  freeing_restores _ _ sampleInit sampleInit_fresh sampleRun sampleRun_runs

end Dionnex.HeapRestored
