import Dionnex.FirstFit
import Dionnex.KernelHeap
import Dionnex.LinkedChain

/-!
# The block list in memory

What the list of headers in memory says, and that the loops of the heap do
to memory what first fit does to the list. Each operation needs only that
the blocks are apart and inside the address space; whether a release leaves
them apart depends on the free neighbours that it merges.
-/

set_option autoImplicit false

namespace Dionnex.HeapBlocks
open ByteMemory LinkedChain FirstFit Dionnex.PmmBitmap Dionnex.KernelHeap

structure Header (m : Mem) (b : Block) : Prop where
  magic : magicAt m b.addr = heapMagic
  size : sizeAt m b.addr = b.size
  free : freeAt m b.addr = if b.free = true then 1 else 0

/-- The headers from `p` on, up to the link to `q`. -/
def HeapSeg (m : Mem) (p : ℕ) (bs : List Block) (q : ℕ) : Prop :=
  Seg (nextAt m) p (bs.map Block.addr) q ∧ ∀ b ∈ bs, Header m b

def Represents (h : Heap) (bs : List Block) : Prop := HeapSeg h.mem h.heapStart bs 0

/-- No block reaches into page 0 or past the address space. -/
def InSpace (bs : List Block) : Prop :=
  ∀ b ∈ bs, pageSize ≤ b.addr ∧ b.stop headerSize ≤ 4294967296

/-- The addresses of the header at `a`. -/
def headerRange (a : ℕ) : Set ℕ := Set.Ico a (a+headerSize)

def headers (bs : List Block) : Set ℕ := {x | ∃ b ∈ bs, x ∈ headerRange b.addr}

theorem field32_off {R : Set ℕ} {m m' : Mem} {a i : ℕ} (h : SameOff R m m')
    (hd : Disjoint (headerRange a) R) (ha : a+headerSize ≤ 4294967296) (hi : i+4 ≤ headerSize) :
    load32 m' (a+i) = load32 m (a+i) := by
  unfold headerSize at ha hi
  refine load32_off h (hd.mono_left ?_)
  rw [span_eq (by omega)]
  exact Set.Ico_subset_Ico (by omega) (by unfold headerSize; omega)

theorem freeAt_off {R : Set ℕ} {m m' : Mem} {a : ℕ} (h : SameOff R m m')
    (hd : Disjoint (headerRange a) R) (ha : a+headerSize ≤ 4294967296) :
    freeAt m' a = freeAt m a := by
  unfold headerSize at ha
  refine load8_off h (Set.disjoint_left.mp hd ?_)
  rw [wrap_of_lt (by omega)]
  exact ⟨by omega, by unfold headerSize; omega⟩

theorem nextAt_off {R : Set ℕ} {m m' : Mem} {a : ℕ} (h : SameOff R m m')
    (hd : Disjoint (headerRange a) R) (ha : a+headerSize ≤ 4294967296) :
    nextAt m' a = nextAt m a := field32_off h hd ha (by decide)

theorem sizeAt_off {R : Set ℕ} {m m' : Mem} {a : ℕ} (h : SameOff R m m')
    (hd : Disjoint (headerRange a) R) (ha : a+headerSize ≤ 4294967296) :
    sizeAt m' a = sizeAt m a := field32_off h hd ha (by decide)

theorem header_off {R : Set ℕ} {m m' : Mem} {b : Block} (h : SameOff R m m')
    (hd : Disjoint (headerRange b.addr) R) (ha : b.addr+headerSize ≤ 4294967296)
    (hb : Header m b) : Header m' b where
  magic := (field32_off (i := 0) h hd ha (by decide)).trans hb.magic
  size := (sizeAt_off h hd ha).trans hb.size
  free := (freeAt_off h hd ha).trans hb.free

/-- Writes off the headers keep the segment. -/
theorem seg_off {R : Set ℕ} {m m' : Mem} {p q : ℕ} {bs : List Block} (h : SameOff R m m')
    (hd : ∀ b ∈ bs, Disjoint (headerRange b.addr) R ∧ b.addr+headerSize ≤ 4294967296)
    (hs : HeapSeg m p bs q) : HeapSeg m' p bs q := by
  refine ⟨seg_congr ?_ hs.1, ?_⟩
  · intro x hx
    obtain ⟨b, hb, rfl⟩ := List.mem_map.mp hx
    exact nextAt_off h (hd b hb).1 (hd b hb).2
  · intro b hb
    exact header_off h (hd b hb).1 (hd b hb).2 (hs.2 b hb)

theorem heapSeg_append {m : Mem} {p q : ℕ} {l r : List Block} :
    HeapSeg m p (l++r) q ↔ ∃ c, HeapSeg m p l c ∧ HeapSeg m c r q := by
  unfold HeapSeg
  rw [List.map_append, seg_append, List.forall_mem_append]
  constructor
  · rintro ⟨⟨c, h1, h2⟩, h3, h4⟩
    exact ⟨c, ⟨h1, h3⟩, h2, h4⟩
  · rintro ⟨c, ⟨h1, h3⟩, h2, h4⟩
    exact ⟨⟨c, h1, h2⟩, h3, h4⟩

theorem heapSeg_cons {m : Mem} {p q : ℕ} {b : Block} {bs : List Block} :
    HeapSeg m p (b::bs) q ↔
      p = b.addr ∧ b.addr ≠ 0 ∧ Header m b ∧ HeapSeg m (nextAt m b.addr) bs q := by
  unfold HeapSeg
  rw [List.map_cons, List.forall_mem_cons, Seg]
  constructor
  · rintro ⟨⟨h1, h2, h3⟩, h4, h5⟩
    exact ⟨h1, h2, h4, h3, h5⟩
  · rintro ⟨h1, h2, h4, h3, h5⟩
    exact ⟨⟨h1, h2, h3⟩, h4, h5⟩

theorem heapSeg_nil {m : Mem} {p q : ℕ} : HeapSeg m p [] q ↔ p = q := by
  simp [HeapSeg, Seg]

section Fields

variable {m : Mem} {a v : ℕ}

theorem store32_field (i j : ℕ) (ha : a+headerSize ≤ 4294967296) (hi : i+4 ≤ headerSize)
    (hj : j+4 ≤ headerSize) (hij : i+4 ≤ j ∨ j+4 ≤ i) :
    load32 (store32 m (a+i) v) (a+j) = load32 m (a+j) := by
  unfold headerSize at ha hi hj
  refine load32_off (store32_off m (a+i) v) ?_
  rw [span_eq (by omega), span_eq (by omega), Set.Ico_disjoint_Ico]
  omega

theorem store32_flag (i : ℕ) (ha : a+headerSize ≤ 4294967296) (hi : i+4 ≤ headerSize)
    (hij : i+4 ≤ 8 ∨ 9 ≤ i) : load8 (store32 m (a+i) v) (a+8) = load8 m (a+8) := by
  unfold headerSize at ha hi
  refine load8_off (store32_off m (a+i) v) ?_
  rw [span_eq (by omega), wrap_of_lt (by omega), Set.mem_Ico]
  omega

theorem store8_field (j : ℕ) (ha : a+headerSize ≤ 4294967296) (hj : j+4 ≤ 8 ∨ 9 ≤ j)
    (hj4 : j+4 ≤ headerSize) : load32 (store8 m (a+8) v) (a+j) = load32 m (a+j) := by
  unfold headerSize at ha hj4
  refine load32_off (store8_off m (a+8) v) ?_
  rw [span_eq (by omega), span_eq (by omega), Set.Ico_disjoint_Ico]
  omega

theorem store_off {w i : ℕ} {m' : Mem} (h : SameOff (span (a+i) w) m m')
    (ha : a+headerSize ≤ 4294967296) (hi : i+w ≤ headerSize) : SameOff (headerRange a) m m' := by
  unfold headerSize at ha hi
  refine h.mono ?_
  rw [span_eq (by omega)]
  exact Set.Ico_subset_Ico (by omega) (by unfold headerSize; omega)

theorem setMagic_off (ha : a+headerSize ≤ 4294967296) :
    SameOff (headerRange a) m (setMagic m a v) :=
  store_off (i := 0) (store32_off m a v) ha (by decide)

theorem setSize_off (ha : a+headerSize ≤ 4294967296) :
    SameOff (headerRange a) m (setSize m a v) :=
  store_off (store32_off m (a+4) v) ha (by decide)

theorem setFree_off (ha : a+headerSize ≤ 4294967296) :
    SameOff (headerRange a) m (setFree m a v) :=
  store_off (store8_off m (a+8) v) ha (by decide)

theorem setNext_off (ha : a+headerSize ≤ 4294967296) :
    SameOff (headerRange a) m (setNext m a v) :=
  store_off (store32_off m (a+9) v) ha (by decide)

theorem setSize_fields (ha : a+headerSize ≤ 4294967296) :
    magicAt (setSize m a v) a = magicAt m a ∧ sizeAt (setSize m a v) a = wrap v ∧
    freeAt (setSize m a v) a = freeAt m a ∧ nextAt (setSize m a v) a = nextAt m a :=
  ⟨store32_field 4 0 ha (by decide) (by decide) (by decide), load32_store32 m (a+4) v,
    store32_flag 4 ha (by decide) (by decide),
    store32_field 4 9 ha (by decide) (by decide) (by decide)⟩

theorem setFree_fields (ha : a+headerSize ≤ 4294967296) :
    magicAt (setFree m a v) a = magicAt m a ∧ sizeAt (setFree m a v) a = sizeAt m a ∧
    freeAt (setFree m a v) a = v % 256 ∧ nextAt (setFree m a v) a = nextAt m a :=
  ⟨store8_field 0 ha (by decide) (by decide), store8_field 4 ha (by decide) (by decide),
    store8_same m (a+8) v, store8_field 9 ha (by decide) (by decide)⟩

theorem setNext_fields (ha : a+headerSize ≤ 4294967296) :
    magicAt (setNext m a v) a = magicAt m a ∧ sizeAt (setNext m a v) a = sizeAt m a ∧
    freeAt (setNext m a v) a = freeAt m a ∧ nextAt (setNext m a v) a = wrap v :=
  ⟨store32_field 9 0 ha (by decide) (by decide) (by decide),
    store32_field 9 4 ha (by decide) (by decide) (by decide),
    store32_flag 9 ha (by decide) (by decide), load32_store32 m (a+9) v⟩

end Fields

/-- Four stores make a header. -/
theorem new_header (m : Mem) (b : Block) (next : ℕ) (next' : Mem → ℕ) (hb : b.stop headerSize ≤ 4294967296)
    (hnext : ∀ m', SameOff (headerRange b.addr) m m' → next' m' = next)
    (size : Mem → ℕ) (hsize : ∀ m', SameOff (headerRange b.addr) m m' → size m' = b.size) :
    let m1 := setMagic m b.addr heapMagic
    let m2 := setSize m1 b.addr (size m1)
    let m3 := setFree m2 b.addr (if b.free = true then 1 else 0)
    let m4 := setNext m3 b.addr (next' m3)
    Header m4 b ∧ nextAt m4 b.addr = wrap next ∧ SameOff (headerRange b.addr) m m4 := by
  intro m1 m2 m3 m4
  have hlt : b.addr+headerSize ≤ 4294967296 := by
    unfold Block.stop at hb
    omega
  have hs : b.size < 4294967296 := by
    unfold Block.stop headerSize at hb
    omega
  have h1 : SameOff (headerRange b.addr) m m1 := setMagic_off hlt
  have h2 : SameOff (headerRange b.addr) m m2 := h1.trans (setSize_off hlt)
  have h3 : SameOff (headerRange b.addr) m m3 := h2.trans (setFree_off hlt)
  obtain ⟨a2, s2, -, -⟩ := setSize_fields (m := m1) (v := size m1) hlt
  obtain ⟨a3, s3, f3, -⟩ := setFree_fields (m := m2) (v := if b.free = true then 1 else 0) hlt
  obtain ⟨a4, s4, f4, n4⟩ := setNext_fields (m := m3) (v := next' m3) hlt
  have hmagic : magicAt m1 b.addr = heapMagic := load32_store32 m b.addr heapMagic
  refine ⟨⟨?_, ?_, ?_⟩, ?_, h3.trans (setNext_off hlt)⟩
  · exact a4.trans (a3.trans (a2.trans hmagic))
  · rw [s4, s3, s2, hsize m1 h1]
    exact wrap_of_lt hs
  · rw [f4, f3]
    cases b.free with
    | true => rfl
    | false => rfl
  · rw [n4, hnext m3 h3]

/-- The headers that a request of `req` bytes leaves in place of `b`, but for the flag of the first. -/
structure Carved (m : Mem) (b : Block) (req q : ℕ) : Prop where
  magic : magicAt m b.addr = heapMagic
  split : req+headerSize+16 ≤ b.size → sizeAt m b.addr = req ∧
    nextAt m b.addr = b.addr+headerSize+req ∧
    Header m ⟨b.addr+headerSize+req, b.size-req-headerSize, true⟩ ∧
    nextAt m (b.addr+headerSize+req) = q
  whole : ¬ req+headerSize+16 ≤ b.size → sizeAt m b.addr = b.size ∧ nextAt m b.addr = q

theorem carved_seg {m : Mem} {b : Block} {req q : ℕ} (h : Carved m b req q)
    (hfree : freeAt m b.addr = 0) (h0 : b.addr ≠ 0) :
    HeapSeg m b.addr (carve headerSize 16 req b) q := by
  unfold carve
  by_cases hs : req+headerSize+16 ≤ b.size
  · rw [if_pos hs]
    obtain ⟨hsize, hnext, hrest, hq⟩ := h.split hs
    refine heapSeg_cons.mpr ⟨rfl, h0, ⟨h.magic, hsize, hfree⟩, ?_⟩
    refine heapSeg_cons.mpr ⟨hnext, ?_, hrest, heapSeg_nil.mpr hq⟩
    unfold headerSize
    dsimp only
    omega
  · rw [if_neg hs]
    obtain ⟨hsize, hnext⟩ := h.whole hs
    exact heapSeg_cons.mpr ⟨rfl, h0, ⟨h.magic, hsize, hfree⟩, heapSeg_nil.mpr hnext⟩

theorem headerRange_disjoint {a b : ℕ} (h : a+headerSize ≤ b ∨ b+headerSize ≤ a) :
    Disjoint (headerRange a) (headerRange b) := by
  unfold headerRange
  rw [Set.Ico_disjoint_Ico]
  unfold headerSize at *
  omega

theorem carved_setFree {m : Mem} {b : Block} {req q v : ℕ} (h : Carved m b req q)
    (hb : b.stop headerSize ≤ 4294967296) : Carved (setFree m b.addr v) b req q := by
  have hlt : b.addr+headerSize ≤ 4294967296 := by
    unfold Block.stop at hb
    omega
  obtain ⟨hmagic, hsize, -, hnext⟩ := setFree_fields (m := m) (v := v) hlt
  refine ⟨hmagic.trans h.magic, ?_, ?_⟩
  · intro hs
    obtain ⟨h1, h2, h3, h4⟩ := h.split hs
    have hoff : SameOff (headerRange b.addr) m (setFree m b.addr v) := setFree_off hlt
    have hd : Disjoint (headerRange (b.addr+headerSize+req)) (headerRange b.addr) :=
      headerRange_disjoint (Or.inr (by omega))
    have hrest : b.addr+headerSize+req+headerSize ≤ 4294967296 := by
      unfold Block.stop at hb
      omega
    exact ⟨hsize.trans h1, hnext.trans h2, header_off hoff hd hrest h3,
      (nextAt_off hoff hd hrest).trans h4⟩
  · intro hs
    exact ⟨hsize.trans (h.whole hs).1, hnext.trans (h.whole hs).2⟩

/-- `splitBlock` on a header in memory, with the flag still as it was. -/
theorem splitBlock_carved {m : Mem} {b : Block} {req q : ℕ} {n : Mem → ℕ}
    (hmagic : magicAt m b.addr = heapMagic) (hsize : sizeAt m b.addr = b.size)
    (hlow : pageSize ≤ b.addr) (hb : b.stop headerSize ≤ 4294967296) (hreq : req ≤ b.size)
    (hq : q < 4294967296) (hwhole : ¬ req+headerSize+16 ≤ b.size → nextAt m b.addr = q)
    (hnext : ∀ m', SameOff (headerRange (b.addr+headerSize+req)) m m' → n m' = q) :
    Carved (splitBlock m b.addr req n) b req q ∧
    freeAt (splitBlock m b.addr req n) b.addr = freeAt m b.addr ∧
    SameOff (Set.Ico b.addr (b.stop headerSize)) m (splitBlock m b.addr req n) := by
  have hlt : b.addr+headerSize ≤ 4294967296 := by
    unfold Block.stop at hb
    omega
  have hguard : wrap (req+headerSize+16) = req+headerSize+16 := by
    unfold Block.stop at hb
    unfold pageSize at hlow
    unfold headerSize at *
    exact wrap_of_lt (by omega)
  unfold splitBlock
  rw [hsize, hguard]
  by_cases hs : req+headerSize+16 ≤ b.size
  · have hr : wrap (b.addr+headerSize+req) = b.addr+headerSize+req := by
      unfold Block.stop headerSize at *
      exact wrap_of_lt (by omega)
    have hsub : sub32 (sub32 b.size req) headerSize = b.size-req-headerSize := by
      unfold Block.stop headerSize at *
      rw [sub32_of_le hreq (by omega), sub32_of_le (by omega) (by omega)]
    rw [if_pos hs, hr]
    dsimp only
    have hd : Disjoint (headerRange b.addr) (headerRange (b.addr+headerSize+req)) :=
      headerRange_disjoint (Or.inl (by omega))
    obtain ⟨hrest, hrestNext, hoff⟩ := new_header m ⟨b.addr+headerSize+req, b.size-req-headerSize, true⟩ q n
      (by unfold Block.stop headerSize at *; dsimp only; omega) hnext
      (fun m' => sub32 (sub32 (sizeAt m' b.addr) req) headerSize)
      (fun m' hm' => by rw [sizeAt_off hm' hd hlt, hsize, hsub])
    dsimp only at hrest hrestNext hoff
    rw [if_pos rfl] at hrest hrestNext hoff
    generalize setNext (setFree (setSize (setMagic m (b.addr+headerSize+req) heapMagic)
      (b.addr+headerSize+req) _) (b.addr+headerSize+req) 1) (b.addr+headerSize+req) _ = m4 at *
    obtain ⟨h1, h2, h3, h4⟩ := setSize_fields (m := m4) (v := req) hlt
    obtain ⟨g1, g2, g3, g4⟩ := setNext_fields (m := setSize m4 b.addr req) (v := b.addr+headerSize+req) hlt
    have hown : SameOff (headerRange b.addr) m4 (setNext (setSize m4 b.addr req) b.addr (b.addr+headerSize+req)) :=
      (setSize_off hlt).trans (setNext_off hlt)
    have hin : b.addr+headerSize+req+headerSize ≤ 4294967296 := by
      unfold Block.stop headerSize at *
      omega
    refine ⟨⟨?_, ?_, fun h => (h hs).elim⟩, ?_, ?_⟩
    · rw [g1, h1]
      exact (field32_off (i := 0) hoff hd hlt (by decide)).trans hmagic
    · intro _
      refine ⟨?_, g4.trans hr, header_off hown hd.symm hin hrest, ?_⟩
      · rw [g2, h2]
        unfold Block.stop headerSize at *
        exact wrap_of_lt (by omega)
      · rw [nextAt_off hown hd.symm hin, hrestNext]
        exact wrap_of_lt hq
    · rw [g3, h3]
      exact freeAt_off hoff hd hlt
    · refine (hoff.mono ?_).trans (hown.mono ?_)
      · unfold headerRange Block.stop headerSize at *
        exact Set.Ico_subset_Ico (by omega) (by omega)
      · unfold headerRange Block.stop headerSize at *
        exact Set.Ico_subset_Ico (by omega) (by omega)
  · rw [if_neg hs]
    exact ⟨⟨hmagic, fun h => (hs h).elim, fun h => ⟨hsize, hwhole h⟩⟩, rfl, SameOff.refl _ m⟩

/-- Taking a fitting block carves it. -/
theorem takeBlock_seg {m : Mem} {b : Block} {req : ℕ} (hb : Header m b) (hlow : pageSize ≤ b.addr)
    (hstop : b.stop headerSize ≤ 4294967296) (hreq : req ≤ b.size) :
    HeapSeg (takeBlock m b.addr req) b.addr (carve headerSize 16 req b) (nextAt m b.addr) ∧
    SameOff (Set.Ico b.addr (b.stop headerSize)) m (takeBlock m b.addr req) := by
  have hlt : b.addr+headerSize ≤ 4294967296 := by
    unfold Block.stop at hstop
    omega
  have hd : Disjoint (headerRange b.addr) (headerRange (b.addr+headerSize+req)) :=
    headerRange_disjoint (Or.inl (by omega))
  obtain ⟨hc, -, hoff⟩ := splitBlock_carved (n := fun m => nextAt m b.addr) hb.magic hb.size hlow
    hstop hreq (load32_lt m (b.addr+9)) (fun _ => rfl) (fun m' h => nextAt_off h hd hlt)
  have h0 : b.addr ≠ 0 := by
    unfold pageSize at hlow
    omega
  refine ⟨carved_seg (carved_setFree hc hstop) ?_ h0, hoff.trans ((setFree_off hlt).mono ?_)⟩
  · exact (setFree_fields hlt).2.2.1
  · unfold headerRange Block.stop
    exact Set.Ico_subset_Ico le_rfl (by omega)

theorem flag_iff {m : Mem} {b : Block} (h : Header m b) : freeAt m b.addr ≠ 0 ↔ b.free = true := by
  rw [h.free]
  by_cases hb : b.free = true
  · simp [hb]
  · simp [hb]

theorem fits_iff {m : Mem} {b : Block} (h : Header m b) (req : ℕ) :
    (freeAt m b.addr ≠ 0 ∧ sizeAt m b.addr ≥ req) ↔ Fits req b := by
  rw [flag_iff h, h.size]
  rfl

/-- The address of the last block, or `last` for no block. -/
def lastAddr (last : ℕ) (bs : List Block) : ℕ := bs.foldl (fun _ b => b.addr) last

theorem findFit_found {m : Mem} {req fuel p q last : ℕ} {l r : List Block} {b : Block}
    (h : HeapSeg m p (l++b::r) q) (hl : ∀ x ∈ l, ¬ Fits req x) (hb : Fits req b)
    (hf : l.length < fuel) : findFit m req fuel p last = .ok (.found b.addr) := by
  induction l generalizing p fuel last with
  | nil =>
    obtain ⟨f, rfl⟩ := Nat.exists_eq_succ_of_ne_zero (Nat.ne_of_gt (Nat.zero_lt_of_lt hf))
    obtain ⟨rfl, h0, hh, -⟩ := heapSeg_cons.mp h
    rw [findFit, if_neg h0, if_neg (not_not_intro hh.magic), if_pos ((fits_iff hh req).mpr hb)]
  | cons x l ih =>
    obtain ⟨f, rfl⟩ := Nat.exists_eq_succ_of_ne_zero (Nat.ne_of_gt (Nat.zero_lt_of_lt hf))
    obtain ⟨rfl, h0, hh, hrest⟩ := heapSeg_cons.mp h
    have hx : ¬ Fits req x := hl x List.mem_cons_self
    rw [findFit, if_neg h0, if_neg (not_not_intro hh.magic), if_neg (fun g => hx ((fits_iff hh req).mp g))]
    exact ih hrest (fun y hy => hl y (List.mem_cons_of_mem x hy)) (by simpa using hf)

theorem findFit_missing {m : Mem} {req fuel p last : ℕ} {bs : List Block}
    (h : HeapSeg m p bs 0) (hbs : ∀ x ∈ bs, ¬ Fits req x) (hf : bs.length < fuel) :
    findFit m req fuel p last = .ok (.missing (lastAddr last bs)) := by
  induction bs generalizing p fuel last with
  | nil =>
    obtain ⟨f, rfl⟩ := Nat.exists_eq_succ_of_ne_zero (Nat.ne_of_gt hf)
    rw [findFit, if_pos (heapSeg_nil.mp h)]
    rfl
  | cons x bs ih =>
    obtain ⟨f, rfl⟩ := Nat.exists_eq_succ_of_ne_zero (Nat.ne_of_gt (Nat.zero_lt_of_lt hf))
    obtain ⟨rfl, h0, hh, hrest⟩ := heapSeg_cons.mp h
    have hx : ¬ Fits req x := hbs x List.mem_cons_self
    rw [findFit, if_neg h0, if_neg (not_not_intro hh.magic), if_neg (fun g => hx ((fits_iff hh req).mp g))]
    exact ih hrest (fun y hy => hbs y (List.mem_cons_of_mem x hy)) (by simpa using hf)

theorem clear_headers {a b : Block} (h : Clear headerSize a b) :
    Disjoint (headerRange a.addr) (headerRange b.addr) := by
  apply headerRange_disjoint
  unfold Clear Block.stop at h
  omega

theorem space_header {bs : List Block} (h : InSpace bs) {b : Block} (hb : b ∈ bs) :
    b.addr+headerSize ≤ 4294967296 := by
  have hstop := (h b hb).2
  unfold Block.stop at hstop
  omega

theorem headers_cons (a : Block) (bs : List Block) :
    headers (a::bs) = headerRange a.addr ∪ headers bs := by
  ext x
  simp [headers]

theorem nextAt_lt (m : Mem) (a : ℕ) : nextAt m a < 4294967296 := load32_lt m (a+9)

/-- Headers without a common address, in the address space. The loop that merges needs no more of
a list: it touches nothing but headers. -/
structure HeadersApart (bs : List Block) : Prop where
  apart : bs.Pairwise (fun a b => Disjoint (headerRange a.addr) (headerRange b.addr))
  space : ∀ b ∈ bs, b.addr+headerSize ≤ 4294967296
  room : weight headerSize bs ≤ 4294967296

theorem headers_apart {bs : List Block} (h : Apart headerSize bs) (hs : InSpace bs) : HeadersApart bs where
  apart := h.imp (fun hab => clear_headers hab)
  space _ hb := space_header hs hb
  room := weight_le h (fun b hb => (hs b hb).2)

def merged (a b : Block) : Block := { a with size := a.size+headerSize+b.size }

theorem HeadersApart.tail {a : Block} {bs : List Block} (h : HeadersApart (a::bs)) : HeadersApart bs where
  apart := (List.pairwise_cons.mp h.apart).2
  space b hb := h.space b (List.mem_cons_of_mem a hb)
  room := by
    have hroom := h.room
    rw [weight_cons] at hroom
    omega

theorem HeadersApart.merged {a b : Block} {bs : List Block} (h : HeadersApart (a::b::bs)) :
    HeadersApart (merged a b::bs) where
  apart := by
    obtain ⟨ha, hb⟩ := List.pairwise_cons.mp h.apart
    refine List.pairwise_cons.mpr ⟨?_, (List.pairwise_cons.mp hb).2⟩
    intro c hc
    exact ha c (List.mem_cons_of_mem b hc)
  space c hc := by
    rcases List.mem_cons.mp hc with rfl | hc
    · exact h.space a List.mem_cons_self
    · exact h.space c (by simp [hc])
  room := by
    have hroom := h.room
    simp only [weight_cons, HeapBlocks.merged] at hroom ⊢
    omega

/-- The two stores of one merge, as `heap_coalesce` makes them. -/
def mergeStep (m : Mem) (curr next : ℕ) : Mem :=
  let m' := setSize m curr (sizeAt m curr + (headerSize + sizeAt m next))
  setNext m' curr (nextAt m' (nextAt m' curr))

theorem mergeStep_seg {m : Mem} {a b : Block} {bs : List Block}
    (h : HeapSeg m a.addr (a::b::bs) 0) (hapart : HeadersApart (a::b::bs)) :
    HeapSeg (mergeStep m a.addr b.addr) a.addr (merged a b::bs) 0 ∧
    SameOff (headerRange a.addr) m (mergeStep m a.addr b.addr) := by
  obtain ⟨-, h0, hha, hrest⟩ := heapSeg_cons.mp h
  obtain ⟨hnext, -, hhb, htail⟩ := heapSeg_cons.mp hrest
  have hclear := (List.pairwise_cons.mp hapart.apart).1
  have hltA := hapart.space a List.mem_cons_self
  have hltB : b.addr+headerSize ≤ 4294967296 := hapart.space b (by simp)
  have hroom := hapart.room
  simp only [weight_cons] at hroom
  have hd : Disjoint (headerRange b.addr) (headerRange a.addr) :=
    (hclear b List.mem_cons_self).symm
  unfold mergeStep
  dsimp only
  rw [hha.size, hhb.size]
  have hoff1 : SameOff (headerRange a.addr) m (setSize m a.addr (a.size+(headerSize+b.size))) :=
    setSize_off hltA
  obtain ⟨f1, f2, f3, f4⟩ := setSize_fields (m := m) (v := a.size+(headerSize+b.size)) hltA
  rw [f4, hnext, nextAt_off hoff1 hd hltB]
  generalize setSize m a.addr (a.size+(headerSize+b.size)) = m1 at *
  obtain ⟨g1, g2, g3, g4⟩ := setNext_fields (m := m1) (v := nextAt m b.addr) hltA
  have hoff : SameOff (headerRange a.addr) m (setNext m1 a.addr (nextAt m b.addr)) :=
    hoff1.trans (setNext_off hltA)
  generalize setNext m1 a.addr (nextAt m b.addr) = m2 at *
  refine ⟨heapSeg_cons.mpr ⟨rfl, h0, ⟨g1.trans (f1.trans hha.magic), ?_, ?_⟩, ?_⟩, hoff⟩
  · change sizeAt m2 a.addr = a.size+headerSize+b.size
    rw [g2, f2, wrap_of_lt (by unfold headerSize at *; omega)]
    omega
  · exact (g3.trans f3).trans hha.free
  · change HeapSeg m2 (nextAt m2 a.addr) bs 0
    rw [g4, wrap_of_lt (nextAt_lt m b.addr)]
    refine seg_off hoff ?_ htail
    intro c hc
    exact ⟨(hclear c (List.mem_cons_of_mem b hc)).symm, hapart.space c (by simp [hc])⟩

/-- The merging loop, from the block it stands at to the end of the list. -/
theorem coalesceLoop_seg {m : Mem} {fuel : ℕ} {a : Block} {bs : List Block}
    (h : HeapSeg m a.addr (a::bs) 0) (hapart : HeadersApart (a::bs)) (hf : bs.length < fuel) :
    ∃ m', coalesceLoop fuel m a.addr = .ok m' ∧
      HeapSeg m' a.addr (coalesceFrom headerSize a bs) 0 ∧ SameOff (headers (a::bs)) m m' := by
  induction bs generalizing m a fuel with
  | nil =>
    obtain ⟨f, rfl⟩ := Nat.exists_eq_succ_of_ne_zero (Nat.ne_of_gt hf)
    obtain ⟨-, h0, -, hrest⟩ := heapSeg_cons.mp h
    refine ⟨m, ?_, h, SameOff.refl _ m⟩
    rw [coalesceLoop, if_neg h0, if_pos (heapSeg_nil.mp hrest)]
  | cons b bs ih =>
    obtain ⟨f, rfl⟩ := Nat.exists_eq_succ_of_ne_zero (Nat.ne_of_gt (Nat.zero_lt_of_lt hf))
    have hfuel : bs.length < f := by simpa using hf
    obtain ⟨-, h0, hha, hrest⟩ := heapSeg_cons.mp h
    obtain ⟨hnext, hb0, hhb, -⟩ := heapSeg_cons.mp hrest
    have hltA := hapart.space a List.mem_cons_self
    have hflags : (freeAt m a.addr ≠ 0 ∧ freeAt m b.addr ≠ 0) ↔ (a.free = true ∧ b.free = true) :=
      and_congr (flag_iff hha) (flag_iff hhb)
    rw [coalesceLoop, coalesceFrom, if_neg h0, hnext, if_neg hb0, if_neg (not_not_intro hha.magic)]
    rw [headers_cons, headers_cons]
    by_cases hfree : a.free = true ∧ b.free = true
    · rw [if_pos (hflags.mpr hfree), if_pos hfree, if_neg (not_not_intro hhb.magic)]
      obtain ⟨hseg, hoff⟩ := mergeStep_seg h hapart
      obtain ⟨m', hm', hseg', hsame⟩ := ih hseg hapart.merged hfuel
      refine ⟨m', hm', hseg', ?_⟩
      rw [headers_cons] at hsame
      refine (hoff.mono Set.subset_union_left).trans (hsame.mono ?_)
      exact Set.union_subset_union_right _ Set.subset_union_right
    · rw [if_neg (fun g => hfree (hflags.mp g)), if_neg hfree]
      rw [hnext] at hrest
      have hclear := (List.pairwise_cons.mp hapart.apart).1
      obtain ⟨m', hm', hseg, hsame⟩ := ih hrest hapart.tail hfuel
      have hd : Disjoint (headerRange a.addr) (headers (b::bs)) := by
        rw [Set.disjoint_right]
        rintro x ⟨c, hc, hx⟩
        exact Set.disjoint_right.mp (hclear c hc) hx
      refine ⟨m', hm', heapSeg_cons.mpr ⟨rfl, h0, header_off hsame hd hltA hha, ?_⟩, ?_⟩
      · rw [nextAt_off hsame hd hltA, hnext]
        exact hseg
      · rw [headers_cons] at hsame
        exact hsame.mono Set.subset_union_right

theorem represents_short {h : Heap} {bs : List Block} (hr : Represents h bs)
    (hspace : ∀ b ∈ bs, b.addr+headerSize ≤ 4294967296) : bs.length < loopBound := by
  have hlen := chain_length (n := 4294967296) hr.1 (by
    intro x hx
    obtain ⟨b, hb, rfl⟩ := List.mem_map.mp hx
    have hlt := hspace b hb
    unfold headerSize at hlt
    omega)
  rw [List.length_map] at hlen
  exact Nat.lt_of_le_of_lt hlen (by decide)

theorem represents_length {h : Heap} {bs : List Block} (hr : Represents h bs) (hs : InSpace bs) :
    bs.length < loopBound :=
  represents_short hr (fun _ hb => space_header hs hb)

theorem HeadersApart.coalesce {bs : List Block} (h : HeadersApart bs) : HeadersApart (coalesce headerSize bs) := by
  cases bs with
  | nil => exact h
  | cons a bs =>
    change HeadersApart (coalesceFrom headerSize a bs)
    induction bs generalizing a with
    | nil => exact h
    | cons b bs ih =>
      rw [coalesceFrom]
      by_cases hpair : a.free = true ∧ b.free = true
      · rw [if_pos hpair]
        exact ih (HeapBlocks.merged a b) h.merged
      · rw [if_neg hpair]
        have hrest := ih b h.tail
        refine ⟨List.pairwise_cons.mpr ⟨fun x hx => ?_, hrest.apart⟩, fun x hx => ?_, ?_⟩
        · obtain ⟨y, hy, hyx⟩ := coalesceFrom_addr hx
          rw [← hyx]
          exact (List.pairwise_cons.mp h.apart).1 y hy
        · rcases List.mem_cons.mp hx with rfl | hx
          · exact h.space x List.mem_cons_self
          · exact hrest.space x hx
        · rw [weight_cons, weight_coalesceFrom, ← weight_cons]
          exact h.room

theorem heapCoalesce_linked {h : Heap} {bs : List Block} (hr : Represents h bs) (hapart : HeadersApart bs) :
    ∃ m', heapCoalesce h = .ok { h with mem := m' } ∧
      Represents { h with mem := m' } (coalesce headerSize bs) ∧ SameOff (headers bs) h.mem m' := by
  cases bs with
  | nil =>
    refine ⟨h.mem, ?_, hr, SameOff.refl _ _⟩
    have h0 : h.heapStart = 0 := heapSeg_nil.mp hr
    rw [heapCoalesce, show loopBound = 8589934591+1 from rfl, coalesceLoop, if_pos h0]
    rfl
  | cons b bs =>
    have hlen : bs.length < loopBound := Nat.lt_of_succ_lt (represents_short hr hapart.space)
    have hstart : h.heapStart = b.addr := (heapSeg_cons.mp hr).1
    unfold Represents at hr
    rw [hstart] at hr
    obtain ⟨m', hm', hseg, hsame⟩ := coalesceLoop_seg hr hapart hlen
    refine ⟨m', ?_, ?_, hsame⟩
    · rw [heapCoalesce, hstart, hm']
      rfl
    · unfold Represents
      rw [hstart]
      exact hseg

theorem heapCoalesce_blocks {h : Heap} {bs : List Block} (hr : Represents h bs)
    (hapart : Apart headerSize bs) (hspace : InSpace bs) :
    ∃ m', heapCoalesce h = .ok { h with mem := m' } ∧
      Represents { h with mem := m' } (coalesce headerSize bs) ∧ SameOff (headers bs) h.mem m' :=
  heapCoalesce_linked hr (headers_apart hapart hspace)

theorem clear_extent {a b : Block} (h : Clear headerSize a b) :
    Disjoint (headerRange a.addr) (Set.Ico b.addr (b.stop headerSize)) := by
  unfold headerRange
  rw [Set.Ico_disjoint_Ico]
  unfold Clear Block.stop headerSize at *
  omega

/-- Replacing one block by headers inside its own extent. -/
theorem seg_replace {m m' : Mem} {p : ℕ} {l r mid : List Block} {b : Block}
    (h : HeapSeg m p (l++b::r) 0) (hapart : Apart headerSize (l++b::r)) (hspace : InSpace (l++b::r))
    (hoff : SameOff (Set.Ico b.addr (b.stop headerSize)) m m')
    (hmid : HeapSeg m' b.addr mid (nextAt m b.addr)) : HeapSeg m' p (l++mid++r) 0 := by
  obtain ⟨c, hl, hbr⟩ := heapSeg_append.mp h
  obtain ⟨rfl, -, -, hr⟩ := heapSeg_cons.mp hbr
  obtain ⟨-, hb, hcross⟩ := apart_append.mp hapart
  rw [List.append_assoc]
  refine heapSeg_append.mpr ⟨b.addr, seg_off hoff ?_ hl, heapSeg_append.mpr ⟨_, hmid, seg_off hoff ?_ hr⟩⟩
  · intro x hx
    exact ⟨clear_extent (hcross x hx b List.mem_cons_self), space_header hspace (by simp [hx])⟩
  · intro x hx
    exact ⟨clear_extent (clear_symm ((List.pairwise_cons.mp hb).1 x hx)),
      space_header hspace (by simp [hx])⟩

theorem space_place {req p : ℕ} {bs bs' : List Block} (h : InSpace bs)
    (hp : place headerSize 16 req bs = some (p, bs')) : InSpace bs' := by
  obtain ⟨l, b, r, rfl, -, hb, -, rfl⟩ := place_some hp
  intro x hx
  rw [List.append_assoc, List.mem_append, List.mem_append] at hx
  rcases hx with hx | hx | hx
  · exact h x (by simp [hx])
  · have hin := carve_within hb.2 hx
    have hbs := h b (by simp)
    exact ⟨hbs.1.trans hin.1, hin.2.trans hbs.2⟩
  · exact h x (by simp [hx])

/-- The largest request whose alignment does not wrap. -/
def maxRequest : ℕ := 0xFFFFFFFC

theorem alignUp4_ge {n : ℕ} (h : n ≤ maxRequest) : n ≤ alignUp4 n ∧ alignUp4 n ≤ n+3 := by
  unfold maxRequest at h
  unfold alignUp4 wrap
  omega

theorem alignUp4_eq {n : ℕ} (h : n ≤ maxRequest) : alignUp4 n = (n+3)/4*4 := by
  unfold maxRequest at h
  unfold alignUp4 wrap
  omega

/-- A request that some block satisfies takes the first of them. -/
theorem kmalloc_found {h : Heap} {bs bs' : List Block} {size p : ℕ} (hr : Represents h bs)
    (hapart : Apart headerSize bs) (hspace : InSpace bs) (hsize : size ≠ 0) (hmax : size ≤ maxRequest)
    (hp : place headerSize 16 (alignUp4 size) bs = some (p, bs')) :
    ∃ m' b, kmalloc h size = .ok (p+headerSize, { h with mem := m' }) ∧
      Represents { h with mem := m' } bs' ∧ b ∈ bs ∧ Fits (alignUp4 size) b ∧ p = b.addr ∧
      SameOff (Set.Ico b.addr (b.stop headerSize)) h.mem m' := by
  have hlen := represents_length hr hspace
  obtain ⟨l, b, r, rfl, hl, hb, rfl, rfl⟩ := place_some hp
  have hmem : b ∈ l++b::r := by simp
  obtain ⟨hlow, hstop⟩ := hspace b hmem
  obtain ⟨hseg, hoff⟩ := takeBlock_seg (hr.2 b hmem) hlow hstop hb.2
  refine ⟨takeBlock h.mem b.addr (alignUp4 size), b, ?_, ?_, hmem, hb, rfl, hoff⟩
  · have hfind : findFit h.mem (alignUp4 size) loopBound h.heapStart 0 = .ok (.found b.addr) := by
      refine findFit_found hr hl hb ?_
      rw [List.length_append] at hlen
      omega
    have hptr : wrap (b.addr+headerSize) = b.addr+headerSize := by
      have hge := (alignUp4_ge hmax).1
      have hfit := hb.2
      unfold Block.stop headerSize at *
      exact wrap_of_lt (by omega)
    rw [kmalloc, if_neg hsize, hfind]
    simp only [Except.map, hptr]
  · exact seg_replace hr hapart hspace hoff hseg

theorem kmalloc_missing {h : Heap} {bs : List Block} {size : ℕ} (hr : Represents h bs)
    (hspace : InSpace bs) (hsize : size ≠ 0)
    (hp : place headerSize 16 (alignUp4 size) bs = none) :
    kmalloc h size = .ok (growHeap h (alignUp4 size) (lastAddr 0 bs)) := by
  have hfind : findFit h.mem (alignUp4 size) loopBound h.heapStart 0 =
      .ok (.missing (lastAddr 0 bs)) :=
    findFit_missing hr (place_none.mp hp) (represents_length hr hspace)
  rw [kmalloc, if_neg hsize, hfind]
  rfl

/-- The block list after the flag of `b` is set. -/
theorem setFree_linked {h : Heap} {l r : List Block} {b : Block} (hr : Represents h (l++b::r))
    (hapart : HeadersApart (l++b::r)) :
    Represents { h with mem := setFree h.mem b.addr 1 } (l ++ { b with free := true }::r) := by
  have hmem : b ∈ l++b::r := List.mem_append_right l List.mem_cons_self
  have hlt := hapart.space b hmem
  have hb := hr.2 b hmem
  obtain ⟨h1, h2, h3, h4⟩ := setFree_fields (m := h.mem) (v := 1) hlt
  have hoff : SameOff (headerRange b.addr) h.mem (setFree h.mem b.addr 1) := setFree_off hlt
  obtain ⟨-, hright, hcross⟩ := List.pairwise_append.mp hapart.apart
  obtain ⟨c, hl, hbr⟩ := heapSeg_append.mp hr
  obtain ⟨rfl, h0, -, hrest⟩ := heapSeg_cons.mp hbr
  refine heapSeg_append.mpr ⟨b.addr, seg_off hoff ?_ hl, heapSeg_cons.mpr ⟨rfl, h0, ⟨h1.trans hb.magic,
    h2.trans hb.size, h3⟩, ?_⟩⟩
  · intro x hx
    exact ⟨hcross x hx b List.mem_cons_self, hapart.space x (List.mem_append_left _ hx)⟩
  · change HeapSeg (setFree h.mem b.addr 1) (nextAt (setFree h.mem b.addr 1) b.addr) r 0
    rw [h4]
    refine seg_off hoff ?_ hrest
    intro x hx
    exact ⟨((List.pairwise_cons.mp hright).1 x hx).symm,
      hapart.space x (List.mem_append_right l (List.mem_cons_of_mem b hx))⟩

theorem HeadersApart.mark {l r : List Block} {b : Block} (h : HeadersApart (l++b::r)) :
    HeadersApart (l ++ { b with free := true }::r) where
  apart := by
    have hmap := List.pairwise_map.mpr h.apart
    apply List.pairwise_map.mp
    rw [List.map_append, List.map_cons] at hmap ⊢
    exact hmap
  space x hx := by
    rcases List.mem_append.mp hx with hx | hx
    · exact h.space x (List.mem_append_left _ hx)
    · rcases List.mem_cons.mp hx with rfl | hx
      · exact h.space b (List.mem_append_right l List.mem_cons_self)
      · exact h.space x (List.mem_append_right l (List.mem_cons_of_mem b hx))
  room := by
    have hroom := h.room
    unfold weight at *
    rw [List.map_append, List.map_cons] at hroom ⊢
    exact hroom

theorem HeadersApart.addr_ne {l r : List Block} {b y : Block} (h : HeadersApart (l++b::r)) (hy : y ∈ l++r) :
    y.addr ≠ b.addr := by
  intro he
  obtain ⟨-, hright, hcross⟩ := List.pairwise_append.mp h.apart
  have hdisj : Disjoint (headerRange y.addr) (headerRange b.addr) := by
    rcases List.mem_append.mp hy with hy | hy
    · exact hcross y hy b List.mem_cons_self
    · exact ((List.pairwise_cons.mp hright).1 y hy).symm
  have hmem : b.addr ∈ headerRange b.addr := ⟨le_rfl, Nat.lt_add_of_pos_right (by decide)⟩
  rw [he] at hdisj
  exact Set.disjoint_left.mp hdisj hmem hmem

theorem mark_apart {l r : List Block} {b : Block} (h : Apart headerSize (l++b::r)) :
    Apart headerSize (l ++ { b with free := true }::r) := by
  have hall := apart_replace (c := [{ b with free := true }]) h
    (fun x hx => by
      rw [List.mem_singleton] at hx
      subst hx
      exact ⟨le_rfl, le_rfl⟩) (List.pairwise_singleton _ _)
  rw [List.append_assoc] at hall
  exact hall

theorem mark_headers {l r : List Block} {b : Block} :
    headers (l ++ { b with free := true }::r) = headers (l++b::r) := by
  have hmap : ∀ bs, headers bs = {x | ∃ a ∈ bs.map Block.addr, x ∈ headerRange a} := by
    intro bs
    ext x
    simp [headers]
  rw [hmap, hmap, List.map_append, List.map_append, List.map_cons, List.map_cons]

theorem ptr_block {b : Block} (hb : b.addr+headerSize < 4294967296) :
    sub32 (b.addr+headerSize) headerSize = b.addr := by
  rw [sub32_of_le (by omega) hb]
  omega

/-- A release marks its block and merges free neighbours. -/
theorem kfree_linked {h : Heap} {l r : List Block} {b : Block} {ptr : ℕ} (hr : Represents h (l++b::r))
    (hapart : HeadersApart (l++b::r)) (hptr : sub32 ptr headerSize = b.addr) (h0 : ptr ≠ 0) :
    ∃ m', kfree h ptr = .ok { h with mem := m' } ∧
      Represents { h with mem := m' } (coalesce headerSize (l ++ { b with free := true }::r)) ∧
      SameOff (headers (l++b::r)) h.mem m' := by
  have hmem : b ∈ l++b::r := List.mem_append_right l List.mem_cons_self
  have hlt := hapart.space b hmem
  obtain ⟨m', hm', hrep, hsame⟩ := heapCoalesce_linked (setFree_linked hr hapart) hapart.mark
  refine ⟨m', ?_, hrep, ?_⟩
  · rw [kfree, if_neg h0]
    simp only [hptr, (hr.2 b hmem).magic, ne_eq, not_true_eq_false, if_false]
    exact hm'
  · rw [mark_headers] at hsame
    have hown : headerRange b.addr ⊆ headers (l++b::r) := fun x hx => ⟨b, hmem, hx⟩
    exact ((setFree_off hlt).mono hown).trans hsame

/-- The blocks in use after a release are those of before without the one released. -/
theorem kfree_used {h : Heap} {bs : List Block} {b : Block} (hr : Represents h bs) (hapart : HeadersApart bs)
    (hb : b ∈ bs) (hp : b.addr+headerSize < 4294967296) :
    ∃ h' bs', kfree h (b.addr+headerSize) = .ok h' ∧ Represents h' bs' ∧ HeadersApart bs' ∧
      ∀ x, x.free = false → (x ∈ bs' ↔ x ∈ bs ∧ x.addr ≠ b.addr) := by
  obtain ⟨l, r, rfl⟩ := List.append_of_mem hb
  have h0 : b.addr+headerSize ≠ 0 := by
    unfold headerSize
    omega
  obtain ⟨m', hm', hrep, -⟩ := kfree_linked hr hapart (ptr_block hp) h0
  refine ⟨_, _, hm', hrep, hapart.mark.coalesce, ?_⟩
  intro x hx
  have hother : ∀ y ∈ l++r, y.addr ≠ b.addr := fun y hy => hapart.addr_ne hy
  rw [coalesce_used_iff hx]
  constructor
  · intro hmem
    rcases List.mem_append.mp hmem with hl | hl
    · exact ⟨List.mem_append_left _ hl, hother x (List.mem_append_left r hl)⟩
    · rcases List.mem_cons.mp hl with rfl | hl
      · cases hx
      · exact ⟨List.mem_append_right l (List.mem_cons_of_mem b hl), hother x (List.mem_append_right l hl)⟩
  · intro ⟨hmem, hne⟩
    rcases List.mem_append.mp hmem with hl | hl
    · exact List.mem_append_left _ hl
    · rcases List.mem_cons.mp hl with rfl | hl
      · exact (hne rfl).elim
      · exact List.mem_append_right l (List.mem_cons_of_mem _ hl)

theorem kfree_blocks {h : Heap} {l r : List Block} {b : Block} {ptr : ℕ} (hr : Represents h (l++b::r))
    (hapart : Apart headerSize (l++b::r)) (hspace : InSpace (l++b::r))
    (hptr : sub32 ptr headerSize = b.addr) (h0 : ptr ≠ 0) :
    ∃ m', kfree h ptr = .ok { h with mem := m' } ∧
      Represents { h with mem := m' } (coalesce headerSize (l ++ { b with free := true }::r)) ∧
      SameOff (headers (l++b::r)) h.mem m' :=
  kfree_linked hr (headers_apart hapart hspace) hptr h0

/-- A block that is large enough stays where it is. -/
theorem krealloc_stays {h : Heap} {b : Block} {size : ℕ} (hb : Header h.mem b)
    (hp : b.addr+headerSize < 4294967296) (h0 : size ≠ 0) (hbig : size ≤ b.size) :
    krealloc h (b.addr+headerSize) size = .ok (b.addr+headerSize, h) := by
  have hne : b.addr+headerSize ≠ 0 := by
    unfold headerSize
    omega
  rw [krealloc, if_neg hne, if_neg h0]
  dsimp only
  rw [ptr_block hp, if_neg (not_not_intro hb.magic), hb.size, if_pos hbig]

theorem krealloc_small {h : Heap} {b : Block} {size : ℕ} (hb : Header h.mem b)
    (hp : b.addr+headerSize < 4294967296) (hsmall : b.size < size) :
    krealloc h (b.addr+headerSize) size = (kmalloc h size).bind (fun r =>
      if r.1 = 0 then .ok (0, r.2)
      else
        (kfree { r.2 with
          mem := memcpy r.2.mem r.1 (b.addr+headerSize) (sizeAt r.2.mem b.addr) } (b.addr+headerSize)).map
          (fun h => (r.1, h))) := by
  have hne : b.addr+headerSize ≠ 0 := by
    unfold headerSize
    omega
  rw [krealloc, if_neg hne, if_neg (Nat.ne_of_gt (Nat.zero_lt_of_lt hsmall))]
  dsimp only
  rw [ptr_block hp, if_neg (not_not_intro hb.magic), hb.size, if_neg (Nat.not_le.mpr hsmall)]

/-- The bytes of the counted blocks. -/
def bytes (counts : Bool → Bool) (bs : List Block) : ℕ :=
  ((bs.filter (fun b => counts b.free)).map Block.size).sum

theorem bytes_cons (counts : Bool → Bool) (b : Block) (bs : List Block) :
    bytes counts (b::bs) = (if counts b.free = true then b.size else 0) + bytes counts bs := by
  unfold bytes
  by_cases hc : counts b.free = true
  · simp [hc]
  · simp [hc]

theorem sumSizes_seg {m : Mem} {flag : ℕ → Bool} {counts : Bool → Bool} {fuel p sum : ℕ}
    {bs : List Block} (hflag : ∀ f, flag (if f = true then 1 else 0) = counts f)
    (h : HeapSeg m p bs 0) (hf : bs.length < fuel) (hsum : sum + bytes counts bs < 4294967296) :
    sumSizes m flag fuel p sum = .ok (sum + bytes counts bs) := by
  induction bs generalizing p fuel sum with
  | nil =>
    obtain ⟨f, rfl⟩ := Nat.exists_eq_succ_of_ne_zero (Nat.ne_of_gt hf)
    rw [sumSizes, if_pos (heapSeg_nil.mp h)]
    simp [bytes]
  | cons b bs ih =>
    obtain ⟨f, rfl⟩ := Nat.exists_eq_succ_of_ne_zero (Nat.ne_of_gt (Nat.zero_lt_of_lt hf))
    obtain ⟨rfl, h0, hh, hrest⟩ := heapSeg_cons.mp h
    rw [bytes_cons] at hsum ⊢
    rw [sumSizes, if_neg h0, hh.free, hflag, hh.size]
    by_cases hc : counts b.free = true
    · rw [if_pos hc] at hsum ⊢
      rw [if_pos ⟨hh.magic, hc⟩, wrap_of_lt (by omega), ih hrest (by simpa using hf) (by omega)]
      rw [Nat.add_assoc]
    · rw [if_neg hc] at hsum ⊢
      rw [if_neg (fun g => hc g.2), ih hrest (by simpa using hf) (by omega), Nat.zero_add]

theorem bytes_split (bs : List Block) :
    bytes id bs + bytes not bs = (bs.map Block.size).sum := by
  induction bs with
  | nil => rfl
  | cons b bs ih =>
    rw [bytes_cons, bytes_cons, List.map_cons, List.sum_cons, ← ih]
    cases hb : b.free with
    | true =>
      simp only [id_eq, Bool.not_true, if_true, Bool.false_eq_true, if_false]
      omega
    | false =>
      simp only [id_eq, Bool.not_false, if_true, Bool.false_eq_true, if_false]
      omega

/-- `heap_get_free` and `heap_get_used` share out the data bytes of the blocks. -/
theorem heapGet_blocks {h : Heap} {bs : List Block} (hr : Represents h bs) (hs : InSpace bs)
    (hsum : (bs.map Block.size).sum < 4294967296) :
    ∃ free used, heapGetFree h = .ok free ∧ heapGetUsed h = .ok used ∧
      free + used = (bs.map Block.size).sum := by
  have hsplit := bytes_split bs
  have hlen := represents_length hr hs
  refine ⟨0 + bytes id bs, 0 + bytes not bs, ?_, ?_, by omega⟩
  · exact sumSizes_seg (fun f => by cases f <;> rfl) hr hlen (by omega)
  · exact sumSizes_seg (fun f => by cases f <;> rfl) hr hlen (by omega)

theorem data_header {bs : List Block} (hapart : Apart headerSize bs) {a b : Block} (ha : a ∈ bs)
    (hb : b ∈ bs) : Disjoint (headerRange b.addr) (Set.Ico (a.addr+headerSize) (a.stop headerSize)) := by
  unfold headerRange
  rw [Set.Ico_disjoint_Ico]
  by_cases hab : a = b
  · subst hab
    omega
  · have hclear := apart_clear hapart ha hb hab
    unfold Clear Block.stop at *
    omega

theorem represents_write {h : Heap} {bs : List Block} {R : Set ℕ} {m : Mem} (hr : Represents h bs)
    (hs : InSpace bs) (hoff : SameOff R h.mem m) (hd : ∀ b ∈ bs, Disjoint (headerRange b.addr) R) :
    Represents { h with mem := m } bs :=
  seg_off hoff (fun b hb => ⟨hd b hb, space_header hs hb⟩) hr

/-- A write into the data of one block. -/
theorem data_write {h : Heap} {bs : List Block} {c : Block} {m : Mem} {n : ℕ} (hr : Represents h bs)
    (hapart : Apart headerSize bs) (hs : InSpace bs) (hc : c ∈ bs) (hn : n ≤ c.size)
    (hoff : SameOff (span (c.addr+headerSize) n) h.mem m) : Represents { h with mem := m } bs := by
  refine represents_write hr hs hoff ?_
  intro b hb
  have hstop := (hs c hc).2
  unfold Block.stop at hstop
  rw [span_eq (by omega)]
  refine (data_header hapart hc hb).mono_right ?_
  unfold Block.stop
  exact Set.Ico_subset_Ico le_rfl (by omega)

end Dionnex.HeapBlocks
