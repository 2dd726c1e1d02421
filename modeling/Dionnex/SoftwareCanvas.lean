import Dionnex.HeapFrames
import Dionnex.ProcessImage
import Dionnex.VesaCanvas

/-!
# A canvas on the heap

Without a VBE mode `vesa_init` draws into a block of the kernel heap. From
then on drawing and the heap's other users take turns in any order: no call
of the heap changes the picture, no drawing changes a header or the data of
another allocation, and the heap stays tiled throughout.
-/

set_option autoImplicit false

namespace Dionnex.SoftwareCanvas
open ByteMemory LabelledRuns FirstFit PaintedCells Dionnex.PmmBitmap Dionnex.Vmm Dionnex.KernelHeap Dionnex.HeapBlocks
  Dionnex.ProcessImage Dionnex.VesaCanvas Dionnex.HeapFrames

/-- The loop of `vesa_init` over the pages of the frame buffer. -/
def mapPages (s : VmState) (fb : ℕ) (pages : ℕ) : VmState :=
  (List.range pages).foldl (fun s i =>
    vmmMapPage s (wrap (fb + i*pageSize)) (wrap (fb + i*pageSize)) (vmmPresent ||| vmmWritable)) s

/-- With the mode that the boot loader has set; the offsets are those of `vesa_mode_info_t`. -/
def initVbe (v : Vesa) (m : Machine) (modeInfo : ℕ) : Vesa × Machine :=
  let pitch := load16 m.vm.mem (modeInfo+16)
  let height := load16 m.vm.mem (modeInfo+20)
  let fb := load32 m.vm.mem (modeInfo+40)
  ({ v with
      width := load16 m.vm.mem (modeInfo+18)
      height := height
      bpp := load8 m.vm.mem (modeInfo+25)
      pitch := pitch
      framebuffer := fb
      enabled := true },
    { m with vm := mapPages m.vm fb (wrap (wrap (pitch*height) + 4095) / pageSize) })

/-- The fallback: a buffer of 32 bits a pixel from the heap. -/
def initCanvas (v : Vesa) (m : Machine) : Option (Vesa × Machine) :=
  let size := wrap (v.width*v.height*4)
  (kmallocIn m size).map (fun r =>
    if r.1 = 0 then ({ v with framebuffer := 0, enabled := false }, r.2)
    else ({ v with framebuffer := r.1, enabled := true },
      { r.2 with vm := { r.2.vm with mem := memset r.2.vm.mem r.1 0 size } }))

/-- `none` is a panic of the heap. The flags and the address of the mode are read from the boot information. -/
def vesaInit (v : Vesa) (m : Machine) (mb : ℕ) : Option (Vesa × Machine) :=
  if mb = 0 then some ({ v with enabled := false }, m)
  else if load32 m.vm.mem mb &&& (1 <<< 11) ≠ 0 ∧ load32 m.vm.mem (mb+76) ≠ 0 then
    some (initVbe v m (load32 m.vm.mem (mb+76)))
  else initCanvas v m

/-- The driver's variables before `vesa_init`. -/
def unset (pastFont : ℕ → ℕ) : Vesa := ⟨800, 600, 32, 3200, 0, false, pastFont⟩

/-- `width * height * 4`, also the extent of the rows. -/
@[irreducible] def canvasSize : ℕ := 1920000

theorem canvasSize_eq : canvasSize = 1920000 := by unfold canvasSize; rfl

/-! ## Drawing between heap calls -/

inductive Event where
  | heap (e : HeapTiling.Event)
  | draw (calls : List Call)

/-- The canvas is neither released nor written to by others, and the other events are those of the heap. -/
def Step (v : Vesa) (s : HeapTiling.System) : Event → HeapTiling.System → Prop
  | .heap e, t => HeapTiling.Allowed s e ∧ Spares s (v.framebuffer, canvasSize) e ∧ HeapTiling.perform s e = .ok t
  | .draw calls, t => ∃ rounds m, performAll rounds v s.heap.mem calls = some m ∧
      t = { s with heap := { s.heap with mem := m } }

/-- What one event does to the picture and to the other allocations. -/
def Separate (v : Vesa) (s : HeapTiling.System) : Event → HeapTiling.System → Prop
  | .heap _, t => ∀ p, Shown v p → stored v t.heap.mem p = stored v s.heap.mem p
  | .draw calls, t =>
    (∀ a ∈ s.live, a.1 ≠ v.framebuffer → ∀ x, a.1 ≤ x → x < a.1+a.2 → t.heap.mem x = s.heap.mem x) ∧
    ∀ ls, List.Forall₂ (Paints v s.heap.mem) calls ls → ∀ p, Shown v p →
      stored v t.heap.mem p = paint (stored v s.heap.mem) (keptStrokes v ls.flatten) p ∧
      vesaGetpixel v t.heap.mem p.1 p.2 = paint (stored v s.heap.mem) (keptStrokes v ls.flatten) p

/-- The heap is sound and the canvas one of its allocations. -/
structure Holds (base total : ℕ) (v : Vesa) (s : HeapTiling.System) : Prop where
  heap : ∃ bs, HeapTiling.Inv base total s bs
  canvas : (v.framebuffer, canvasSize) ∈ s.live

section Runs

variable {base total : ℕ} {v : Vesa} {s t : HeapTiling.System} {pastFont : ℕ → ℕ}

/-- A driver whose canvas is a block of the heap. -/
structure OnHeap (v : Vesa) : Prop where
  fits : Fits v
  depth : v.bpp = 32
  size : v.pitch*v.height = canvasSize

theorem buffer_range (hv : OnHeap v) : bufferSpan v = Set.Ico v.framebuffer (v.framebuffer+canvasSize) := by
  unfold bufferSpan
  rw [hv.size]
  refine span_eq ?_
  have hbelow := hv.fits.below
  rw [hv.size] at hbelow
  exact hbelow

theorem stored_kept (hv : OnHeap v) {m m' : Mem}
    (h : ∀ x, v.framebuffer ≤ x → x < v.framebuffer+canvasSize → m' x = m x) {p : ℕ × ℕ} (hp : Shown v p) :
    stored v m' p = stored v m p := by
  refine loadBytes_congr (fun x hx => ?_)
  have harea : x ∈ bufferSpan v := area_buffer hv.fits ⟨p, hp, hx⟩
  rw [buffer_range hv] at harea
  exact h x harea.1 harea.2

theorem heap_separate (hv : OnHeap v) (hi : Holds base total v s) {e : HeapTiling.Event} (h : Step v s (.heap e) t) :
    Holds base total v t ∧ Separate v s (.heap e) t := by
  obtain ⟨bs, hinv⟩ := hi.heap
  obtain ⟨hok, hspares, hp⟩ := h
  obtain ⟨t', bs', hp', hinv', -⟩ := HeapTiling.perform_inv hinv hok
  obtain rfl := Except.ok.inj (hp.symm.trans hp')
  obtain ⟨hlive, hdata⟩ := event_keeps hinv hok hi.canvas hspares hp
  exact ⟨⟨⟨bs', hinv'⟩, hlive⟩, fun p hpix => stored_kept hv hdata hpix⟩

/-- Two live allocations have no byte in common. -/
theorem live_apart {bs : List Block} (hinv : HeapTiling.Inv base total s bs) {a c : ℕ × ℕ} (ha : a ∈ s.live)
    (hc : c ∈ s.live) (hne : a.1 ≠ c.1) {x : ℕ} (hlo : a.1 ≤ x) (hhi : x < a.1+a.2) : ¬ (c.1 ≤ x ∧ x < c.1+c.2) := by
  obtain ⟨b, hb, hpb, -, hle, -⟩ := hinv.block ha
  obtain ⟨d, hd, hpd, -, hled, -⟩ := hinv.block hc
  have hbd : b ≠ d := by
    rintro rfl
    exact hne (hpb.trans hpd.symm)
  have hclear := apart_clear hinv.apart hb hd hbd
  unfold Clear Block.stop headerSize at hclear
  unfold headerSize at hpb hpd
  omega

theorem draw_separate (hv : OnHeap v) (hi : Holds base total v s) {calls : List Call} (h : Step v s (.draw calls) t) :
    Holds base total v t ∧ Separate v s (.draw calls) t := by
  obtain ⟨bs, hinv⟩ := hi.heap
  obtain ⟨rounds, m, hr, rfl⟩ := h
  have hoff := run_off hv.fits hr
  have hrange := buffer_range hv
  have hwrite : HeapTiling.Allowed s (.write m) := by
    refine hoff.mono (fun x hx => ?_)
    rw [hrange] at hx
    exact ⟨_, hi.canvas, hx.1, hx.2⟩
  obtain ⟨t, bs', ht, hinv', -⟩ := HeapTiling.write_event hinv hwrite
  obtain rfl := Except.ok.inj ht
  refine ⟨⟨⟨bs', hinv'⟩, hi.canvas⟩, ?_, ?_⟩
  · intro a ha hne x hlo hhi
    refine hoff x (fun hx => ?_)
    rw [hrange] at hx
    exact live_apart hinv ha hi.canvas hne hlo hhi hx
  · intro ls hl p hp
    have hstored : stored v m p = paint (stored v s.heap.mem) (keptStrokes v ls.flatten) p := by
      rw [run_plots hv.fits hr hl]
      exact plots_stored hv.fits _ hp
    exact ⟨hstored, (getpixel_stored hv.fits hv.depth hp).trans hstored⟩

theorem step_separate (hv : OnHeap v) (hi : Holds base total v s) {e : Event} (h : Step v s e t) :
    Holds base total v t ∧ Separate v s e t := by
  cases e with
  | heap e => exact heap_separate hv hi h
  | draw calls => exact draw_separate hv hi h

/-! ## The start -/

/-- Every state of a run that began with one free block and did not grow the heap. -/
def Reached (base total : ℕ) (s : HeapTiling.System) : Prop :=
  ∃ h tr, HeapTiling.FreshRegion base total h ∧ Run HeapTiling.Step (.ok ⟨h, []⟩) tr ∧ last (.ok ⟨h, []⟩) tr = .ok s

theorem reached_inv (h : Reached base total s) : ∃ bs, HeapTiling.Inv base total s bs := by
  obtain ⟨h, tr, hf, hrun, hlast⟩ := h
  have hkeep := run_last (I := fun t => ∃ s bs, t = .ok s ∧ HeapTiling.Inv base total s bs) ?_ _ tr
    ⟨_, _, rfl, HeapTiling.fresh_inv hf⟩ hrun
  · obtain ⟨t, bs, ht, hinv⟩ := hkeep
    obtain rfl := Except.ok.inj (hlast.symm.trans ht)
    exact ⟨bs, hinv⟩
  · rintro _ e t ⟨s, bs, rfl, hi⟩ ⟨ha, rfl⟩
    obtain ⟨s', bs', hs', hi', -⟩ := HeapTiling.perform_inv hi ha
    exact ⟨s', bs', hs', hi'⟩

/-- The boot information gives no mode. -/
def NoVbe (m : Machine) (mb : ℕ) : Prop :=
  mb ≠ 0 ∧ ¬ (load32 m.vm.mem mb &&& (1 <<< 11) ≠ 0 ∧ load32 m.vm.mem (mb+76) ≠ 0)

theorem unset_onHeap {p : ℕ} (h0 : p ≠ 0) (hp : p+canvasSize ≤ 4294967296) :
    OnHeap { unset pastFont with framebuffer := p, enabled := true } := by
  rw [canvasSize_eq] at hp
  have hrows : (unset pastFont).pitch*(unset pastFont).height = 1920000 := by norm_num [unset]
  refine ⟨⟨rfl, h0, Or.inl rfl, ?_, ?_⟩, rfl, hrows.trans canvasSize_eq.symm⟩
  · exact (Nat.add_le_add_left hrows.le p).trans hp
  · norm_num [unset]

/-- The cleared buffer is black. -/
theorem cleared_black (hv : OnHeap v) (m : Mem) {p : ℕ × ℕ} (hp : Shown v p) :
    stored v (memset m v.framebuffer 0 canvasSize) p = 0 := by
  have hzero : ∀ x ∈ span (pixelAddr v p) (v.bpp/8), memset m v.framebuffer 0 canvasSize x = 0 := by
    intro x hx
    have harea : x ∈ bufferSpan v := area_buffer hv.fits ⟨p, hp, hx⟩
    unfold bufferSpan at harea
    rw [hv.size] at harea
    exact memset_span (by rw [canvasSize_eq]; decide) harea
  have hblank : loadBytes (fun _ => 0) (pixelAddr v p) (v.bpp/8) = 0 := by
    rw [hv.depth]
    rfl
  exact (loadBytes_congr (m := fun _ => 0) hzero).trans hblank

theorem init_holds {m : Machine} {live : List (ℕ × ℕ)} {bs : List Block} {mb : ℕ}
    (hi : HeapTiling.Inv base total ⟨m.heap, live⟩ bs) (hg : ¬ HeapTiling.Grows m.heap canvasSize) (hmb : NoVbe m mb) :
    ∃ v m', vesaInit (unset pastFont) m mb = some (v, m') ∧
      (v.enabled = false ∨ OnHeap v ∧ (∀ p, Shown v p → stored v m'.vm.mem p = 0) ∧
        Holds base total v ⟨m'.heap, (v.framebuffer, canvasSize)::live⟩) := by
  obtain ⟨q, h', bs', hk, hinv, hq, -, -⟩ := HeapTiling.kmalloc_inv hi (show canvasSize ≤ maxRequest by rw [canvasSize_eq]; decide) hg
  have hsize : wrap ((unset pastFont).width*(unset pastFont).height*4) = canvasSize := by
    show wrap (800*600*4) = canvasSize
    rw [canvasSize_eq]
    exact wrap_of_lt (by decide)
  have hcall : kmallocIn m canvasSize = some (q, m.withHeap h') := kmallocIn_iff.mpr ⟨h', hk, rfl⟩
  unfold vesaInit
  rw [if_neg hmb.1, if_neg hmb.2]
  unfold initCanvas
  dsimp only
  rw [hsize, hcall]
  rcases hq with rfl | ⟨c, hc, rfl, -, hle, -⟩
  · exact ⟨_, _, rfl, Or.inl rfl⟩
  · have h0 : c.addr+headerSize ≠ 0 := by
      unfold headerSize
      omega
    have hstop := (hinv.space c hc).2
    unfold Block.stop at hstop
    have hv : OnHeap { unset pastFont with framebuffer := c.addr+headerSize, enabled := true } :=
      unset_onHeap h0 (by omega)
    refine ⟨_, _, by rw [Option.map_some, if_neg h0], Or.inr ⟨hv, fun p hp => cleared_black hv _ hp, ?_⟩⟩
    have hwrite : HeapTiling.Allowed ⟨h', (c.addr+headerSize, canvasSize)::live⟩
        (.write (memset h'.mem (c.addr+headerSize) 0 canvasSize)) := by
      refine (memset_off _ _ _ _).mono (fun x hx => ?_)
      rw [span_eq (by omega)] at hx
      exact ⟨_, List.mem_cons_self, hx.1, hx.2⟩
    rw [HeapTiling.granted, if_neg h0] at hinv
    obtain ⟨t, bs'', ht, hinv', -⟩ := HeapTiling.write_event hinv hwrite
    obtain rfl := Except.ok.inj ht
    exact ⟨⟨bs'', hinv'⟩, List.mem_cons_self⟩

/-- With the driver off no call draws. -/
theorem disabled_plots (hv : v.enabled = false) (m : Mem) (l : List Stroke) : plots v m l = m := by
  induction l generalizing m with
  | nil => rfl
  | cons s l ih =>
    have hplot : plot v m s = m := by
      unfold plot vesaPutpixel
      rw [if_pos (Or.inl hv)]
    show plots v (plot v m s) l = m
    rw [hplot, ih]

end Runs

def sampleMachine : Machine where
  vm := ⟨writeHeader (fun _ => 0) 4096 2000000 1 0, ⟨fun _ => 0, 0, 0, 0⟩, 0⟩
  heapStart := 4096
  heapEndAddr := 2004109
  heapPages := []
  kernel := ⟨fun _ => Process.blankRecord, 0, 0, 0, 1, 0⟩

theorem sampleMachine_fresh : HeapTiling.FreshRegion 4096 2000013 sampleMachine.heap where
  low := by decide
  high := by decide
  room := by decide
  blocks := by
    have heval : magicAt sampleMachine.vm.mem 4096 = heapMagic ∧ sizeAt sampleMachine.vm.mem 4096 = 2000000 ∧
        freeAt sampleMachine.vm.mem 4096 = 1 ∧ nextAt sampleMachine.vm.mem 4096 = 0 := by decide +kernel
    obtain ⟨hm, hs, hf, hn⟩ := heval
    exact heapSeg_cons.mpr ⟨rfl, by decide, ⟨hm, hs, hf⟩, heapSeg_nil.mpr hn⟩

theorem sampleMachine_fits : ¬ HeapTiling.Grows sampleMachine.heap canvasSize := by
  rw [canvasSize_eq]
  exact HeapTiling.found_not_grows (p := 4096) (by decide +kernel)

end Dionnex.SoftwareCanvas
