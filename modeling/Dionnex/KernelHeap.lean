import Dionnex.ByteMemory
import Dionnex.PmmBitmap

/-!
# The kernel heap

The allocator as it reads and writes memory. A block starts with a packed
header of thirteen bytes: magic word, size, free byte, link. Every loop over
the links has a bound that no list of distinct addresses reaches; a failed
check of the magic word ends in a panic. `pages` is kept beside the code's
own state: the addresses that `pmm_alloc_page` has returned to the heap.
-/

set_option autoImplicit false

namespace Dionnex.KernelHeap
open ByteMemory Dionnex.PmmBitmap

def heapMagic : ℕ := 0xDEADBEEF

/-- `sizeof(heap_block_t)`. -/
def headerSize : ℕ := 13

structure Heap where
  mem : Mem
  heapStart : ℕ
  heapEndAddr : ℕ
  pmm : Pmm
  pages : List ℕ

inductive Fault where
  | panic (message : String)
  | hang
  deriving DecidableEq, Repr

def magicAt (m : Mem) (block : ℕ) : ℕ := load32 m block

def sizeAt (m : Mem) (block : ℕ) : ℕ := load32 m (block+4)

def freeAt (m : Mem) (block : ℕ) : ℕ := load8 m (block+8)

def nextAt (m : Mem) (block : ℕ) : ℕ := load32 m (block+9)

def setMagic (m : Mem) (block v : ℕ) : Mem := store32 m block v

def setSize (m : Mem) (block v : ℕ) : Mem := store32 m (block+4) v

def setFree (m : Mem) (block v : ℕ) : Mem := store8 m (block+8) v

def setNext (m : Mem) (block v : ℕ) : Mem := store32 m (block+9) v

/-- The four stores that make a new header. -/
def writeHeader (m : Mem) (block size free next : ℕ) : Mem :=
  setNext (setFree (setSize (setMagic m block heapMagic) block size) block free) block next

/-- `ALIGN_UP` of an unsigned 32-bit number to a multiple of 4. -/
def alignUp4 (n : ℕ) : ℕ := wrap (n+3) / 4 * 4

/-- `(n + PAGE_SIZE - 1) / PAGE_SIZE` on unsigned 32-bit numbers. -/
def pagesFor (n : ℕ) : ℕ := wrap (n+4095) / pageSize

/-- More steps than there are addresses. -/
def loopBound : ℕ := 8589934592

def coalesceLoop : ℕ → Mem → ℕ → Except Fault Mem
  | 0, _, _ => .error .hang
  | fuel+1, m, curr =>
    if curr = 0 then .ok m
    else if nextAt m curr = 0 then .ok m
    else if magicAt m curr ≠ heapMagic then .error (.panic "Heap corruption detected in coalesce")
    else if freeAt m curr ≠ 0 ∧ freeAt m (nextAt m curr) ≠ 0 then
      if magicAt m (nextAt m curr) ≠ heapMagic then
        .error (.panic "Heap corruption detected in coalesce next")
      else
        let m' := setSize m curr (sizeAt m curr + (headerSize + sizeAt m (nextAt m curr)))
        coalesceLoop fuel (setNext m' curr (nextAt m' (nextAt m' curr))) curr
    else coalesceLoop fuel m (nextAt m curr)

def heapCoalesce (h : Heap) : Except Fault Heap :=
  (coalesceLoop loopBound h.mem h.heapStart).map (fun m => { h with mem := m })

/-- `pmm_alloc_page` called by the heap. -/
def takeHeapPage (h : Heap) : ℕ × Heap :=
  ((pmmAllocPage h.pmm).1,
    { h with
      pmm := (pmmAllocPage h.pmm).2
      pages := if (pmmAllocPage h.pmm).1 = 0 then h.pages else (pmmAllocPage h.pmm).1 :: h.pages })

/-- The page loop of `heap_init`; `start` follows the first page. -/
def initPages : ℕ → Heap → Except Fault Heap
  | 0, h => .ok h
  | n+1, h =>
    if (takeHeapPage h).1 = 0 then
      .error (.panic "Heap: Out of memory allocating initial heap pages")
    else initPages n (takeHeapPage h).2

def initSize (size : ℕ) : ℕ := if size < 0x100000 then 0x100000 else size

/-- `start` is the value chosen for a null argument. -/
def heapInit (defaultStart : ℕ) (h : Heap) (start size : ℕ) : Except Fault Heap :=
  let pages := pagesFor (initSize size)
  let start := if start = 0 then defaultStart else start
  let start := if pages = 0 then start else (takeHeapPage h).1
  (initPages pages h).map (fun h =>
    { h with
      mem := writeHeader h.mem start (sub32 (pages*pageSize) headerSize) 1 0
      heapStart := start
      heapEndAddr := wrap (start + pages*pageSize) })

inductive Search where
  | found (block : ℕ)
  | missing (last : ℕ)
  deriving DecidableEq, Repr

/-- The search loop of `kmalloc`. -/
def findFit (m : Mem) (req : ℕ) : ℕ → ℕ → ℕ → Except Fault Search
  | 0, _, _ => .error .hang
  | fuel+1, curr, last =>
    if curr = 0 then .ok (.missing last)
    else if magicAt m curr ≠ heapMagic then .error (.panic "Heap corruption detected")
    else if freeAt m curr ≠ 0 ∧ sizeAt m curr ≥ req then .ok (.found curr)
    else findFit m req fuel (nextAt m curr) curr

/-- Splits `block` when its size allows it; `next` gives the link of the rest. -/
def splitBlock (m : Mem) (block req : ℕ) (next : Mem → ℕ) : Mem :=
  if sizeAt m block ≥ wrap (req+headerSize+16) then
    let rest := wrap (block+headerSize+req)
    let m := setMagic m rest heapMagic
    let m := setSize m rest (sub32 (sub32 (sizeAt m block) req) headerSize)
    let m := setFree m rest 1
    let m := setNext m rest (next m)
    let m := setSize m block req
    setNext m block rest
  else m

def takeBlock (m : Mem) (block req : ℕ) : Mem :=
  setFree (splitBlock m block req (fun m => nextAt m block)) block 0

/-- The later calls of the growth loop; their results are not looked at. -/
def growPages : ℕ → Heap → Heap
  | 0, h => h
  | n+1, h => growPages n (takeHeapPage h).2

def growHeap (h : Heap) (req last : ℕ) : ℕ × Heap :=
  let pages := pagesFor (wrap (req+headerSize))
  let block := (takeHeapPage h).1
  let h := (takeHeapPage h).2
  if block = 0 then (0, h)
  else
    let h := growPages (pages-1) h
    let m := writeHeader h.mem block (sub32 (pages*pageSize) headerSize) 0 0
    let m := if last = 0 then m else setNext m last block
    (wrap (block+headerSize),
      { h with
        mem := splitBlock m block req (fun _ => 0)
        heapStart := if last = 0 then block else h.heapStart
        heapEndAddr := wrap (block + pages*pageSize) })

/-- No page, no growth. -/
theorem growHeap_null {h : Heap} {req last : ℕ} (hpage : (takeHeapPage h).1 = 0) :
    growHeap h req last = (0, (takeHeapPage h).2) := by
  unfold growHeap
  dsimp only
  rw [if_pos hpage]

theorem growHeap_refused {h : Heap} (halloc : pmmAllocPage h.pmm = (0, h.pmm)) (req last : ℕ) :
    growHeap h req last = (0, h) := by
  have htake : takeHeapPage h = (0, h) := by
    unfold takeHeapPage
    simp [halloc]
  rw [growHeap_null (by rw [htake]), htake]

def kmalloc (h : Heap) (size : ℕ) : Except Fault (ℕ × Heap) :=
  if size = 0 then .ok (0, h)
  else
    (findFit h.mem (alignUp4 size) loopBound h.heapStart 0).map (fun found =>
      match found with
      | .found block =>
        (wrap (block+headerSize), { h with mem := takeBlock h.mem block (alignUp4 size) })
      | .missing last => growHeap h (alignUp4 size) last)

def kfree (h : Heap) (ptr : ℕ) : Except Fault Heap :=
  if ptr = 0 then .ok h
  else
    let block := sub32 ptr headerSize
    if magicAt h.mem block ≠ heapMagic then .error (.panic "Heap corruption detected")
    else heapCoalesce { h with mem := setFree h.mem block 1 }

def krealloc (h : Heap) (ptr newSize : ℕ) : Except Fault (ℕ × Heap) :=
  if ptr = 0 then kmalloc h newSize
  else if newSize = 0 then (kfree h ptr).map (fun h => (0, h))
  else
    let block := sub32 ptr headerSize
    if magicAt h.mem block ≠ heapMagic then .error (.panic "Heap corruption detected")
    else if sizeAt h.mem block ≥ newSize then .ok (ptr, h)
    else
      (kmalloc h newSize).bind (fun r =>
        if r.1 = 0 then .ok (0, r.2)
        else
          (kfree { r.2 with mem := memcpy r.2.mem r.1 ptr (sizeAt r.2.mem block) } ptr).map
            (fun h => (r.1, h)))

def kcalloc (h : Heap) (count size : ℕ) : Except Fault (ℕ × Heap) :=
  let total := wrap (count*size)
  (kmalloc h total).map (fun r =>
    if r.1 = 0 then r else (r.1, { r.2 with mem := memset r.2.mem r.1 0 total }))

/-- The common loop of `heap_get_free` and `heap_get_used`; `sum` is an unsigned 32-bit number. -/
def sumSizes (m : Mem) (counts : ℕ → Bool) : ℕ → ℕ → ℕ → Except Fault ℕ
  | 0, _, _ => .error .hang
  | fuel+1, curr, sum =>
    if curr = 0 then .ok sum
    else
      sumSizes m counts fuel (nextAt m curr)
        (if magicAt m curr = heapMagic ∧ counts (freeAt m curr) = true then
          wrap (sum + sizeAt m curr) else sum)

def heapGetFree (h : Heap) : Except Fault ℕ :=
  sumSizes h.mem (fun free => decide (free ≠ 0)) loopBound h.heapStart 0

def heapGetUsed (h : Heap) : Except Fault ℕ :=
  sumSizes h.mem (fun free => decide (free = 0)) loopBound h.heapStart 0

end Dionnex.KernelHeap
