import Dionnex.FileRanges
import Dionnex.KernelMessages
import Dionnex.ModuleLoader

/-!
# The files under /proc

Their texts are generated at each read into a block of 2048 bytes that
`kmalloc` has returned, with whatever was in it before. All but one are put
together with `strcat`. The log is copied without a NUL, and then measured
with `strlen` like the others.
-/

set_option autoImplicit false

namespace Dionnex.Procfs
open StringBuffers Dionnex.KernelString Dionnex.KernelLog Dionnex.Printk Dionnex.StringAppends
open Dionnex.KernelMessages Dionnex.RamfsVfs Dionnex.FileRanges Dionnex.ModuleLoader

/-! ## The code -/

/-- What the other parts of the kernel answer. Strings and names are no longer than their arrays allow. -/
structure Sources where
  ticks : UInt32
  totalPages : UInt32
  freePages : UInt32
  heapFree : UInt32
  heapUsed : UInt32
  vendor : List UInt8
  brand : List UInt8
  modules : List Module
  pciCount : UInt32
  driveCount : UInt8
  log : Klog
  vendorShort : (cstr vendor).length ≤ 12
  brandShort : (cstr brand).length ≤ 48
  namesShort : ∀ m ∈ modules, (cstr m.name).length ≤ 63

def versionParts : List Part :=
  [.string (chars "Dionnex Monolithic Kernel v0.1.0 (Genesis)\nx86 32-bit Monolithic\nGPLv2\n")]

def uptimeParts (src : Sources) : List Part := [.number (src.ticks/1000) 10, .string (chars " seconds\n")]

/-- A line with a number of kilobytes. -/
def memLine (label : String) (v : UInt32) : List Part :=
  [.string (chars label), .number v 10, .string (chars " KB\n")]

def meminfoParts (src : Sources) : List Part :=
  memLine "MemTotal:  " (src.totalPages*4) ++ memLine "MemFree:   " (src.freePages*4) ++
    memLine "MemUsed:   " ((src.totalPages - src.freePages)*4) ++ memLine "HeapFree:  " (src.heapFree/1024) ++
    memLine "HeapUsed:  " (src.heapUsed/1024)

def cpuinfoParts (src : Sources) : List Part :=
  [.string (chars "Vendor:   "), .string src.vendor, .string (chars "\n"), .string (chars "Model:    "),
    .string src.brand, .string (chars "\n"), .string (chars "Arch:     x86 32-bit\n")]

def devicesParts : List Part :=
  [.string (chars "Character Devices:\n"), .string (chars "  1 tty/vga\n  2 keyboard\n  3 serial/com1\n  4 rtc\n\n"),
    .string (chars "Block Devices:\n"), .string (chars "  1 ata/primary-master\n  2 ata/primary-slave\n")]

def tasksParts : List Part :=
  [.string (chars "PID  NAME             STATE\n"), .string (chars "0    kernel_idle      RUNNING\n")]

def pciParts (src : Sources) : List Part :=
  [.string (chars "PCI Devices Count: "), .number src.pciCount 10, .string (chars "\n")]

def diskParts (src : Sources) : List Part :=
  [.string (chars "ATA Hard Disk Drives: "), .number src.driveCount.toUInt32 10, .string (chars "\n")]

/-- What the loop of `module_get_proc_info` appends for a module. -/
def moduleParts (m : Module) : List Part :=
  [.string m.name, .string (chars " "), .number (UInt32.ofNat m.totalSize) 10, .string (chars " 0 - Live 0x"),
    .number (UInt32.ofNat m.baseAddr) 16, .string (chars "\n")]

/-- The loop; the pair is the buffer and the array for digits. -/
def moduleProcLoop (maxLen : UInt32) (b : Buffer × Buffer) : List Module → Option (Buffer × Buffer)
  | [] => some b
  | m::ms => (strlen b.1).bind (fun len =>
    if len < (maxLen-128).toNat then (appendAll b (moduleParts m)).bind (fun b => moduleProcLoop maxLen b ms)
    else some b)

/-- The length and the buffer afterwards; no buffer is a null pointer. -/
def moduleGetProcInfo (ms : List Module) (buf : Option Buffer) (tmp : Buffer) (maxLen : UInt32) :
    Option (ℕ × Option Buffer) :=
  match buf with
  | none => some (0, none)
  | some buf =>
    if maxLen = 0 then some (0, some buf)
    else (moduleProcLoop maxLen (Function.update buf 0 0, tmp) ms).bind (fun b =>
      (strlen b.1).map (fun len => (len, some b.1)))

/-- The branches on the name; `tmp` is whichever array for digits is used. -/
def generate (src : Sources) (name : List UInt8) (buf tmp : Buffer) (maxLen : UInt32) : Option Buffer :=
  let parts := fun ps => (appendAll (buf, tmp) ps).map Prod.fst
  if strcmp name (chars "version") = 0 then parts versionParts
  else if strcmp name (chars "uptime") = 0 then parts (uptimeParts src)
  else if strcmp name (chars "meminfo") = 0 then parts (meminfoParts src)
  else if strcmp name (chars "cpuinfo") = 0 then parts (cpuinfoParts src)
  else if strcmp name (chars "devices") = 0 then parts devicesParts
  else if strcmp name (chars "modules") = 0 then
    (moduleGetProcInfo src.modules (some buf) tmp maxLen).bind (fun r => r.2)
  else if strcmp name (chars "tasks") = 0 then parts tasksParts
  else if strcmp name (chars "pci") = 0 then parts (pciParts src)
  else if strcmp name (chars "disk") = 0 then parts (diskParts src)
  else if strcmp name (chars "klog") = 0 then (klogReadBytes src.log (some buf) (maxLen-1).toNat).2
  else some buf

/-- The length, which goes through an `int` unchanged, and the buffer afterwards. There is no result where a string
has no end. -/
def procfsGenerateContent (src : Sources) (name : Option (List UInt8)) (buf : Option Buffer) (tmp : Buffer)
    (maxLen : UInt32) : Option (ℕ × Option Buffer) :=
  match name, buf with
  | some name, some buf =>
    if maxLen = 0 then some (0, some buf)
    else (generate src name (Function.update buf 0 0) tmp maxLen).bind (fun buf =>
      (strlen buf).map (fun len => (len, some buf)))
  | _, buf => some (0, buf)

/-- The range of a text of `totalLen` bytes. -/
def readText (bytes : Buffer) (totalLen : ℕ) (offset size : UInt32) : ℤ × List UInt8 :=
  if offset.toNat ≥ totalLen then (0, [])
  else
    let toRead := clipped offset size (UInt32.ofNat totalLen)
    (asInt toRead, (List.range toRead).map (fun k => bytes (offset.toNat+k)))

/-- The node is known by its name; `dynBuf` is the block from `kmalloc`. -/
def procfsVfsRead (src : Sources) (node : Option (List UInt8)) (dynBuf : Option Buffer) (tmp : Buffer) (hasBuf : Bool)
    (offset size : UInt32) : Option (ℤ × List UInt8) :=
  match node, hasBuf, dynBuf with
  | some name, true, some dynBuf =>
    (procfsGenerateContent src (some name) (some dynBuf) tmp 2048).bind (fun r =>
      r.2.map (fun bytes => readText bytes r.1 offset size))
  | _, _, _ => some (-1, [])

/-! ## The texts -/

section Texts

variable {src : Sources} {old buf tmp : Buffer} {s : List UInt8} {ps : List Part} {ms : List Module}

/-- A text in few enough parts fits and is measured. -/
theorem parts_filled (hp : ∀ p ∈ ps, p.Printable) (hsize : (ps.map Part.bound).sum ≤ 2047) :
    ∃ buf, (appendAll (Function.update old 0 0, tmp) ps).map Prod.fst = some buf ∧ Filled old buf (joined ps) ∧
      (joined ps).length ≤ 2047 := by
  have hlen := (joined_length hp).trans hsize
  obtain ⟨b, hb, hfill⟩ := @appendAll_filled _ _ tmp _ _ hp (@filled_empty old) (by rw [List.length_nil]; omega)
  rw [List.nil_append] at hfill
  exact ⟨b.1, by rw [hb, Option.map_some], hfill, hlen⟩

theorem moduleParts_printable (m : Module) : ∀ p ∈ moduleParts m, p.Printable := by
  have hten : (10 : ℤ) ≤ 10 ∧ (10 : ℤ) ≤ 36 := by decide
  have hhex : (10 : ℤ) ≤ 16 ∧ (16 : ℤ) ≤ 36 := by decide
  simp only [moduleParts, List.forall_mem_cons, List.not_mem_nil, false_implies, implies_true, and_true]
  exact ⟨trivial, trivial, hten, trivial, hhex, trivial⟩

/-- A name of 63 bytes, two numbers and 14 more characters. -/
theorem entry_length {m : Module} (h : (cstr m.name).length ≤ 63) : (joined (moduleParts m)).length ≤ 97 := by
  have hlen := joined_length (moduleParts_printable m)
  have hsum : ((moduleParts m).map Part.bound).sum = (cstr m.name).length + 34 := rfl
  omega

/-- Before each entry the text is short enough to take the longest one, and the rest of the list is dropped where it
is not. -/
theorem moduleProcLoop_filled (hnames : ∀ m ∈ ms, (cstr m.name).length ≤ 63) (h : Filled old buf s)
    (hs : s.length ≤ 2016) : ∃ r ms', moduleProcLoop 2048 (buf, tmp) ms = some r ∧ ms' <+: ms ∧
      Filled old r.1 (s ++ ms'.flatMap (fun m => joined (moduleParts m))) ∧
      (s ++ ms'.flatMap (fun m => joined (moduleParts m))).length ≤ 2016 := by
  induction ms generalizing buf tmp s with
  | nil =>
    refine ⟨_, [], rfl, List.nil_prefix, ?_⟩
    rw [List.flatMap_nil, List.append_nil]
    exact ⟨h, hs⟩
  | cons m ms ih =>
    rw [moduleProcLoop, strlen_filled h (by omega), Option.bind_some]
    by_cases hroom : s.length < 1920
    · have hentry := entry_length (hnames m List.mem_cons_self)
      obtain ⟨b, hb, hfill⟩ := @appendAll_filled _ _ tmp _ _ (moduleParts_printable m) h (by omega)
      obtain ⟨r, ms', hr, hpre, hall, hlen⟩ := @ih _ b.2 _ (fun m' hm => hnames m' (List.mem_cons_of_mem m hm)) hfill
        (by rw [List.length_append]; omega)
      refine ⟨r, m::ms', ?_, List.prefix_cons_inj m |>.mpr hpre, ?_⟩
      · rw [if_pos (show s.length < (2048-128 : UInt32).toNat from hroom), hb, Option.bind_some]
        exact hr
      · rw [List.flatMap_cons, ← List.append_assoc]
        exact ⟨hall, hlen⟩
    · refine ⟨_, [], if_neg (show ¬ s.length < (2048-128 : UInt32).toNat from hroom), List.nil_prefix, ?_⟩
      rw [List.flatMap_nil, List.append_nil]
      exact ⟨h, hs⟩

/-- A text that fits, and for the list of modules the entries of its beginning. -/
structure Generated (src : Sources) (name : List UInt8) (old buf : Buffer) (s : List UInt8) : Prop where
  filled : Filled old buf s
  fits : s.length ≤ 2047
  entries : cstr name = chars "modules" → ∃ ms, ms <+: src.modules ∧ s = ms.flatMap (fun m => joined (moduleParts m))

theorem strcmp_chars {name : List UInt8} {lit : String} (h : (0 : UInt8) ∉ chars lit) :
    strcmp name (chars lit) = 0 ↔ cstr name = chars lit := by rw [strcmp_eq_zero, cstr_of_nulFree _ h]

theorem parts_generated {name : List UInt8} {lit : String} (hname : strcmp name (chars lit) = 0)
    (hlit : (0 : UInt8) ∉ chars lit ∧ chars lit ≠ chars "modules") (hp : ∀ p ∈ ps, p.Printable)
    (hsize : (ps.map Part.bound).sum ≤ 2047) :
    ∃ buf s, (appendAll (Function.update old 0 0, tmp) ps).map Prod.fst = some buf ∧ Generated src name old buf s := by
  obtain ⟨buf, hbuf, hfill, hlen⟩ := @parts_filled old tmp _ hp hsize
  refine ⟨buf, _, hbuf, hfill, hlen, fun hm => ?_⟩
  rw [(strcmp_chars hlit.1).mp hname] at hm
  exact absurd hm hlit.2

theorem modules_generated {name : List UInt8} :
    ∃ buf s, (moduleGetProcInfo src.modules (some (Function.update old 0 0)) tmp 2048).bind (fun r => r.2) = some buf ∧
      Generated src name old buf s := by
  obtain ⟨r, ms, hr, hpre, hfill, hlen⟩ := @moduleProcLoop_filled old _ tmp [] _ src.namesShort
    (@filled_empty old) (Nat.zero_le _)
  rw [List.nil_append] at hfill hlen
  refine ⟨r.1, _, ?_, hfill, by omega, fun _ => ⟨ms, hpre, rfl⟩⟩
  have hstrlen := strlen_filled hfill (by omega)
  rw [moduleGetProcInfo, if_neg (by decide), Function.update_idem, hr, Option.bind_some, hstrlen]
  rfl

theorem meminfo_printable : ∀ p ∈ meminfoParts src, p.Printable := by
  simp [meminfoParts, memLine, Part.Printable]

theorem line_bound {a b : List UInt8} {v : UInt32} {base : ℤ} :
    (([.string a, .number v base, .string b] : List Part).map Part.bound).sum = (cstr a).length + (10 + (cstr b).length) :=
  rfl

theorem memLine_bound {label : String} {v : UInt32} (h : (cstr (chars label)).length = 11) :
    ((memLine label v).map Part.bound).sum = 25 := by
  have hunit : (cstr (chars " KB\n")).length = 4 := by decide
  rw [memLine, line_bound, h, hunit]

theorem meminfo_bound : ((meminfoParts src).map Part.bound).sum ≤ 2047 := by
  simp only [meminfoParts, List.map_append, List.sum_append]
  rw [memLine_bound (by decide), memLine_bound (by decide), memLine_bound (by decide), memLine_bound (by decide),
    memLine_bound (by decide)]
  decide

theorem uptime_bound : ((uptimeParts src).map Part.bound).sum ≤ 2047 := by
  have hsum : ((uptimeParts src).map Part.bound).sum = 10 + (cstr (chars " seconds\n")).length := rfl
  exact hsum.trans_le (by decide)

theorem cpuinfo_bound : ((cpuinfoParts src).map Part.bound).sum ≤ 2047 := by
  have hvendor := src.vendorShort
  have hbrand := src.brandShort
  have hsum : ((cpuinfoParts src).map Part.bound).sum = 10 + ((cstr src.vendor).length + (1 + (10 +
    ((cstr src.brand).length + 22)))) := rfl
  omega

theorem generate_generated (src : Sources) {name : List UInt8} (hname : cstr name ≠ chars "klog") (old tmp : Buffer) :
    ∃ buf s, generate src name (Function.update old 0 0) tmp 2048 = some buf ∧ Generated src name old buf s := by
  unfold generate
  dsimp only
  by_cases hversion : strcmp name (chars "version") = 0
  · rw [if_pos hversion]
    exact parts_generated hversion (by decide) (by simp [versionParts, Part.Printable]) (by decide)
  rw [if_neg hversion]
  by_cases huptime : strcmp name (chars "uptime") = 0
  · rw [if_pos huptime]
    exact parts_generated huptime (by decide) (by simp [uptimeParts, Part.Printable]) uptime_bound
  rw [if_neg huptime]
  by_cases hmeminfo : strcmp name (chars "meminfo") = 0
  · rw [if_pos hmeminfo]
    exact parts_generated hmeminfo (by decide) meminfo_printable meminfo_bound
  rw [if_neg hmeminfo]
  by_cases hcpuinfo : strcmp name (chars "cpuinfo") = 0
  · rw [if_pos hcpuinfo]
    exact parts_generated hcpuinfo (by decide) (by simp [cpuinfoParts, Part.Printable]) cpuinfo_bound
  rw [if_neg hcpuinfo]
  by_cases hdevices : strcmp name (chars "devices") = 0
  · rw [if_pos hdevices]
    exact parts_generated hdevices (by decide) (by simp [devicesParts, Part.Printable]) (by decide)
  rw [if_neg hdevices]
  by_cases hmodules : strcmp name (chars "modules") = 0
  · rw [if_pos hmodules]
    exact modules_generated
  rw [if_neg hmodules]
  by_cases htasks : strcmp name (chars "tasks") = 0
  · rw [if_pos htasks]
    exact parts_generated htasks (by decide) (by simp [tasksParts, Part.Printable]) (by decide)
  rw [if_neg htasks]
  by_cases hpci : strcmp name (chars "pci") = 0
  · rw [if_pos hpci]
    exact parts_generated hpci (by decide) (by simp [pciParts, Part.Printable])
      (line_bound.trans_le (by decide))
  rw [if_neg hpci]
  by_cases hdisk : strcmp name (chars "disk") = 0
  · rw [if_pos hdisk]
    exact parts_generated hdisk (by decide) (by simp [diskParts, Part.Printable])
      (line_bound.trans_le (by decide))
  rw [if_neg hdisk, if_neg (fun h => hname ((strcmp_chars (by decide)).mp h))]
  refine ⟨_, [], rfl, filled_empty, Nat.zero_le _, fun hm => absurd ?_ hmodules⟩
  exact (strcmp_chars (by decide)).mpr hm

/-- Every file but the log is a string that fits in the block, and its length is the answer. -/
theorem procfs_texts (src : Sources) {name : List UInt8} (hname : cstr name ≠ chars "klog") (old tmp : Buffer) :
    ∃ buf s, procfsGenerateContent src (some name) (some old) tmp 2048 = some (s.length, some buf) ∧
      Generated src name old buf s := by
  obtain ⟨buf, s, hgen, h⟩ := generate_generated src hname old tmp
  have hlen := h.fits
  refine ⟨buf, s, ?_, h⟩
  rw [procfsGenerateContent, if_neg (by decide), hgen, Option.bind_some, strlen_filled h.filled (by omega),
    Option.map_some]

/-- A module with a name of 63 bytes, and a log that nothing was written to. -/
def sampleSources : Sources where
  ticks := 4294967295
  totalPages := 0
  freePages := 1
  heapFree := 0
  heapUsed := 4294967295
  vendor := List.replicate 12 65
  brand := List.replicate 48 66
  modules := [⟨4096, List.replicate 63 109 ++ [0], 1, 1, 8192, 4294967295, 0, 0⟩]
  pciCount := 7
  driveCount := 4
  log := Klog.zero
  vendorShort := by decide
  brandShort := by decide +kernel
  namesShort := by decide +kernel

theorem procfs_texts_sample : ∃ buf s,
    procfsGenerateContent sampleSources (some (chars "modules")) (some fun _ => 255) (fun _ => 255) 2048 =
      some (s.length, some buf) ∧ Generated sampleSources (chars "modules") (fun _ => 255) buf s :=
  procfs_texts sampleSources (by decide) _ _

/-- For these files the reads are those of a text with the length that `strlen` finds. -/
theorem read_text (src : Sources) {name : List UInt8} (hname : cstr name ≠ chars "klog") (old tmp : Buffer)
    (offset size : UInt32) : ∃ text : ProcText, text.totalLen ≤ 2047 ∧
      procfsVfsRead src (some name) (some old) tmp true offset size =
        some (FileRanges.procfsVfsRead (some text) true offset size) := by
  obtain ⟨buf, s, hgen, h⟩ := generate_generated src hname old tmp
  have hlen := h.fits
  refine ⟨⟨buf, s.length, by omega⟩, hlen, ?_⟩
  rw [procfsVfsRead, procfsGenerateContent, if_neg (by decide), hgen, Option.bind_some,
    strlen_filled h.filled (by omega)]
  rfl

end Texts

/-! ## Reading the log -/

/-- Behind `n` bytes of the log there is a NUL at `q`: one that was in the block before, or the one that the empty
text begins with. -/
def Ends (old : Buffer) (n q : ℕ) : Prop := n ≤ q ∧ (old q = 0 ∨ n = 0 ∧ q = 0)

instance (old : Buffer) (n q : ℕ) : Decidable (Ends old n q) := inferInstanceAs (Decidable (_ ∧ _))

/-- The block ends the text where it has to: there is a NUL at all, and the range is empty, or lies behind a NUL, or
in the bytes of the log, or starts in them and a NUL is next to them. -/
def Bounded (old : Buffer) (n : ℕ) (offset size : UInt32) : Prop :=
  (∃ q < 4294967296, Ends old n q) ∧
    (size = 0 ∨ (∃ q ≤ offset.toNat, Ends old n q) ∨ offset.toNat < n ∧
      (offset.toNat + size.toNat ≤ n ∨ Ends old n n ∧ offset.toNat + size.toNat < 4294967296))

section Log

variable {bytes old tmp : Buffer} {n len : ℕ} {offset size : UInt32} {w : List UInt8}

/-- The bytes of the log in the block, and what was there before behind them. -/
def logBlock (old : Buffer) (w : List UInt8) : Buffer := fun j => w.getD j (Function.update old 0 0 j)

theorem logBlock_zero (hw : (0 : UInt8) ∉ w) (q : ℕ) : logBlock old w q = 0 ↔ Ends old w.length q := by
  unfold logBlock Ends
  by_cases hq : q < w.length
  · rw [List.getD_eq_getElem _ _ hq]
    refine iff_of_false (fun h0 => hw ?_) (fun h => by omega)
    rw [← h0]
    exact List.getElem_mem hq
  · rw [List.getD_eq_default _ _ (by omega)]
    by_cases h0 : q = 0
    · subst h0
      rw [Function.update_self]
      exact iff_of_true rfl ⟨by omega, Or.inr ⟨by omega, rfl⟩⟩
    · rw [Function.update_of_ne h0]
      constructor
      · exact fun h => ⟨by omega, Or.inl h⟩
      · rintro ⟨-, h | ⟨-, h⟩⟩
        · exact h
        · exact absurd h h0

/-- The length that is found: up to the first NUL behind the log. -/
theorem strlen_logBlock (hw : (0 : UInt8) ∉ w) : strlen (logBlock old w) = some len ↔
    len < 4294967296 ∧ Ends old w.length len ∧ ∀ i < len, ¬ Ends old w.length i := by
  rw [strlen, scan_some, Nat.zero_add, logBlock_zero hw]
  simp only [Nat.zero_add, ne_eq, logBlock_zero hw]

/-- A range of the text is the range of its first `n` bytes, if it does not touch the others. -/
theorem readText_exact (hn : n ≤ len) (hlen : len < 4294967296) (hn' : n < 2147483648)
    (hbytes : ∀ k < n, bytes k = w.getD k 0) :
    ReadsExactly n (fun k => w.getD k 0) offset size (readText bytes len offset size) ↔
      size = 0 ∨ len ≤ offset.toNat ∨ offset.toNat < n ∧
        (offset.toNat + size.toNat ≤ n ∨ len = n ∧ offset.toNat + size.toNat < 4294967296) := by
  have hzero : size = 0 ↔ size.toNat = 0 := ⟨fun h => by rw [h]; rfl, fun h => UInt32.toNat_inj.mp h⟩
  have hcopy : ∀ k, offset.toNat + k ≤ n →
      (List.range k).map (fun j => bytes (offset.toNat+j)) = (List.range k).map (fun j => w.getD (offset.toNat+j) 0) :=
    fun k hk => List.map_congr_left (fun j hj => hbytes _ (by have := List.mem_range.mp hj; omega))
  have hint : ∀ k < 2147483648, asInt k = (k : ℤ) := fun k hk => if_pos hk
  unfold ReadsExactly readText
  by_cases hend : len ≤ offset.toNat
  · rw [if_pos hend, if_pos (by omega)]
    exact iff_of_true rfl (Or.inr (Or.inl hend))
  rw [if_neg (show ¬ offset.toNat ≥ len from hend)]
  dsimp only
  -- The number of bytes that are copied, with and without a wrap.
  obtain ⟨k, hk, hcases⟩ : ∃ k, clipped offset size (UInt32.ofNat len) = k ∧
      (offset.toNat + size.toNat < 4294967296 ∧ k = min size.toNat (len - offset.toNat) ∨
        4294967296 ≤ offset.toNat + size.toNat ∧ k = size.toNat) := by
    by_cases hsum : offset.toNat + size.toNat < 4294967296
    · exact ⟨_, clipped_room hlen (by omega) hsum, Or.inl ⟨hsum, rfl⟩⟩
    · exact ⟨_, clipped_wrapped hlen (by omega) (by omega), Or.inr ⟨by omega, rfl⟩⟩
  have hsize := size.toNat_lt
  rw [hk, hzero]
  by_cases hstart : n ≤ offset.toNat
  · rw [if_pos hstart]
    constructor
    · intro he
      have hcount := congrArg (fun r => r.2.length) he
      simp only [List.length_map, List.length_range, List.length_nil] at hcount
      omega
    · intro hc
      have hk0 : k = 0 := by omega
      rw [hk0]
      rfl
  · rw [if_neg hstart]
    have hroom : room offset size n = min size.toNat (n - offset.toNat) := rfl
    constructor
    · intro he
      have hcount := congrArg (fun r => r.2.length) he
      simp only [List.length_map, List.length_range] at hcount
      omega
    · intro hc
      have hk' : k = room offset size n := by omega
      rw [hk', hint _ (by omega), hcopy _ (by omega)]

/-- What is read of the log does not depend on the block exactly if the block ends the text well enough. -/
theorem readText_logBlock (hw : (0 : UInt8) ∉ w) (hn : w.length < 2147483648) :
    (∃ len, strlen (logBlock old w) = some len ∧
        ReadsExactly w.length (fun k => w.getD k 0) offset size (readText (logBlock old w) len offset size)) ↔
      Bounded old w.length offset size := by
  have hbytes : ∀ k < w.length, logBlock old w k = w.getD k 0 := by
    intro k hk
    rw [logBlock, List.getD_eq_getElem _ _ hk, List.getD_eq_getElem _ _ hk]
  constructor
  · rintro ⟨len, hlen, hread⟩
    obtain ⟨hlt, hend, -⟩ := (strlen_logBlock hw).mp hlen
    refine ⟨⟨len, hlt, hend⟩, ?_⟩
    rcases (readText_exact hend.1 hlt hn hbytes).mp hread with h0 | hle | ⟨hstart, hfit | ⟨heq, hsum⟩⟩
    · exact Or.inl h0
    · exact Or.inr (Or.inl ⟨len, hle, hend⟩)
    · exact Or.inr (Or.inr ⟨hstart, Or.inl hfit⟩)
    · exact Or.inr (Or.inr ⟨hstart, Or.inr ⟨heq ▸ hend, hsum⟩⟩)
  · rintro ⟨⟨q, hq, hend⟩, hrange⟩
    have hex : ∃ q, Ends old w.length q := ⟨q, hend⟩
    have hfound := Nat.find_spec hex
    have hfirst : ∀ q, Ends old w.length q → Nat.find hex ≤ q := fun q hq => Nat.find_min' hex hq
    have hlt : Nat.find hex < 4294967296 := lt_of_le_of_lt (hfirst q hend) hq
    refine ⟨Nat.find hex, (strlen_logBlock hw).mpr ⟨hlt, hfound, fun i hi => Nat.find_min hex hi⟩, ?_⟩
    refine (readText_exact hfound.1 hlt hn hbytes).mpr ?_
    rcases hrange with h0 | ⟨q, hle, hq⟩ | ⟨hstart, hfit | ⟨hnext, hsum⟩⟩
    · exact Or.inl h0
    · exact Or.inr (Or.inl ((hfirst q hq).trans hle))
    · exact Or.inr (Or.inr ⟨hstart, Or.inl hfit⟩)
    · exact Or.inr (Or.inr ⟨hstart, Or.inr ⟨Nat.le_antisymm (hfirst _ hnext) hfound.1, hsum⟩⟩)

/-- The characters of the log that fit in the block. -/
def logText (calls : List LogCall) : List UInt8 := (window (calls.flatMap LogCall.events)).take 2047

theorem logText_nulFree (calls : List LogCall) : (0 : UInt8) ∉ logText calls :=
  fun h => history_nulFree calls (List.mem_of_mem_drop (List.mem_of_mem_take h))

theorem logText_length (calls : List LogCall) : (logText calls).length = min (klogGetCount (logAfter calls)) 2047 := by
  rw [logAfter_execute, (log_window _).1, logText, List.length_take, Nat.min_comm]

theorem procfsVfsRead_klog (src : Sources) (calls : List LogCall) (old tmp : Buffer) (offset size : UInt32) :
    procfsVfsRead { src with log := logAfter calls } (some (chars "klog")) (some old) tmp true offset size =
      (strlen (logBlock old (logText calls))).map (fun len =>
        readText (logBlock old (logText calls)) len offset size) := by
  have hgen : generate { src with log := logAfter calls } (chars "klog") (Function.update old 0 0) tmp 2048 =
      some (logBlock old (logText calls)) := by
    obtain ⟨buf, hread, hbuf⟩ := (log_window (calls.flatMap LogCall.events)).2.2.2 (Function.update old 0 0) 2047
    have hblock : buf = logBlock old (logText calls) := funext hbuf
    unfold generate
    dsimp only
    rw [if_neg (by decide), if_neg (by decide), if_neg (by decide), if_neg (by decide), if_neg (by decide),
      if_neg (by decide), if_neg (by decide), if_neg (by decide), if_neg (by decide), if_pos (by decide),
      logAfter_execute, show ((2048 : UInt32) - 1).toNat = 2047 from rfl, hread, hblock]
  rw [procfsVfsRead, procfsGenerateContent, if_neg (by decide), hgen, Option.bind_some]
  cases strlen (logBlock old (logText calls)) with
  | none => rfl
  | some len => rfl

theorem exists_map_some {α β : Type} {o : Option α} {f : α → β} {P : β → Prop} :
    (∃ r, o.map f = some r ∧ P r) ↔ ∃ a, o = some a ∧ P (f a) := by
  constructor
  · rintro ⟨r, hr, h⟩
    obtain ⟨a, ha, rfl⟩ := Option.map_eq_some_iff.mp hr
    exact ⟨a, ha, h⟩
  · rintro ⟨a, ha, h⟩
    exact ⟨f a, by rw [ha, Option.map_some], h⟩

/-- A read of the log gives its first 2047 characters, clipped to the range, exactly when the block that the text is
generated into ends it well enough. -/
theorem klog_read_iff (src : Sources) (calls : List LogCall) (old tmp : Buffer) (offset size : UInt32) :
    (∃ r, procfsVfsRead { src with log := logAfter calls } (some (chars "klog")) (some old) tmp true offset size =
        some r ∧
      ReadsExactly (min (klogGetCount (logAfter calls)) 2047) (fun k => (logText calls).getD k 0) offset size r) ↔
      Bounded old (min (klogGetCount (logAfter calls)) 2047) offset size := by
  have hlen := logText_length calls
  rw [procfsVfsRead_klog, ← hlen, exists_map_some]
  exact readText_logBlock (logText_nulFree calls) (by omega)

/-- Two characters in the log, in a block that was full of another byte up to index 9: the read gives ten. -/
theorem klog_read_leftover : ¬ ∃ r,
    procfsVfsRead { sampleSources with log := logAfter [.message [104, 105]] } (some (chars "klog"))
        (some fun i => if i < 10 then 170 else 0) (fun _ => 0) true 0 2048 = some r ∧
      ReadsExactly (min (klogGetCount (logAfter [.message [104, 105]])) 2047)
        (fun k => (logText [.message [104, 105]]).getD k 0) 0 2048 r := by
  have hlog : logText [.message [104, 105]] = [104, 105] := by decide
  rw [procfsVfsRead_klog, ← logText_length, exists_map_some,
    readText_logBlock (logText_nulFree _) (by rw [hlog]; decide), hlog]
  rintro ⟨-, h0 | ⟨q, hq, hend⟩ | ⟨-, hfit | ⟨hnext, -⟩⟩⟩
  · exact absurd h0 (by decide)
  · obtain rfl : q = 0 := Nat.le_zero.mp hq
    exact absurd hend (by decide)
  · exact absurd hfit (by decide)
  · exact absurd hnext (by decide)

end Log

end Dionnex.Procfs
