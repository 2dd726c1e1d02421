import Dionnex.KernelHeap
import Dionnex.KernelString

/-!
# Linking a relocatable module

A module is an ELF image whose headers the loader completes in place: the
addresses of the sections it copies to the block at `base`, then the values of
the symbols. The image is memory of its own, given relative to its first byte,
and the loader looks at no size. The counts are read again wherever the code
reads them again, since a store to the image can change them.
-/

set_option autoImplicit false

namespace Dionnex.ModuleImage
open ByteMemory Dionnex.KernelHeap Dionnex.KernelString

def etRel : ℕ := 1

def shtSymtab : ℕ := 2
def shtNobits : ℕ := 8
def shtRel : ℕ := 9

def shnUndef : ℕ := 0

def shfAlloc : ℕ := 2

def r386_32 : ℕ := 1
def r386_pc32 : ℕ := 2
def r386_16 : ℕ := 4
def r386_8 : ℕ := 5

/-- `sizeof(elf32_ehdr)`. -/
def ehdrSize : ℕ := 52

def eType (d : Mem) : ℕ := load16 d 16

def eShoff (d : Mem) : ℕ := load32 d 32

def eShnum (d : Mem) : ℕ := load16 d 48

/-! Fields of the section header `i` of the table at `shdrs`. -/

def shType (d : Mem) (shdrs i : ℕ) : ℕ := load32 d (shdrs+40*i+4)

def shFlags (d : Mem) (shdrs i : ℕ) : ℕ := load32 d (shdrs+40*i+8)

def shAddr (d : Mem) (shdrs i : ℕ) : ℕ := load32 d (shdrs+40*i+12)

def shOffset (d : Mem) (shdrs i : ℕ) : ℕ := load32 d (shdrs+40*i+16)

def shSize (d : Mem) (shdrs i : ℕ) : ℕ := load32 d (shdrs+40*i+20)

def shLink (d : Mem) (shdrs i : ℕ) : ℕ := load32 d (shdrs+40*i+24)

def shInfo (d : Mem) (shdrs i : ℕ) : ℕ := load32 d (shdrs+40*i+28)

def setShAddr (d : Mem) (shdrs i v : ℕ) : Mem := store32 d (shdrs+40*i+12) v

/-! Fields of the symbol `i` of the table at `syms`. -/

def stName (d : Mem) (syms i : ℕ) : ℕ := load32 d (syms+16*i)

def stValue (d : Mem) (syms i : ℕ) : ℕ := load32 d (syms+16*i+4)

def stShndx (d : Mem) (syms i : ℕ) : ℕ := load16 d (syms+16*i+14)

def setStValue (d : Mem) (syms i v : ℕ) : Mem := store32 d (syms+16*i+4) v

/-! Fields of the relocation entry `r` of the table at `rels`. -/

def rOffset (d : Mem) (rels r : ℕ) : ℕ := load32 d (rels+8*r)

def rInfo (d : Mem) (rels r : ℕ) : ℕ := load32 d (rels+8*r+4)

/-- `ELF32_R_SYM` -/
def rSym (info : ℕ) : ℕ := info / 256

/-- `ELF32_R_TYPE` -/
def rType (info : ℕ) : ℕ := info % 256

/-- `none` is a null pointer; the result is that of the comparison with 0. -/
def moduleValidateElf (data : Option Mem) (size : ℕ) : Bool :=
  match data with
  | none => false
  | some d =>
    if size < ehdrSize then false
    else if load8 d 0 ≠ 0x7F ∨ load8 d 1 ≠ 0x45 ∨ load8 d 2 ≠ 0x4C ∨ load8 d 3 ≠ 0x46 then false
    else if load8 d 4 ≠ 1 ∨ load8 d 5 ≠ 1 then false
    else if eType d ≠ etRel then false
    else if eShoff d = 0 ∨ eShnum d = 0 then false
    else true

/-- The sections from `i` on, `n` of them. -/
def calcSizeFrom (d : Mem) (shdrs total i : ℕ) : ℕ → ℕ
  | 0 => total
  | n+1 =>
    if shFlags d shdrs i &&& shfAlloc ≠ 0 then
      calcSizeFrom d shdrs (wrap (total + alignUp4 (shSize d shdrs i))) (i+1) n
    else calcSizeFrom d shdrs total (i+1) n

def moduleCalcSize (d : Mem) : ℕ := calcSizeFrom d (eShoff d) 0 0 (eShnum d)

/-- The size that is asked for. -/
def blockSize (d : Mem) : ℕ := if moduleCalcSize d = 0 then 1024 else moduleCalcSize d

/-! ## Sections -/

/-- From the image to kernel memory, byte by byte, upwards. -/
def copyIn (m : Mem) (dest : ℕ) (d : Mem) (offset : ℕ) : ℕ → Mem
  | 0 => m
  | n+1 => copyIn (store8 m dest (load8 d offset)) (dest+1) d (offset+1) n

/-- Kernel memory and the image. -/
def copySection (m d : Mem) (shdrs base offset i : ℕ) : Mem × Mem :=
  let d := setShAddr d shdrs i (base+offset)
  if shType d shdrs i = shtNobits then (memset m (base+offset) 0 (shSize d shdrs i), d)
  else if 0 < shSize d shdrs i then
    (copyIn m (base+offset) d (shOffset d shdrs i) (shSize d shdrs i), d)
  else (m, d)

/-- A 16-bit count has no more sections. -/
def sectionLimit : ℕ := 65535

def copySections (m d : Mem) (shdrs base offset i : ℕ) : ℕ → Mem × Mem
  | 0 => (m, d)
  | n+1 =>
    if i < eShnum d then
      if shFlags d shdrs i &&& shfAlloc ≠ 0 then
        let r := copySection m d shdrs base offset i
        copySections r.1 r.2 shdrs base (wrap (offset + alignUp4 (shSize r.2 shdrs i))) (i+1) n
      else copySections m d shdrs base offset (i+1) n
    else (m, d)

/-! ## Symbols -/

def findSymtab (d : Mem) (shdrs i : ℕ) : ℕ → Option ℕ
  | 0 => none
  | n+1 => if shType d shdrs i = shtSymtab then some i else findSymtab d shdrs (i+1) n

structure Tables where
  syms : ℕ
  strtab : ℕ
  symCount : ℕ
  deriving DecidableEq, Repr

def symbolTables (d : Mem) (shdrs : ℕ) : Option Tables :=
  match findSymtab d shdrs 0 (eShnum d) with
  | none => none
  | some i =>
    if eShnum d ≤ shLink d shdrs i then none
    else some ⟨shOffset d shdrs i, shOffset d shdrs (shLink d shdrs i), shSize d shdrs i / 16⟩

/-- The first pass over the symbols. -/
def updateSymbols (d : Mem) (shdrs syms i : ℕ) : ℕ → Mem
  | 0 => d
  | n+1 =>
    if stShndx d syms i ≠ shnUndef ∧ stShndx d syms i < eShnum d then
      updateSymbols (setStValue d syms i (shAddr d shdrs (stShndx d syms i) + stValue d syms i)) shdrs syms (i+1) n
    else updateSymbols d shdrs syms (i+1) n

/-- As many bytes of the string at an offset as a comparison with `s` can reach. -/
def stringFor (d : Mem) (offset : ℕ) (s : List UInt8) : List UInt8 :=
  (List.range (s.length+1)).map (fun i => d (wrap (offset+i)))

def NameIs (d : Mem) (offset : ℕ) (s : List UInt8) : Prop := strcmp (stringFor d offset s) s = 0

instance (d : Mem) (offset : ℕ) (s : List UInt8) : Decidable (NameIs d offset s) :=
  inferInstanceAs (Decidable (_ = _))

/-- The names that the kernel exports, in the order of the table. -/
def kernelSymbolNames : List String :=
  ["printk", "klog", "klog_dump", "kmalloc", "kfree", "krealloc", "kcalloc", "pmm_alloc_page", "pmm_free_page",
    "pmm_get_free_count", "pmm_get_total_count", "vmm_map_page", "vmm_unmap_page", "vmm_get_phys", "memset",
    "memcpy", "memmove", "memcmp", "strlen", "strcpy", "strncpy", "strcmp", "strncmp", "strcat", "strchr", "strstr",
    "itoa", "utoa", "atoi", "vga_clear", "vga_putchar", "vga_write", "vga_set_color", "vga_write_hex",
    "vga_write_dec", "serial_write", "serial_putchar", "vfs_open", "vfs_read", "vfs_write", "vfs_list", "vfs_mount",
    "timer_get_ticks", "timer_sleep", "process_get_current", "process_get_by_pid", "process_get_count",
    "pci_get_device", "pci_get_class", "pci_get_count", "pci_config_read32", "pci_config_write32",
    "cpuid_print_info", "apic_eoi", "module_load_binary", "module_unload_binary", "module_list_loaded",
    "kernel_panic"]

/-- The table; the addresses are the linker's. -/
def kernelSymbols (address : String → ℕ) : List (List UInt8 × ℕ) :=
  kernelSymbolNames.map (fun s => (s.toList.map (fun c => UInt8.ofNat c.toNat), address s))

def moduleResolveSymbol (symbols : List (List UInt8 × ℕ)) (d : Mem) (name : ℕ) : Option ℕ :=
  (symbols.find? (fun s => NameIs d name s.1)).map Prod.snd

/-- The second pass; it stops at a name that is not exported. -/
def resolveSymbols (symbols : List (List UInt8 × ℕ)) (d : Mem) (t : Tables) (i : ℕ) : ℕ → Bool × Mem
  | 0 => (true, d)
  | n+1 =>
    if stShndx d t.syms i = shnUndef ∧ stName d t.syms i ≠ 0 then
      match moduleResolveSymbol symbols d (t.strtab + stName d t.syms i) with
      | none => (false, d)
      | some a => resolveSymbols symbols (setStValue d t.syms i a) t (i+1) n
    else resolveSymbols symbols d t (i+1) n

/-! ## Relocations -/

/-- An addition to the word, half word or byte at `loc`. -/
inductive Patch where
  | add32 (loc v : ℕ)
  | add16 (loc v : ℕ)
  | add8 (loc v : ℕ)
  deriving DecidableEq, Repr

def Patch.apply (m : Mem) : Patch → Mem
  | .add32 loc v => store32 m loc (load32 m loc + v)
  | .add16 loc v => store16 m loc (load16 m loc + v)
  | .add8 loc v => store8 m loc (load8 m loc + v)

/-- The switch over the types; `none` is its default. -/
def switchPatch (type s p : ℕ) : Option Patch :=
  if type = r386_32 then some (.add32 p s)
  else if type = r386_pc32 then some (.add32 p (sub32 s p))
  else if type = r386_16 then some (.add16 p (s % 65536))
  else if type = r386_8 then some (.add8 p (s % 256))
  else none

/-- What the loop does for an entry; `none` is nothing. -/
def entryPatch (d : Mem) (t : Tables) (targetBase rels r : ℕ) : Option Patch :=
  let symIdx := rSym (rInfo d rels r)
  if t.symCount ≤ symIdx then none
  else switchPatch (rType (rInfo d rels r)) (stValue d t.syms symIdx) (wrap (targetBase + rOffset d rels r))

/-- Entry `entry` of section `index` and what was done for it. -/
structure Visit where
  index : ℕ
  entry : ℕ
  patch : Option Patch
  deriving DecidableEq, Repr

/-- The entries from `r` on of section `index`, with the record of them. -/
def applyEntries (m d : Mem) (t : Tables) (targetBase rels index r : ℕ) : ℕ → Mem × List Visit
  | 0 => (m, [])
  | n+1 =>
    let patch := entryPatch d t targetBase rels r
    let rest := applyEntries (patch.elim m (Patch.apply m)) d t targetBase rels index (r+1) n
    (rest.1, ⟨index, r, patch⟩ :: rest.2)

/-- The sections from `i` on. -/
def applySections (m d : Mem) (shdrs : ℕ) (t : Tables) (i : ℕ) : ℕ → Mem × List Visit
  | 0 => (m, [])
  | n+1 =>
    if shType d shdrs i = shtRel ∧ shInfo d shdrs i < eShnum d then
      let r := applyEntries m d t (shAddr d shdrs (shInfo d shdrs i)) (shOffset d shdrs i) i 0 (shSize d shdrs i / 8)
      let rest := applySections r.1 d shdrs t (i+1) n
      (rest.1, r.2 ++ rest.2)
    else applySections m d shdrs t (i+1) n

/-! ## The functions of the module -/

/-- `module_init` -/
def moduleInitName : List UInt8 := [109, 111, 100, 117, 108, 101, 95, 105, 110, 105, 116]

/-- `module_cleanup` -/
def moduleCleanupName : List UInt8 := [109, 111, 100, 117, 108, 101, 95, 99, 108, 101, 97, 110, 117, 112]

/-- The last symbol of each name counts. -/
def findFunctions (d : Mem) (t : Tables) (init cleanup i : ℕ) : ℕ → ℕ × ℕ
  | 0 => (init, cleanup)
  | n+1 =>
    if stName d t.syms i ≠ 0 then
      if NameIs d (t.strtab + stName d t.syms i) moduleInitName then
        findFunctions d t (stValue d t.syms i) cleanup (i+1) n
      else if NameIs d (t.strtab + stName d t.syms i) moduleCleanupName then
        findFunctions d t init (stValue d t.syms i) (i+1) n
      else findFunctions d t init cleanup (i+1) n
    else findFunctions d t init cleanup (i+1) n

/-- Kernel memory and the image when linking ends, the tables that were found, the record of the relocations,
and the two functions. -/
structure Linking where
  mem : Mem
  image : Mem
  tables : Option Tables
  visits : List Visit
  functions : Option (ℕ × ℕ)

/-- From the cleared block to the functions; `none` of them is a module that is given up. -/
def linkModule (symbols : List (List UInt8 × ℕ)) (m d : Mem) (base : ℕ) : Linking :=
  let shdrs := eShoff d
  let copied := copySections m d shdrs base 0 0 sectionLimit
  match symbolTables copied.2 shdrs with
  | none => ⟨copied.1, copied.2, none, [], none⟩
  | some t =>
    let resolved := resolveSymbols symbols (updateSymbols copied.2 shdrs t.syms 0 t.symCount) t 0 t.symCount
    let d := resolved.2
    if resolved.1 = false then ⟨copied.1, d, some t, [], none⟩
    else
      let applied := applySections copied.1 d shdrs t 0 (eShnum d)
      let functions := findFunctions d t 0 0 0 t.symCount
      ⟨applied.1, d, some t, applied.2, if functions.1 = 0 then none else some functions⟩

end Dionnex.ModuleImage
