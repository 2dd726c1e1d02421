import Dionnex.LinkedChain
import Dionnex.PciConfig

/-!
# The list of PCI devices

`pci_scan` asks every function of every slot for its vendor and links a
record for each one that answers. It leaves a slot after function 0 when
that is the only one; when function 0 is missing, or there was no memory for
its record, the others are asked all the same.
-/

set_option autoImplicit false

namespace Dionnex.PciScan
open PortDevices LinkedChain Dionnex.PciConfig

/-- `pci_device_t` without its link. -/
structure PciDevice where
  bus : BitVec 8
  slot : BitVec 8
  func : BitVec 8
  vendorId : BitVec 16
  deviceId : BitVec 16
  classCode : BitVec 16
  subclass : BitVec 16
  bar : List (BitVec 32)
  irqLine : BitVec 8
  deriving DecidableEq, Repr

/-- The driver's variables and its records in memory, with the machine behind the ports. -/
structure Pci (σ : Type*) where
  dev : σ
  record : ℕ → PciDevice
  next : ℕ → ℕ
  deviceList : ℕ
  deviceCount : ℕ

/-- `last_dev` is a variable of `pci_scan`. -/
structure Scan (σ : Type*) extends Pci σ where
  lastDev : ℕ

section Driver

variable {σ : Type*} (io : Bus σ) (kmalloc : Fn → ℕ)

/-- The loop over the six base addresses. -/
def readBars (bus slot func : BitVec 8) : List ℕ → σ → List (BitVec 32) × σ :=
  performAll (fun b => pciConfigRead32 io bus slot func (BitVec.ofNat 8 (0x10 + b*4)))

/-- The end of the body for a device: the record is filled in and put behind the last one. -/
def link (dev : ℕ) (d : PciDevice) (s : Scan σ) : Scan σ :=
  { s with
    record := Function.update s.record dev d
    next := if s.lastDev ≠ 0 then Function.update (Function.update s.next dev 0) s.lastDev dev
      else Function.update s.next dev 0
    deviceList := if s.lastDev ≠ 0 then s.deviceList else dev
    lastDev := dev
    deviceCount := s.deviceCount + 1 }

/-- One round of the loop over functions; `true` is its `break`. `kmalloc` answers the request made for a function. -/
def probe (bus slot func : ℕ) (s : Scan σ) : Bool × Scan σ :=
  let b := BitVec.ofNat 8 bus
  let sl := BitVec.ofNat 8 slot
  let fn := BitVec.ofNat 8 func
  let vendor := pciConfigRead16 io b sl fn 0x00 s.dev
  if vendor.1 = 0xFFFF then (false, { s with dev := vendor.2 })
  else
    let device := pciConfigRead16 io b sl fn 0x02 vendor.2
    let classCode := pciConfigRead8 io b sl fn 0x0B device.2
    let subclass := pciConfigRead8 io b sl fn 0x0A classCode.2
    let irqLine := pciConfigRead8 io b sl fn 0x3C subclass.2
    let dev := kmalloc ⟨b, BitVec.ofNat 5 slot, BitVec.ofNat 3 func⟩
    if dev = 0 then (false, { s with dev := irqLine.2 })
    else
      let bars := readBars io b sl fn (List.range 6) irqLine.2
      let d : PciDevice := ⟨b, sl, fn, vendor.1, device.1, classCode.1.setWidth 16, subclass.1.setWidth 16, bars.1, irqLine.1⟩
      let headerType := pciConfigRead8 io b sl 0 0x0E bars.2
      (decide (func = 0 ∧ headerType.1 &&& 0x80 = 0), { link dev d s with dev := headerType.2 })

def scanFuncs (bus slot : ℕ) : List ℕ → Scan σ → Scan σ
  | [], s => s
  | func::fs, s =>
    let r := probe io kmalloc bus slot func s
    if r.1 then r.2 else scanFuncs bus slot fs r.2

def pciScan (p : Pci σ) : Pci σ :=
  let s : Scan σ := { p with deviceCount := 0, deviceList := 0, lastDev := 0 }
  ((List.range 256).foldl (fun s bus =>
    (List.range 32).foldl (fun s slot => scanFuncs io kmalloc bus slot (List.range 8) s) s) s).toPci

/-- More steps than there are addresses. -/
def walkBound : ℕ := 4294967297

def pciGetDevice (p : Pci σ) (vendor device : BitVec 16) : Option ℕ :=
  search p.next (fun curr => (p.record curr).vendorId = vendor ∧ (p.record curr).deviceId = device) walkBound p.deviceList

def pciGetClass (p : Pci σ) (classCode subclass : BitVec 8) : Option ℕ :=
  search p.next (fun curr => (p.record curr).classCode = classCode.setWidth 16 ∧
    (p.record curr).subclass = subclass.setWidth 16) walkBound p.deviceList

end Driver

/-! ## What is listed -/

section Listing

variable (c : Space) (kmalloc : Fn → ℕ)

def recordOf (f : Fn) : PciDevice where
  bus := f.bus
  slot := f.slot.setWidth 8
  func := f.func.setWidth 8
  vendorId := peek16 c f 0x00
  deviceId := peek16 c f 0x02
  classCode := (peek8 c f 0x0B).setWidth 16
  subclass := (peek8 c f 0x0A).setWidth 16
  bar := (List.range 6).map (fun b => peek32 c f (BitVec.ofNat 8 (0x10 + b*4)))
  irqLine := peek8 c f 0x3C

/-- The function answers and gets a record. -/
def Recorded (f : Fn) : Prop := peek16 c f 0x00 ≠ 0xFFFF ∧ kmalloc f ≠ 0

/-- Function 0 says that it is the only one of its slot. -/
def Single (f : Fn) : Prop := peek8 c { f with func := 0 } 0x0E &&& 0x80 = 0

/-- The functions of the list. -/
def Listed (f : Fn) : Prop :=
  Recorded c kmalloc f ∧ (f.func = 0 ∨ ¬ (Recorded c kmalloc { f with func := 0 } ∧ Single c f))

/-- The order of the scan. -/
def Before (f g : Fn) : Prop :=
  f.bus.toNat < g.bus.toNat ∨ f.bus = g.bus ∧ (f.slot.toNat < g.slot.toNat ∨
    f.slot = g.slot ∧ f.func.toNat < g.func.toNat)

instance (f : Fn) : Decidable (Recorded c kmalloc f) := inferInstanceAs (Decidable (_ ∧ _))

instance (f : Fn) : Decidable (Single c f) := inferInstanceAs (Decidable (_ = _))

instance (f : Fn) : Decidable (Listed c kmalloc f) := inferInstanceAs (Decidable (_ ∧ _))

/-- The function of a round. -/
def fnOf (bus slot func : ℕ) : Fn := ⟨BitVec.ofNat 8 bus, BitVec.ofNat 5 slot, BitVec.ofNat 3 func⟩

/-- The functions of a slot that are listed by the rounds for `fs`. -/
def taken (bus slot : ℕ) : List ℕ → List Fn
  | [] => []
  | func::fs =>
    if Recorded c kmalloc (fnOf bus slot func) then
      if func = 0 ∧ Single c (fnOf bus slot func) then [fnOf bus slot func]
      else fnOf bus slot func :: taken bus slot fs
    else taken bus slot fs

def takenAll : List Fn :=
  (List.range 256).flatMap (fun bus => (List.range 32).flatMap (fun slot => taken c kmalloc bus slot (List.range 8)))

variable {c kmalloc} {bus slot func : ℕ}

theorem fnOf_slot (hs : slot < 32) : (fnOf bus slot func).slot.setWidth 8 = BitVec.ofNat 8 slot := by
  apply BitVec.eq_of_toNat_eq
  unfold fnOf
  simp only [BitVec.toNat_setWidth, BitVec.toNat_ofNat]
  omega

theorem fnOf_func (hf : func < 8) : (fnOf bus slot func).func.setWidth 8 = BitVec.ofNat 8 func := by
  apply BitVec.eq_of_toNat_eq
  unfold fnOf
  simp only [BitVec.toNat_setWidth, BitVec.toNat_ofNat]
  omega

theorem fnOf_zero (hf : func < 8) : (fnOf bus slot func).func = 0 ↔ func = 0 := by
  constructor
  · intro h
    have hnat := congrArg BitVec.toNat h
    unfold fnOf at hnat
    rw [BitVec.toNat_ofNat, Nat.mod_eq_of_lt (show func < 2^3 from hf)] at hnat
    exact hnat
  · rintro rfl
    rfl

/-- Every function is met in one round. -/
theorem fnOf_eq (f : Fn) : f = fnOf f.bus.toNat f.slot.toNat f.func.toNat := by
  unfold fnOf
  rw [BitVec.ofNat_toNat, BitVec.ofNat_toNat, BitVec.ofNat_toNat, BitVec.setWidth_eq, BitVec.setWidth_eq, BitVec.setWidth_eq]

theorem taken_sublist (fs : List ℕ) : List.Sublist (taken c kmalloc bus slot fs) (fs.map (fnOf bus slot)) := by
  induction fs with
  | nil => exact List.Sublist.slnil
  | cons func fs ih =>
    unfold taken
    rw [List.map_cons]
    split
    · split
      · exact (List.nil_sublist _).cons_cons _
      · exact ih.cons_cons _
    · exact ih.cons _

/-- Behind function 0 nothing ends the rounds of a slot. -/
theorem mem_taken_rest {fs : List ℕ} (h : ∀ func ∈ fs, func ≠ 0) {f : Fn} :
    f ∈ taken c kmalloc bus slot fs ↔ f ∈ fs.map (fnOf bus slot) ∧ Recorded c kmalloc f := by
  induction fs with
  | nil => simp [taken]
  | cons func fs ih =>
    have hrest := ih (fun x hx => h x (List.mem_cons_of_mem func hx))
    have h0 : ¬ (func = 0 ∧ Single c (fnOf bus slot func)) := fun hc => h func List.mem_cons_self hc.1
    unfold taken
    rw [if_neg h0, List.map_cons, List.mem_cons]
    split
    · rename_i hrec
      rw [List.mem_cons, hrest]
      constructor
      · rintro (rfl | ⟨hm, hr⟩)
        · exact ⟨Or.inl rfl, hrec⟩
        · exact ⟨Or.inr hm, hr⟩
      · rintro ⟨rfl | hm, hr⟩
        · exact Or.inl rfl
        · exact Or.inr ⟨hm, hr⟩
    · rename_i hrec
      rw [hrest]
      constructor
      · rintro ⟨hm, hr⟩
        exact ⟨Or.inr hm, hr⟩
      · rintro ⟨rfl | hm, hr⟩
        · exact (hrec hr).elim
        · exact ⟨hm, hr⟩

/-- The rounds after the first one. -/
def laterFuncs : List ℕ := (List.range 7).map (·+1)

theorem mem_later (hb : bus < 256) (hs : slot < 32) {f : Fn} :
    f ∈ laterFuncs.map (fnOf bus slot) ↔ f.bus.toNat = bus ∧ f.slot.toNat = slot ∧ f.func ≠ 0 := by
  constructor
  · intro hf
    obtain ⟨func, hfunc, rfl⟩ := List.mem_map.mp hf
    obtain ⟨n, hn, rfl⟩ := List.mem_map.mp hfunc
    have hlt := List.mem_range.mp hn
    refine ⟨Nat.mod_eq_of_lt hb, Nat.mod_eq_of_lt hs, ?_⟩
    rw [Ne, fnOf_zero (by omega)]
    exact Nat.succ_ne_zero n
  · rintro ⟨rfl, rfl, h0⟩
    have hne : f.func.toNat ≠ 0 := fun h => h0 (BitVec.eq_of_toNat_eq h)
    have hlt := f.func.isLt
    refine List.mem_map.mpr ⟨f.func.toNat, List.mem_map.mpr ⟨f.func.toNat-1, List.mem_range.mpr (by omega), by omega⟩, ?_⟩
    exact (fnOf_eq f).symm

theorem eq_first (hb : bus < 256) (hs : slot < 32) {f : Fn} :
    f = fnOf bus slot 0 ↔ f.bus.toNat = bus ∧ f.slot.toNat = slot ∧ f.func = 0 := by
  constructor
  · rintro rfl
    exact ⟨Nat.mod_eq_of_lt hb, Nat.mod_eq_of_lt hs, rfl⟩
  · rintro ⟨rfl, rfl, h0⟩
    have hfunc : f.func.toNat = 0 := by
      rw [h0]
      rfl
    rw [← hfunc]
    exact fnOf_eq f

theorem with_first {f : Fn} (hb : f.bus.toNat = bus) (hs : f.slot.toNat = slot) :
    ({ f with func := 0 } : Fn) = fnOf bus slot 0 := by
  subst hb hs
  unfold fnOf
  rw [BitVec.ofNat_toNat, BitVec.ofNat_toNat, BitVec.setWidth_eq, BitVec.setWidth_eq]
  rfl

theorem mem_taken (hb : bus < 256) (hs : slot < 32) {f : Fn} : f ∈ taken c kmalloc bus slot (List.range 8) ↔
    f.bus.toNat = bus ∧ f.slot.toNat = slot ∧ Listed c kmalloc f := by
  have hrest : f ∈ taken c kmalloc bus slot laterFuncs ↔
      (f.bus.toNat = bus ∧ f.slot.toNat = slot ∧ f.func ≠ 0) ∧ Recorded c kmalloc f := by
    rw [mem_taken_rest (by decide), mem_later hb hs]
  have hsame : f.bus.toNat = bus → f.slot.toNat = slot → (Listed c kmalloc f ↔ Recorded c kmalloc f ∧
      (f.func = 0 ∨ ¬ (Recorded c kmalloc (fnOf bus slot 0) ∧ Single c (fnOf bus slot 0)))) := by
    intro h1 h2
    unfold Listed Single
    rw [with_first h1 h2]
    rfl
  rw [show List.range 8 = 0::laterFuncs from rfl, taken]
  by_cases hrec : Recorded c kmalloc (fnOf bus slot 0)
  · rw [if_pos hrec]
    by_cases hsingle : Single c (fnOf bus slot 0)
    · rw [if_pos ⟨rfl, hsingle⟩, List.mem_singleton, eq_first hb hs]
      constructor
      · rintro ⟨h1, h2, h0⟩
        have hf := (eq_first hb hs).mpr ⟨h1, h2, h0⟩
        exact ⟨h1, h2, (hsame h1 h2).mpr ⟨hf ▸ hrec, Or.inl h0⟩⟩
      · rintro ⟨h1, h2, hl⟩
        exact ⟨h1, h2, ((hsame h1 h2).mp hl).2.resolve_right (not_not_intro ⟨hrec, hsingle⟩)⟩
    · rw [if_neg (fun h => hsingle h.2), List.mem_cons, eq_first hb hs, hrest]
      constructor
      · rintro (⟨h1, h2, h0⟩ | ⟨⟨h1, h2, -⟩, hr⟩)
        · have hf := (eq_first hb hs).mpr ⟨h1, h2, h0⟩
          exact ⟨h1, h2, (hsame h1 h2).mpr ⟨hf ▸ hrec, Or.inl h0⟩⟩
        · exact ⟨h1, h2, (hsame h1 h2).mpr ⟨hr, Or.inr (fun h => hsingle h.2)⟩⟩
      · rintro ⟨h1, h2, hl⟩
        by_cases h0 : f.func = 0
        · exact Or.inl ⟨h1, h2, h0⟩
        · exact Or.inr ⟨⟨h1, h2, h0⟩, hl.1⟩
  · rw [if_neg hrec, hrest]
    constructor
    · rintro ⟨⟨h1, h2, -⟩, hr⟩
      exact ⟨h1, h2, (hsame h1 h2).mpr ⟨hr, Or.inr (fun h => hrec h.1)⟩⟩
    · rintro ⟨h1, h2, hl⟩
      refine ⟨⟨h1, h2, fun h0 => hrec ?_⟩, hl.1⟩
      exact (eq_first hb hs).mpr ⟨h1, h2, h0⟩ ▸ hl.1

theorem mem_takenAll {f : Fn} : f ∈ takenAll c kmalloc ↔ Listed c kmalloc f := by
  simp only [takenAll, List.mem_flatMap, List.mem_range]
  constructor
  · rintro ⟨bus, hb, slot, hs, hf⟩
    exact ((mem_taken hb hs).mp hf).2.2
  · intro hl
    exact ⟨_, f.bus.isLt, _, f.slot.isLt, (mem_taken f.bus.isLt f.slot.isLt).mpr ⟨rfl, rfl, hl⟩⟩

theorem taken_before : (taken c kmalloc bus slot (List.range 8)).Pairwise Before := by
  refine List.Pairwise.sublist (taken_sublist _) (List.pairwise_map.mpr ?_)
  refine List.Pairwise.imp_of_mem ?_ List.pairwise_lt_range
  intro i j hi hj hij
  have hi8 := List.mem_range.mp hi
  have hj8 := List.mem_range.mp hj
  refine Or.inr ⟨rfl, Or.inr ⟨rfl, ?_⟩⟩
  unfold fnOf
  rw [BitVec.toNat_ofNat, BitVec.toNat_ofNat]
  omega

/-- The functions come in the order of the scan. -/
theorem takenAll_before : (takenAll c kmalloc).Pairwise Before := by
  refine List.pairwise_flatMap.mpr ⟨fun bus hbus => List.pairwise_flatMap.mpr ⟨fun slot _ => ?_, ?_⟩, ?_⟩
  · exact taken_before
  · refine List.Pairwise.imp_of_mem ?_ List.pairwise_lt_range
    intro i j hi hj hij f hf g hg
    obtain ⟨f1, f2, -⟩ := (mem_taken (List.mem_range.mp hbus) (List.mem_range.mp hi)).mp hf
    obtain ⟨g1, g2, -⟩ := (mem_taken (List.mem_range.mp hbus) (List.mem_range.mp hj)).mp hg
    exact Or.inr ⟨BitVec.eq_of_toNat_eq (f1.trans g1.symm), Or.inl (by omega)⟩
  · refine List.Pairwise.imp_of_mem ?_ List.pairwise_lt_range
    intro i j hi hj hij f hf g hg
    obtain ⟨slot, hslot, hf⟩ := List.mem_flatMap.mp hf
    obtain ⟨slot', hslot', hg⟩ := List.mem_flatMap.mp hg
    have hf := (mem_taken (List.mem_range.mp hi) (List.mem_range.mp hslot)).mp hf
    have hg := (mem_taken (List.mem_range.mp hj) (List.mem_range.mp hslot')).mp hg
    exact Or.inl (by omega)

theorem before_ne {f g : Fn} (h : Before f g) : f ≠ g := by
  rintro rfl
  unfold Before at h
  omega

end Listing

/-! ## The scan -/

section Scanning

variable {σ : Type*} {io : Bus σ} (h : HostBridge io) {c : Space} {kmalloc : Fn → ℕ} {fs : List Fn} {s : Scan σ}

/-- The list spells the records of these functions. -/
structure Spells (c : Space) (kmalloc : Fn → ℕ) (fs : List Fn) (p : Pci σ) : Prop where
  chain : Chain p.next p.deviceList (fs.map kmalloc)
  records : ∀ f ∈ fs, p.record (kmalloc f) = recordOf c f
  count : p.deviceCount = fs.length

structure Inv (c : Space) (kmalloc : Fn → ℕ) (fs : List Fn) (s : Scan σ) : Prop where
  space : h.space s.dev = c
  list : Spells c kmalloc fs s.toPci
  lastDev : s.lastDev = ((fs.map kmalloc).getLast?).getD 0

/-- What the heap gives out is not given out twice. -/
def Fresh (kmalloc : Fn → ℕ) : Prop := ∀ f g, kmalloc f ≠ 0 → kmalloc f = kmalloc g → f = g

variable {h}

theorem Inv.reads (hi : Inv h c kmalloc fs s) {d : σ} (hd : h.space d = c) : Inv h c kmalloc fs { s with dev := d } :=
  ⟨hd, ⟨hi.list.chain, hi.list.records, hi.list.count⟩, hi.lastDev⟩

/-- A new record at the end of the list. -/
theorem Inv.link (hi : Inv h c kmalloc fs s) (hfresh : Fresh kmalloc) {f : Fn} (h0 : kmalloc f ≠ 0) (hf : f ∉ fs) :
    Inv h c kmalloc (fs++[f]) (link (kmalloc f) (recordOf c f) s) := by
  have hnew : kmalloc f ∉ fs.map kmalloc := by
    intro hmem
    obtain ⟨g, hg, heq⟩ := List.mem_map.mp hmem
    exact hf (hfresh f g h0 heq.symm ▸ hg)
  have hlast : (((fs++[f]).map kmalloc).getLast?).getD 0 = kmalloc f := by simp
  refine ⟨hi.space, ⟨?_, ?_, ?_⟩, hlast.symm⟩
  · rcases List.eq_nil_or_concat fs with rfl | ⟨l, g, rfl⟩
    · have hempty : s.lastDev = 0 := hi.lastDev
      unfold PciScan.link
      dsimp only
      rw [if_neg (not_not_intro hempty), if_neg (not_not_intro hempty)]
      refine ⟨rfl, h0, ?_⟩
      rw [Function.update_self]
      exact rfl
    · rw [List.concat_eq_append] at *
      have hend : s.lastDev = kmalloc g := by
        rw [hi.lastDev]
        simp
      have hchain := hi.list.chain
      rw [List.map_append, List.map_singleton] at hchain hnew
      have hg0 : kmalloc g ≠ 0 := seg_ne_zero hchain _ (List.mem_append_right _ List.mem_cons_self)
      have hne : kmalloc f ≠ kmalloc g := fun he => hnew (by rw [he]; exact List.mem_append_right _ List.mem_cons_self)
      have happend := chain_append hchain hnew h0
      unfold PciScan.link
      dsimp only
      rw [hend, if_pos hg0, if_pos hg0, Function.update_comm hne, List.map_append, List.map_append, List.map_singleton,
        List.map_singleton]
      exact happend
  · intro g hg
    rcases List.mem_append.mp hg with hg | hg
    · have hne : kmalloc g ≠ kmalloc f := fun he => hnew (he ▸ List.mem_map_of_mem hg)
      exact (Function.update_of_ne hne _ _).trans (hi.list.records g hg)
    · rw [List.mem_singleton.mp hg]
      exact Function.update_self _ _ _
  · exact (congrArg (·+1) hi.list.count).trans (by rw [List.length_append, List.length_singleton])

/-- Reading the base addresses changes nothing. -/
theorem readBars_space (f : Fn) (bs : List ℕ) (d : σ) :
    let r := readBars io f.bus (f.slot.setWidth 8) (f.func.setWidth 8) bs d
    r.1 = bs.map (fun b => peek32 (h.space d) f (BitVec.ofNat 8 (0x10 + b*4))) ∧ h.space r.2 = h.space d := by
  induction bs generalizing d with
  | nil => exact ⟨rfl, rfl⟩
  | cons b bs ih =>
    obtain ⟨hval, hspace⟩ := read32_space h f (BitVec.ofNat 8 (0x10 + b*4)) d
    obtain ⟨hrest, hlast⟩ := ih (pciConfigRead32 io f.bus (f.slot.setWidth 8) (f.func.setWidth 8)
      (BitVec.ofNat 8 (0x10 + b*4)) d).2
    rw [hspace] at hrest hlast
    exact ⟨congrArg₂ List.cons hval hrest, hlast⟩

/-- A round with the function as the loops name it. -/
theorem probe_eq {bus slot func : ℕ} (hs : slot < 32) (hf : func < 8) {f : Fn} (hfn : f = fnOf bus slot func) :
    probe io kmalloc bus slot func s =
      let b := f.bus
      let sl := f.slot.setWidth 8
      let fn := f.func.setWidth 8
      let vendor := pciConfigRead16 io b sl fn 0x00 s.dev
      if vendor.1 = 0xFFFF then (false, { s with dev := vendor.2 })
      else
        let device := pciConfigRead16 io b sl fn 0x02 vendor.2
        let classCode := pciConfigRead8 io b sl fn 0x0B device.2
        let subclass := pciConfigRead8 io b sl fn 0x0A classCode.2
        let irqLine := pciConfigRead8 io b sl fn 0x3C subclass.2
        if kmalloc f = 0 then (false, { s with dev := irqLine.2 })
        else
          let bars := readBars io b sl fn (List.range 6) irqLine.2
          let d : PciDevice :=
            ⟨b, sl, fn, vendor.1, device.1, classCode.1.setWidth 16, subclass.1.setWidth 16, bars.1, irqLine.1⟩
          let headerType := pciConfigRead8 io b sl 0 0x0E bars.2
          (decide (func = 0 ∧ headerType.1 &&& 0x80 = 0), { link (kmalloc f) d s with dev := headerType.2 }) := by
  subst hfn
  rw [fnOf_slot hs, fnOf_func hf]
  rfl

/-- A round either leaves the list alone and goes on, or adds the function and may end the rounds of the slot. -/
theorem probe_inv (hi : Inv h c kmalloc fs s) (hfresh : Fresh kmalloc) {bus slot func : ℕ} (hs : slot < 32)
    (hf : func < 8) {f : Fn} (hfn : f = fnOf bus slot func) (hnew : Recorded c kmalloc f → f ∉ fs) :
    let r := probe io kmalloc bus slot func s
    (Recorded c kmalloc f → Inv h c kmalloc (fs++[f]) r.2 ∧ r.1 = decide (func = 0 ∧ Single c f)) ∧
    (¬ Recorded c kmalloc f → Inv h c kmalloc fs r.2 ∧ r.1 = false) := by
  have hspace := hi.space
  rw [probe_eq hs hf hfn]
  dsimp only
  obtain ⟨v1, v2⟩ := read16_space h f 0x00 s.dev
  rw [hspace] at v1 v2
  generalize pciConfigRead16 io f.bus (f.slot.setWidth 8) (f.func.setWidth 8) 0x00 s.dev = vendor at v1 v2 ⊢
  by_cases hvendor : vendor.1 = 0xFFFF
  · rw [if_pos hvendor]
    rw [v1] at hvendor
    exact ⟨fun hr => (hr.1 hvendor).elim, fun _ => ⟨hi.reads v2, rfl⟩⟩
  rw [if_neg hvendor]
  obtain ⟨d1, d2⟩ := read16_space h f 0x02 vendor.2
  rw [v2] at d1 d2
  generalize pciConfigRead16 io f.bus (f.slot.setWidth 8) (f.func.setWidth 8) 0x02 vendor.2 = device at d1 d2 ⊢
  obtain ⟨c1, c2⟩ := read8_space h f 0x0B device.2
  rw [d2] at c1 c2
  generalize pciConfigRead8 io f.bus (f.slot.setWidth 8) (f.func.setWidth 8) 0x0B device.2 = classCode at c1 c2 ⊢
  obtain ⟨u1, u2⟩ := read8_space h f 0x0A classCode.2
  rw [c2] at u1 u2
  generalize pciConfigRead8 io f.bus (f.slot.setWidth 8) (f.func.setWidth 8) 0x0A classCode.2 = subclass at u1 u2 ⊢
  obtain ⟨i1, i2⟩ := read8_space h f 0x3C subclass.2
  rw [u2] at i1 i2
  generalize pciConfigRead8 io f.bus (f.slot.setWidth 8) (f.func.setWidth 8) 0x3C subclass.2 = irqLine at i1 i2 ⊢
  by_cases h0 : kmalloc f = 0
  · rw [if_pos h0]
    exact ⟨fun hr => (hr.2 h0).elim, fun _ => ⟨hi.reads i2, rfl⟩⟩
  rw [if_neg h0]
  obtain ⟨b1, b2⟩ := readBars_space (h := h) f (List.range 6) irqLine.2
  rw [i2] at b1 b2
  generalize readBars io f.bus (f.slot.setWidth 8) (f.func.setWidth 8) (List.range 6) irqLine.2 = bars at b1 b2 ⊢
  obtain ⟨e1, e2⟩ := read8_space h { f with func := 0 } 0x0E bars.2
  rw [b2] at e1 e2
  have hzero : (0 : BitVec 3).setWidth 8 = (0 : BitVec 8) := rfl
  dsimp only at e1 e2
  rw [hzero] at e1 e2
  generalize pciConfigRead8 io f.bus (f.slot.setWidth 8) 0 0x0E bars.2 = headerType at e1 e2 ⊢
  have hpresent : peek16 c f 0x00 ≠ 0xFFFF := fun he => hvendor (v1.trans he)
  refine ⟨fun _ => ⟨?_, ?_⟩, fun hr => (hr ⟨hpresent, h0⟩).elim⟩
  · rw [v1, d1, c1, u1, b1, i1]
    exact (hi.link hfresh h0 (hnew ⟨hpresent, h0⟩)).reads e2
  · rw [e1]
    rfl

theorem scanFuncs_inv {bus slot : ℕ} (hs : slot < 32) (hfresh : Fresh kmalloc) (L : List ℕ) (hL : ∀ func ∈ L, func < 8)
    (hi : Inv h c kmalloc fs s) (hnodup : (fs ++ taken c kmalloc bus slot L).Nodup) :
    Inv h c kmalloc (fs ++ taken c kmalloc bus slot L) (scanFuncs io kmalloc bus slot L s) := by
  induction L generalizing fs s with
  | nil =>
    unfold taken scanFuncs
    rw [List.append_nil]
    exact hi
  | cons func L ih =>
    have hrest : ∀ x ∈ L, x < 8 := fun x hx => hL x (List.mem_cons_of_mem func hx)
    have hnew : Recorded c kmalloc (fnOf bus slot func) → fnOf bus slot func ∉ fs := by
      intro hrec hmem
      refine (List.disjoint_of_nodup_append hnodup) hmem ?_
      unfold taken
      rw [if_pos hrec]
      split
      · exact List.mem_cons_self
      · exact List.mem_cons_self
    obtain ⟨hyes, hno⟩ := probe_inv hi hfresh hs (hL func List.mem_cons_self) rfl hnew
    unfold taken at hnodup ⊢
    unfold scanFuncs
    dsimp only
    by_cases hrec : Recorded c kmalloc (fnOf bus slot func)
    · obtain ⟨hinv, hbreak⟩ := hyes hrec
      rw [if_pos hrec] at hnodup ⊢
      rw [hbreak]
      simp only [decide_eq_true_eq]
      by_cases hlast : func = 0 ∧ Single c (fnOf bus slot func)
      · rw [if_pos hlast, if_pos hlast]
        exact hinv
      · rw [if_neg hlast] at hnodup
        rw [if_neg hlast, if_neg hlast]
        have hnext := ih hrest hinv (by rw [List.append_assoc]; exact hnodup)
        rw [List.append_assoc] at hnext
        exact hnext
    · obtain ⟨hinv, hbreak⟩ := hno hrec
      rw [if_neg hrec] at hnodup ⊢
      rw [hbreak, if_neg Bool.false_ne_true]
      exact ih hrest hinv hnodup

/-- Loops inside loops: what each round adds is added by all of them. -/
theorem rounds_add {ι α τ : Type*} {I : List α → τ → Prop} {step : τ → ι → τ} {g : ι → List α} (is : List ι)
    (hstep : ∀ i ∈ is, ∀ l t, I l t → (l ++ g i).Nodup → I (l ++ g i) (step t i)) {l : List α} {t : τ} (hi : I l t)
    (hnodup : (l ++ is.flatMap g).Nodup) : I (l ++ is.flatMap g) (is.foldl step t) := by
  induction is generalizing l t with
  | nil =>
    rw [List.flatMap_nil, List.append_nil]
    exact hi
  | cons i is ih =>
    rw [List.flatMap_cons, ← List.append_assoc] at hnodup ⊢
    exact ih (fun j hj => hstep j (List.mem_cons_of_mem i hj)) (hstep i List.mem_cons_self l t hi hnodup.of_append_left) hnodup

theorem scanSlots_inv {bus : ℕ} (hfresh : Fresh kmalloc) (hi : Inv h c kmalloc fs s)
    (hnodup : (fs ++ (List.range 32).flatMap (fun slot => taken c kmalloc bus slot (List.range 8))).Nodup) :
    Inv h c kmalloc (fs ++ (List.range 32).flatMap (fun slot => taken c kmalloc bus slot (List.range 8)))
      ((List.range 32).foldl (fun s slot => scanFuncs io kmalloc bus slot (List.range 8) s) s) := by
  refine rounds_add (I := Inv h c kmalloc) (List.range 32) (fun slot hslot l t hl hn => ?_) hi hnodup
  exact scanFuncs_inv (List.mem_range.mp hslot) hfresh (List.range 8) (fun func hfunc => List.mem_range.mp hfunc) hl hn

theorem scan_inv (hfresh : Fresh kmalloc) (p : Pci σ) : ∃ s : Scan σ, s.toPci = pciScan io kmalloc p ∧
    Inv h (h.space p.dev) kmalloc (takenAll (h.space p.dev) kmalloc) s := by
  have hstart : Inv h (h.space p.dev) kmalloc [] { p with deviceCount := 0, deviceList := 0, lastDev := 0 } :=
    ⟨rfl, ⟨rfl, fun f hf => (List.not_mem_nil hf).elim, rfl⟩, rfl⟩
  have hnodup : (takenAll (h.space p.dev) kmalloc).Nodup := takenAll_before.imp (fun hb => before_ne hb)
  refine ⟨_, rfl, ?_⟩
  have hall := rounds_add (I := Inv h (h.space p.dev) kmalloc) (List.range 256)
    (fun bus _ l t hl hn => scanSlots_inv hfresh hl hn) hstart
    (by rw [List.nil_append]; exact hnodup)
  rw [List.nil_append] at hall
  exact hall

end Scanning

/-- A list in the order of the scan is no longer than there are functions. -/
theorem before_length {fs : List Fn} (hf : fs.Pairwise Before) : fs.length < walkBound := by
  have hnodup : (fs.map (fun f => f.bus.toNat*256 + f.slot.toNat*8 + f.func.toNat)).Nodup := by
    refine List.pairwise_map.mpr (hf.imp (fun {f g} hb => ?_))
    have h1 := f.func.isLt
    have h2 := g.func.isLt
    have h3 := f.slot.isLt
    have h4 := g.slot.isLt
    unfold Before at hb
    omega
  have hsub : (fs.map (fun f => f.bus.toNat*256 + f.slot.toNat*8 + f.func.toNat)).toFinset ⊆ Finset.range 65536 := by
    intro x hx
    obtain ⟨f, -, rfl⟩ := List.mem_map.mp (List.mem_toFinset.mp hx)
    have h1 := f.func.isLt
    have h3 := f.slot.isLt
    have h5 := f.bus.isLt
    rw [Finset.mem_range]
    omega
  have hcard := Finset.card_le_card hsub
  rw [List.toFinset_card_of_nodup hnodup, List.length_map, Finset.card_range] at hcard
  unfold walkBound
  omega

theorem search_spells {c : Space} {kmalloc : Fn → ℕ} {fs : List Fn} {σ : Type*} {p : Pci σ} (hs : Spells c kmalloc fs p)
    (hf : fs.Pairwise Before) {q : PciDevice → Bool} :
    search p.next (fun curr => q (p.record curr)) walkBound p.deviceList =
      some (((fs.find? (fun f => q (recordOf c f))).map kmalloc).getD 0) := by
  rw [chain_search hs.chain (by rw [List.length_map]; exact before_length hf), List.find?_map]
  have hsame : ∀ f ∈ fs, q (p.record (kmalloc f)) = q (recordOf c f) := fun f hm => by rw [hs.records f hm]
  rw [show fs.find? ((fun curr => q (p.record curr)) ∘ kmalloc) = fs.find? (fun f => q (recordOf c f)) from
    List.find?_congr hsame]

/-- The scan lists, in the order in which it asks, exactly the functions that answer and get a record, except those
behind a function 0 that is alone in its slot; both searches find the first record of the list that fits. -/
theorem scan_lists {σ : Type*} {io : Bus σ} (h : HostBridge io) (kmalloc : Fn → ℕ) (hfresh : Fresh kmalloc) (p : Pci σ) :
    let c := h.space p.dev
    let t := pciScan io kmalloc p
    ∃ fs : List Fn, fs.Pairwise Before ∧ (∀ f, f ∈ fs ↔ Listed c kmalloc f) ∧ Spells c kmalloc fs t ∧ h.space t.dev = c ∧
      (∀ vendor device, pciGetDevice t vendor device =
        some (((fs.find? (fun f => peek16 c f 0x00 = vendor ∧ peek16 c f 0x02 = device)).map kmalloc).getD 0)) ∧
      (∀ classCode subclass, pciGetClass t classCode subclass =
        some (((fs.find? (fun f => peek8 c f 0x0B = classCode ∧ peek8 c f 0x0A = subclass)).map kmalloc).getD 0)) := by
  intro c t
  obtain ⟨s, hs, hinv⟩ := scan_inv (h := h) hfresh p
  have ht : t = s.toPci := hs.symm
  have hspells : Spells c kmalloc (takenAll c kmalloc) t := by
    rw [ht]
    exact hinv.list
  refine ⟨takenAll c kmalloc, takenAll_before, fun f => mem_takenAll, hspells, ?_, fun vendor device => ?_,
    fun classCode subclass => ?_⟩
  · rw [ht]
    exact hinv.space
  · exact search_spells (q := fun d => d.vendorId = vendor ∧ d.deviceId = device) hspells takenAll_before
  · have hext : ∀ a b : BitVec 8, a.setWidth 16 = b.setWidth 16 ↔ a = b := by
      intro a b
      constructor
      · intro heq
        have hnat := congrArg BitVec.toNat heq
        simp only [BitVec.toNat_setWidth] at hnat
        exact BitVec.eq_of_toNat_eq (by omega)
      · rintro rfl
        rfl
    have hsearch := search_spells (q := fun d => d.classCode = classCode.setWidth 16 ∧
      d.subclass = subclass.setWidth 16) hspells takenAll_before
    simp only [recordOf, hext] at hsearch
    exact hsearch

/-- A single function in slot 0 and a second one in slot 3 whose function 0 is missing. -/
def sampleSpace : Space := fun f _ => if f = ⟨0, 0, 0⟩ ∨ f = ⟨0, 3, 1⟩ then ⟨0x01, 0, 0, rfl⟩ else ⟨0xFF, 0, 0, rfl⟩

def sampleAlloc (f : Fn) : ℕ := 4096 + 64*(f.bus.toNat*256 + f.slot.toNat*8 + f.func.toNat)

theorem sampleAlloc_fresh : Fresh sampleAlloc := by
  intro f g _ heq
  have h1 := f.func.isLt
  have h2 := g.func.isLt
  have h3 := f.slot.isLt
  have h4 := g.slot.isLt
  unfold sampleAlloc at heq
  have hbus : f.bus = g.bus := BitVec.eq_of_toNat_eq (by omega)
  have hslot : f.slot = g.slot := BitVec.eq_of_toNat_eq (by omega)
  have hfunc : f.func = g.func := BitVec.eq_of_toNat_eq (by omega)
  rw [fnOf_eq f, hbus, hslot, hfunc]
  exact (fnOf_eq g).symm

def samplePci : Pci Bridge := ⟨⟨0, sampleSpace⟩, fun _ => recordOf sampleSpace ⟨0, 0, 0⟩, fun _ => 0, 0, 0⟩

theorem scan_lists_sample : ∃ fs : List Fn, fs.Pairwise Before ∧ (∀ f, f ∈ fs ↔ Listed sampleSpace sampleAlloc f) ∧
    Spells sampleSpace sampleAlloc fs (pciScan bridgeBus sampleAlloc samplePci) ∧
    bridge.space (pciScan bridgeBus sampleAlloc samplePci).dev = sampleSpace ∧
    (∀ vendor device, pciGetDevice (pciScan bridgeBus sampleAlloc samplePci) vendor device =
      some (((fs.find? (fun f => peek16 sampleSpace f 0x00 = vendor ∧ peek16 sampleSpace f 0x02 = device)).map
        sampleAlloc).getD 0)) ∧
    (∀ classCode subclass, pciGetClass (pciScan bridgeBus sampleAlloc samplePci) classCode subclass =
      some (((fs.find? (fun f => peek8 sampleSpace f 0x0B = classCode ∧ peek8 sampleSpace f 0x0A = subclass)).map
        sampleAlloc).getD 0)) :=
  scan_lists bridge sampleAlloc sampleAlloc_fresh samplePci

example : Listed sampleSpace sampleAlloc ⟨0, 3, 1⟩ ∧ ¬ Listed sampleSpace sampleAlloc ⟨0, 3, 0⟩ := by decide +kernel

end Dionnex.PciScan
