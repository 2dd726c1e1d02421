import Dionnex.KernelString
import Dionnex.LabelledRuns
import Dionnex.LinkedChain

/-!
# The registry of modules

The list of `module_register` is threaded through descriptors that belong to the
caller, and those that `module_load_from_memory` has copied into a block of
the heap. A registration that is refused leaves the list as it was, but
the block of a load is then on no list and is not given back.
-/

set_option autoImplicit false

namespace Dionnex.ModuleRegistry
open LabelledRuns LinkedChain Dionnex.KernelString

/-! ## The code -/

/-- The bytes of a `module_t` before its state: name, author, version and the two functions. The name is a string,
which may run on into the fields behind it. -/
structure Descriptor where
  bytes : List UInt8
  size : bytes.length = 152
  ended : (0 : UInt8) ∈ bytes

/-- `mod->init` is not NULL. -/
def Descriptor.hasInit (d : Descriptor) : Bool := (d.bytes.drop 144).take 4 ≠ [0, 0, 0, 0]

def Descriptor.name (d : Descriptor) : List UInt8 := cstr d.bytes

/-- `sizeof(module_t)`. -/
def moduleSize : ℕ := 160

/-- Descriptors are addresses; `live` are the blocks that `kmalloc` has handed out. -/
structure Registry where
  desc : ℕ → Descriptor
  state : ℕ → ℕ
  next : ℕ → ℕ
  head : ℕ
  count : ℕ
  live : Finset ℕ

def wordMod : ℕ := 4294967296

def moduleInitSubsystem (s : Registry) : Registry := { s with head := 0, count := 0 }

/-- `none` when the walk is not over after `fuel` descriptors. -/
def findFrom (s : Registry) (name : List UInt8) : ℕ → ℕ → Option ℕ
  | 0, _ => none
  | fuel+1, curr =>
    if curr = 0 then some 0
    else if strcmp (s.desc curr).bytes name = 0 then some curr
    else findFrom s name fuel (s.next curr)

/-- There are not that many addresses. -/
def walkBound : ℕ := 4294967297

def moduleFind (s : Registry) (name : Option (List UInt8)) : Option ℕ :=
  match name with
  | none => some 0
  | some name => findFrom s name walkBound s.head

def link (s : Registry) (mod : ℕ) : Registry :=
  { s with
    state := Function.update s.state mod 1
    next := Function.update s.next mod s.head
    head := mod
    count := (s.count+1) % wordMod }

/-- `res` is what the function `init` answers, which is called last. -/
def moduleRegister (s : Registry) (mod : ℕ) (res : ℤ) : Option (ℤ × Registry) :=
  if mod = 0 ∨ (s.desc mod).bytes.getD 0 0 = 0 then some (-1, s)
  else
    (moduleFind s (some (s.desc mod).bytes)).map (fun found =>
      if found ≠ 0 then (-1, s)
      else if (s.desc mod).hasInit ∧ res ≠ 0 then (res, s)
      else (0, link s mod))

def unlink (s : Registry) (prev curr : ℕ) : Registry :=
  let s := { s with state := Function.update s.state curr 0, count := (s.count + (wordMod-1)) % wordMod }
  if prev ≠ 0 then { s with next := Function.update s.next prev (s.next curr) } else { s with head := s.next curr }

def unregisterFrom (s : Registry) (name : List UInt8) : ℕ → ℕ → ℕ → Option (ℤ × Registry)
  | 0, _, _ => none
  | fuel+1, prev, curr =>
    if curr = 0 then some (-1, s)
    else if strcmp (s.desc curr).bytes name = 0 then some (0, unlink s prev curr)
    else unregisterFrom s name fuel curr (s.next curr)

def moduleUnregister (s : Registry) (name : Option (List UInt8)) : Option (ℤ × Registry) :=
  match name with
  | none => some (-1, s)
  | some name => unregisterFrom s name walkBound 0 s.head

/-- What is copied, if there is as much. -/
structure Image where
  desc : Descriptor
  state : ℕ
  next : ℕ

def copied (s : Registry) (mod : ℕ) (image : Image) : Registry :=
  { s with
    desc := Function.update s.desc mod image.desc
    state := Function.update s.state mod image.state
    next := Function.update s.next mod image.next
    live := insert mod s.live }

/-- `mod` is the answer of `kmalloc`. -/
def moduleLoadFromMemory (s : Registry) (data : Option Image) (size mod : ℕ) (res : ℤ) : Option (ℤ × Registry) :=
  match data with
  | none => some (-1, s)
  | some image =>
    if size < moduleSize then some (-1, s)
    else if mod = 0 then some (-1, s)
    else moduleRegister (copied s mod image) mod res

/-! ## Runs -/

inductive Call where
  | register (mod : ℕ) (desc : Descriptor) (res : ℤ)
  | unregister (name : Option (List UInt8))
  | load (data : Option Image) (size mod : ℕ) (res : ℤ)

/-- The caller of `module_register` has made the descriptor before. -/
def perform (s : Registry) : Call → Option (ℤ × Registry)
  | .register mod desc res => moduleRegister { s with desc := Function.update s.desc mod desc } mod res
  | .unregister name => moduleUnregister s name
  | .load data size mod res => moduleLoadFromMemory s data size mod res

def Linked (s : Registry) (mod : ℕ) : Prop := mod ≠ 0 ∧ ∃ l, Seg s.next s.head l mod

/-- Nobody writes to a descriptor on the list, and a block of `kmalloc` is not in use. -/
def Allowed (s : Registry) : Call → Prop
  | .register mod desc _ => mod < wordMod ∧ (Linked s mod → s.desc mod = desc)
  | .unregister _ => True
  | .load _ _ mod _ => mod ≠ 0 → mod < wordMod ∧ mod ∉ s.live ∧ ¬ Linked s mod

def Step (s : Registry) (c : Call) (t : Registry) : Prop := Allowed s c ∧ ∃ ret, perform s c = some (ret, t)

def names (s : Registry) (l : List ℕ) : List (List UInt8) := l.map (fun mod => (s.desc mod).name)

/-- The search finds the name exactly when it is on the list, and the module of that name. -/
def FindsNames (s : Registry) (l : List ℕ) : Prop :=
  moduleFind s none = some 0 ∧ ∀ name, ∃ mod, moduleFind s (some name) = some mod ∧
    (mod ≠ 0 ↔ cstr name ∈ names s l) ∧ (mod ≠ 0 → mod ∈ l ∧ (s.desc mod).name = cstr name)

/-- The list ends, the counter is its length, and every call returns. -/
structure Sound (s : Registry) : Prop where
  list : ∃ l, Chain s.next s.head l ∧ s.count = l.length ∧ (names s l).Nodup ∧ FindsNames s l
  returns : ∀ c, Allowed s c → perform s c ≠ none

/-- The list has the same modules with the same names. -/
def SameList (s t : Registry) : Prop :=
  ∀ l, Chain s.next s.head l → Chain t.next t.head l ∧ names t l = names s l

/-- A call that does not return 0 has changed nothing. -/
def Kept (s : Registry) (c : Call) (t : Registry) : Prop :=
  ∀ ret, perform s c = some (ret, t) → ret ≠ 0 → SameList s t ∧ t.count = s.count ∧ t.live = s.live

/-- The descriptor is registered: it has a name that is new, and its function does not fail. -/
def Accepts (s : Registry) (desc : Descriptor) (res : ℤ) : Prop :=
  desc.name ≠ [] ∧ moduleFind s (some desc.bytes) = some 0 ∧ (desc.hasInit = true → res = 0)

/-- A load that has got its block is not refused any more. -/
def Harmless (s : Registry) (c : Call) (_ : Registry) : Prop :=
  match c with
  | .load (some image) size mod res => moduleSize ≤ size → mod ≠ 0 → Accepts s image.desc res
  | _ => True

/-! ## Walks over the list -/

structure Registered (s : Registry) (l : List ℕ) : Prop where
  chain : Chain s.next s.head l
  count : s.count = l.length
  distinct : (names s l).Nodup
  bound : ∀ mod ∈ l, mod < wordMod

section Walks

variable {s t : Registry} {l r : List ℕ} {name : List UInt8} {fuel p mod : ℕ}

theorem Registered.length_lt (h : Registered s l) : l.length < wordMod :=
  chain_length_lt h.chain (by decide) h.bound

theorem Registered.walk_lt (h : Registered s l) : l.length < walkBound := Nat.lt_succ_of_lt h.length_lt

def hasName (s : Registry) (name : List UInt8) (mod : ℕ) : Bool := strcmp (s.desc mod).bytes name = 0

theorem hasName_iff : hasName s name mod = true ↔ (s.desc mod).name = cstr name := by
  unfold hasName
  rw [decide_eq_true_eq]
  exact strcmp_eq_zero _ _

/-- The first module of the name, or NULL. -/
def first (s : Registry) (name : List UInt8) (l : List ℕ) : ℕ := (l.find? (hasName s name)).getD 0

theorem findFrom_chain (h : Chain s.next p l) (hfuel : l.length < fuel) : findFrom s name fuel p = some (first s name l) := by
  induction l generalizing p fuel with
  | nil =>
    cases fuel with
    | zero => cases hfuel
    | succ fuel =>
      obtain rfl : p = 0 := h
      rfl
  | cons x l ih =>
    cases fuel with
    | zero => cases hfuel
    | succ fuel =>
      obtain ⟨rfl, h0, hrest⟩ := h
      rw [findFrom, if_neg h0]
      by_cases hname : strcmp (s.desc p).bytes name = 0
      · have hhas : hasName s name p = true := decide_eq_true hname
        rw [if_pos hname, first, List.find?_cons_of_pos hhas]
        rfl
      · have hhas : ¬ hasName s name p = true := fun hhas => hname (of_decide_eq_true hhas)
        rw [if_neg hname, first, List.find?_cons_of_neg hhas]
        exact ih hrest (Nat.lt_of_succ_lt_succ hfuel)

theorem find_registered (h : Registered s l) : moduleFind s (some name) = some (first s name l) :=
  findFrom_chain h.chain h.walk_lt

theorem first_found (h0 : first s name l ≠ 0) : first s name l ∈ l ∧ (s.desc (first s name l)).name = cstr name := by
  unfold first at h0 ⊢
  cases hfind : l.find? (hasName s name) with
  | none =>
    rw [hfind] at h0
    exact absurd rfl h0
  | some mod => exact ⟨List.mem_of_find?_eq_some hfind, hasName_iff.mp (List.find?_some hfind)⟩

theorem first_ne_zero (hl : 0 ∉ l) : first s name l ≠ 0 ↔ cstr name ∈ names s l := by
  constructor
  · intro h0
    obtain ⟨hmem, hname⟩ := first_found h0
    exact List.mem_map.mpr ⟨_, hmem, hname⟩
  · intro hname
    obtain ⟨mod, hmod, heq⟩ := List.mem_map.mp hname
    have hsome : (l.find? (hasName s name)).isSome = true := List.find?_isSome.mpr ⟨mod, hmod, hasName_iff.mpr heq⟩
    obtain ⟨found, hfound⟩ := Option.isSome_iff_exists.mp hsome
    unfold first
    rw [hfound]
    exact fun h0 => hl (h0 ▸ List.mem_of_find?_eq_some hfound)

theorem Registered.ne_zero (h : Registered s l) : 0 ∉ l := fun h0 => seg_ne_zero h.chain 0 h0 rfl

theorem Registered.finds (h : Registered s l) : FindsNames s l :=
  ⟨rfl, fun _ => ⟨_, find_registered h, first_ne_zero h.ne_zero, first_found⟩⟩

theorem linked_iff (h : Registered s l) : Linked s mod ↔ mod ∈ l := (chain_reach h.chain).symm

/-- What happens beside the list does not matter to it. -/
theorem Registered.congr (h : Registered s l) (hnext : ∀ x ∈ l, t.next x = s.next x) (hdesc : ∀ x ∈ l, t.desc x = s.desc x)
    (hhead : t.head = s.head) (hcount : t.count = s.count) : Registered t l ∧ names t l = names s l := by
  have hnames : names t l = names s l := List.map_congr_left (fun x hx => by rw [hdesc x hx])
  refine ⟨⟨?_, hcount.trans h.count, hnames ▸ h.distinct, h.bound⟩, hnames⟩
  rw [hhead]
  exact seg_congr hnext h.chain

theorem sameList_of (h : Registered s l) (ht : Registered t l) (hnames : names t l = names s l) : SameList s t := by
  intro l' hl'
  obtain rfl := chain_unique hl' h.chain
  exact ⟨ht.chain, hnames⟩

/-! ## Registering -/

theorem register_none (h : Registered s l) (res : ℤ) : moduleRegister s mod res ≠ none := by
  unfold moduleRegister
  rw [find_registered h, Option.map_some]
  split_ifs
  all_goals exact Option.some_ne_none _

theorem byte_name (d : Descriptor) : d.bytes.getD 0 0 = 0 ↔ d.name = [] := by
  unfold Descriptor.name
  cases hbytes : d.bytes with
  | nil => exact iff_of_true rfl rfl
  | cons c bytes =>
    rw [List.getD_cons_zero]
    by_cases hc : c = 0
    · rw [hc, cstr_zero]
      exact iff_of_true rfl rfl
    · rw [cstr_cons c bytes hc]
      exact iff_of_false hc (List.cons_ne_nil _ _)

/-- What a registration does: it refuses and leaves everything as it is, or it links the module. -/
theorem register_cases (h : Registered s l) {res ret : ℤ} (hret : moduleRegister s mod res = some (ret, t)) :
    (mod ≠ 0 ∧ Accepts s (s.desc mod) res ∧ ret = 0 ∧ t = link s mod) ∨
      (¬ (mod ≠ 0 ∧ Accepts s (s.desc mod) res) ∧ ret ≠ 0 ∧ t = s) := by
  unfold moduleRegister at hret
  rw [find_registered h] at hret
  unfold Accepts
  rw [find_registered h]
  by_cases hnone : mod = 0 ∨ (s.desc mod).bytes.getD 0 0 = 0
  · rw [if_pos hnone] at hret
    obtain ⟨rfl, rfl⟩ := Prod.mk.inj (Option.some.inj hret)
    refine .inr ⟨fun hacc => ?_, by decide, rfl⟩
    exact hnone.elim hacc.1 (fun hbyte => hacc.2.1 ((byte_name _).mp hbyte))
  · rw [if_neg hnone] at hret
    obtain ⟨hmod, hbyte⟩ := not_or.mp hnone
    have hname : (s.desc mod).name ≠ [] := fun he => hbyte ((byte_name _).mpr he)
    by_cases hfound : first s (s.desc mod).bytes l ≠ 0
    · rw [Option.map_some, if_pos hfound] at hret
      obtain ⟨rfl, rfl⟩ := Prod.mk.inj (Option.some.inj hret)
      exact .inr ⟨fun hacc => hfound (Option.some.inj hacc.2.2.1), by decide, rfl⟩
    · rw [Option.map_some, if_neg hfound] at hret
      have hnew := not_not.mp hfound
      by_cases hfails : (s.desc mod).hasInit = true ∧ res ≠ 0
      · rw [if_pos hfails] at hret
        obtain ⟨rfl, rfl⟩ := Prod.mk.inj (Option.some.inj hret)
        exact .inr ⟨fun hacc => hfails.2 (hacc.2.2.2 hfails.1), hfails.2, rfl⟩
      · rw [if_neg hfails] at hret
        obtain ⟨rfl, rfl⟩ := Prod.mk.inj (Option.some.inj hret)
        refine .inl ⟨hmod, ⟨hname, congrArg some hnew, fun hinit => ?_⟩, rfl, rfl⟩
        by_contra hres
        exact hfails ⟨hinit, hres⟩

theorem link_registered (h : Registered s l) (hmod : mod ≠ 0) (hlt : mod < wordMod) {res : ℤ}
    (hacc : Accepts s (s.desc mod) res) : Registered (link s mod) (mod::l) := by
  have hnew : cstr (s.desc mod).bytes ∉ names s l := by
    intro hmem
    have hfind := hacc.2.1
    rw [find_registered h] at hfind
    exact (first_ne_zero h.ne_zero).mpr hmem (Option.some.inj hfind)
  have hout : mod ∉ l := fun hin => hnew (List.mem_map.mpr ⟨mod, hin, rfl⟩)
  have hchain : Chain (link s mod).next (link s mod).head (mod::l) := chain_push h.chain hout hmod
  have hbound : ∀ x ∈ mod::l, x < wordMod := List.forall_mem_cons.mpr ⟨hlt, h.bound⟩
  refine ⟨hchain, ?_, List.nodup_cons.mpr ⟨hnew, h.distinct⟩, hbound⟩
  have hlen := chain_length_lt hchain (by decide) hbound
  rw [List.length_cons] at hlen
  change (s.count+1) % wordMod = l.length + 1
  rw [h.count, Nat.mod_eq_of_lt hlen]

/-! ## Unregistering -/

/-- The last module of a part of the list, NULL when there is none. -/
def lastModule (l : List ℕ) : ℕ := l.getLast?.getD 0

/-- The walk stops at the module of the name with its predecessor at hand, or at the end of the list. -/
theorem unregisterFrom_chain (h : Chain s.next p r) (hfuel : r.length < fuel) :
    unregisterFrom s name fuel (lastModule l) p = some (-1, s) ∨ ∃ r1 q r2, r = r1 ++ q::r2 ∧
      unregisterFrom s name fuel (lastModule l) p = some (0, unlink s (lastModule (l++r1)) q) := by
  induction r generalizing p fuel l with
  | nil =>
    cases fuel with
    | zero => cases hfuel
    | succ fuel =>
      obtain rfl : p = 0 := h
      exact .inl rfl
  | cons x r ih =>
    cases fuel with
    | zero => cases hfuel
    | succ fuel =>
      obtain ⟨rfl, h0, hrest⟩ := h
      rw [unregisterFrom, if_neg h0]
      by_cases hname : strcmp (s.desc p).bytes name = 0
      · rw [if_pos hname]
        refine .inr ⟨[], p, r, rfl, ?_⟩
        rw [List.append_nil]
      · rw [if_neg hname]
        have hlast : lastModule (l++[p]) = p := by
          unfold lastModule
          rw [List.getLast?_concat]
          rfl
        rcases ih (l := l++[p]) hrest (Nat.lt_of_succ_lt_succ hfuel) with hnone | ⟨r1, q, r2, rfl, hfound⟩
        · rw [hlast] at hnone
          exact .inl hnone
        · rw [hlast, List.append_assoc] at hfound
          exact .inr ⟨p::r1, q, r2, rfl, hfound⟩

theorem unlink_chain {q : ℕ} {l1 l2 : List ℕ} (h : Chain s.next s.head (l1 ++ q::l2)) :
    Chain (unlink s (lastModule l1) q).next (unlink s (lastModule l1) q).head (l1++l2) := by
  rcases List.eq_nil_or_concat l1 with rfl | ⟨l0, y, rfl⟩
  · obtain ⟨rfl, -, hrest⟩ := h
    exact hrest
  · have hlast : lastModule (l0.concat y) = y := by
      unfold lastModule
      rw [List.concat_eq_append, List.getLast?_concat]
      rfl
    rw [List.concat_eq_append, List.append_assoc] at h
    have hy : y ≠ 0 := seg_ne_zero h y (by simp)
    rw [hlast, List.concat_eq_append, List.append_assoc]
    unfold unlink
    rw [if_pos hy]
    exact chain_unlink h

theorem unlink_registered {q : ℕ} {l1 l2 : List ℕ} (h : Registered s (l1 ++ q::l2)) :
    Registered (unlink s (lastModule l1) q) (l1++l2) := by
  have hsub : List.Sublist (l1++l2) (l1 ++ q::l2) := List.Sublist.append_left (List.sublist_cons_self q l2) l1
  have hsame : (unlink s (lastModule l1) q).desc = s.desc ∧
      (unlink s (lastModule l1) q).count = (s.count + (wordMod-1)) % wordMod := by
    unfold unlink
    dsimp only
    split_ifs <;> exact ⟨rfl, rfl⟩
  refine ⟨unlink_chain h.chain, ?_, ?_, fun x hx => h.bound x (hsub.subset hx)⟩
  · have hlt := h.length_lt
    rw [hsame.2, h.count]
    simp only [List.length_append, List.length_cons] at hlt ⊢
    unfold wordMod at *
    omega
  · unfold names
    rw [hsame.1]
    exact h.distinct.sublist (hsub.map _)

theorem unregister_cases (h : Registered s l) (name : Option (List UInt8)) :
    moduleUnregister s name = some (-1, s) ∨ ∃ t l', moduleUnregister s name = some (0, t) ∧ Registered t l' ∧ t.live = s.live := by
  cases name with
  | none => exact .inl rfl
  | some name =>
    rcases @unregisterFrom_chain s [] l name walkBound s.head h.chain h.walk_lt with hnone | ⟨l1, q, l2, rfl, hfound⟩
    · exact .inl hnone
    · refine .inr ⟨_, _, hfound, unlink_registered h, ?_⟩
      unfold unlink
      dsimp only
      split_ifs <;> rfl

end Walks

/-! ## Calls -/

section Calls

variable {s t : Registry} {l : List ℕ} {mod size : ℕ} {res ret : ℤ} {desc : Descriptor} {image : Image} {c : Call}

theorem written_registered (h : Registered s l) (hallowed : Allowed s (.register mod desc res)) :
    let s' : Registry := { s with desc := Function.update s.desc mod desc }
    Registered s' l ∧ names s' l = names s l := by
  refine h.congr (fun _ _ => rfl) (fun x hx => ?_) rfl rfl
  by_cases he : x = mod
  · subst he
    exact (Function.update_self _ _ _).trans (hallowed.2 ((linked_iff h).mpr hx)).symm
  · exact Function.update_of_ne he _ _

theorem copied_registered (h : Registered s l) (hout : ¬ Linked s mod) (image : Image) :
    Registered (copied s mod image) l ∧ names (copied s mod image) l = names s l := by
  have hne : ∀ x ∈ l, x ≠ mod := fun x hx he => hout ((linked_iff h).mpr (he ▸ hx))
  exact h.congr (fun x hx => Function.update_of_ne (hne x hx) _ _) (fun x hx => Function.update_of_ne (hne x hx) _ _) rfl rfl

/-- A name is on a list or not, however the rest of memory looks. -/
theorem accepts_congr (h : Registered s l) (ht : Registered t l) (hnames : names t l = names s l) :
    Accepts t desc res ↔ Accepts s desc res := by
  have hfind : moduleFind t (some desc.bytes) = some 0 ↔ moduleFind s (some desc.bytes) = some 0 := by
    rw [find_registered ht, find_registered h, Option.some_inj, Option.some_inj]
    exact not_iff_not.mp ((first_ne_zero ht.ne_zero).trans (hnames ▸ (first_ne_zero h.ne_zero).symm))
  unfold Accepts
  rw [hfind]

/-- A call that is refused, or one that returns 0, needs no look at the heap. -/
def Unchanged (s t : Registry) : Prop := SameList s t ∧ t.count = s.count ∧ t.live = s.live

theorem unchanged_refl (s : Registry) : Unchanged s s := ⟨fun _ h => ⟨h, rfl⟩, rfl, rfl⟩

theorem register_call (h : Registered s l) (hallowed : Allowed s (.register mod desc res))
    (hret : perform s (.register mod desc res) = some (ret, t)) : (∃ l', Registered t l') ∧ (ret ≠ 0 → Unchanged s t) := by
  obtain ⟨hs', hnames⟩ := written_registered h hallowed
  rcases register_cases hs' hret with ⟨hmod, hacc, hzero, ht⟩ | ⟨-, -, rfl⟩
  · exact ⟨⟨_, ht ▸ link_registered hs' hmod hallowed.1 hacc⟩, fun hne => absurd hzero hne⟩
  · exact ⟨⟨l, hs'⟩, fun _ => ⟨sameList_of h hs' hnames, rfl, rfl⟩⟩

theorem unregister_call {name : Option (List UInt8)} (h : Registered s l)
    (hret : perform s (.unregister name) = some (ret, t)) : (∃ l', Registered t l') ∧ (ret ≠ 0 → Unchanged s t) := by
  rcases unregister_cases h name with hnone | ⟨t', l', hfound, ht', -⟩
  · obtain ⟨rfl, rfl⟩ := Prod.mk.inj (Option.some.inj (hret.symm.trans hnone))
    exact ⟨⟨l, h⟩, fun _ => unchanged_refl _⟩
  · obtain ⟨rfl, rfl⟩ := Prod.mk.inj (Option.some.inj (hret.symm.trans hfound))
    exact ⟨⟨l', ht'⟩, fun hne => absurd rfl hne⟩

/-- A load that has got no block changes nothing. -/
theorem load_none {data : Option Image} (h : ∀ image, data = some image → moduleSize ≤ size → mod = 0) :
    perform s (.load data size mod res) = some (-1, s) := by
  cases data with
  | none => rfl
  | some image =>
    unfold perform moduleLoadFromMemory
    dsimp only
    by_cases hsize : size < moduleSize
    · rw [if_pos hsize]
    · rw [if_neg hsize, if_pos (h image rfl (Nat.not_lt.mp hsize))]

theorem load_block (hsize : moduleSize ≤ size) (hmod : mod ≠ 0) :
    perform s (.load (some image) size mod res) = moduleRegister (copied s mod image) mod res := by
  unfold perform moduleLoadFromMemory
  dsimp only
  rw [if_neg (Nat.not_lt.mpr hsize), if_neg hmod]

theorem copied_desc : (copied s mod image).desc mod = image.desc := Function.update_self _ _ _

/-- The block of a load that is refused stays in use. -/
theorem block_call (h : Registered s l) (hallowed : Allowed s (.load (some image) size mod res)) (hsize : moduleSize ≤ size)
    (hmod : mod ≠ 0) (hret : perform s (.load (some image) size mod res) = some (ret, t)) :
    (∃ l', Registered t l') ∧ ((ret ≠ 0 → Unchanged s t) ↔ Accepts s image.desc res) := by
  obtain ⟨hlt, hfresh, hout⟩ := hallowed hmod
  obtain ⟨hs', hnames⟩ := copied_registered h hout image
  rw [load_block hsize hmod] at hret
  have hcases := register_cases hs' hret
  rw [copied_desc, accepts_congr h hs' hnames] at hcases
  rcases hcases with ⟨-, hacc, hzero, ht⟩ | ⟨hnot, hne, rfl⟩
  · have hlinked := link_registered hs' hmod hlt (copied_desc ▸ (accepts_congr h hs' hnames).mpr hacc)
    exact ⟨⟨_, ht ▸ hlinked⟩, iff_of_true (fun hne => absurd hzero hne) hacc⟩
  · refine ⟨⟨l, hs'⟩, iff_of_false (fun hkept => ?_) (fun hacc => hnot ⟨hmod, hacc⟩)⟩
    have hlive : insert mod s.live = s.live := (hkept hne).2.2
    exact hfresh (Finset.insert_eq_self.mp hlive)

/-- A call keeps the registry, and what it refuses is unchanged exactly when it is harmless. -/
theorem call_cases (h : Registered s l) (hallowed : Allowed s c) (hret : perform s c = some (ret, t)) :
    (∃ l', Registered t l') ∧ ((ret ≠ 0 → Unchanged s t) ↔ Harmless s c t) := by
  cases c with
  | register mod desc res =>
    obtain ⟨hl, hkept⟩ := register_call h hallowed hret
    exact ⟨hl, iff_of_true hkept trivial⟩
  | unregister name =>
    obtain ⟨hl, hkept⟩ := unregister_call h hret
    exact ⟨hl, iff_of_true hkept trivial⟩
  | load data size mod res =>
    by_cases hblock : ∃ image, data = some image ∧ moduleSize ≤ size ∧ mod ≠ 0
    · obtain ⟨image, rfl, hsize, hmod⟩ := hblock
      obtain ⟨hl, hiff⟩ := block_call h hallowed hsize hmod hret
      exact ⟨hl, hiff.trans ⟨fun hacc _ _ => hacc, fun hharmless => hharmless hsize hmod⟩⟩
    · have hnone : perform s (.load data size mod res) = some (-1, s) := by
        refine load_none (fun image himage hsize => ?_)
        by_contra hmod
        exact hblock ⟨image, himage, hsize, hmod⟩
      obtain ⟨rfl, rfl⟩ := Prod.mk.inj (Option.some.inj (hret.symm.trans hnone))
      refine ⟨⟨l, h⟩, iff_of_true (fun _ => unchanged_refl _) ?_⟩
      cases data with
      | none => trivial
      | some image => exact fun hsize hmod => absurd ⟨image, rfl, hsize, hmod⟩ hblock

theorem perform_returns (h : Registered s l) (hallowed : Allowed s c) : perform s c ≠ none := by
  cases c with
  | register mod desc res => exact register_none (written_registered h hallowed).1 res
  | unregister name =>
    rcases unregister_cases h name with hnone | ⟨t, l', hfound, -⟩
    · exact fun he => Option.some_ne_none _ (hnone.symm.trans he)
    · exact fun he => Option.some_ne_none _ (hfound.symm.trans he)
  | load data size mod res =>
    by_cases hblock : ∃ image, data = some image ∧ moduleSize ≤ size ∧ mod ≠ 0
    · obtain ⟨image, rfl, hsize, hmod⟩ := hblock
      rw [load_block hsize hmod]
      exact register_none (copied_registered h (hallowed hmod).2.2 image).1 res
    · rw [load_none (fun image himage hsize => by_contra (fun hmod => hblock ⟨image, himage, hsize, hmod⟩))]
      exact Option.some_ne_none _

theorem Registered.sound (h : Registered s l) : Sound s :=
  ⟨⟨l, h.chain, h.count, h.distinct, h.finds⟩, fun _ hallowed => perform_returns h hallowed⟩

theorem kept_iff (h : Registered s l) (hstep : Step s c t) : Kept s c t ↔ Harmless s c t := by
  obtain ⟨hallowed, ret, hret⟩ := hstep
  rw [← (call_cases h hallowed hret).2]
  constructor
  · exact fun hkept => hkept ret hret
  · intro hunchanged ret' hret'
    obtain ⟨rfl, -⟩ := Prod.mk.inj (Option.some.inj (hret.symm.trans hret'))
    exact hunchanged

theorem step_registered (h : ∃ l, Registered s l) (hstep : Step s c t) : ∃ l, Registered t l := by
  obtain ⟨l, hl⟩ := h
  obtain ⟨hallowed, ret, hret⟩ := hstep
  exact (call_cases hl hallowed hret).1

theorem initialised (s : Registry) : Registered (moduleInitSubsystem s) [] :=
  ⟨rfl, rfl, List.nodup_nil, fun _ h => absurd h List.not_mem_nil⟩

end Calls

/-- Whatever is called, the list stays whole. -/
theorem registry_sound (s : Registry) (tr : List (Call × Registry)) (hr : Run Step (moduleInitSubsystem s) tr) :
    Along (fun _ _ t => Sound t) (moduleInitSubsystem s) tr := by
  have hrun := @run_invariant _ _ Step (fun _ _ t => Sound t) (fun s => ∃ l, Registered s l)
    (fun _ _ _ h hstep => ⟨step_registered h hstep, (step_registered h hstep).elim (fun _ hl => hl.sound)⟩) _ tr
    ⟨[], initialised s⟩ hr
  exact along_mono (fun _ _ _ h => h.2) _ tr hrun

/-- In every run the registry is sound and refused calls leave nothing behind exactly when no load is refused that
has got its block. -/
theorem registry_kept_iff (s : Registry) (tr : List (Call × Registry)) (hr : Run Step (moduleInitSubsystem s) tr) :
    Along (fun s c t => Sound t ∧ Kept s c t) (moduleInitSubsystem s) tr ↔ Along Harmless (moduleInitSubsystem s) tr := by
  refine @run_guard_exact _ _ Step Harmless (fun s c t => Sound t ∧ Kept s c t) (fun s => ∃ l, Registered s l)
    (fun s c t h hstep hok => ?_) (fun s c t h hstep hkept => ?_) _ tr ⟨[], initialised s⟩ hr
  · obtain ⟨l', hl'⟩ := step_registered h hstep
    obtain ⟨l, hl⟩ := h
    exact ⟨⟨l', hl'⟩, hl'.sound, (kept_iff hl hstep).mpr hok⟩
  · obtain ⟨l, hl⟩ := h
    exact (kept_iff hl hstep).mp hkept.2

/-- A descriptor named `a` without functions. -/
def sampleDescriptor : Descriptor := ⟨97 :: List.replicate 151 0, rfl, by decide⟩

def emptyDescriptor : Descriptor := ⟨List.replicate 152 0, rfl, by decide⟩

def memory : Registry := ⟨fun _ => emptyDescriptor, fun _ => 0, fun _ => 0, 0, 0, ∅⟩

def booted : Registry := moduleInitSubsystem memory

def image (desc : Descriptor) : Image := ⟨desc, 0, 0⟩

theorem booted_allows (desc : Descriptor) : Allowed booted (.load (some (image desc)) 160 4096 0) := by
  refine fun _ => ⟨by decide, Finset.notMem_empty _, fun hlinked => ?_⟩
  cases (linked_iff (initialised _)).mp hlinked

theorem booted_load (desc : Descriptor) : perform booted (.load (some (image desc)) 160 4096 0) =
    if desc.name = [] then some (-1, copied booted 4096 (image desc))
    else some (0, link (copied booted 4096 (image desc)) 4096) := by
  have hout : ¬ Linked booted 4096 := (booted_allows desc (by decide)).2.2
  have hfind : moduleFind (copied booted 4096 (image desc)) (some desc.bytes) = some 0 :=
    find_registered (copied_registered (initialised memory) hout (image desc)).1
  have hbyte : (4096 = 0 ∨ desc.bytes.getD 0 0 = 0) ↔ desc.name = [] := by
    rw [byte_name]
    exact or_iff_right (by decide)
  have hinit : ¬ (desc.hasInit = true ∧ (0 : ℤ) ≠ 0) := fun h => h.2 rfl
  rw [load_block (by decide) (by decide), moduleRegister, copied_desc, show (image desc).desc = desc from rfl, hfind,
    Option.map_some, if_neg (fun h : 0 ≠ 0 => h rfl), if_neg hinit]
  exact if_congr hbyte rfl rfl

def loaded (s : Registry) (desc : Descriptor) : List (Call × Registry) :=
  [(.load (some (image desc)) 160 4096 0, s)]

theorem registry_kept_iff_sample : Along (fun s c t => Sound t ∧ Kept s c t) booted
    (loaded (link (copied booted 4096 (image sampleDescriptor)) 4096) sampleDescriptor) := by
  have hname : sampleDescriptor.name ≠ [] := by decide
  have hload := (booted_load sampleDescriptor).trans (if_neg hname)
  have hrun : Run Step booted (loaded (link (copied booted 4096 (image sampleDescriptor)) 4096) sampleDescriptor) :=
    ⟨⟨booted_allows sampleDescriptor, 0, hload⟩, trivial⟩
  refine (registry_kept_iff memory _ hrun).mpr ⟨fun _ _ => ?_, trivial⟩
  exact ⟨hname, find_registered (initialised memory), fun _ => rfl⟩

/-- The image has no name, and its block is lost. -/
theorem refused_block_lost : Run Step booted (loaded (copied booted 4096 (image emptyDescriptor)) emptyDescriptor) ∧
    ¬ Along (fun s c t => Sound t ∧ Kept s c t) booted
      (loaded (copied booted 4096 (image emptyDescriptor)) emptyDescriptor) := by
  have hload := (booted_load emptyDescriptor).trans (if_pos (by decide))
  refine ⟨⟨⟨booted_allows emptyDescriptor, -1, hload⟩, trivial⟩, fun h => ?_⟩
  have hlive := (h.1.2 (-1) hload (by decide)).2.2
  revert hlive
  decide

end Dionnex.ModuleRegistry
