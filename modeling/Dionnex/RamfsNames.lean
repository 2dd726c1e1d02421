import Dionnex.RamfsRefinement
import Dionnex.VfsFiles

/-!
# Names longer than a slot holds

`ramfs_create` looks for the whole name and stores the first 63 bytes of it.
A file is found again under its name, cannot be created twice and keeps the
slots apart until it is deleted, as long as no longer name takes a slot.
-/

set_option autoImplicit false

namespace Dionnex.RamfsNames
open Dionnex.KernelString Dionnex.Ramfs Dionnex.RamfsResidue Dionnex.Vfs Dionnex.VfsFiles

/-- A string of any length, without its NUL. -/
abbrev CString := {s : List UInt8 // (0 : UInt8) ∉ s}

inductive Call where
  | create (name : CString)
  | delete (name : CString)

def invoke (fs : Slots) : Call → ℤ × Slots
  | .create name => ramfsCreate fs (some name.1)
  | .delete name => ramfsDelete fs (some name.1)

/-- The name is found, is not created again and can be deleted. -/
structure Present (fs : Slots) (name : CString) : Prop where
  found : (ramfsFind fs (some name.1)).isSome
  exclusive : (ramfsCreate fs (some name.1)).1 = -1
  deletable : (ramfsDelete fs (some name.1)).1 = 0

def PresentUntil (name : CString) : Slots → List Call → Prop
  | fs, [] => Present fs name
  | fs, c::cs => Present fs name ∧ (c ≠ .delete name → PresentUntil name (invoke fs c).2 cs)

/-- No two used slots hold one name. -/
def Unique (fs : Slots) : Prop :=
  ∀ i j, (fs i).used = true → (fs j).used = true → key (fs i) = key (fs j) → i = j

/-- The slots are unique at all times, and a name that is created stays present until it is deleted. -/
def Lasting : Slots → List Call → Prop
  | fs, [] => Unique fs
  | fs, c::cs => Unique fs ∧
      (∀ name, c = .create name → (invoke fs c).1 = 0 → PresentUntil name (invoke fs c).2 cs) ∧
      Lasting (invoke fs c).2 cs

/-- A name to be created is stored whole, or there is no slot for it. -/
def Fits (fs : Slots) : Call → Prop
  | .create name => name.1.length ≤ ramfsMaxName-1 ∨ ∀ i, (fs i).used = true
  | .delete _ => True

def FitsAlong : Slots → List Call → Prop
  | _, [] => True
  | fs, c::cs => Fits fs c ∧ FitsAlong (invoke fs c).2 cs

/-- The slots after `ramfs_init`. -/
def initialized : Slots := (ramfsInit noFiles 0).slots

/-! ## Single calls -/

section Calls

variable {fs : Slots} {name other : CString} {c : Call} {i : Slot}

def Held (fs : Slots) (name : CString) : Prop := ∃ i, (fs i).used = true ∧ key (fs i) = name.1

theorem find_held : (ramfsFind fs (some name.1)).isSome ↔ Held fs name := by
  constructor
  · intro h
    obtain ⟨i, hi⟩ := Option.isSome_iff_exists.mp h
    have hkey := find_some fs name.1 i hi
    rw [cstr_of_nulFree name.1 name.2] at hkey
    exact ⟨i, hkey⟩
  · intro ⟨i, hused, hkey⟩
    cases hfind : ramfsFind fs (some name.1) with
    | some j => rfl
    | none =>
      have hne := find_none fs name.1 hfind i hused
      rw [cstr_of_nulFree name.1 name.2] at hne
      exact (hne hkey).elim

theorem present_held : Present fs name ↔ Held fs name := by
  rw [← find_held]
  constructor
  · intro h
    exact h.found
  · intro h
    refine ⟨h, ?_, ?_⟩
    · rw [ramfsCreate, if_pos h]
    · obtain ⟨i, hi⟩ := Option.isSome_iff_exists.mp h
      rw [ramfsDelete, hi]

theorem create_fresh (hfind : ramfsFind fs (some name.1) = none) (hfree : ¬ ∀ i, (fs i).used = true) :
    ∃ i, (fs i).used = false ∧
      ramfsCreate fs (some name.1) = (0, Function.update fs i (freshFile (fs i) i name.1)) := by
  unfold ramfsCreate
  dsimp only
  rw [hfind, if_neg (by simp)]
  cases hslot : (List.finRange ramfsMaxFiles).find? (fun i => !(fs i).used) with
  | none =>
    have hall := List.find?_eq_none.mp hslot
    exact (hfree (fun i => by simpa using hall i (List.mem_finRange i))).elim
  | some i =>
    have hused := List.find?_some hslot
    exact ⟨i, by simpa using hused, rfl⟩

/-- A call changes nothing, fills a free slot or frees the slot of its name. -/
theorem invoke_cases (fs : Slots) (c : Call) :
    invoke fs c = (-1, fs) ∨
    (∃ name i, c = .create name ∧ ramfsFind fs (some name.1) = none ∧ (fs i).used = false ∧
      invoke fs c = (0, Function.update fs i (freshFile (fs i) i name.1))) ∨
    (∃ name i, c = .delete name ∧ (fs i).used = true ∧ key (fs i) = name.1 ∧
      invoke fs c = (0, Function.update fs i
        { fs i with used := false, size := 0, name := (fs i).name.set 0 0 })) := by
  cases c with
  | create name =>
    by_cases hfound : (ramfsFind fs (some name.1)).isSome
    · apply Or.inl
      rw [invoke, ramfsCreate, if_pos hfound]
    · have hnone : ramfsFind fs (some name.1) = none := by simpa using hfound
      by_cases hfull : ∀ i, (fs i).used = true
      · apply Or.inl
        have hslot : (List.finRange ramfsMaxFiles).find? (fun i => !(fs i).used) = none := by
          rw [List.find?_eq_none]
          intro i _
          simp [hfull i]
        rw [invoke, ramfsCreate, if_neg hfound, hslot]
      · obtain ⟨i, hfree, hcreate⟩ := create_fresh hnone hfull
        exact Or.inr (Or.inl ⟨name, i, rfl, hnone, hfree, hcreate⟩)
  | delete name =>
    cases hfind : ramfsFind fs (some name.1) with
    | none =>
      apply Or.inl
      rw [invoke, ramfsDelete, hfind]
    | some i =>
      have hkey := find_some fs name.1 i hfind
      rw [cstr_of_nulFree name.1 name.2] at hkey
      refine Or.inr (Or.inr ⟨name, i, rfl, hkey.1, hkey.2, ?_⟩)
      rw [invoke, ramfsDelete, hfind]

theorem invoke_plain (h : ∀ i, Plain (fs i)) (c : Call) (i : Slot) : Plain ((invoke fs c).2 i) := by
  cases c with
  | create name =>
    apply @perform_plain fs (invoke fs (.create name)).2 (.create (some name.1)) h
    rfl
  | delete name =>
    apply @perform_plain fs (invoke fs (.delete name)).2 (.delete (some name.1)) h
    rfl

theorem fits_short (hfits : Fits fs (.create name)) (hfree : (fs i).used = false) :
    name.1.length < ramfsMaxName := by
  rcases hfits with hlen | hfull
  · unfold ramfsMaxName at *
    omega
  · rw [hfull i] at hfree
    cases hfree

/-- A slot may be changed to a name that no other slot holds. -/
theorem unique_update {file : RamfsFile} (hu : Unique fs)
    (hnew : file.used = true → ∀ j, (fs j).used = true → j ≠ i → key (fs j) ≠ key file) :
    Unique (Function.update fs i file) := by
  intro j l
  by_cases hj : j = i
  · subst hj
    by_cases hl : l = j
    · intro _ _ _
      exact hl.symm
    · rw [Function.update_self, Function.update_of_ne hl]
      intro hused hul he
      exact (hnew hused l hul hl he.symm).elim
  · by_cases hl : l = i
    · subst hl
      rw [Function.update_self, Function.update_of_ne hj]
      intro huj hused he
      exact (hnew hused j huj hj he).elim
    · rw [Function.update_of_ne hj, Function.update_of_ne hl]
      exact hu j l

theorem invoke_unique (h : ∀ i, Plain (fs i)) (hu : Unique fs) (hfits : Fits fs c) : Unique (invoke fs c).2 := by
  rcases invoke_cases fs c with hsame | ⟨name, i, rfl, hfind, hfree, hfresh⟩ | ⟨name, i, rfl, -, -, hfreed⟩
  · rw [hsame]
    exact hu
  · rw [hfresh]
    apply unique_update hu
    intro _ j hj _
    have hne := find_none fs name.1 hfind j hj
    rw [cstr_of_nulFree name.1 name.2] at hne
    rw [short_key (h i) name.2 (fits_short hfits hfree)]
    exact hne
  · rw [hfreed]
    apply unique_update hu
    intro hused
    cases hused

/-- Only its own deletion takes a name away. -/
theorem invoke_held (hheld : Held fs other) (hc : c ≠ .delete other) : Held (invoke fs c).2 other := by
  obtain ⟨j, hused, hkey⟩ := hheld
  rcases invoke_cases fs c with hsame | ⟨name, i, rfl, hfind, hfree, hfresh⟩ | ⟨name, i, rfl, hi, hname, hfreed⟩
  · rw [hsame]
    exact ⟨j, hused, hkey⟩
  · have hj : j ≠ i := by
      rintro rfl
      rw [hused] at hfree
      cases hfree
    rw [hfresh]
    refine ⟨j, ?_⟩
    dsimp only
    rw [Function.update_of_ne hj]
    exact ⟨hused, hkey⟩
  · have hj : j ≠ i := by
      rintro rfl
      apply hc
      rw [Subtype.ext (hname.symm.trans hkey)]
    rw [hfreed]
    refine ⟨j, ?_⟩
    dsimp only
    rw [Function.update_of_ne hj]
    exact ⟨hused, hkey⟩

theorem created_held (h : ∀ i, Plain (fs i)) (hfits : Fits fs (.create name))
    (hzero : (invoke fs (.create name)).1 = 0) : Held (invoke fs (.create name)).2 name := by
  rcases invoke_cases fs (.create name) with hsame | ⟨n, i, hn, -, hfree, hfresh⟩ | ⟨n, i, hn, -⟩
  · rw [hsame] at hzero
    cases hzero
  · cases hn
    rw [hfresh]
    refine ⟨i, ?_⟩
    dsimp only
    rw [Function.update_self, short_key (h i) name.2 (fits_short hfits hfree)]
    exact ⟨rfl, rfl⟩
  · cases hn

/-- A longer name takes a slot and is not found in it. -/
theorem long_created (h : ∀ i, Plain (fs i)) (hfits : ¬ Fits fs (.create name)) :
    (invoke fs (.create name)).1 = 0 ∧ ¬ Held (invoke fs (.create name)).2 name := by
  have hlong : ramfsMaxName ≤ name.1.length := by
    by_contra hlen
    apply hfits
    left
    unfold ramfsMaxName at *
    omega
  have hfree : ¬ ∀ i, (fs i).used = true := fun hfull => hfits (Or.inr hfull)
  obtain ⟨i, -, hcreate⟩ := create_fresh (long_find h name.2 hlong) hfree
  constructor
  · rw [invoke, hcreate]
  · rw [← find_held, long_find (invoke_plain h _) name.2 hlong]
    simp

end Calls

/-! ## Sequences of calls -/

theorem held_until {fs : Slots} {name : CString} (hheld : Held fs name) (cs : List Call) : PresentUntil name fs cs := by
  induction cs generalizing fs with
  | nil => exact present_held.mpr hheld
  | cons c cs ih => exact ⟨present_held.mpr hheld, fun hc => ih (invoke_held hheld hc)⟩

theorem until_present {fs : Slots} {name : CString} {cs : List Call} (h : PresentUntil name fs cs) :
    Present fs name := by
  cases cs with
  | nil => exact h
  | cons c cs => exact h.1

theorem lasting_fits {fs : Slots} (h : ∀ i, Plain (fs i)) (hu : Unique fs) (cs : List Call) :
    Lasting fs cs ↔ FitsAlong fs cs := by
  induction cs generalizing fs with
  | nil => exact iff_of_true hu trivial
  | cons c cs ih =>
    rw [Lasting, FitsAlong]
    constructor
    · intro ⟨_, hkept, hrest⟩
      have hfits : Fits fs c := by
        cases c with
        | create name =>
          by_contra hlong
          obtain ⟨hzero, hlost⟩ := long_created h hlong
          exact hlost (present_held.mp (until_present (hkept name rfl hzero)))
        | delete name => trivial
      exact ⟨hfits, (ih (invoke_plain h c) (invoke_unique h hu hfits)).mp hrest⟩
    · intro ⟨hfits, hrest⟩
      refine ⟨hu, ?_, (ih (invoke_plain h c) (invoke_unique h hu hfits)).mpr hrest⟩
      rintro name rfl hzero
      exact held_until (created_held h hfits hzero) cs

theorem initialized_unique : Unique initialized := by
  have hname : (0 : UInt8) ∉ readmeName ∧ readmeName.length ≤ ramfsMaxName-1 := by decide
  have h := RamfsRefinement.ramfs_is_bounded_map
    [.create ⟨readmeName, hname⟩, .write ⟨readmeName, hname⟩ (fun k => welcome.getD k 0) 42]
  exact h.2.2.distinct

/-- From `ramfs_init` on, each created name lasts until it is deleted and no two
slots share one exactly when no name of more than 63 bytes takes a slot. -/
theorem names_last_iff (cs : List Call) : Lasting initialized cs ↔ FitsAlong initialized cs :=
  lasting_fits (@ramfsInit_plain 0 0) initialized_unique cs

/-- Sixty-four letters. -/
def longName : CString := ⟨List.replicate 64 97, by decide⟩

/-- The call succeeds, and the file is not found afterwards. -/
theorem long_name_created_twice : ¬ ∀ cs, Lasting initialized cs := by
  intro h
  have hplain : ∀ i, Plain (initialized i) := @ramfsInit_plain 0 0
  have hlong : ¬ Fits initialized (.create longName) := by
    intro hfits
    rcases hfits with hlen | hfull
    · exact absurd hlen (by decide)
    · exact absurd (hfull ⟨1, by decide⟩) (by decide +kernel)
  obtain ⟨hzero, hlost⟩ := long_created hplain hlong
  have hkept := (h [.create longName, .create longName]).2.1 longName rfl hzero
  exact hlost (present_held.mp (until_present hkept))

end Dionnex.RamfsNames
