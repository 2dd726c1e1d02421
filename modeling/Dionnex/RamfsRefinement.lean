import Dionnex.BoundedMap
import Dionnex.Ramfs

/-!
# The RAM file system is a bounded map from names to contents

For names that fit a slot, the slot array stands for the map that sends the
name of each used slot to the bytes below its size. Each operation returns
what the map operation returns and leaves an array that stands for the new
map, so the two agree over any sequence of operations.
-/

set_option autoImplicit false

namespace Dionnex.RamfsRefinement
open Dionnex.KernelString Dionnex.Ramfs BoundedMaps

/-- The string value of a name argument of at most 63 bytes. -/
abbrev Name := {s : List UInt8 // (0 : UInt8) ∉ s ∧ s.length ≤ ramfsMaxName-1}

abbrev Contents := {v : List UInt8 // v.length ≤ ramfsMaxData}

abbrev FileMap := BoundedMap Name Contents ramfsMaxFiles

abbrev Result := ℤ × List UInt8

inductive Op where
  | create (name : Name)
  | delete (name : Name)
  | write (name : Name) (buf : ℕ → UInt8) (len : UInt32)
  | read (name : Name) (len : UInt32)

def step (fs : Slots) : Op → Result × Slots
  | .create name => (((ramfsCreate fs (some name.1)).1, []), (ramfsCreate fs (some name.1)).2)
  | .delete name => (((ramfsDelete fs (some name.1)).1, []), (ramfsDelete fs (some name.1)).2)
  | .write name buf len =>
    (((ramfsWrite fs (some name.1) (some buf) len.toNat).1, []),
      (ramfsWrite fs (some name.1) (some buf) len.toNat).2)
  | .read name len => (ramfsRead fs (some name.1) true len.toNat, fs)

def noContents : Contents := ⟨[], Nat.zero_le _⟩

/-- The first `min(len, 1024)` bytes of a buffer. -/
def firstBytes (buf : ℕ → UInt8) (len : ℕ) : Contents :=
  ⟨(List.range (min len ramfsMaxData)).map buf, by simp⟩

/-- What the file system is for: the operations on the map itself. -/
def mapStep (m : FileMap) : Op → Result × FileMap
  | .create name =>
    match BoundedMaps.create m name noContents with
    | some m' => ((0, []), m')
    | none => ((-1, []), m)
  | .delete name =>
    match BoundedMaps.delete m name with
    | some m' => ((0, []), m')
    | none => ((-1, []), m)
  | .write name buf len =>
    match BoundedMaps.write m name (firstBytes buf len.toNat) with
    | some m' => (((min len.toNat ramfsMaxData : ℕ), []), m')
    | none => ((-1, []), m)
  | .read name len =>
    match lookup m name with
    | some v => (((min len.toNat v.1.length : ℕ), v.1.take len.toNat), m)
    | none => ((-1, []), m)

def runSlots : Slots → List Op → List Result × Slots
  | fs, [] => ([], fs)
  | fs, op::ops => ((step fs op).1 :: (runSlots (step fs op).2 ops).1, (runSlots (step fs op).2 ops).2)

def runMap : FileMap → List Op → List Result × FileMap
  | m, [] => ([], m)
  | m, op::ops =>
    ((mapStep m op).1 :: (runMap (mapStep m op).2 ops).1, (runMap (mapStep m op).2 ops).2)

structure Represents (fs : Slots) (m : FileMap) : Prop where
  ok : SlotsOk fs
  files : ∀ (n : Name) (v : Contents), lookup m n = some v ↔
    ∃ i, (fs i).used = true ∧ key (fs i) = n.1 ∧ contents (fs i) = v.1

theorem cleared_represents : Represents ramfsCleared BoundedMaps.empty where
  ok := cleared_ok
  files n v := by
    rw [empty_lookup]
    exact iff_of_false (by simp) (fun ⟨_, h, _⟩ => by cases h)

theorem name_cstr (n : Name) : cstr n.1 = n.1 := cstr_of_nulFree n.1 n.2.1

theorem contents_length (f : RamfsFile) : (contents f).length = f.size := by simp [contents]

/-- A name is a key of the map exactly when some used slot carries it. -/
theorem has_slot (fs : Slots) (m : FileMap) (h : Represents fs m) (n : Name) :
    Has m n ↔ ∃ i, (fs i).used = true ∧ key (fs i) = n.1 := by
  rw [has_iff]
  constructor
  · rintro ⟨v, hv⟩
    obtain ⟨i, hu, hk, -⟩ := (h.files n v).mp hv
    exact ⟨i, hu, hk⟩
  · rintro ⟨i, hu, hk⟩
    have hlen : (contents (fs i)).length ≤ ramfsMaxData := by
      rw [contents_length]
      exact h.ok.sizeBound i hu
    exact ⟨⟨contents (fs i), hlen⟩, (h.files n _).mpr ⟨i, hu, hk, rfl⟩⟩

theorem find_slot (fs : Slots) (m : FileMap) (h : Represents fs m) (n : Name) :
    (Has m n ∧ ∃ i, ramfsFind fs (some n.1) = some i ∧ (fs i).used = true ∧ key (fs i) = n.1) ∨
      (¬ Has m n ∧ ramfsFind fs (some n.1) = none) := by
  cases hf : ramfsFind fs (some n.1) with
  | some i =>
    have hi := find_some fs n.1 i hf
    rw [name_cstr] at hi
    exact Or.inl ⟨(has_slot fs m h n).mpr ⟨i, hi⟩, i, rfl, hi⟩
  | none =>
    refine Or.inr ⟨fun hh => ?_, rfl⟩
    obtain ⟨i, hu, hk⟩ := (has_slot fs m h n).mp hh
    exact find_none fs n.1 hf i hu (hk.trans (name_cstr n).symm)

def slotName (fs : Slots) (hs : SlotsOk fs) (i : Slot) : Name :=
  ⟨key (fs i), cstr_nulFree _, cstr_length _ _ (hs.nameEnd i)⟩

/-- Distinct names make the number of keys the number of used slots. -/
theorem size_used (fs : Slots) (m : FileMap) (h : Represents fs m) :
    size m = (Finset.univ.filter (fun i => (fs i).used = true)).card := by
  have hkeys : m.map.keys =
      (Finset.univ.filter (fun i => (fs i).used = true)).image (slotName fs h.ok) := by
    ext n
    rw [Finmap.mem_keys]
    change Has m n ↔ _
    rw [has_slot fs m h n]
    simp [slotName, Subtype.ext_iff]
  rw [size, hkeys, Finset.card_image_of_injOn]
  intro i hi j hj hij
  have hi' : (fs i).used = true := by simpa using hi
  have hj' : (fs j).used = true := by simpa using hj
  exact h.ok.distinct i j hi' hj' (congrArg Subtype.val hij)

theorem full_iff (fs : Slots) (m : FileMap) (h : Represents fs m) :
    size m = ramfsMaxFiles ↔ ∀ i, (fs i).used = true := by
  have hcard : Fintype.card Slot = ramfsMaxFiles := Fintype.card_fin _
  rw [size_used fs m h]
  constructor
  · intro hc i
    have huniv := (Finset.card_eq_iff_eq_univ _).mp (hc.trans hcard.symm)
    have hi := Finset.mem_univ i
    rw [← huniv] at hi
    simpa using hi
  · intro hu
    rw [Finset.filter_true_of_mem (fun i _ => hu i)]
    exact hcard

/-- Rewriting one slot is one key of the map, whether the slot was free or
already carried the name. -/
theorem update_represents (fs : Slots) (m m' : FileMap) (h : Represents fs m) (i : Slot)
    (g : RamfsFile) (n : Name) (v : Contents)
    (hu : g.used = true) (hk : key g = n.1) (hc : contents g = v.1)
    (hend : g.name[ramfsMaxName-1]? = some 0) (hsize : g.size ≤ ramfsMaxData)
    (hnode : g.vfsNode.size = g.size)
    (hother : ∀ j, j ≠ i → (fs j).used = true → key (fs j) ≠ n.1)
    (hself : (fs i).used = true → key (fs i) = n.1)
    (hm : ∀ x, lookup m' x = if x = n then some v else lookup m x) :
    Represents (Function.update fs i g) m' := by
  refine ⟨⟨?_, ?_, ?_, ?_⟩, ?_⟩
  · exact (Function.forall_update_iff fs (fun _ f => f.name[ramfsMaxName-1]? = some 0)).mpr
      ⟨hend, fun j _ => h.ok.nameEnd j⟩
  · intro j l
    by_cases hj : j = i
    · by_cases hl : l = i
      · intro _ _ _; rw [hj, hl]
      · subst hj
        rw [Function.update_self, Function.update_of_ne hl, hk]
        intro _ hul he
        exact absurd he.symm (hother l hl hul)
    · by_cases hl : l = i
      · subst hl
        rw [Function.update_self, Function.update_of_ne hj, hk]
        intro huj _ he
        exact absurd he (hother j hj huj)
      · rw [Function.update_of_ne hj, Function.update_of_ne hl]
        exact h.ok.distinct j l
  · exact (Function.forall_update_iff fs (fun _ f => f.used = true → f.size ≤ ramfsMaxData)).mpr
      ⟨fun _ => hsize, fun j _ => h.ok.sizeBound j⟩
  · exact (Function.forall_update_iff fs (fun _ f => f.used = true → f.vfsNode.size = f.size)).mpr
      ⟨fun _ => hnode, fun j _ => h.ok.nodeSize j⟩
  · intro x w
    rw [hm]
    by_cases hx : x = n
    · subst hx
      rw [if_pos rfl, Option.some.injEq]
      constructor
      · rintro rfl
        exact ⟨i, by rw [Function.update_self]; exact ⟨hu, hk, hc⟩⟩
      · rintro ⟨j, huj, hkj, hcj⟩
        by_cases hj : j = i
        · subst hj
          rw [Function.update_self] at hcj
          exact Subtype.ext (hc.symm.trans hcj)
        · rw [Function.update_of_ne hj] at huj hkj
          exact absurd hkj (hother j hj huj)
    · rw [if_neg hx, h.files]
      have hval : x.1 ≠ n.1 := fun e => hx (Subtype.ext e)
      constructor
      · rintro ⟨j, huj, hkj, hcj⟩
        have hj : j ≠ i := by
          rintro rfl
          exact hval (hkj.symm.trans (hself huj))
        exact ⟨j, by rw [Function.update_of_ne hj]; exact ⟨huj, hkj, hcj⟩⟩
      · rintro ⟨j, huj, hkj, hcj⟩
        by_cases hj : j = i
        · subst hj
          rw [Function.update_self] at hkj
          exact absurd (hkj.symm.trans hk) hval
        · rw [Function.update_of_ne hj] at huj hkj hcj
          exact ⟨j, huj, hkj, hcj⟩

/-- Freeing a slot removes its key and nothing else. -/
theorem erase_represents (fs : Slots) (m m' : FileMap) (h : Represents fs m) (i : Slot)
    (g : RamfsFile) (n : Name) (hu : g.used = false) (hend : g.name[ramfsMaxName-1]? = some 0)
    (hi : (fs i).used = true) (hk : key (fs i) = n.1)
    (hm : ∀ x, lookup m' x = if x = n then none else lookup m x) :
    Represents (Function.update fs i g) m' := by
  have hused : ∀ j, (Function.update fs i g j).used = true → j ≠ i ∧ (fs j).used = true := by
    intro j hj
    by_cases he : j = i
    · subst he
      rw [Function.update_self, hu] at hj
      cases hj
    · rw [Function.update_of_ne he] at hj
      exact ⟨he, hj⟩
  refine ⟨⟨?_, ?_, ?_, ?_⟩, ?_⟩
  · exact (Function.forall_update_iff fs (fun _ f => f.name[ramfsMaxName-1]? = some 0)).mpr
      ⟨hend, fun j _ => h.ok.nameEnd j⟩
  · intro j l hj hl
    obtain ⟨hj, huj⟩ := hused j hj
    obtain ⟨hl, hul⟩ := hused l hl
    rw [Function.update_of_ne hj, Function.update_of_ne hl]
    exact h.ok.distinct j l huj hul
  · intro j hj
    obtain ⟨hj, huj⟩ := hused j hj
    rw [Function.update_of_ne hj]
    exact h.ok.sizeBound j huj
  · intro j hj
    obtain ⟨hj, huj⟩ := hused j hj
    rw [Function.update_of_ne hj]
    exact h.ok.nodeSize j huj
  · intro x w
    rw [hm]
    by_cases hx : x = n
    · subst hx
      rw [if_pos rfl]
      refine iff_of_false (by simp) ?_
      rintro ⟨j, huj, hkj, -⟩
      obtain ⟨hj, huj⟩ := hused j huj
      rw [Function.update_of_ne hj] at hkj
      exact hj (h.ok.distinct j i huj hi (hkj.trans hk.symm))
    · rw [if_neg hx, h.files]
      constructor
      · rintro ⟨j, huj, hkj, hcj⟩
        have hj : j ≠ i := by
          rintro rfl
          exact hx (Subtype.ext (hkj.symm.trans hk))
        exact ⟨j, by rw [Function.update_of_ne hj]; exact ⟨huj, hkj, hcj⟩⟩
      · rintro ⟨j, huj, hkj, hcj⟩
        obtain ⟨hj, huj⟩ := hused j huj
        rw [Function.update_of_ne hj] at hkj hcj
        exact ⟨j, huj, hkj, hcj⟩

theorem create_represents (fs : Slots) (m : FileMap) (h : Represents fs m) (name : Name) :
    (step fs (.create name)).1 = (mapStep m (.create name)).1 ∧
      Represents (step fs (.create name)).2 (mapStep m (.create name)).2 := by
  simp only [step, mapStep, ramfsCreate]
  rcases find_slot fs m h name with ⟨hh, i, hf, -⟩ | ⟨hh, hf⟩
  · rw [(create_none m name noContents).mpr (Or.inl hh), hf]
    simp [h]
  · rw [hf]
    cases hfree : (List.finRange ramfsMaxFiles).find? (fun i => !(fs i).used) with
    | none =>
      have hall : ∀ i, (fs i).used = true := fun i => by
        simpa using List.find?_eq_none.mp hfree i (List.mem_finRange i)
      rw [(create_none m name noContents).mpr (Or.inr ((full_iff fs m h).mpr hall))]
      simp [h]
    | some i =>
      have hi : (fs i).used = false := by simpa using List.find?_some hfree
      have hroom : size m < ramfsMaxFiles := by
        refine lt_of_le_of_ne m.bounded (fun he => ?_)
        have hu := (full_iff fs m h).mp he i
        rw [hi] at hu
        cases hu
      obtain ⟨m', hm', hlook⟩ := create_some m name noContents hh hroom
      have hkey : key (freshFile (fs i) i name.1) = name.1 := by
        rw [fresh_key fs h.ok, name_cstr]
        exact List.take_of_length_le name.2.2
      rw [hm']
      refine ⟨rfl, update_represents fs m m' h i _ name noContents rfl hkey rfl
        (fresh_nameEnd _ _ _ (h.ok.nameEnd i)) (Nat.zero_le _) rfl ?_ ?_ hlook⟩
      · intro j _ hu hk
        exact hh ((has_slot fs m h name).mpr ⟨j, hu, hk⟩)
      · intro hu
        rw [hi] at hu
        cases hu

theorem delete_represents (fs : Slots) (m : FileMap) (h : Represents fs m) (name : Name) :
    (step fs (.delete name)).1 = (mapStep m (.delete name)).1 ∧
      Represents (step fs (.delete name)).2 (mapStep m (.delete name)).2 := by
  simp only [step, mapStep, ramfsDelete]
  rcases find_slot fs m h name with ⟨hh, i, hf, hu, hk⟩ | ⟨hh, hf⟩
  · obtain ⟨m', hm', hlook⟩ := delete_some m name hh
    rw [hf, hm']
    refine ⟨rfl, erase_represents fs m m' h i _ name rfl ?_ hu hk hlook⟩
    rw [List.getElem?_set_ne (by decide)]
    exact h.ok.nameEnd i
  · rw [hf, BoundedMaps.delete_none m name hh]
    exact ⟨rfl, h⟩

theorem write_represents (fs : Slots) (m : FileMap) (h : Represents fs m) (name : Name)
    (buf : ℕ → UInt8) (len : UInt32) :
    (step fs (.write name buf len)).1 = (mapStep m (.write name buf len)).1 ∧
      Represents (step fs (.write name buf len)).2 (mapStep m (.write name buf len)).2 := by
  have hmin : (if len.toNat > ramfsMaxData then ramfsMaxData else len.toNat) =
      min len.toNat ramfsMaxData := by
    rw [Nat.min_def]
    split <;> split <;> omega
  simp only [step, mapStep, ramfsWrite]
  rcases find_slot fs m h name with ⟨hh, i, hf, hu, hk⟩ | ⟨hh, hf⟩
  · obtain ⟨m', hm', hlook⟩ := write_some m name (firstBytes buf len.toNat) hh
    rw [hf, hm']
    simp only [hmin]
    refine ⟨trivial, update_represents fs m m' h i _ name _ hu hk ?_ (h.ok.nameEnd i)
      (Nat.min_le_right _ _) rfl ?_ (fun _ => hk) hlook⟩
    · exact write_contents fs i buf _
    · intro j hj huj hkj
      exact hj (h.ok.distinct j i huj hu (hkj.trans hk.symm))
  · rw [hf, write_none m name _ hh]
    exact ⟨rfl, h⟩

theorem read_represents (fs : Slots) (m : FileMap) (h : Represents fs m) (name : Name)
    (len : UInt32) :
    (step fs (.read name len)).1 = (mapStep m (.read name len)).1 ∧
      Represents (step fs (.read name len)).2 (mapStep m (.read name len)).2 := by
  simp only [step, mapStep, ramfsRead]
  rcases find_slot fs m h name with ⟨hh, i, hf, hu, hk⟩ | ⟨hh, hf⟩
  · obtain ⟨v, hv⟩ := (has_iff m name).mp hh
    have hc : contents (fs i) = v.1 := by
      obtain ⟨j, huj, hkj, hcj⟩ := (h.files name v).mp hv
      rw [← h.ok.distinct j i huj hu (hkj.trans hk.symm)]
      exact hcj
    have hmin : (if len.toNat < (fs i).size then len.toNat else (fs i).size) =
        min len.toNat (fs i).size := by
      rw [Nat.min_def]
      split <;> split <;> omega
    rw [hf, hv]
    simp only [Bool.not_true, Bool.false_eq_true, if_false, hmin]
    refine ⟨?_, h⟩
    rw [← hc, contents_length, contents, ← List.map_take, List.take_range]
  · rw [hf, (not_has m name).mp hh]
    exact ⟨rfl, h⟩

theorem step_represents (fs : Slots) (m : FileMap) (h : Represents fs m) (op : Op) :
    (step fs op).1 = (mapStep m op).1 ∧ Represents (step fs op).2 (mapStep m op).2 := by
  cases op with
  | create name => exact create_represents fs m h name
  | delete name => exact delete_represents fs m h name
  | write name buf len => exact write_represents fs m h name buf len
  | read name len => exact read_represents fs m h name len

theorem run_represents (ops : List Op) (fs : Slots) (m : FileMap) (h : Represents fs m) :
    (runSlots fs ops).1 = (runMap m ops).1 ∧ Represents (runSlots fs ops).2 (runMap m ops).2 := by
  induction ops generalizing fs m with
  | nil => exact ⟨rfl, h⟩
  | cons op ops ih =>
    have hstep := step_represents fs m h op
    have hrest := ih _ _ hstep.2
    simp only [runSlots, runMap]
    rw [hstep.1, hrest.1]
    exact ⟨rfl, hrest.2⟩

/-- From the cleared table, every sequence of operations returns what the
bounded map returns, and the slots stay well formed. -/
theorem ramfs_is_bounded_map (ops : List Op) :
    (runSlots ramfsCleared ops).1 = (runMap BoundedMaps.empty ops).1 ∧
      Represents (runSlots ramfsCleared ops).2 (runMap BoundedMaps.empty ops).2 ∧
      SlotsOk (runSlots ramfsCleared ops).2 := by
  have h := run_represents ops _ _ cleared_represents
  exact ⟨h.1, h.2, h.2.ok⟩

end Dionnex.RamfsRefinement
