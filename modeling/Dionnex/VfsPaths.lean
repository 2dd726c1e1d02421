import Mathlib.Data.List.TakeWhile
import Dionnex.NameResolution
import Dionnex.Vfs

/-!
# Paths as lists of names

The tokens of a path are its non-empty components, and as long as the
sibling links form chains a lookup follows them from the root.
-/

set_option autoImplicit false

namespace Dionnex.VfsPaths
open LinkedChain NameResolution Dionnex.KernelString Dionnex.Ramfs Dionnex.Vfs

/-- The names between slashes. -/
def parts (s : Path) : List Path := (s.splitOn slash).filter (fun c => c ≠ [])

/-- The components of a path as far as it is read. -/
def components (path : Path) : List Path := parts (bounded path)

section Parts

variable {s t : Path}

@[simp] theorem parts_nil : parts [] = [] := by simp [parts]

theorem parts_append : parts (s++slash::t) = parts s ++ parts t := by
  unfold parts List.splitOn
  rw [List.splitOnP_append_cons _ _ (by simp), List.filter_append]

theorem parts_slash : parts (slash::t) = parts t := by
  have h := @parts_append [] t
  simpa using h

theorem parts_name (h : slash ∉ s) (hs : s ≠ []) : parts s = [s] := by
  unfold parts List.splitOn
  rw [List.splitOnP_eq_singleton]
  · simp [hs]
  · intro c hc
    simpa using ne_of_mem_of_not_mem hc h

theorem parts_dropWhile : parts (s.dropWhile (fun c => c = slash)) = parts s := by
  induction s with
  | nil => rfl
  | cons c s ih =>
    by_cases hc : c = slash
    · rw [List.dropWhile_cons_of_pos (by simpa using hc), ih, hc, parts_slash]
    · rw [List.dropWhile_cons_of_neg (by simpa using hc)]

theorem takeWhile_slashFree : slash ∉ s.takeWhile (fun c => c ≠ slash) := by
  intro h
  have hne := List.mem_takeWhile_imp h
  simp at hne

theorem strtok_end (h : strtok (some s) = none) : parts s = [] := by
  unfold strtok at h
  dsimp only at h
  by_cases hs : s.dropWhile (fun c => c = slash) = []
  · rw [← parts_dropWhile, hs, parts_nil]
  · rw [if_neg hs] at h
    split at h
    · cases h
    · cases h

/-- Past leading slashes a string is its token, or its token, a slash and the rest. -/
theorem strtok_cases {token : Path} {rest : Option Path} (h : strtok (some s) = some (token, rest)) :
    slash ∉ token ∧ token ≠ [] ∧
    (rest = none ∧ s.dropWhile (fun c => c = slash) = token ∨
      ∃ r, rest = some r ∧ s.dropWhile (fun c => c = slash) = token ++ slash::r) := by
  unfold strtok at h
  dsimp only at h
  have hfront := List.head?_dropWhile_not (fun c => decide (c = slash)) s
  generalize s.dropWhile (fun c => c = slash) = u at *
  by_cases hu : u = []
  · rw [if_pos hu] at h
    cases h
  · rw [if_neg hu] at h
    have hwhole := @List.takeWhile_append_dropWhile _ (fun c => decide (c ≠ slash)) u
    have hfree := @takeWhile_slashFree u
    split at h
    · rename_i hend
      obtain ⟨rfl, rfl⟩ := Prod.mk.inj (Option.some.inj h)
      rw [hend, List.append_nil] at hwhole
      rw [hwhole] at hfree
      exact ⟨hfree, hu, Or.inl ⟨rfl, rfl⟩⟩
    · rename_i c r hrest
      obtain ⟨rfl, rfl⟩ := Prod.mk.inj (Option.some.inj h)
      have hc : c = slash := by
        have hhead := List.head?_dropWhile_not (fun c => decide (c ≠ slash)) u
        rw [hrest] at hhead
        simpa using hhead
      rw [hrest, hc] at hwhole
      have hne : u.takeWhile (fun c => decide (c ≠ slash)) ≠ [] := by
        intro h0
        rw [h0, List.nil_append] at hwhole
        rw [← hwhole] at hfront
        simp at hfront
      exact ⟨hfree, hne, Or.inr ⟨r, rfl, hwhole.symm⟩⟩

theorem strtok_token {token : Path} {rest : Option Path} (h : strtok (some s) = some (token, rest)) :
    parts s = token :: parts (rest.getD []) ∧ (rest.getD []).length < s.length := by
  obtain ⟨hfree, hne, hsplit⟩ := strtok_cases h
  have hshort : (s.dropWhile (fun c => c = slash)).length ≤ s.length := (List.dropWhile_suffix _).length_le
  have hpos := List.length_pos_iff.mpr hne
  rw [← parts_dropWhile]
  rcases hsplit with ⟨rfl, hu⟩ | ⟨r, rfl, hu⟩
  · rw [hu] at hshort ⊢
    refine ⟨parts_name hfree hne, ?_⟩
    simp
    omega
  · rw [hu] at hshort ⊢
    rw [parts_append, parts_name hfree hne]
    refine ⟨rfl, ?_⟩
    simp at hshort ⊢
    omega

theorem strtok_subset {token : Path} {rest : Option Path} (h : strtok (some s) = some (token, rest)) :
    token ⊆ s ∧ rest.getD [] ⊆ s := by
  obtain ⟨-, -, hsplit⟩ := strtok_cases h
  have hskip : s.dropWhile (fun c => c = slash) ⊆ s := (List.dropWhile_suffix _).subset
  rcases hsplit with ⟨rfl, hu⟩ | ⟨r, rfl, hu⟩
  · rw [hu] at hskip
    exact ⟨hskip, List.nil_subset s⟩
  · rw [hu] at hskip
    exact ⟨fun c hc => hskip (by simp [hc]), fun c hc => hskip (by simp at hc; simp [hc])⟩

end Parts

theorem bounded_eq (path : Path) : bounded path = (cstr path).take 255 :=
  strncpy_cstr 255 _ path (by decide)

theorem bounded_length (path : Path) : (bounded path).length ≤ 255 := by
  rw [bounded_eq, List.length_take]
  omega

theorem bounded_free (path : Path) : (0 : UInt8) ∉ bounded path := by
  rw [bounded_eq]
  exact fun h => cstr_nulFree path (List.mem_of_mem_take h)

/-- A short string is read as it is. -/
theorem bounded_self {s : Path} (hfree : (0 : UInt8) ∉ s) (hlen : s.length ≤ 255) : bounded s = s := by
  rw [bounded_eq, cstr_of_nulFree s hfree, List.take_of_length_le hlen]

theorem components_root {path : Path} (h : strcmp path [slash] = 0) : components path = [] := by
  rw [strcmp_eq_zero] at h
  rw [components, bounded_eq, h]
  decide

theorem strrchr_split {s : Path} {c : UInt8} {i : ℕ} (h : strrchr s c = some i) :
    s = s.take i ++ c :: s.drop (i+1) ∧ c ∉ s.drop (i+1) := by
  induction s generalizing i with
  | nil => cases h
  | cons a s ih =>
    rw [strrchr] at h
    cases hrest : strrchr s c with
    | some j =>
      rw [hrest] at h
      obtain rfl := Option.some.inj h
      obtain ⟨hs, hout⟩ := ih hrest
      rw [List.take_succ_cons, List.drop_succ_cons, List.cons_append, ← hs]
      exact ⟨rfl, hout⟩
    | none =>
      rw [hrest] at h
      have hac : a = c ∧ i = 0 := by
        by_cases hac : a = c
        · simpa [hac, eq_comm] using h
        · simp [hac] at h
      obtain ⟨rfl, rfl⟩ := hac
      refine ⟨rfl, ?_⟩
      clear ih h
      induction s with
      | nil => exact List.not_mem_nil
      | cons b s ih =>
        rw [strrchr] at hrest
        cases htail : strrchr s a with
        | some j =>
          rw [htail] at hrest
          cases hrest
        | none =>
          rw [htail] at hrest
          have hba : b ≠ a := by
            rintro rfl
            simp at hrest
          have hs : a ∉ s := ih htail
          simp [hs, Ne.symm hba]

/-- Taking a path apart takes the last component off, unless the path ends in a slash. -/
theorem splitPath_components {path parent name : Path} (h : splitPath path = some (parent, name)) :
    components path = components parent ++ (if name = [] then [] else [name]) ∧
    slash ∉ name ∧ (0 : UInt8) ∉ name := by
  obtain ⟨i, hi, hpair⟩ := Option.map_eq_some_iff.mp h
  obtain ⟨rfl, rfl⟩ := Prod.mk.inj hpair
  obtain ⟨hsplit, hout⟩ := strrchr_split hi
  have hfree := bounded_free path
  have hparent : components (if i = 0 then [slash] else (bounded path).take i) = parts ((bounded path).take i) := by
    by_cases hz : i = 0
    · rw [if_pos hz, hz, List.take_zero, parts_nil]
      decide
    · rw [if_neg hz, components, bounded_self]
      · exact fun h0 => hfree (List.mem_of_mem_take h0)
      · rw [List.length_take]
        have hlen := bounded_length path
        omega
  refine ⟨?_, hout, fun h0 => hfree (List.mem_of_mem_drop h0)⟩
  rw [hparent]
  conv_lhs => rw [components, hsplit, parts_append]
  congr 1
  by_cases hname : (bounded path).drop (i+1) = []
  · rw [if_pos hname, hname, parts_nil]
  · rw [if_neg hname, parts_name hout hname]

/-! ## Lookups -/

/-- The children of each directory, as the links give them. -/
structure Threaded (v : VfsState) (kids : ℕ → List ℕ) : Prop where
  chain : ∀ p, Chain v.next (v.nodes p).children (kids p)
  bound : ∀ p, ∀ x ∈ kids p, x < 4294967296

/-- What a directory has under a name; names are C strings. -/
def entry (v : VfsState) (kids : ℕ → List ℕ) (dir : Ref) (name : Path) : Option Ref :=
  if IsDir (flagsOf v dir) ∧ (0 : UInt8) ∉ name then
    match opsOf v dir, dir with
    | .root, .dir p => ((kids p).find? (fun x => strcmp (v.nodes x).name.bytes name = 0)).map .dir
    | .ramfs, _ => ramfsVfsFinddir v name
    | .procfs, _ => procfsVfsFinddir name
    | _, _ => none
  else none

section Lookups

variable {v : VfsState} {kids : ℕ → List ℕ}

theorem finddirLoop_find {name : Path} {fuel curr : ℕ} {l : List ℕ} (hl : Chain v.next curr l)
    (hf : l.length < fuel) : finddirLoop v name fuel curr =
      some ((l.find? (fun x => strcmp (v.nodes x).name.bytes name = 0)).map .dir) := by
  induction l generalizing fuel curr with
  | nil =>
    obtain ⟨fuel, rfl⟩ := Nat.exists_eq_succ_of_ne_zero (Nat.ne_of_gt hf)
    have hcurr : curr = 0 := hl
    rw [finddirLoop, if_pos hcurr]
    rfl
  | cons x l ih =>
    obtain ⟨fuel, rfl⟩ := Nat.exists_eq_succ_of_ne_zero (Nat.ne_of_gt (Nat.zero_lt_of_lt hf))
    obtain ⟨rfl, h0, hrest⟩ := hl
    rw [finddirLoop, if_neg h0]
    by_cases hname : strcmp (v.nodes curr).name.bytes name = 0
    · simp [hname]
    · rw [if_neg hname, ih hrest (by simpa using hf)]
      simp [hname]

theorem kids_length (h : Threaded v kids) (p : ℕ) : (kids p).length < walkBound := by
  have hlen := chain_length (h.chain p) (h.bound p)
  unfold walkBound
  omega

theorem finddir_entry (h : Threaded v kids) {dir : Ref} (hdir : IsDir (flagsOf v dir)) {name : Path}
    (hname : (0 : UInt8) ∉ name) : vfsFinddir v dir name = some (entry v kids dir name) := by
  unfold vfsFinddir entry
  rw [if_pos ⟨hdir, hname⟩]
  cases hops : opsOf v dir with
  | null => rfl
  | root =>
    cases dir with
    | dir p =>
      change vfsRootFinddir v p name = _
      rw [vfsRootFinddir, if_pos (show IsDir (v.nodes p).flags from hdir),
        finddirLoop_find (h.chain p) (kids_length h p)]
    | ram i => rfl
    | proc i => rfl
  | ramfs => rfl
  | procfs => rfl

theorem entry_none {dir : Ref} {name : Path} (h : ¬ (IsDir (flagsOf v dir) ∧ (0 : UInt8) ∉ name)) :
    entry v kids dir name = none :=
  if_neg h

theorem entry_dir {dir x : Ref} {name : Path} (h : entry v kids dir name = some x) :
    IsDir (flagsOf v dir) ∧ (0 : UInt8) ∉ name := by
  by_contra hdir
  rw [entry_none hdir] at h
  cases h

theorem lookupLoop_resolve (h : Threaded v kids) {fuel : ℕ} {curr : Ref} {saved : Option Path}
    (hf : (saved.getD []).length < fuel) (hfree : (0 : UInt8) ∉ saved.getD []) :
    lookupLoop v fuel curr saved = some (resolve (entry v kids) curr (parts (saved.getD []))) := by
  induction fuel generalizing curr saved with
  | zero => omega
  | succ fuel ih =>
    rw [lookupLoop]
    cases saved with
    | none => simp [strtok]
    | some s =>
      cases htok : strtok (some s) with
      | none => simp [strtok_end htok]
      | some t =>
        obtain ⟨token, rest⟩ := t
        obtain ⟨hparts, hshort⟩ := strtok_token htok
        obtain ⟨htoken, hrest⟩ := strtok_subset htok
        rw [Option.getD_some] at hf hfree ⊢
        rw [hparts, resolve]
        dsimp only
        by_cases hdir : IsDir (flagsOf v curr)
        · rw [if_neg (not_not.mpr hdir), finddir_entry h hdir (fun h0 => hfree (htoken h0)), Option.bind_some]
          cases hentry : entry v kids curr token with
          | none => rfl
          | some found => exact ih (by omega) (fun h0 => hfree (hrest h0))
        · rw [if_pos hdir, entry_none (fun h => hdir h.1)]
          rfl

/-- A lookup follows the components of the path from the root. -/
theorem lookup_resolve (h : Threaded v kids) (h0 : v.root ≠ 0) (path : Path) :
    vfsLookupPath v (some path) = some (resolve (entry v kids) (.dir v.root) (components path)) := by
  have hlen := bounded_length path
  change (if v.root = 0 then some none
    else if strcmp path [slash] = 0 then some (some (.dir v.root))
    else lookupLoop v 256 (.dir v.root) (some (bounded path))) = _
  rw [if_neg h0]
  by_cases hroot : strcmp path [slash] = 0
  · rw [if_pos hroot, components_root hroot, resolve_nil]
  · rw [if_neg hroot]
    exact @lookupLoop_resolve v kids h 256 (.dir v.root) (some (bounded path)) (Nat.lt_succ_of_le hlen)
      (bounded_free path)

/-- Paths with the same components are one path. -/
theorem lookup_alias (h : Threaded v kids) (h0 : v.root ≠ 0) {path other : Path}
    (hc : components other = components path) : vfsLookupPath v (some other) = vfsLookupPath v (some path) := by
  rw [lookup_resolve h h0, lookup_resolve h h0, hc]

theorem lookup_slash (h0 : v.root ≠ 0) : vfsLookupPath v (some [slash]) = some (some (.dir v.root)) := by
  have hslash : strcmp [slash] [slash] = 0 := by decide
  unfold vfsLookupPath
  dsimp only
  rw [if_neg h0, if_pos hslash]

/-- A lookup that reaches something had a root to start from. -/
theorem lookup_rooted {path : Path} {d : Ref} (h : vfsLookupPath v (some path) = some (some d)) : v.root ≠ 0 := by
  intro h0
  unfold vfsLookupPath at h
  dsimp only at h
  rw [if_pos h0] at h
  cases h

/-! ## Parents -/

section Parents

variable {path parent name : Path} {d : Ref}

theorem parentOf_some (h : parentOf v path = some (some (d, name))) :
    ∃ parent, splitPath path = some (parent, name) ∧ name.length < 128 ∧
      vfsLookupPath v (some parent) = some (some d) ∧ IsDir (flagsOf v d) := by
  unfold parentOf at h
  split at h
  · cases h
  · rename_i parent n hsplit
    by_cases hlen : 128 ≤ n.length
    · rw [if_pos hlen] at h
      cases h
    · rw [if_neg hlen] at h
      obtain ⟨found, hfound, hpair⟩ := Option.map_eq_some_iff.mp h
      cases found with
      | none => cases hpair
      | some e =>
        by_cases hdir : IsDir (flagsOf v e)
        · simp only [if_pos hdir] at hpair
          cases hpair
          exact ⟨parent, hsplit, by omega, hfound, hdir⟩
        · simp only [if_neg hdir] at hpair
          cases hpair

theorem parentOf_intro (hsplit : splitPath path = some (parent, name)) (hlen : name.length < 128)
    (hparent : vfsLookupPath v (some parent) = some (some d)) (hdir : IsDir (flagsOf v d)) :
    parentOf v path = some (some (d, name)) := by
  unfold parentOf
  rw [hsplit]
  dsimp only
  rw [if_neg (Nat.not_le.mpr hlen), hparent, Option.map_some]
  simp only [if_pos hdir]

end Parents

/-! ## Listings -/

/-- What a directory lists; `none` ends the listing. -/
def listed (v : VfsState) (kids : ℕ → List ℕ) (dir : Ref) (i : ℕ) : Option Ref :=
  match opsOf v dir, dir with
  | .root, .dir p => (kids p)[i]?.map .dir
  | .ramfs, _ => ramfsVfsReaddir v i
  | .procfs, _ => procfsVfsReaddir i
  | _, _ => none

theorem readdirLoop_get {index fuel curr idx : ℕ} {l : List ℕ} (hl : Chain v.next curr l)
    (hf : l.length < fuel) (hidx : idx ≤ index) :
    readdirLoop v index fuel curr idx = some (l[index-idx]?.map .dir) := by
  induction l generalizing fuel curr idx with
  | nil =>
    obtain ⟨fuel, rfl⟩ := Nat.exists_eq_succ_of_ne_zero (Nat.ne_of_gt hf)
    have hcurr : curr = 0 := hl
    rw [readdirLoop, if_pos hcurr]
    rfl
  | cons x l ih =>
    obtain ⟨fuel, rfl⟩ := Nat.exists_eq_succ_of_ne_zero (Nat.ne_of_gt (Nat.zero_lt_of_lt hf))
    obtain ⟨rfl, h0, hrest⟩ := hl
    rw [readdirLoop, if_neg h0]
    by_cases hindex : idx = index
    · simp [hindex]
    · have hlater : index-idx = (index-(idx+1))+1 := by omega
      rw [if_neg hindex, ih hrest (by simpa using hf) (by omega), hlater, List.getElem?_cons_succ]

theorem readdir_listed (h : Threaded v kids) {dir : Ref} (hdir : IsDir (flagsOf v dir)) (i : ℕ) :
    vfsReaddir v dir i = some (listed v kids dir i) := by
  unfold vfsReaddir listed
  cases hops : opsOf v dir with
  | null => rfl
  | root =>
    cases dir with
    | dir p =>
      change vfsRootReaddir v p i = _
      rw [vfsRootReaddir, if_pos (show IsDir (v.nodes p).flags from hdir),
        readdirLoop_get (h.chain p) (kids_length h p) (Nat.zero_le i), Nat.sub_zero]
    | ram i => rfl
    | proc i => rfl
  | ramfs => rfl
  | procfs => rfl

theorem listed_end (h : Threaded v kids) (dir : Ref) : listed v kids dir (walkBound-1) = none := by
  unfold listed
  cases opsOf v dir with
  | null => rfl
  | root =>
    cases dir with
    | dir p =>
      have hlen := kids_length h p
      simp only [Option.map_eq_none_iff, List.getElem?_eq_none_iff]
      omega
    | ram i => rfl
    | proc i => rfl
  | ramfs =>
    have hlen := (List.filter_sublist (p := fun i => (v.slots i).used) (l := List.finRange ramfsMaxFiles)).length_le
    rw [List.length_finRange] at hlen
    simp only [ramfsVfsReaddir, Option.map_eq_none_iff, List.getElem?_eq_none_iff]
    refine hlen.trans ?_
    decide
  | procfs =>
    simp only [procfsVfsReaddir, Option.map_eq_none_iff, List.getElem?_eq_none_iff, List.length_finRange]
    decide

theorem listLoop_ends {dir : Ref} {get : ℕ → Option Ref} (hget : ∀ i, vfsReaddir v dir i = some (get i))
    {n : ℕ} (hend : get n = none) {fuel i : ℕ} (hi : i ≤ n) (hf : n < fuel+i) :
    ∃ l, listLoop v dir fuel i = some l := by
  induction fuel generalizing i with
  | zero => omega
  | succ fuel ih =>
    rw [listLoop, hget]
    cases hchild : get i with
    | none => exact ⟨[], rfl⟩
    | some child =>
      have hne : i ≠ n := by
        rintro rfl
        rw [hend] at hchild
        cases hchild
      obtain ⟨rest, hrest⟩ := @ih (i+1) (by omega) (by omega)
      refine ⟨child::rest, ?_⟩
      change (listLoop v dir fuel (i+1)).map (fun rest => child::rest) = some (child::rest)
      rw [hrest, Option.map_some]

/-- Chains make every listing end. -/
theorem list_ends (h : Threaded v kids) (h0 : v.root ≠ 0) (path : Path) : ∃ l, vfsList v (some path) = some l := by
  unfold vfsList
  rw [lookup_resolve h h0, Option.bind_some]
  cases resolve (entry v kids) (.dir v.root) (components path) with
  | none => exact ⟨[], rfl⟩
  | some dir =>
    by_cases hdir : IsDir (flagsOf v dir)
    · simp only [if_pos hdir]
      exact listLoop_ends (readdir_listed h hdir) (listed_end h dir) (Nat.zero_le _) (by unfold walkBound; omega)
    · exact ⟨[dir], by simp only [if_neg hdir]⟩

end Lookups

end Dionnex.VfsPaths
