import Dionnex.VfsPaths

/-!
# The tokenizer in the path buffer

`strtok` keeps a position in the buffer between calls, skips delimiters,
ends the token with a NUL and moves behind it. The string behind the position
is what the list tokenizer has left over, so a lookup in the buffer is the
fold over the components of the path, whatever the stack and the position of
the last use held before.
-/

set_option autoImplicit false

namespace Dionnex.PathTokens
open LinkedChain Dionnex.KernelString Dionnex.Ramfs Dionnex.Vfs Dionnex.VfsPaths

/-- The buffer and `strtok_saved`. -/
structure Tokenizer where
  buf : List UInt8
  saved : Option ℕ

/-- `while (*p && test(*p)) p++;` on the bytes from position `p` on. -/
def scan (test : UInt8 → Bool) : List UInt8 → ℕ → ℕ
  | [], p => p
  | c::cs, p => if c ≠ 0 ∧ test c = true then scan test cs (p+1) else p

def isSlash (c : UInt8) : Bool := decide (c = slash)

def notSlash (c : UInt8) : Bool := decide (c ≠ slash)

/-- `strtok(str, "/")`; the position of the token in the buffer. -/
def strtokBuffer (t : Tokenizer) (str : Option ℕ) : Option ℕ × Tokenizer :=
  match str.or t.saved with
  | none => (none, { t with saved := none })
  | some saved =>
    let start := scan isSlash (t.buf.drop saved) saved
    if t.buf.getD start 0 = 0 then (none, { t with saved := some start })
    else
      let stop := scan notSlash (t.buf.drop start) start
      if t.buf.getD stop 0 ≠ 0 then (some start, { buf := t.buf.set stop 0, saved := some (stop+1) })
      else (some start, { t with saved := none })

/-- The loop of `vfs_lookup_path`. -/
def lookupTokens (v : VfsState) : ℕ → Ref → Option ℕ × Tokenizer → Option (Option Ref)
  | 0, _, _ => none
  | _+1, curr, (none, _) => some (some curr)
  | fuel+1, curr, (some token, t) =>
    if ¬ IsDir (flagsOf v curr) then some none
    else (vfsFinddir v curr (t.buf.drop token)).bind (fun found =>
      match found with
      | none => some none
      | some found => lookupTokens v fuel found (strtokBuffer t none))

/-- `stack` is what `tmp_path` holds before, `saved` what `strtok_saved` is. -/
def vfsLookupBuffer (v : VfsState) (stack : Fin 256 → UInt8) (saved : Option ℕ) (path : Option Path) :
    Option (Option Ref) :=
  match path with
  | none => some none
  | some path =>
    if v.root = 0 then some none
    else if strcmp path [slash] = 0 then some (some (.dir v.root))
    else
      let tmpPath := (strncpy 255 (List.ofFn stack) path).set 255 0
      lookupTokens v 256 (.dir v.root) (strtokBuffer ⟨tmpPath, saved⟩ (some 0))

/-! ## Strings in the buffer -/

section Strings

variable {test : UInt8 → Bool} {l : List UInt8} {p n : ℕ}

theorem scan_from (test : UInt8 → Bool) (l : List UInt8) (p : ℕ) : scan test l p = p + scan test l 0 := by
  induction l generalizing p with
  | nil => rfl
  | cons c l ih =>
    rw [scan, scan]
    by_cases hc : c ≠ 0 ∧ test c = true
    · rw [if_pos hc, if_pos hc, ih (p+1), ih 1]
      omega
    · rw [if_neg hc, if_neg hc]
      rfl

theorem scan_cons {c : UInt8} (hc : c ≠ 0) (ht : test c = true) : scan test (c::l) 0 = scan test l 0 + 1 := by
  rw [scan, if_pos ⟨hc, ht⟩, scan_from]
  omega

/-- A scan stops where the rest of the string begins. -/
theorem scan_dropWhile (test : UInt8 → Bool) (l : List UInt8) :
    cstr (l.drop (scan test l 0)) = (cstr l).dropWhile test := by
  induction l with
  | nil => rfl
  | cons c l ih =>
    by_cases hc : c = 0
    · simp [scan, hc]
    · by_cases ht : test c = true
      · rw [scan_cons hc ht, List.drop_succ_cons, ih, cstr_cons c l hc, List.dropWhile_cons_of_pos ht]
      · have hstay : scan test (c::l) 0 = 0 := by simp [scan, ht]
        rw [hstay, List.drop_zero, cstr_cons c l hc, List.dropWhile_cons_of_neg ht]

/-- A NUL where the scan stops ends the string there. -/
theorem scan_takeWhile (test : UInt8 → Bool) (l : List UInt8) :
    cstr (l.set (scan test l 0) 0) = (cstr l).takeWhile test := by
  induction l with
  | nil => rfl
  | cons c l ih =>
    by_cases hc : c = 0
    · simp [scan, hc]
    · by_cases ht : test c = true
      · rw [scan_cons hc ht, List.set_cons_succ, cstr_cons c _ hc, ih, cstr_cons c l hc,
          List.takeWhile_cons_of_pos ht]
      · have hstay : scan test (c::l) 0 = 0 := by simp [scan, ht]
        rw [hstay, List.set_cons_zero, cstr_zero, cstr_cons c l hc, List.takeWhile_cons_of_neg ht]

theorem byte_end : l.getD n 0 = 0 ↔ cstr (l.drop n) = [] := by
  induction l generalizing n with
  | nil => simp
  | cons c l ih =>
    cases n with
    | zero =>
      rw [List.getD_cons_zero, List.drop_zero]
      by_cases hc : c = 0
      · simp [hc]
      · simp [hc, cstr_cons c l hc]
    | succ n => simpa using @ih n

theorem cstr_tail {c : UInt8} {r : List UInt8} (h : cstr l = c::r) : cstr (l.drop 1) = r := by
  cases l with
  | nil => cases h
  | cons b l =>
    by_cases hb : b = 0
    · simp [hb] at h
    · rw [cstr_cons b l hb] at h
      exact (List.cons.inj h).2

theorem strncpy_cut (n : ℕ) (dest src : List UInt8) (h : n < dest.length) :
    cstr ((strncpy n dest src).set n 0) = (cstr src).take n := by
  have hset : (strncpy n dest src).set n 0 = strncpy n (dest.set n 0) src := by
    clear h
    induction n generalizing dest src with
    | zero => rfl
    | succ n ih =>
      cases dest with
      | nil => rfl
      | cons d dest =>
        cases src with
        | nil => simp [strncpy, ih]
        | cons c src => by_cases hc : c = 0 <;> simp [strncpy, hc, ih]
  rw [hset, strncpy_cstr n _ src]
  rw [List.getElem?_set_self h]

end Strings

/-! ## The two tokenizers -/

/-- The string that is left over. -/
def Tokenizer.rest (t : Tokenizer) : Option Path := t.saved.map (fun p => cstr (t.buf.drop p))

section Tokens

variable {t : Tokenizer} {v : VfsState}

theorem strtokBuffer_end {p : ℕ} (h : strtok (some (cstr (t.buf.drop p))) = none) (str : Option ℕ)
    (hp : str.or t.saved = some p) : (strtokBuffer t str).1 = none := by
  unfold strtok at h
  dsimp only at h
  by_cases hs : (cstr (t.buf.drop p)).dropWhile (fun c => c = slash) = []
  · have hstart : t.buf.getD (scan isSlash (t.buf.drop p) p) 0 = 0 := by
      rw [byte_end, scan_from, ← List.drop_drop, scan_dropWhile]
      exact hs
    unfold strtokBuffer
    rw [hp]
    dsimp only
    rw [if_pos hstart]
  · rw [if_neg hs] at h
    split at h
    · cases h
    · cases h

/-- A token in the buffer is the token of the string that is left over, and so is what it leaves. -/
theorem strtokBuffer_token {p : ℕ} {token : Path} {rest : Option Path}
    (h : strtok (some (cstr (t.buf.drop p))) = some (token, rest)) (str : Option ℕ)
    (hp : str.or t.saved = some p) :
    ∃ q, (strtokBuffer t str).1 = some q ∧ cstr ((strtokBuffer t str).2.buf.drop q) = token ∧
      (strtokBuffer t str).2.rest = rest := by
  unfold strtok at h
  dsimp only at h
  by_cases hs : (cstr (t.buf.drop p)).dropWhile (fun c => c = slash) = []
  · rw [if_pos hs] at h
    cases h
  · rw [if_neg hs] at h
    generalize hq : scan isSlash (t.buf.drop p) p = q
    have hskip : cstr (t.buf.drop q) = (cstr (t.buf.drop p)).dropWhile (fun c => c = slash) := by
      rw [← hq, scan_from, ← List.drop_drop, scan_dropWhile]
      rfl
    rw [← hskip] at h hs
    have hstart : ¬ t.buf.getD q 0 = 0 := fun h0 => hs (byte_end.mp h0)
    generalize hr : scan notSlash (t.buf.drop q) q = r
    have hlen : r = q + scan notSlash (t.buf.drop q) 0 := by rw [← hr, scan_from]
    have hstop : cstr (t.buf.drop r) = (cstr (t.buf.drop q)).dropWhile (fun c => c ≠ slash) := by
      rw [hlen, ← List.drop_drop, scan_dropWhile]
      rfl
    refine ⟨q, ?_⟩
    unfold strtokBuffer
    rw [hp]
    simp only [hq, hr, if_neg hstart]
    rw [← hstop] at h
    split at h
    · rename_i hend
      obtain ⟨rfl, rfl⟩ := Prod.mk.inj (Option.some.inj h)
      rw [if_neg (not_not.mpr (byte_end.mpr hend))]
      exact ⟨rfl, rfl, rfl⟩
    · rename_i c s hmore
      obtain ⟨rfl, rfl⟩ := Prod.mk.inj (Option.some.inj h)
      have hbyte : t.buf.getD r 0 ≠ 0 := by
        intro h0
        rw [byte_end.mp h0] at hmore
        cases hmore
      rw [if_pos hbyte]
      refine ⟨rfl, ?_, ?_⟩
      · dsimp only
        rw [List.drop_set, if_neg (by omega), hlen, Nat.add_sub_cancel_left, scan_takeWhile]
        rfl
      · simp only [Tokenizer.rest, Option.map_some]
        rw [List.drop_set, if_pos (Nat.lt_succ_self r), ← List.drop_drop, cstr_tail hmore]

/-- Directories see the string of a name only. -/
theorem strcmp_string (s name : List UInt8) : strcmp s (cstr name) = 0 ↔ strcmp s name = 0 := by
  rw [strcmp_eq_zero, strcmp_eq_zero, cstr_of_nulFree _ (cstr_nulFree name)]

theorem finddirLoop_string (v : VfsState) (name : Path) (fuel curr : ℕ) :
    finddirLoop v (cstr name) fuel curr = finddirLoop v name fuel curr := by
  induction fuel generalizing curr with
  | zero => rfl
  | succ fuel ih => simp only [finddirLoop, strcmp_string, ih]

theorem finddir_string (v : VfsState) (d : Ref) (name : Path) :
    vfsFinddir v d (cstr name) = vfsFinddir v d name := by
  simp only [vfsFinddir, vfsRootFinddir, finddirLoop_string, ramfsVfsFinddir, ramfsFind, procfsVfsFinddir,
    strcmp_string]

theorem lookupTokens_loop (v : VfsState) (fuel : ℕ) (curr : Ref) (t : Tokenizer) (str : Option ℕ) :
    lookupTokens v fuel curr (strtokBuffer t str) =
      lookupLoop v fuel curr ((str.or t.saved).map (fun p => cstr (t.buf.drop p))) := by
  induction fuel generalizing curr t str with
  | zero =>
    rw [lookupLoop]
    rcases strtokBuffer t str with ⟨_ | _, _⟩
    · rfl
    · rfl
  | succ fuel ih =>
    rw [lookupLoop]
    cases hp : str.or t.saved with
    | none =>
      have hnone : strtokBuffer t str = (none, { t with saved := none }) := by
        rw [strtokBuffer, hp]
      rw [hnone]
      rfl
    | some p =>
      rw [Option.map_some]
      cases htok : strtok (some (cstr (t.buf.drop p))) with
      | none =>
        have hnone := strtokBuffer_end htok str hp
        generalize strtokBuffer t str = r at *
        obtain ⟨token, t'⟩ := r
        cases hnone
        rfl
      | some r =>
        obtain ⟨token, rest⟩ := r
        obtain ⟨q, hq, htoken, hrest⟩ := strtokBuffer_token htok str hp
        generalize strtokBuffer t str = r at *
        obtain ⟨token', t'⟩ := r
        cases hq
        simp only [lookupTokens]
        rw [← htoken, finddir_string]
        by_cases hdir : IsDir (flagsOf v curr)
        · rw [if_neg (not_not.mpr hdir), if_neg (not_not.mpr hdir)]
          congr 1
          funext found
          cases found with
          | none => rfl
          | some found =>
            dsimp only
            rw [ih, Option.none_or, ← hrest]
            rfl
        · rw [if_pos hdir, if_pos hdir]

/-- Neither the stack nor the last use of `strtok` matters. -/
theorem lookup_buffer (v : VfsState) (stack : Fin 256 → UInt8) (saved : Option ℕ) (path : Option Path) :
    vfsLookupBuffer v stack saved path = vfsLookupPath v path := by
  cases path with
  | none => rfl
  | some path =>
    have hcopy : cstr ((strncpy 255 (List.ofFn stack) path).set 255 0) = bounded path := by
      rw [strncpy_cut 255 _ path (by rw [List.length_ofFn]; omega), bounded_eq]
    unfold vfsLookupBuffer vfsLookupPath
    dsimp only
    rw [lookupTokens_loop, Option.some_or, Option.map_some, List.drop_zero, hcopy]

end Tokens

/-! ## Lookups as folds -/

/-- One step of the fold: from a directory to what it has under the name. -/
def follow (v : VfsState) (curr : Option Ref) (name : Path) : Option (Option Ref) :=
  match curr with
  | none => some none
  | some d => if IsDir (flagsOf v d) then vfsFinddir v d name else some none

/-- The pointer to the root. -/
def rootOf (v : VfsState) : Option Ref := if v.root = 0 then none else some (.dir v.root)

section Folds

variable {v : VfsState}

/-- The root and whatever is on the child list of a node of the tree. -/
inductive InTree (v : VfsState) : ℕ → Prop
  | root : InTree v v.root
  | child {p x : ℕ} {l : List ℕ} (hp : InTree v p) (hl : Chain v.next (v.nodes p).children l) (hx : x ∈ l) :
      InTree v x

/-- The sibling lists of the tree end; nodes have 32-bit addresses. -/
def Acyclic (v : VfsState) : Prop :=
  ∀ p, InTree v p → ∃ l, Chain v.next (v.nodes p).children l ∧ ∀ x ∈ l, x < 4294967296

def Placed (v : VfsState) (curr : Option Ref) : Prop := ∀ p, curr = some (.dir p) → InTree v p

theorem follow_null (v : VfsState) (names : List Path) : names.foldlM (follow v) none = some none := by
  induction names with
  | nil => rfl
  | cons name names ih =>
    rw [List.foldlM_cons]
    exact ih

theorem lookupLoop_fold (v : VfsState) {fuel : ℕ} {curr : Ref} {saved : Option Path}
    (hf : (saved.getD []).length < fuel) :
    lookupLoop v fuel curr saved = (parts (saved.getD [])).foldlM (follow v) (some curr) := by
  induction fuel generalizing curr saved with
  | zero => omega
  | succ fuel ih =>
    rw [lookupLoop]
    cases saved with
    | none => simp [strtok]
    | some s =>
      cases htok : strtok (some s) with
      | none => simp [strtok_end htok]
      | some t =>
        obtain ⟨token, rest⟩ := t
        obtain ⟨hparts, hshort⟩ := strtok_token htok
        rw [Option.getD_some] at hf ⊢
        rw [hparts, List.foldlM_cons]
        by_cases hdir : IsDir (flagsOf v curr)
        · have hstep : follow v (some curr) token = vfsFinddir v curr token := if_pos hdir
          rw [hstep]
          dsimp only
          rw [if_neg (not_not.mpr hdir)]
          change _ = (vfsFinddir v curr token).bind _
          congr 1
          funext found
          cases found with
          | none => exact (follow_null v _).symm
          | some found => exact ih (by omega)
        · have hstep : follow v (some curr) token = some none := if_neg hdir
          rw [hstep]
          dsimp only
          rw [if_pos hdir]
          exact (follow_null v _).symm

theorem lookup_fold (v : VfsState) (path : Path) :
    vfsLookupPath v (some path) = (components path).foldlM (follow v) (rootOf v) := by
  unfold vfsLookupPath rootOf
  dsimp only
  by_cases h0 : v.root = 0
  · rw [if_pos h0, if_pos h0, follow_null]
  · rw [if_neg h0, if_neg h0]
    by_cases hroot : strcmp path [slash] = 0
    · rw [if_pos hroot, components_root hroot]
      rfl
    · have hlen := bounded_length path
      rw [if_neg hroot]
      exact @lookupLoop_fold v _ _ (some (bounded path)) (Nat.lt_succ_of_le hlen)

theorem finddir_ends (h : Acyclic v) {d : Ref} (hd : Placed v (some d)) (name : Path) :
    ∃ found, vfsFinddir v d name = some found ∧ Placed v found := by
  unfold vfsFinddir
  cases hops : opsOf v d with
  | null => exact ⟨none, rfl, fun p hp => by cases hp⟩
  | root =>
    cases d with
    | dir p =>
      obtain ⟨l, hl, hbound⟩ := h p (hd p rfl)
      have hlen := chain_length hl hbound
      dsimp only
      unfold vfsRootFinddir
      by_cases hdir : IsDir (v.nodes p).flags
      · rw [if_pos hdir, finddirLoop_find hl (by unfold walkBound; omega)]
        refine ⟨_, rfl, ?_⟩
        intro x hx
        obtain ⟨y, hy, hxy⟩ := Option.map_eq_some_iff.mp hx
        cases hxy
        exact InTree.child (hd p rfl) hl (List.mem_of_find?_eq_some hy)
      · rw [if_neg hdir]
        exact ⟨none, rfl, fun x hx => by cases hx⟩
    | ram i => exact ⟨none, rfl, fun p hp => by cases hp⟩
    | proc i => exact ⟨none, rfl, fun p hp => by cases hp⟩
  | ramfs =>
    refine ⟨_, rfl, ?_⟩
    intro p hp
    obtain ⟨i, -, hi⟩ := Option.map_eq_some_iff.mp hp
    cases hi
  | procfs =>
    refine ⟨_, rfl, ?_⟩
    intro p hp
    obtain ⟨i, -, hi⟩ := Option.map_eq_some_iff.mp hp
    cases hi

theorem follow_ends (h : Acyclic v) {curr : Option Ref} (hc : Placed v curr) (name : Path) :
    ∃ found, follow v curr name = some found ∧ Placed v found := by
  cases curr with
  | none => exact ⟨none, rfl, hc⟩
  | some d =>
    by_cases hdir : IsDir (flagsOf v d)
    · obtain ⟨found, hfound, hplace⟩ := finddir_ends h hc name
      refine ⟨found, ?_, hplace⟩
      rw [← hfound]
      exact if_pos hdir
    · refine ⟨none, if_neg hdir, ?_⟩
      intro p hp
      cases hp

theorem fold_ends (h : Acyclic v) {curr : Option Ref} (hc : Placed v curr) (names : List Path) :
    ∃ found, names.foldlM (follow v) curr = some found := by
  induction names generalizing curr with
  | nil => exact ⟨curr, rfl⟩
  | cons name names ih =>
    obtain ⟨next, hnext, hplace⟩ := follow_ends h hc name
    rw [List.foldlM_cons, hnext]
    exact ih hplace

theorem root_placed (v : VfsState) : Placed v (rootOf v) := by
  intro p hp
  unfold rootOf at hp
  split at hp
  · cases hp
  · cases hp
    exact InTree.root

/-- In a tree whose sibling lists end, a lookup ends and is the fold of `vfs_finddir`,
from the root on, over the components of the first 255 bytes of the path. -/
theorem lookup_is_fold (h : Acyclic v) (stack : Fin 256 → UInt8) (saved : Option ℕ) (path : Path) :
    (∃ found, vfsLookupBuffer v stack saved (some path) = some found) ∧
    vfsLookupBuffer v stack saved (some path) =
      (parts ((cstr path).take 255)).foldlM (follow v) (rootOf v) := by
  rw [lookup_buffer, lookup_fold, components, bounded_eq]
  exact ⟨fold_ends h (root_placed v) _, rfl⟩

/-- A root with one directory in it. -/
def smallTree : VfsState where
  root := 1
  nodes p := if p = 1 then ⟨NameBuffer.blank.copy [slash], vfsDir, 0, 2, 0, .root⟩
    else ⟨NameBuffer.blank.copy [97], vfsDir, 1, 0, 0, .root⟩
  slots := ramfsCleared

theorem smallTree_acyclic : Acyclic smallTree := by
  intro p _
  by_cases hp : p = 1
  · subst hp
    refine ⟨[2], ⟨rfl, by decide, rfl⟩, ?_⟩
    intro x hx
    obtain rfl := List.mem_singleton.mp hx
    decide
  · have hnone : (smallTree.nodes p).children = 0 := by simp [smallTree, hp]
    exact ⟨[], hnone, fun x hx => by cases hx⟩

/-- The path `//a/`. -/
theorem lookup_is_fold_sample :
    (∃ found, vfsLookupBuffer smallTree (fun _ => 170) (some 3) (some [slash, slash, 97, slash]) = some found) ∧
    vfsLookupBuffer smallTree (fun _ => 170) (some 3) (some [slash, slash, 97, slash]) =
      (parts ((cstr [slash, slash, 97, slash]).take 255)).foldlM (follow smallTree) (rootOf smallTree) :=
  lookup_is_fold smallTree_acyclic (fun _ => 170) (some 3) [slash, slash, 97, slash]

end Folds

end Dionnex.PathTokens
