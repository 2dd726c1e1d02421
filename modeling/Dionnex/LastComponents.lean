import Dionnex.VfsPaths

/-!
# The last component of a path

`vfs_mount`, `vfs_create` and `vfs_delete` take the last component from the
first 255 bytes of the path and copy it into a buffer of 128 bytes without
looking at its length. What they copy fits, and what they hand on is the last
component of the whole path, under exact conditions on where slashes fall.
-/

set_option autoImplicit false

namespace Dionnex.LastComponents
open Dionnex.KernelString Dionnex.Ramfs Dionnex.Vfs Dionnex.VfsPaths

inductive Caller where
  | mount (node : ℕ)
  | create
  | delete

/-- The function comes as far as its `strcpy` into the name buffer. -/
def Copies (v : VfsState) (path : Path) : Caller → Prop
  | .mount node => node ≠ 0 ∧ v.root ≠ 0 ∧ strcmp path [slash] ≠ 0
  | .create => True
  | .delete => True

/-- What `strcpy` copies into the name buffer. -/
def Copied (v : VfsState) (path : Path) (c : Caller) (name : Path) : Prop :=
  Copies v path c ∧ ∃ parent, splitPath path = some (parent, name)

/-- The directory does something with a name. -/
def Takes (v : VfsState) (d : Ref) : Caller → Prop
  | .mount _ => True
  | .create => opsOf v d = .ramfs
  | .delete => opsOf v d = .ramfs

/-- What is handed to the file system of the parent. -/
def Handed (v : VfsState) (path : Path) (c : Caller) (name : Path) : Prop :=
  Copies v path c ∧ ∃ d, parentOf v path = some (some (d, name)) ∧ Takes v d c

/-- What stands behind the last slash. -/
def LastOf (s name : Path) : Prop := ∃ front, s = front ++ slash::name ∧ slash ∉ name

/-- The name buffer is not overrun and the file system gets the last component of the path. -/
structure Sound (v : VfsState) (path : Path) (c : Caller) : Prop where
  fits : ∀ name, Copied v path c name → name.length ≤ 127
  last : ∀ name, Handed v path c name → LastOf (cstr path) name

/-! ## What is handed on -/

section Handing

variable {v : VfsState} {path name : Path} {d : Ref} {flags : ℕ}

theorem create_handed (h : Handed v path .create name) : vfsCreate v (some path) flags =
    some ((ramfsCreate v.slots (some name)).1, { v with slots := (ramfsCreate v.slots (some name)).2 }) := by
  obtain ⟨-, d, hparent, htakes⟩ := h
  have hops : opsOf v d = .ramfs := htakes
  unfold vfsCreate
  dsimp only
  rw [hparent, Option.map_some]
  dsimp only
  rw [if_pos hops]

theorem create_refused (h : ∀ name, ¬ Handed v path .create name) :
    vfsCreate v (some path) flags = none ∨ vfsCreate v (some path) flags = some (-1, v) := by
  unfold vfsCreate
  dsimp only
  rcases hparent : parentOf v path with _ | _ | ⟨d, name⟩
  · exact Or.inl rfl
  · exact Or.inr rfl
  · have hops : ¬ opsOf v d = .ramfs := fun hops => h name ⟨trivial, d, hparent, hops⟩
    rw [Option.map_some]
    dsimp only
    rw [if_neg hops]
    exact Or.inr rfl

theorem delete_handed (h : Handed v path .delete name) : vfsDelete v (some path) =
    some ((ramfsDelete v.slots (some name)).1, { v with slots := (ramfsDelete v.slots (some name)).2 }) := by
  obtain ⟨-, d, hparent, htakes⟩ := h
  have hops : opsOf v d = .ramfs := htakes
  unfold vfsDelete
  dsimp only
  rw [hparent, Option.map_some]
  dsimp only
  rw [if_pos hops]

theorem delete_refused (h : ∀ name, ¬ Handed v path .delete name) :
    vfsDelete v (some path) = none ∨ vfsDelete v (some path) = some (-1, v) := by
  unfold vfsDelete
  dsimp only
  rcases hparent : parentOf v path with _ | _ | ⟨d, name⟩
  · exact Or.inl rfl
  · exact Or.inr rfl
  · have hops : ¬ opsOf v d = .ramfs := fun hops => h name ⟨trivial, d, hparent, hops⟩
    rw [Option.map_some]
    dsimp only
    rw [if_neg hops]
    exact Or.inr rfl

/-- A mount names the node with what is handed on. -/
theorem mount_handed {node p : ℕ} (hc : Copies v path (.mount node))
    (hparent : parentOf v path = some (some (.dir p, name))) :
    vfsMount v (some path) node = some (0, attach v p name node) := by
  obtain ⟨hnode, hroot, hslash⟩ := hc
  have hnull : ¬ (node = 0 ∨ v.root = 0) := by
    rintro (h | h)
    · exact hnode h
    · exact hroot h
  unfold vfsMount
  dsimp only
  rw [if_neg hnull, if_neg hslash, hparent, Option.bind_some]

theorem handed_copied {c : Caller} (h : Handed v path c name) : Copied v path c name := by
  obtain ⟨hc, d, hparent, -⟩ := h
  obtain ⟨parent, hsplit, -⟩ := parentOf_some hparent
  exact ⟨hc, parent, hsplit⟩

end Handing

/-! ## Slashes -/

section Slashes

variable {s name other front : Path}

theorem lastOf_unique (h : LastOf s name) (h' : LastOf s other) : name = other := by
  obtain ⟨f, rfl, hfree⟩ := h
  obtain ⟨g, hs, hfree'⟩ := h'
  rw [List.append_eq_append_iff] at hs
  rcases hs with ⟨m, rfl, hm⟩ | ⟨m, rfl, hm⟩
  · cases m with
    | nil => exact (List.cons.inj hm).2
    | cons b m =>
      rw [List.cons_append] at hm
      apply hfree.elim
      rw [(List.cons.inj hm).2]
      simp
  · cases m with
    | nil => exact (List.cons.inj hm).2.symm
    | cons b m =>
      rw [List.cons_append] at hm
      apply hfree'.elim
      rw [(List.cons.inj hm).2]
      simp

theorem split_last {path parent : Path} (h : splitPath path = some (parent, name)) :
    LastOf (bounded path) name := by
  obtain ⟨i, hi, hpair⟩ := Option.map_eq_some_iff.mp h
  obtain ⟨rfl, rfl⟩ := Prod.mk.inj hpair
  obtain ⟨hsplit, hout⟩ := strrchr_split hi
  exact ⟨_, hsplit, hout⟩

/-- The last component of the first part is that of the whole when nothing
follows, or when what follows ends in it again. -/
theorem lastOf_append {rest : Path} (h : LastOf s name) :
    LastOf (s++rest) name ↔ rest = [] ∨ ∃ front, rest = front ++ slash::name := by
  constructor
  · intro ⟨f, hf, hfree⟩
    rw [List.append_eq_append_iff] at hf
    rcases hf with ⟨m, -, hm⟩ | ⟨m, hs, hm⟩
    · exact Or.inr ⟨m, hm⟩
    · cases m with
      | nil => exact Or.inr ⟨[], by simpa using hm.symm⟩
      | cons b m =>
        rw [List.cons_append] at hm
        obtain ⟨hb, hname⟩ := List.cons.inj hm
        have hm' : LastOf s m := by
          refine ⟨f, ?_, ?_⟩
          · rw [hs, ← hb]
          · intro hslash
            apply hfree
            rw [hname]
            simp [hslash]
        have hlen := congrArg List.length ((lastOf_unique h hm').symm.trans hname)
        rw [List.length_append] at hlen
        exact Or.inl (List.eq_nil_of_length_eq_zero (by omega))
  · rintro (rfl | ⟨front, rfl⟩)
    · rw [List.append_nil]
      exact h
    · exact ⟨s++front, by rw [List.append_assoc], h.elim (fun _ hf => hf.2)⟩

end Slashes

/-! ## When names are sound -/

/-- At most 127 of the first 255 bytes stand behind their last slash. -/
def NameFits (path : Path) : Prop := ∀ parent name, splitPath path = some (parent, name) → name.length ≤ 127

/-- The path has at most 255 bytes, or past them it ends in the same component again. -/
def Whole (path : Path) : Prop :=
  (cstr path).length ≤ 255 ∨
    ∃ parent name front, splitPath path = some (parent, name) ∧ (cstr path).drop 255 = front ++ slash::name

/-- The directory in front of the last of those slashes exists and takes names. -/
def Accepts (v : VfsState) (path : Path) (c : Caller) : Prop :=
  ∃ parent name d, splitPath path = some (parent, name) ∧ vfsLookupPath v (some parent) = some (some d) ∧
    IsDir (flagsOf v d) ∧ Takes v d c

theorem last_whole {path parent name : Path} (h : splitPath path = some (parent, name)) :
    LastOf (cstr path) name ↔ Whole path := by
  have hlast := split_last h
  have hparts : cstr path = bounded path ++ (cstr path).drop 255 := by
    rw [bounded_eq, List.take_append_drop]
  rw [hparts, lastOf_append hlast, List.drop_eq_nil_iff, Whole]
  constructor
  · rintro (hlen | ⟨front, hfront⟩)
    · exact Or.inl hlen
    · exact Or.inr ⟨parent, name, front, h, hfront⟩
  · rintro (hlen | ⟨parent', name', front, h', hfront⟩)
    · exact Or.inl hlen
    · rw [h] at h'
      cases h'
      exact Or.inr ⟨front, hfront⟩

/-- The three functions keep inside their buffers and hand on the last component of the path
exactly when that component of the first 255 bytes fits and, where it is taken, ends the path. -/
theorem last_component_iff (v : VfsState) (path : Path) (c : Caller) :
    Sound v path c ↔ (Copies v path c → NameFits path ∧ (Accepts v path c → Whole path)) := by
  constructor
  · intro h hc
    have hfits : NameFits path := fun parent name hsplit => h.fits name ⟨hc, parent, hsplit⟩
    refine ⟨hfits, ?_⟩
    intro ⟨parent, name, d, hsplit, hfound, hdir, htakes⟩
    have hlen := hfits parent name hsplit
    have hparent := parentOf_intro hsplit (by omega) hfound hdir
    exact (last_whole hsplit).mp (h.last name ⟨hc, d, hparent, htakes⟩)
  · intro h
    constructor
    · intro name ⟨hc, parent, hsplit⟩
      exact (h hc).1 parent name hsplit
    · intro name ⟨hc, d, hparent, htakes⟩
      obtain ⟨parent, hsplit, -, hfound, hdir⟩ := parentOf_some hparent
      exact (last_whole hsplit).mpr ((h hc).2 ⟨parent, name, d, hsplit, hfound, hdir, htakes⟩)

/-- A slash and 128 letters. -/
def longPath : Path := slash :: List.replicate 128 97

theorem name_leaves_buffer : ¬ ∀ v path c, Sound v path c := by
  intro h
  have hsplit : splitPath longPath = some ([slash], List.replicate 128 97) := by decide +kernel
  have hlen := (h ⟨0, fun _ => ⟨.blank, 0, 0, 0, 0, .null⟩, ramfsCleared⟩ longPath .create).fits _
    ⟨trivial, _, hsplit⟩
  rw [List.length_replicate] at hlen
  omega

end Dionnex.LastComponents
