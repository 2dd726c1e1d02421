import Dionnex.LabelledRuns
import Dionnex.VfsPaths

/-!
# Mounting directories

`vfs_mount` writes the name and the sibling link of the node that it puts in
front of its parent's children and asks neither whether the node already has
a place nor whether the parent looks among its children. The child lists stay
a forest, and each mount keeps its promise, as long as nodes without a place
are mounted under a name in directories that look among their children and
that are not below them.
-/

set_option autoImplicit false

namespace Dionnex.VfsMounts
open LabelledRuns LinkedChain NameResolution
open Dionnex.KernelString Dionnex.Ramfs Dionnex.Vfs Dionnex.VfsPaths

def Leads (kids : ℕ → List ℕ) (a b : ℕ) : Prop := b ∈ kids a

/-- Each node has at most one place and none is below itself. -/
structure Forest (v : VfsState) (kids : ℕ → List ℕ) : Prop extends Threaded v kids where
  entrance : ∀ p q x, x ∈ kids p → x ∈ kids q → p = q
  acyclic : ∀ x, ¬ Relation.TransGen (Leads kids) x x

section Attach

variable {v : VfsState} {kids : ℕ → List ℕ} {p x : ℕ} {name : Path}

theorem attach_node (hx : x ≠ p) : (attach v p name x).nodes x =
    { v.nodes x with
      name := (v.nodes x).name.copy name, parent := p, flags := (v.nodes x).flags ||| vfsMountFlag,
      nextSibling := (v.nodes p).children } := by
  simp [attach, VfsState.put_ne _ _ hx, VfsState.put_ne _ _ hx.symm]

theorem attach_parent (hx : x ≠ p) :
    (attach v p name x).nodes p = { v.nodes p with children := x } := by
  simp [attach, VfsState.put_ne _ _ hx.symm]

theorem attach_other {q : ℕ} (hq : q ≠ x) (hp : q ≠ p) : (attach v p name x).nodes q = v.nodes q := by
  simp [attach, VfsState.put_ne _ _ hq, VfsState.put_ne _ _ hp]

theorem attach_next (hx : x ≠ p) : (attach v p name x).next = Function.update v.next x (v.nodes p).children := by
  ext q
  by_cases hqx : q = x
  · subst hqx
    rw [Function.update_self, VfsState.next, attach_node hx]
  · rw [Function.update_of_ne hqx, VfsState.next]
    by_cases hqp : q = p
    · subst hqp
      rw [attach_parent hx, VfsState.next]
    · rw [attach_other hqx hqp, VfsState.next]

theorem mount_flag (flags : ℕ) : IsDir (flags ||| vfsMountFlag) ↔ IsDir flags := by
  have hbit : vfsMountFlag &&& vfsDir = 0 := by decide
  rw [IsDir, Nat.and_or_distrib_right, hbit, Nat.or_zero, IsDir]

/-- What a mount leaves of a directory. -/
theorem attach_kept (hx : x ≠ p) (q : ℕ) :
    (IsDir ((attach v p name x).nodes q).flags ↔ IsDir (v.nodes q).flags) ∧
    ((attach v p name x).nodes q).ops = (v.nodes q).ops ∧
    (q ≠ x → ((attach v p name x).nodes q).name = (v.nodes q).name) ∧
    (q ≠ p → ((attach v p name x).nodes q).children = (v.nodes q).children) := by
  by_cases hqx : q = x
  · subst hqx
    rw [attach_node hx]
    exact ⟨mount_flag _, rfl, fun h => (h rfl).elim, fun _ => rfl⟩
  · by_cases hqp : q = p
    · subst hqp
      rw [attach_parent hx]
      exact ⟨Iff.rfl, rfl, fun _ => rfl, fun h => (h rfl).elim⟩
    · rw [attach_other hqx hqp]
      exact ⟨Iff.rfl, rfl, fun _ => rfl, fun _ => rfl⟩

/-- The node goes by the new name. -/
theorem attach_strcmp {m : Path} (hx : x ≠ p) (hname : (0 : UInt8) ∉ name) (hlen : name.length < 128)
    (hm : (0 : UInt8) ∉ m) : strcmp ((attach v p name x).nodes x).name.bytes m = 0 ↔ m = name := by
  rw [attach_node hx, strcmp_eq_zero, NameBuffer.copy, strncpy_cstr 127 _ _ (v.nodes x).name.terminated,
    cstr_of_nulFree name hname, cstr_of_nulFree m hm, List.take_of_length_le (by omega), eq_comm]

theorem attach_dir (hx : x ≠ p) (d : Ref) : IsDir (flagsOf (attach v p name x) d) ↔ IsDir (flagsOf v d) := by
  cases d with
  | dir q => exact (attach_kept hx q).1
  | ram i => rfl
  | proc i => rfl

theorem attach_ops (hx : x ≠ p) (d : Ref) : opsOf (attach v p name x) d = opsOf v d := by
  cases d with
  | dir q => exact (attach_kept hx q).2.1
  | ram i => rfl
  | proc i => rfl

/-- The child lists with one more node in front of those of `p`. -/
def pushed (kids : ℕ → List ℕ) (p x : ℕ) : ℕ → List ℕ := Function.update kids p (x::kids p)

theorem mem_pushed {q y : ℕ} (h : y ∈ pushed kids p x q) : y ∈ kids q ∨ q = p ∧ y = x := by
  by_cases hq : q = p
  · subst hq
    rw [pushed, Function.update_self, List.mem_cons] at h
    rcases h with rfl | h
    · exact Or.inr ⟨rfl, rfl⟩
    · exact Or.inl h
  · rw [pushed, Function.update_of_ne hq] at h
    exact Or.inl h

theorem attach_forest (h : Forest v kids) (hx0 : x ≠ 0) (hx32 : x < 4294967296) (hfree : ∀ q, x ∉ kids q)
    (hbelow : ¬ Relation.ReflTransGen (Leads kids) x p) :
    Forest (attach v p name x) (pushed kids p x) := by
  have hx : x ≠ p := by
    rintro rfl
    exact hbelow Relation.ReflTransGen.refl
  refine ⟨⟨?_, ?_⟩, ?_, ?_⟩
  · intro q
    rw [attach_next hx]
    by_cases hq : q = p
    · subst hq
      rw [attach_parent hx, pushed, Function.update_self]
      exact chain_push (h.chain q) (hfree q) hx0
    · rw [(attach_kept hx q).2.2.2 hq, pushed, Function.update_of_ne hq]
      exact seg_update (hfree q) (h.chain q)
  · intro q y hy
    rcases mem_pushed hy with hy | ⟨-, rfl⟩
    · exact h.bound q y hy
    · exact hx32
  · intro q r y hq hr
    rcases mem_pushed hq with hold | ⟨hqp, hyx⟩
    · rcases mem_pushed hr with hold' | ⟨-, hyx⟩
      · exact h.entrance q r y hold hold'
      · exact (hfree q (hyx ▸ hold)).elim
    · rcases mem_pushed hr with hold' | ⟨hrp, -⟩
      · exact (hfree r (hyx ▸ hold')).elim
      · exact hqp.trans hrp.symm
  · apply acyclic_edge (r := Leads kids) (a := p) (b := x)
    · intro y z hyz
      exact mem_pushed hyz
    · exact h.acyclic
    · exact hbelow

/-- Only the new name in the parent leads elsewhere. -/
theorem attach_entry_other (hx : x ≠ p) (hfree : ∀ q, x ∉ kids q) (hname : (0 : UInt8) ∉ name)
    (hlen : name.length < 128) (d : Ref) (m : Path) (hdm : ¬ (d = .dir p ∧ m = name)) :
    entry (attach v p name x) (pushed kids p x) d m = entry v kids d m := by
  unfold entry
  simp only [attach_dir hx, attach_ops hx]
  by_cases hdir : IsDir (flagsOf v d) ∧ (0 : UInt8) ∉ m
  · rw [if_pos hdir, if_pos hdir]
    have hold : ∀ q, (kids q).find? (fun y => strcmp ((attach v p name x).nodes y).name.bytes m = 0) =
        (kids q).find? (fun y => strcmp (v.nodes y).name.bytes m = 0) := by
      intro q
      apply List.find?_congr
      intro y hy
      rw [(attach_kept hx y).2.2.1 (ne_of_mem_of_not_mem hy (hfree q))]
    cases opsOf v d with
    | null => rfl
    | root =>
      cases d with
      | dir q =>
        dsimp only
        by_cases hq : q = p
        · subst hq
          have hm : ¬ strcmp ((attach v q name x).nodes x).name.bytes m = 0 := by
            rw [attach_strcmp hx hname hlen hdir.2]
            exact fun h => hdm ⟨rfl, h⟩
          rw [pushed, Function.update_self, List.find?_cons_of_neg (by simpa using hm), hold]
        · rw [pushed, Function.update_of_ne hq, hold]
      | ram i => rfl
      | proc i => rfl
    | ramfs => rfl
    | procfs => rfl
  · rw [if_neg hdir, if_neg hdir]

theorem attach_entry_new (hx : x ≠ p) (hname : (0 : UInt8) ∉ name) (hlen : name.length < 128)
    (hdir : IsDir (v.nodes p).flags) (hops : (v.nodes p).ops = .root) :
    entry (attach v p name x) (pushed kids p x) (.dir p) name = some (.dir x) := by
  have hflags : IsDir (flagsOf (attach v p name x) (.dir p)) := (attach_dir hx (.dir p)).mpr hdir
  have htable : opsOf (attach v p name x) (.dir p) = .root := (attach_ops hx (.dir p)).trans hops
  have hfound : strcmp ((attach v p name x).nodes x).name.bytes name = 0 :=
    (attach_strcmp hx hname hlen hname).mpr rfl
  unfold entry
  rw [if_pos ⟨hflags, hname⟩, htable]
  dsimp only
  rw [pushed, Function.update_self, List.find?_cons_of_pos (by simpa using hfound)]
  rfl

end Attach

/-! ## Places -/

def IsPlace (d : Ref) : Prop := ∃ a, d = .dir a

section Places

variable {v : VfsState} {kids : ℕ → List ℕ} {d e : Ref} {n m : Path} {b : ℕ}

theorem entry_child (h : entry v kids d n = some (.dir b)) :
    ∃ a, d = .dir a ∧ b ∈ kids a ∧ cstr (v.nodes b).name.bytes = n := by
  obtain ⟨hdir, hfree⟩ := entry_dir h
  unfold entry at h
  rw [if_pos ⟨hdir, hfree⟩] at h
  cases hops : opsOf v d with
  | null => simp [hops] at h
  | root =>
    rw [hops] at h
    cases d with
    | dir a =>
      obtain ⟨y, hy, hyb⟩ := Option.map_eq_some_iff.mp h
      cases hyb
      have hname := List.find?_some hy
      rw [decide_eq_true_iff, strcmp_eq_zero, cstr_of_nulFree n hfree] at hname
      exact ⟨a, rfl, List.mem_of_find?_eq_some hy, hname⟩
    | ram i => cases h
    | proc i => cases h
  | ramfs =>
    rw [hops] at h
    obtain ⟨i, -, hi⟩ := Option.map_eq_some_iff.mp h
    cases hi
  | procfs =>
    rw [hops] at h
    obtain ⟨i, -, hi⟩ := Option.map_eq_some_iff.mp h
    cases hi

theorem entry_injective (h : Forest v kids) (hd : entry v kids d n = some (.dir b))
    (he : entry v kids e m = some (.dir b)) : d = e ∧ n = m := by
  obtain ⟨a, rfl, ha, hn⟩ := entry_child hd
  obtain ⟨c, rfl, hc, hm⟩ := entry_child he
  exact ⟨congrArg Ref.dir (h.entrance a c b ha hc), hn.symm.trans hm⟩

theorem resolve_leads {root : ℕ} {q : List Path} (hq : q ≠ [])
    (h : resolve (entry v kids) (.dir root) q = some (.dir b)) : Relation.TransGen (Leads kids) root b := by
  induction q using List.reverseRecOn generalizing b with
  | nil => exact (hq rfl).elim
  | append_singleton q n ih =>
    obtain ⟨d, hd, hdn⟩ := resolve_snoc_some h
    obtain ⟨a, rfl, hb, -⟩ := entry_child hdn
    by_cases hnil : q = []
    · rw [hnil] at hd
      cases hd
      exact Relation.TransGen.single hb
    · exact (ih hnil hd).tail hb

/-- In a forest a directory is reached along one path only. -/
theorem place_unique (h : Forest v kids) {p q : List Path}
    (hp : resolve (entry v kids) (.dir v.root) p = some (.dir b))
    (hq : resolve (entry v kids) (.dir v.root) q = some (.dir b)) : p = q := by
  have hplace : IsPlace (.dir b) := ⟨b, rfl⟩
  apply resolve_injective ?_ ?_ ?_ hplace hp hq
  · rintro d n x ⟨c, rfl⟩ hd
    obtain ⟨a, rfl, -⟩ := entry_child hd
    exact ⟨a, rfl⟩
  · rintro d n e m x ⟨c, rfl⟩ hd he
    exact entry_injective h hd he
  · intro r hr
    by_contra hne
    exact h.acyclic v.root (resolve_leads hne hr)

end Places

/-! ## The promise of a mount -/

/-- The node is a child of the directory, as the links say. -/
def Child (v : VfsState) (a b : ℕ) : Prop := ∃ l, Chain v.next (v.nodes a).children l ∧ b ∈ l

/-- The path is at or below the mount point. -/
def AtOrBelow (point path : Path) : Prop := components point <+: components path

structure Promise (s : VfsState) (path : Path) (node : ℕ) (t : VfsState) : Prop where
  acyclic : ∀ p, ∃ l, Chain t.next (t.nodes p).children l
  lookups : ∀ q, ∃ r, vfsLookupPath t (some q) = some r
  listings : ∀ q, ∃ l, vfsList t (some q) = some l
  found : vfsLookupPath t (some path) = some (some (.dir node))
  kept : ∀ q x, ¬ AtOrBelow path q → vfsLookupPath s (some q) = some (some x) →
    vfsLookupPath t (some q) = some (some x)

/-- The new root, or a node without a place under a name in a directory that
looks among its children and is not below the node. -/
def Fits (s : VfsState) (path : Path) (node : ℕ) : Prop :=
  strcmp path [slash] = 0 ∨
  ∃ parentPath name p, splitPath path = some (parentPath, name) ∧ name ≠ [] ∧
    vfsLookupPath s (some parentPath) = some (some (.dir p)) ∧ (s.nodes p).ops = .root ∧
    (∀ q, ¬ Child s q node) ∧ ¬ Relation.ReflTransGen (Child s) node p

/-- The states after `vfs_init`; directories in memory have no children yet. -/
def Booted (s : VfsState) : Prop :=
  ∃ v node, node < 4294967296 ∧ (∀ p, (v.nodes p).children = 0) ∧ s = vfsInit v node

/-- A call of `vfs_mount` on a directory node, whatever it returns. -/
def Step (s : VfsState) (a : Path × ℕ) (t : VfsState) : Prop :=
  IsDir (s.nodes a.2).flags ∧ a.2 < 4294967296 ∧ ∃ r, vfsMount s (some a.1) a.2 = some (r, t)

/-- The call returned 0. -/
def Mounted (s : VfsState) (a : Path × ℕ) (t : VfsState) : Prop := vfsMount s (some a.1) a.2 = some (0, t)

section Mounts

variable {s t : VfsState} {kids : ℕ → List ℕ} {path : Path} {node : ℕ}

theorem child_leads (h : Threaded s kids) : Child s = Leads kids := by
  ext a b
  constructor
  · rintro ⟨l, hl, hb⟩
    rw [chain_unique hl (h.chain a)] at hb
    exact hb
  · intro hb
    exact ⟨kids a, h.chain a, hb⟩

theorem empty_forest (h : ∀ p, (s.nodes p).children = 0) : Forest s (fun _ => []) := by
  have hnone : ∀ x y, ¬ Leads (fun _ => []) x y := fun x y => List.not_mem_nil
  refine ⟨⟨fun p => h p, ?_⟩, ?_, ?_⟩
  · intro p x hx
    cases hx
  · intro p q x hx
    cases hx
  · intro x hx
    obtain ⟨y, -, hyx⟩ := Relation.TransGen.tail'_iff.mp hx
    exact hnone y x hyx

theorem vfsInit_children (h : ∀ p, (s.nodes p).children = 0) (p : ℕ) :
    ((vfsInit s node).nodes p).children = 0 := by
  unfold vfsInit
  split
  · exact h p
  · by_cases hp : p = node
    · simp [hp]
    · simp [VfsState.put_ne _ _ hp, h]

theorem booted_forest (hs : Booted s) : ∃ kids, Forest s kids := by
  obtain ⟨v, node, -, hchildren, rfl⟩ := hs
  exact ⟨fun _ => [], empty_forest (vfsInit_children hchildren)⟩

/-- What a call can do: nothing, change the root, or attach a node. -/
theorem mount_cases {r : ℤ} (h : vfsMount s (some path) node = some (r, t)) :
    r = -1 ∧ t = s ∨
    (r = 0 ∧ node ≠ 0 ∧ s.root ≠ 0) ∧
      (strcmp path [slash] = 0 ∧ t = { s with root := node } ∨
      ∃ parentPath name p, strcmp path [slash] ≠ 0 ∧ splitPath path = some (parentPath, name) ∧
        name.length < 128 ∧ vfsLookupPath s (some parentPath) = some (some (.dir p)) ∧
        IsDir (s.nodes p).flags ∧ t = attach s p name node) := by
  unfold vfsMount at h
  dsimp only at h
  by_cases h0 : node = 0 ∨ s.root = 0
  · rw [if_pos h0] at h
    cases h
    exact Or.inl ⟨rfl, rfl⟩
  · rw [if_neg h0] at h
    rw [not_or] at h0
    by_cases hroot : strcmp path [slash] = 0
    · rw [if_pos hroot] at h
      cases h
      exact Or.inr ⟨⟨rfl, h0⟩, Or.inl ⟨hroot, rfl⟩⟩
    · rw [if_neg hroot] at h
      obtain ⟨found, hfound, hresult⟩ := Option.bind_eq_some_iff.mp h
      cases found with
      | none =>
        cases hresult
        exact Or.inl ⟨rfl, rfl⟩
      | some pair =>
        obtain ⟨parent, name⟩ := pair
        obtain ⟨parentPath, hsplit, hlen, hparent, hdir⟩ := parentOf_some hfound
        cases parent with
        | dir p =>
          cases hresult
          exact Or.inr ⟨⟨rfl, h0⟩, Or.inr ⟨parentPath, name, p, hroot, hsplit, hlen, hparent, hdir, rfl⟩⟩
        | ram i => cases hresult
        | proc i => cases hresult

theorem mount_attach {parentPath name : Path} {p : ℕ} (hnode : node ≠ 0) (h0 : s.root ≠ 0)
    (hroot : strcmp path [slash] ≠ 0) (hsplit : splitPath path = some (parentPath, name))
    (hlen : name.length < 128) (hparent : vfsLookupPath s (some parentPath) = some (some (.dir p)))
    (hdir : IsDir (s.nodes p).flags) : vfsMount s (some path) node = some (0, attach s p name node) := by
  unfold vfsMount
  dsimp only
  rw [if_neg (not_or.mpr ⟨hnode, h0⟩), if_neg hroot, parentOf_intro hsplit hlen hparent hdir, Option.bind_some]

/-- In a forest lookups and listings end, whatever the root is. -/
theorem promise_of_forest (h : Forest t kids) (h0 : t.root ≠ 0)
    (hfound : vfsLookupPath t (some path) = some (some (.dir node)))
    (hkept : ∀ q x, ¬ AtOrBelow path q → vfsLookupPath s (some q) = some (some x) →
      vfsLookupPath t (some q) = some (some x)) : Promise s path node t where
  acyclic p := ⟨kids p, h.chain p⟩
  lookups q := ⟨_, lookup_resolve h.toThreaded h0 q⟩
  listings q := list_ends h.toThreaded h0 q
  found := hfound
  kept := hkept

theorem reroot_promise (h : Forest s kids) (hnode : node ≠ 0) (hroot : strcmp path [slash] = 0) :
    Forest { s with root := node } kids ∧ Promise s path node { s with root := node } := by
  have hforest : Forest { s with root := node } kids := ⟨⟨h.chain, h.bound⟩, h.entrance, h.acyclic⟩
  have hcomponents := components_root hroot
  refine ⟨hforest, promise_of_forest hforest hnode ?_ ?_⟩
  · rw [lookup_resolve hforest.toThreaded hnode, hcomponents, resolve_nil]
  · intro q x hq
    exact (hq (by rw [AtOrBelow, hcomponents]; exact List.nil_prefix)).elim

theorem attach_promise (h : Forest s kids) (h0 : s.root ≠ 0) (hnode : node ≠ 0) (hnode32 : node < 4294967296)
    {parentPath name : Path} {p : ℕ} (hsplit : splitPath path = some (parentPath, name)) (hne : name ≠ [])
    (hlen : name.length < 128) (hparent : vfsLookupPath s (some parentPath) = some (some (.dir p)))
    (hdir : IsDir (s.nodes p).flags) (hops : (s.nodes p).ops = .root) (hfree : ∀ q, node ∉ kids q)
    (hbelow : ¬ Relation.ReflTransGen (Leads kids) node p) :
    Forest (attach s p name node) (pushed kids p node) ∧ Promise s path node (attach s p name node) := by
  have hx : node ≠ p := by
    rintro rfl
    exact hbelow Relation.ReflTransGen.refl
  have hforest : Forest (attach s p name node) (pushed kids p node) :=
    attach_forest h hnode hnode32 hfree hbelow
  obtain ⟨hcomponents, -, hname⟩ := splitPath_components hsplit
  rw [if_neg hne] at hcomponents
  rw [lookup_resolve h.toThreaded h0] at hparent
  have hplace := Option.some.inj hparent
  have honly : ∀ r, resolve (entry s kids) (.dir s.root) r = some (.dir p) → r = components parentPath :=
    fun r hr => place_unique h hr hplace
  have hsame : ∀ d m, ¬ (d = .dir p ∧ m = name) →
      entry (attach s p name node) (pushed kids p node) d m = entry s kids d m :=
    fun d m => attach_entry_other hx hfree hname hlen d m
  have hnew : entry (attach s p name node) (pushed kids p node) (.dir p) name = some (.dir node) :=
    attach_entry_new hx hname hlen hdir hops
  have hlookup := lookup_resolve hforest.toThreaded (show (attach s p name node).root ≠ 0 from h0)
  refine ⟨hforest, promise_of_forest hforest h0 ?_ ?_⟩
  · rw [hlookup, hcomponents]
    exact congrArg some (resolve_linked honly hsame hplace hnew)
  · intro q x hq hold
    rw [AtOrBelow, hcomponents] at hq
    rw [lookup_resolve h.toThreaded h0] at hold
    rw [hlookup]
    exact (congrArg some (resolve_unlinked honly hsame hq)).trans hold

theorem mount_promise (hs : ∃ kids, Forest s kids) {a : Path × ℕ} (hstep : Step s a t)
    (hfits : Mounted s a t → Fits s a.1 a.2) :
    (∃ kids, Forest t kids) ∧ (Mounted s a t → Promise s a.1 a.2 t) := by
  obtain ⟨kids, h⟩ := hs
  obtain ⟨-, h32, r, hr⟩ := hstep
  rcases mount_cases hr with ⟨rfl, rfl⟩ | ⟨⟨rfl, hnode, h0⟩, hdone⟩
  · refine ⟨⟨kids, h⟩, fun hm => ?_⟩
    cases hr.symm.trans hm
  · rcases hdone with ⟨hroot, rfl⟩ | ⟨parentPath, name, p, hroot, hsplit, hlen, hparent, hdir, rfl⟩
    · obtain ⟨hforest, hpromise⟩ := reroot_promise h hnode hroot
      exact ⟨⟨kids, hforest⟩, fun _ => hpromise⟩
    · rcases hfits hr with hslash | ⟨parentPath', name', p', hsplit', hne, hparent', hops, hfree, hbelow⟩
      · exact (hroot hslash).elim
      · cases hsplit.symm.trans hsplit'
        cases hparent.symm.trans hparent'
        rw [child_leads h.toThreaded] at hfree hbelow
        obtain ⟨hforest, hpromise⟩ :=
          attach_promise h h0 hnode h32 hsplit hne hlen hparent hdir hops hfree hbelow
        exact ⟨⟨_, hforest⟩, fun _ => hpromise⟩

end Mounts

/-- Every mount of a run keeps its promise when each of them fits. -/
theorem mounts_keep_promise (s : VfsState) (tr : List ((Path × ℕ) × VfsState)) (hs : Booted s)
    (hr : Run Step s tr) (hok : Along (fun s a t => Mounted s a t → Fits s a.1 a.2) s tr) :
    Along (fun s a t => Mounted s a t → Promise s a.1 a.2 t) s tr := by
  have hrun := run_guarded (I := fun s => ∃ kids, Forest s kids)
    (fun _ _ _ h hstep hfits => mount_promise h hstep hfits) s tr (booted_forest hs) hr hok
  exact along_mono (fun _ _ _ h => h.2) s tr hrun

/-- Directories at every address and the root at address 1. -/
def sampleState : VfsState := vfsInit ⟨0, fun _ => ⟨.blank, vfsDir, 0, 0, 0, .root⟩, ramfsCleared⟩ 1

def samplePath : Path := [slash, 97]

def sampleMounted : VfsState := attach sampleState 1 [97] 2

theorem sampleState_booted : Booted sampleState :=
  ⟨⟨0, fun _ => ⟨.blank, vfsDir, 0, 0, 0, .root⟩, ramfsCleared⟩, 1, by decide, fun _ => rfl, rfl⟩

theorem samplePath_split : splitPath samplePath = some ([slash], [97]) := by decide +kernel

theorem sampleState_mount : vfsMount sampleState (some samplePath) 2 = some (0, sampleMounted) :=
  mount_attach (by decide) (by decide) (by decide) samplePath_split (by decide) (lookup_slash (by decide))
    (by decide)

theorem sampleMounted_mount :
    vfsMount sampleMounted (some samplePath) 2 = some (0, attach sampleMounted 1 [97] 2) :=
  mount_attach (by decide) (by decide) (by decide) samplePath_split (by decide) (lookup_slash (by decide))
    (by decide)

theorem mounts_keep_promise_sample :
    Run Step sampleState [((samplePath, 2), sampleMounted)] ∧
    Along (fun s a t => Mounted s a t → Promise s a.1 a.2 t) sampleState [((samplePath, 2), sampleMounted)] := by
  have hnone : ∀ p q, ¬ Child sampleState p q := by
    rintro p q ⟨l, hl, hq⟩
    have hchildren : (sampleState.nodes p).children = 0 := by
      by_cases hp : p = 1
      · subst hp
        rfl
      · simp [sampleState, vfsInit, VfsState.put_ne _ _ hp]
    rw [hchildren] at hl
    rw [chain_unique hl (show Chain sampleState.next 0 [] from rfl)] at hq
    cases hq
  have hrun : Run Step sampleState [((samplePath, 2), sampleMounted)] :=
    ⟨⟨by decide, by decide, 0, sampleState_mount⟩, trivial⟩
  refine ⟨hrun, mounts_keep_promise _ _ sampleState_booted hrun ⟨fun _ => Or.inr ?_, trivial⟩⟩
  refine ⟨[slash], [97], 1, samplePath_split, by decide, lookup_slash (by decide), rfl, fun q => hnone q 2, ?_⟩
  intro hpath
  rcases Relation.ReflTransGen.cases_head hpath with heq | ⟨y, hy, -⟩
  · cases heq
  · exact hnone 2 y hy

/-- Mounting a directory twice makes it its own sibling. -/
theorem mounted_twice : ¬ ∀ (s : VfsState) (tr : List ((Path × ℕ) × VfsState)), Booted s → Run Step s tr →
    Along (fun s a t => Mounted s a t → Promise s a.1 a.2 t) s tr := by
  intro h
  have hrun : Run Step sampleState
      [((samplePath, 2), sampleMounted), ((samplePath, 2), attach sampleMounted 1 [97] 2)] :=
    ⟨⟨by decide, by decide, 0, sampleState_mount⟩, ⟨by decide, by decide, 0, sampleMounted_mount⟩, trivial⟩
  obtain ⟨-, hsecond, -⟩ := h _ _ sampleState_booted hrun
  obtain ⟨l, hl⟩ := (hsecond sampleMounted_mount).acyclic 1
  have hhead : ((attach sampleMounted 1 [97] 2).nodes 1).children = 2 := rfl
  have hself : (attach sampleMounted 1 [97] 2).next 2 = 2 := rfl
  rw [hhead] at hl
  cases l with
  | nil => cases hl
  | cons x l =>
    obtain ⟨rfl, h0, hrest⟩ := hl
    rw [hself] at hrest
    have hcycle := chain_unique hrest (show Chain _ 2 (2::l) from ⟨rfl, h0, hself.symm ▸ hrest⟩)
    have hlen := congrArg List.length hcycle
    simp at hlen

end Dionnex.VfsMounts
