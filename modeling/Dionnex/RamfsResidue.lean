import Dionnex.RamfsVfs

/-!
# What a new file inherits from its slot

`ramfs_create` clears one byte of the data array and keeps the rest. Two
runs are compared that differ only in bytes no live file holds at the time
of the create. All later reads of the new file agree exactly when no write
through its node starts beyond its end and skips a byte that the file has
never written.
-/

set_option autoImplicit false

namespace Dionnex.RamfsResidue
open Dionnex.Ramfs Dionnex.RamfsVfs

/-- The operations that can change a slot. -/
inductive Event where
  | create (name : Option (List UInt8))
  | delete (name : Option (List UInt8))
  | write (name : Option (List UInt8)) (buf : Option (ℕ → UInt8)) (len : UInt32)
  | vfsWrite (node : Option Slot) (offset size : UInt32) (buf : Option (ℕ → UInt8))

/-- The state afterwards; none when a copy has run out of its slot. -/
def perform (fs : Slots) : Event → Option Slots
  | .create name => some (ramfsCreate fs name).2
  | .delete name => some (ramfsDelete fs name).2
  | .write name buf len => some (ramfsWrite fs name buf len.toNat).2
  | .vfsWrite node offset size buf => (vfsWrite fs node offset size buf).map Prod.snd

/-- No read through the node of slot `i` tells the two states apart. -/
def SameView (i : Slot) (fs fs' : Slots) : Prop :=
  ∀ hasBuf offset size, vfsRead fs (some i) hasBuf offset size = vfsRead fs' (some i) hasBuf offset size

/-- The reads agree now and, for as long as the file in slot `i` lives, after each operation. -/
def SameReads (i : Slot) : Slots → Slots → List Event → Prop
  | fs, fs', [] => SameView i fs fs'
  | fs, fs', e::es => SameView i fs fs' ∧
      match perform fs e, perform fs' e with
      | some t, some t' => (t i).used = true → SameReads i t t' es
      | none, none => True
      | _, _ => False

/-- The two states differ at most in data bytes that no live file holds. -/
structure Residue (fs fs' : Slots) : Prop where
  control : ∀ j, fs' j = { fs j with data := (fs' j).data }
  live : ∀ j, (fs j).used = true → ∀ k < (fs j).size, (fs' j).data k = (fs j).data k

/-- Offset, length and bytes of the write that an operation makes to the file in slot `i`. -/
def patchOf (fs : Slots) (i : Slot) : Event → Option (ℕ × ℕ × (ℕ → UInt8))
  | .write name (some buf) len =>
    if ramfsFind fs name = some i then
      some (0, if len.toNat > ramfsMaxData then ramfsMaxData else len.toNat, buf)
    else none
  | .vfsWrite (some node) offset size (some buf) =>
    if ((fs node).vfsNode.ops = .ramfs ∧ fileOf fs node = some i ∧ (fs i).used = true ∧
        offset.toNat < ramfsMaxData) ∧
        offset.toNat + clipped offset size (UInt32.ofNat ramfsMaxData) ≤ ramfsMaxData then
      some (offset.toNat, clipped offset size (UInt32.ofNat ramfsMaxData), buf)
    else none
  | _ => none

/-- The bytes the file has written after the operation, if it had written `own` before. -/
def written (own : Set ℕ) (fs : Slots) (i : Slot) (e : Event) : Set ℕ :=
  {k | k ∈ own ∨ ∃ w, patchOf fs i e = some w ∧ w.1 ≤ k ∧ k < w.1+w.2.1}

/-- A write that starts beyond the end skips only bytes that the file wrote earlier. -/
def NoGap (own : Set ℕ) (fs : Slots) (i : Slot) (e : Event) : Prop :=
  ∀ w, patchOf fs i e = some w → ∀ k, (fs i).size ≤ k → k < w.1 → k ∈ own

/-- No operation of the sequence leaves a gap while the file in slot `i` lives. -/
def Gapless (own : Set ℕ) (i : Slot) : Slots → List Event → Prop
  | _, [] => True
  | fs, e::es => NoGap own fs i e ∧
      ∀ t, perform fs e = some t → (t i).used = true → Gapless (written own fs i e) i t es

/-- The slots with other data. -/
def withData (fs : Slots) (d : Slot → ℕ → UInt8) : Slots := fun j => { fs j with data := d j }

theorem withData_update (fs : Slots) (d : Slot → ℕ → UInt8) (i : Slot) (f : RamfsFile)
    (x : ℕ → UInt8) : Function.update (withData fs d) i { f with data := x } =
      withData (Function.update fs i f) (Function.update d i x) := by
  funext j
  by_cases hj : j = i
  · subst hj
    simp [withData]
  · simp [withData, hj]

theorem residue_withData {fs fs' : Slots} (h : ∀ j, fs' j = { fs j with data := (fs' j).data }) :
    fs' = withData fs (fun j => (fs' j).data) := funext h

theorem setNodeSize_withData (fs : Slots) (d : Slot → ℕ → UInt8) (node : Slot) (size : ℕ) :
    setNodeSize (withData fs d) node size = withData (setNodeSize fs node size) d := by
  funext j
  by_cases hj : j = node
  · subst hj
    simp [withData, setNodeSize]
  · simp [withData, setNodeSize, hj]

theorem ramfsWrite_withData (fs : Slots) (d : Slot → ℕ → UInt8) (name : Option (List UInt8))
    (buf : Option (ℕ → UInt8)) (len : ℕ) (hfind : ramfsFind (withData fs d) name = ramfsFind fs name) :
    ∃ d', (ramfsWrite (withData fs d) name buf len).2 = withData (ramfsWrite fs name buf len).2 d' := by
  unfold ramfsWrite
  rw [hfind]
  cases ramfsFind fs name with
  | none => exact ⟨d, rfl⟩
  | some i =>
    cases buf with
    | none => exact ⟨d, rfl⟩
    | some buf =>
      dsimp only
      generalize (if len > ramfsMaxData then ramfsMaxData else len) = n
      exact ⟨_, withData_update fs d i
        { fs i with
          data := fun k => if k < n then buf k else (fs i).data k
          size := n
          vfsNode := { (fs i).vfsNode with size := n } }
        (fun k => if k < n then buf k else d i k)⟩

theorem vfsWrite_withData (fs : Slots) (d : Slot → ℕ → UInt8) (node : Option Slot)
    (offset size : UInt32) (buf : Option (ℕ → UInt8)) :
    ∃ d', (vfsWrite (withData fs d) node offset size buf).map Prod.snd =
      ((vfsWrite fs node offset size buf).map Prod.snd).map (fun t => withData t d') := by
  have hfile : ∀ node, fileOf (withData fs d) node = fileOf fs node := fun _ => rfl
  cases node with
  | none => exact ⟨d, rfl⟩
  | some node =>
    unfold vfsWrite ramfsVfsWrite
    change ∃ d', Option.map Prod.snd (if (fs node).vfsNode.ops = .ramfs then _ else _) = _
    by_cases hops : (fs node).vfsNode.ops = .ramfs
    · simp only [if_pos hops]
      cases buf with
      | none => exact ⟨d, rfl⟩
      | some buf =>
        rw [hfile]
        cases fileOf fs node with
        | none => exact ⟨d, rfl⟩
        | some i =>
          dsimp only
          change ∃ d', Option.map Prod.snd (if (fs i).used = false then _ else _) = _
          by_cases hused : (fs i).used = false
          · simp only [if_pos hused]
            exact ⟨d, rfl⟩
          · simp only [if_neg hused]
            by_cases hoff : offset.toNat ≥ ramfsMaxData
            · simp only [if_pos hoff]
              exact ⟨d, rfl⟩
            · simp only [if_neg hoff]
              generalize clipped offset size (UInt32.ofNat ramfsMaxData) = n
              by_cases hover : offset.toNat + n > ramfsMaxData
              · simp only [if_pos hover]
                exact ⟨d, rfl⟩
              · simp only [if_neg hover]
                have hup : Function.update (withData fs d) i
                    (writeFile (withData fs d i) offset.toNat n buf) =
                    withData (Function.update fs i (writeFile (fs i) offset.toNat n buf))
                      (Function.update d i (writeFile (withData fs d i) offset.toNat n buf).data) :=
                  withData_update fs d i (writeFile (fs i) offset.toNat n buf) _
                rw [hup, setNodeSize_withData]
                refine ⟨Function.update d i (writeFile (withData fs d i) offset.toNat n buf).data, ?_⟩
                change Option.map Prod.snd (if offset.toNat + n > (fs i).size then _ else _) = _
                by_cases hgrow : offset.toNat + n > (fs i).size
                · simp only [if_pos hgrow, Option.map_some]
                · simp only [if_neg hgrow, Option.map_some]
    · simp only [if_neg hops]
      exact ⟨d, rfl⟩

/-- Data never decides what an operation does. -/
theorem perform_withData (fs : Slots) (d : Slot → ℕ → UInt8) (e : Event) :
    ∃ d', perform (withData fs d) e = (perform fs e).map (fun t => withData t d') := by
  have hfind : ∀ name, ramfsFind (withData fs d) name = ramfsFind fs name := by
    intro name
    cases name <;> rfl
  cases e with
  | create name =>
    cases name with
    | none => exact ⟨d, rfl⟩
    | some name =>
      simp only [perform, ramfsCreate, hfind, Option.map_some]
      by_cases hfound : (ramfsFind fs (some name)).isSome
      · rw [if_pos hfound, if_pos hfound]
        exact ⟨d, rfl⟩
      · rw [if_neg hfound, if_neg hfound]
        have hscan : (fun i => !(withData fs d i).used) = fun i => !(fs i).used := rfl
        rw [hscan]
        cases hfree : (List.finRange ramfsMaxFiles).find? (fun i => !(fs i).used) with
        | none => exact ⟨d, rfl⟩
        | some i =>
          exact ⟨_, congrArg some (withData_update fs d i (freshFile (fs i) i name)
            (Function.update (d i) 0 0))⟩
  | delete name =>
    simp only [perform, ramfsDelete, hfind, Option.map_some]
    cases ramfsFind fs name with
    | none => exact ⟨d, rfl⟩
    | some i =>
      exact ⟨_, congrArg some (withData_update fs d i
        { fs i with used := false, size := 0, name := (fs i).name.set 0 0 } (d i))⟩
  | write name buf len =>
    obtain ⟨d', hd⟩ := ramfsWrite_withData fs d name buf len.toNat (hfind name)
    exact ⟨d', congrArg some hd⟩
  | vfsWrite node offset size buf => exact vfsWrite_withData fs d node offset size buf

/-- What an operation makes of the file in slot `i`, which lives before and after it. -/
structure Effect (fs t : Slots) (i : Slot) (e : Event) : Prop where
  ops : (t i).vfsNode.ops = (fs i).vfsNode.ops
  file : fileOf t i = fileOf fs i
  quiet : patchOf fs i e = none → (t i).data = (fs i).data ∧ (t i).size = (fs i).size
  data : ∀ w, patchOf fs i e = some w →
    ∀ k, (t i).data k = if w.1 ≤ k ∧ k < w.1+w.2.1 then w.2.2 (k-w.1) else (fs i).data k
  grows : ∀ w, patchOf fs i e = some w → w.1 ≤ (t i).size
  bounded : ∀ w, patchOf fs i e = some w → ∀ k < (t i).size, k < (fs i).size ∨ k < w.1+w.2.1

theorem effect_same {fs t : Slots} {i : Slot} {e : Event} (hp : patchOf fs i e = none)
    (h : (t i).data = (fs i).data ∧ (t i).size = (fs i).size)
    (hn : (t i).vfsNode.ops = (fs i).vfsNode.ops ∧ fileOf t i = fileOf fs i) : Effect fs t i e where
  ops := hn.1
  file := hn.2
  quiet _ := h
  data w hw := by
    rw [hp] at hw
    cases hw
  grows w hw := by
    rw [hp] at hw
    cases hw
  bounded w hw := by
    rw [hp] at hw
    cases hw

theorem fileOf_congr {fs t : Slots} {i : Slot}
    (h : (t i).vfsNode.privateData = (fs i).vfsNode.privateData) : fileOf t i = fileOf fs i := by
  unfold fileOf
  rw [h]

theorem effect_update {fs : Slots} {i j : Slot} {f : RamfsFile} {e : Event}
    (hp : patchOf fs i e = none) (hj : j ≠ i) : Effect fs (Function.update fs j f) i e := by
  have hi : Function.update fs j f i = fs i := Function.update_of_ne (Ne.symm hj) _ _
  exact effect_same hp (by rw [hi]; exact ⟨rfl, rfl⟩) (by rw [fileOf_congr (by rw [hi]), hi]; exact ⟨rfl, rfl⟩)

theorem write_effect {fs : Slots} {i : Slot} {name : Option (List UInt8)}
    {buf : Option (ℕ → UInt8)} {len : UInt32} :
    Effect fs (ramfsWrite fs name buf len.toNat).2 i (.write name buf len) := by
  cases hfind : ramfsFind fs name with
  | none =>
    have hkeep : (ramfsWrite fs name buf len.toNat).2 = fs := by
      simp only [ramfsWrite, hfind]
    have hp : patchOf fs i (.write name buf len) = none := by
      cases buf <;> simp [patchOf, hfind]
    rw [hkeep]
    exact effect_same hp ⟨rfl, rfl⟩ ⟨rfl, rfl⟩
  | some j =>
    cases buf with
    | none =>
      have hkeep : (ramfsWrite fs name none len.toNat).2 = fs := by
        simp only [ramfsWrite, hfind]
      rw [hkeep]
      exact effect_same rfl ⟨rfl, rfl⟩ ⟨rfl, rfl⟩
    | some buf =>
      simp only [ramfsWrite, hfind]
      by_cases hj : j = i
      · subst hj
        generalize hn : (if len.toNat > ramfsMaxData then ramfsMaxData else len.toNat) = n
        have hp : patchOf fs j (.write name (some buf) len) = some (0, n, buf) := by
          rw [patchOf, if_pos hfind, hn]
        have hw : ∀ w, patchOf fs j (.write name (some buf) len) = some w → w = (0, n, buf) := by
          intro w h
          rw [hp] at h
          exact (Option.some.inj h).symm
        refine ⟨?_, fileOf_congr ?_, fun h => ?_, fun w h k => ?_, fun w h => ?_, fun w h k hk => ?_⟩
        · rw [Function.update_self]
        · rw [Function.update_self]
        · rw [hp] at h
          cases h
        · rw [hw w h, Function.update_self]
          simp
        · rw [hw w h]
          exact Nat.zero_le _
        · rw [Function.update_self] at hk
          rw [hw w h]
          exact Or.inr (Nat.lt_of_lt_of_le hk (Nat.le_of_eq (Nat.zero_add n).symm))
      · have hp : patchOf fs i (.write name (some buf) len) = none := by
          rw [patchOf, if_neg (by rw [hfind, Option.some.injEq]; exact hj)]
        exact effect_update hp hj

/-- The state after a write of `n` bytes through `node` to the file in slot `j`. -/
def wrote (fs : Slots) (node j : Slot) (offset n : ℕ) (buf : ℕ → UInt8) : Slots :=
  let fs' := Function.update fs j (writeFile (fs j) offset n buf)
  if offset+n > (fs j).size then setNodeSize fs' node (offset+n) else fs'

theorem vfsWrite_cases {fs t : Slots} {node : Option Slot} {offset size : UInt32}
    {buf : Option (ℕ → UInt8)} (h : (vfsWrite fs node offset size buf).map Prod.snd = some t) :
    (t = fs ∧ ∀ i, patchOf fs i (.vfsWrite node offset size buf) = none) ∨
    ∃ nd j b n, node = some nd ∧ buf = some b ∧ n = clipped offset size (UInt32.ofNat ramfsMaxData) ∧
      ((fs nd).vfsNode.ops = .ramfs ∧ fileOf fs nd = some j ∧ (fs j).used = true ∧
        offset.toNat < ramfsMaxData) ∧ offset.toNat + n ≤ ramfsMaxData ∧
      t = wrote fs nd j offset.toNat n b := by
  cases node with
  | none => exact Or.inl ⟨(Option.some.inj h).symm, fun _ => rfl⟩
  | some nd =>
    simp only [vfsWrite, ramfsVfsWrite] at h
    by_cases hops : (fs nd).vfsNode.ops = .ramfs
    · simp only [if_pos hops] at h
      cases buf with
      | none => exact Or.inl ⟨(Option.some.inj h).symm, fun _ => rfl⟩
      | some b =>
        cases hfile : fileOf fs nd with
        | none =>
          simp only [hfile] at h
          exact Or.inl ⟨(Option.some.inj h).symm, fun i => by simp [patchOf, hfile]⟩
        | some j =>
          simp only [hfile] at h
          have hskip : ∀ i, (fs i).used = false ∨ ¬ offset.toNat < ramfsMaxData → i = j →
              patchOf fs i (.vfsWrite (some nd) offset size (some b)) = none := by
            intro i hbad hij
            rw [patchOf, if_neg]
            rintro ⟨⟨-, -, hu, hlt⟩, -⟩
            rcases hbad with hbad | hbad
            · rw [hu] at hbad
              cases hbad
            · exact hbad hlt
          have hother : ∀ i, i ≠ j → patchOf fs i (.vfsWrite (some nd) offset size (some b)) = none := by
            intro i hij
            rw [patchOf, if_neg]
            rintro ⟨⟨-, hf, -, -⟩, -⟩
            exact hij (Option.some.inj (hfile.symm.trans hf)).symm
          by_cases hused : (fs j).used = false
          · simp only [if_pos hused] at h
            refine Or.inl ⟨(Option.some.inj h).symm, fun i => ?_⟩
            by_cases hij : i = j
            · exact hskip i (Or.inl (hij ▸ hused)) hij
            · exact hother i hij
          · simp only [if_neg hused] at h
            by_cases hoff : offset.toNat ≥ ramfsMaxData
            · simp only [if_pos hoff] at h
              refine Or.inl ⟨(Option.some.inj h).symm, fun i => ?_⟩
              by_cases hij : i = j
              · exact hskip i (Or.inr (Nat.not_lt.mpr hoff)) hij
              · exact hother i hij
            · simp only [if_neg hoff] at h
              generalize hn : clipped offset size (UInt32.ofNat ramfsMaxData) = n at h
              by_cases hover : offset.toNat + n > ramfsMaxData
              · simp only [if_pos hover, Option.map_none] at h
                cases h
              · simp only [if_neg hover] at h
                refine Or.inr ⟨nd, j, b, n, rfl, rfl, rfl, ⟨hops, hfile, by simpa using hused,
                  Nat.not_le.mp hoff⟩, Nat.not_lt.mp hover, ?_⟩
                unfold wrote
                by_cases hgrow : offset.toNat + n > (fs j).size
                · simp only [if_pos hgrow, Option.map_some, Option.some.injEq] at h ⊢
                  exact h.symm
                · simp only [if_neg hgrow, Option.map_some, Option.some.injEq] at h ⊢
                  exact h.symm
    · simp only [if_neg hops] at h
      refine Or.inl ⟨(Option.some.inj h).symm, fun i => ?_⟩
      cases buf with
      | none => rfl
      | some b =>
        rw [patchOf, if_neg]
        exact fun hh => hops hh.1.1

/-- Apart from a node's own copy of the size, only the written file changes. -/
theorem wrote_slot (fs : Slots) (node j i : Slot) (offset n : ℕ) (buf : ℕ → UInt8) :
    (wrote fs node j offset n buf i).vfsNode.ops = (fs i).vfsNode.ops ∧
    (wrote fs node j offset n buf i).vfsNode.privateData = (fs i).vfsNode.privateData ∧
    (wrote fs node j offset n buf i).data =
      (if i = j then writeFile (fs j) offset n buf else fs i).data ∧
    (wrote fs node j offset n buf i).size =
      (if i = j then writeFile (fs j) offset n buf else fs i).size ∧
    (wrote fs node j offset n buf i).used = (fs i).used := by
  have hbase : Function.update fs j (writeFile (fs j) offset n buf) i =
      if i = j then writeFile (fs j) offset n buf else fs i := by
    by_cases hij : i = j
    · subst hij
      rw [Function.update_self, if_pos rfl]
    · rw [Function.update_of_ne hij, if_neg hij]
  have hnode : (if i = j then writeFile (fs j) offset n buf else fs i).vfsNode = (fs i).vfsNode := by
    by_cases hij : i = j
    · rw [if_pos hij, hij]
      rfl
    · rw [if_neg hij]
  have hused : (if i = j then writeFile (fs j) offset n buf else fs i).used = (fs i).used := by
    by_cases hij : i = j
    · rw [if_pos hij, hij]
      rfl
    · rw [if_neg hij]
  unfold wrote
  by_cases hgrow : offset+n > (fs j).size
  · simp only [if_pos hgrow]
    unfold setNodeSize
    by_cases hnd : i = node
    · subst hnd
      rw [Function.update_self, hbase]
      exact ⟨by rw [hnode], by rw [hnode], rfl, rfl, hused⟩
    · rw [Function.update_of_ne hnd, hbase, hnode]
      exact ⟨rfl, rfl, rfl, rfl, hused⟩
  · simp only [if_neg hgrow]
    rw [hbase, hnode]
    exact ⟨rfl, rfl, rfl, rfl, hused⟩

theorem vfsWrite_effect {fs t : Slots} {i : Slot} {node : Option Slot} {offset size : UInt32}
    {buf : Option (ℕ → UInt8)} (h : (vfsWrite fs node offset size buf).map Prod.snd = some t) :
    Effect fs t i (.vfsWrite node offset size buf) := by
  rcases vfsWrite_cases h with ⟨rfl, hp⟩ | ⟨nd, j, b, n, rfl, rfl, hn, hcond, hroom, rfl⟩
  · exact effect_same (hp i) ⟨rfl, rfl⟩ ⟨rfl, rfl⟩
  · obtain ⟨hops, hpriv, hdata, hsize, -⟩ := wrote_slot fs nd j i offset.toNat n b
    by_cases hij : i = j
    · subst hij
      rw [if_pos rfl] at hdata hsize
      have hp : patchOf fs i (.vfsWrite (some nd) offset size (some b)) = some (offset.toNat, n, b) := by
        rw [patchOf, if_pos ⟨hcond, hn ▸ hroom⟩, hn]
      have hw : ∀ w, patchOf fs i (.vfsWrite (some nd) offset size (some b)) = some w →
          w = (offset.toNat, n, b) := by
        intro w h
        rw [hp] at h
        exact (Option.some.inj h).symm
      have hle : offset.toNat ≤ (writeFile (fs i) offset.toNat n b).size ∧
          ∀ k < (writeFile (fs i) offset.toNat n b).size, k < (fs i).size ∨ k < offset.toNat+n := by
        unfold writeFile
        dsimp only
        by_cases hgrow : offset.toNat+n > (fs i).size
        · rw [if_pos hgrow]
          exact ⟨by omega, fun k hk => Or.inr hk⟩
        · rw [if_neg hgrow]
          exact ⟨by omega, fun k hk => Or.inl hk⟩
      refine ⟨hops, fileOf_congr hpriv, fun h => ?_, fun w h k => ?_, fun w h => ?_, fun w h k hk => ?_⟩
      · rw [hp] at h
        cases h
      · rw [hw w h, hdata]
        rfl
      · rw [hw w h, hsize]
        exact hle.1
      · rw [hsize] at hk
        rw [hw w h]
        exact hle.2 k hk
    · rw [if_neg hij] at hdata hsize
      refine effect_same ?_ ⟨hdata, hsize⟩ ⟨hops, fileOf_congr hpriv⟩
      rw [patchOf, if_neg]
      rintro ⟨⟨-, hf, -, -⟩, -⟩
      exact hij (Option.some.inj (hcond.2.1.symm.trans hf)).symm

/-- One operation as seen from a file that lives before and after it. -/
theorem perform_effect {fs t : Slots} {i : Slot} {e : Event} (hu : (fs i).used = true)
    (h : perform fs e = some t) (hu' : (t i).used = true) : Effect fs t i e := by
  cases e with
  | create name =>
    obtain rfl := Option.some.inj h
    cases name with
    | none => exact effect_same rfl ⟨rfl, rfl⟩ ⟨rfl, rfl⟩
    | some name =>
      simp only [ramfsCreate]
      by_cases hfound : (ramfsFind fs (some name)).isSome
      · simp only [if_pos hfound]
        exact effect_same rfl ⟨rfl, rfl⟩ ⟨rfl, rfl⟩
      · simp only [if_neg hfound]
        cases hfree : (List.finRange ramfsMaxFiles).find? (fun i => !(fs i).used) with
        | none => exact effect_same rfl ⟨rfl, rfl⟩ ⟨rfl, rfl⟩
        | some j =>
          have hj : (fs j).used = false := by simpa using List.find?_some hfree
          refine effect_update rfl (fun hji => ?_)
          rw [hji, hu] at hj
          cases hj
  | delete name =>
    obtain rfl := Option.some.inj h
    unfold ramfsDelete at hu' ⊢
    cases hfind : ramfsFind fs name with
    | none => exact effect_same rfl ⟨rfl, rfl⟩ ⟨rfl, rfl⟩
    | some j =>
      rw [hfind] at hu'
      refine effect_update rfl (fun hji => ?_)
      subst hji
      simp at hu'
  | write name buf len =>
    obtain rfl := Option.some.inj h
    exact write_effect
  | vfsWrite node offset size buf => exact vfsWrite_effect h

theorem patchOf_withData (fs : Slots) (d : Slot → ℕ → UInt8) (i : Slot) (e : Event) :
    patchOf (withData fs d) i e = patchOf fs i e := by
  cases e with
  | write name buf len =>
    cases name <;> rfl
  | _ => rfl

theorem patch_room {fs : Slots} {i : Slot} {e : Event} {w : ℕ × ℕ × (ℕ → UInt8)}
    (h : patchOf fs i e = some w) : w.1+w.2.1 ≤ ramfsMaxData := by
  cases e with
  | create name => cases h
  | delete name => cases h
  | write name buf len =>
    cases buf with
    | none => cases h
    | some buf =>
      rw [patchOf] at h
      split at h
      · obtain rfl := Option.some.inj h
        dsimp only
        split <;> omega
      · cases h
  | vfsWrite node offset size buf =>
    cases node with
    | none => cases h
    | some node =>
      cases buf with
      | none => cases h
      | some buf =>
        rw [patchOf] at h
        split at h
        · next hc =>
          obtain rfl := Option.some.inj h
          exact hc.2
        · cases h

/-- A write that is made has a result, and the file lives on. -/
theorem patch_returns {fs : Slots} {i : Slot} {e : Event} {w : ℕ × ℕ × (ℕ → UInt8)}
    (hu : (fs i).used = true) (h : patchOf fs i e = some w) :
    ∃ t, perform fs e = some t ∧ (t i).used = true := by
  cases e with
  | create name => cases h
  | delete name => cases h
  | write name buf len =>
    refine ⟨_, rfl, ?_⟩
    unfold ramfsWrite
    cases ramfsFind fs name with
    | none => exact hu
    | some j =>
      cases buf with
      | none => exact hu
      | some buf =>
        dsimp only
        by_cases hij : i = j
        · subst hij
          rw [Function.update_self]
          exact hu
        · rw [Function.update_of_ne hij]
          exact hu
  | vfsWrite node offset size buf =>
    cases node with
    | none => cases h
    | some node =>
      cases buf with
      | none => cases h
      | some buf =>
        rw [patchOf] at h
        split at h
        · next hc =>
          obtain ⟨⟨hops, hfile, hused, hoff⟩, hroom⟩ := hc
          have hdone : (vfsWrite fs (some node) offset size (some buf)).map Prod.snd =
              some (wrote fs node i offset.toNat (clipped offset size (UInt32.ofNat ramfsMaxData)) buf) := by
            simp only [vfsWrite, ramfsVfsWrite, if_pos hops, hfile, wrote]
            rw [if_neg (by rw [hused]; decide), if_neg (by omega), if_neg (by omega)]
            split <;> rfl
          refine ⟨_, hdone, ?_⟩
          rw [(wrote_slot fs node i i _ _ buf).2.2.2.2]
          exact hu
        · cases h

section Compare

variable {i : Slot} {own : Set ℕ} {t t' : Slots}

/-- A living file of a slot whose node leads to it. -/
structure Living (i : Slot) (t : Slots) : Prop where
  used : (t i).used = true
  ops : (t i).vfsNode.ops = .ramfs
  file : fileOf t i = some i
  size : (t i).size ≤ ramfsMaxData

theorem living_step {u : Slots} {e : Event} (hl : Living i t) (h : perform t e = some u)
    (hu : (u i).used = true) : Living i u := by
  have he := perform_effect hl.used h hu
  refine ⟨hu, he.ops.trans hl.ops, he.file.trans hl.file, ?_⟩
  cases hp : patchOf t i e with
  | none =>
    rw [(he.quiet hp).2]
    exact hl.size
  | some w =>
    have hroom := patch_room hp
    have hbound := he.bounded w hp
    have hsize := hl.size
    by_contra hbig
    have hlast := hbound ((u i).size-1) (by omega)
    omega

theorem read_living (hl : Living i t) (offset size : UInt32) (hoff : offset.toNat < (t i).size) :
    vfsRead t (some i) true offset size =
      if offset.toNat + clipped offset size (UInt32.ofNat (t i).size) > ramfsMaxData then none
      else some (((clipped offset size (UInt32.ofNat (t i).size) : ℕ) : ℤ),
        (List.range (clipped offset size (UInt32.ofNat (t i).size))).map
          (fun k => (t i).data (offset.toNat+k))) := by
  simp only [vfsRead, ramfsVfsRead, if_pos hl.ops, hl.file]
  rw [if_neg (by rw [hl.used]; decide), if_neg (by omega)]

/-- A copy that stays in the data array of its slot stays below the end of the file. -/
theorem clipped_readable {offset size : UInt32} {n k : ℕ} (hn : n ≤ ramfsMaxData)
    (hoff : offset.toNat < n) (hroom : ¬ offset.toNat + clipped offset size (UInt32.ofNat n) > ramfsMaxData)
    (hk : k < clipped offset size (UInt32.ofNat n)) : offset.toNat + k < n := by
  unfold ramfsMaxData at *
  have hofNat : (UInt32.ofNat n).toNat = n := UInt32.toNat_ofNat_of_lt' (by unfold UInt32.size; omega)
  unfold clipped at hroom hk
  by_cases hlt : offset + size > UInt32.ofNat n
  · rw [if_pos hlt, UInt32.toNat_sub_of_le _ _ (by rw [UInt32.le_iff_toNat_le, hofNat]; omega),
      hofNat] at hk
    omega
  · rw [if_neg hlt] at hroom hk
    rw [gt_iff_lt, UInt32.lt_iff_toNat_lt, hofNat, UInt32.toNat_add] at hlt
    omega

/-- The two runs agree on what the file has written, and nothing else can be read. -/
structure Twin (i : Slot) (own : Set ℕ) (t t' : Slots) : Prop where
  living : Living i t
  control : ∀ j, t' j = { t j with data := (t' j).data }
  same : ∀ k ∈ own, (t' i).data k = (t i).data k
  covered : ∀ k < (t i).size, k ∈ own

theorem Twin.view (h : Twin i own t t') : SameView i t t' := by
  intro hasBuf offset size
  have hl := h.living
  have hctl := h.control i
  have hops : (t' i).vfsNode.ops = (t i).vfsNode.ops := by rw [hctl]
  have hsize : (t' i).size = (t i).size := by rw [hctl]
  have hused : (t' i).used = (t i).used := by rw [hctl]
  have hfile : fileOf t' i = fileOf t i := fileOf_congr (by rw [hctl])
  have hl' : Living i t' :=
    ⟨hused.trans hl.used, hops.trans hl.ops, hfile.trans hl.file, hsize ▸ hl.size⟩
  cases hasBuf with
  | false =>
    simp only [vfsRead, ramfsVfsRead, hops]
  | true =>
    by_cases hoff : offset.toNat < (t i).size
    · rw [read_living hl offset size hoff, read_living hl' offset size (hsize ▸ hoff), hsize]
      by_cases hover : offset.toNat + clipped offset size (UInt32.ofNat (t i).size) > ramfsMaxData
      · rw [if_pos hover, if_pos hover]
      · rw [if_neg hover, if_neg hover]
        congr 2
        apply List.map_congr_left
        intro k hk
        have hk' := List.mem_range.mp hk
        refine (h.same _ (h.covered _ ?_)).symm
        exact clipped_readable hl.size hoff hover hk'
    · simp only [vfsRead, ramfsVfsRead, hops, if_pos hl.ops, hfile, hl.file, hused, hsize]
      have hlive : ¬ (t i).used = false := by
        rw [hl.used]
        decide
      rw [if_neg hlive, if_pos (by omega), if_neg hlive, if_pos (by omega)]

theorem perform_control {e : Event} (hc : ∀ j, t' j = { t j with data := (t' j).data }) :
    (perform t e = none ∧ perform t' e = none) ∨ ∃ u u', perform t e = some u ∧
      perform t' e = some u' ∧ ∀ j, u' j = { u j with data := (u' j).data } := by
  obtain ⟨d', hd⟩ := perform_withData t (fun j => (t' j).data) e
  rw [← residue_withData hc] at hd
  cases hu : perform t e with
  | none =>
    rw [hu] at hd
    exact Or.inl ⟨rfl, hd⟩
  | some u =>
    rw [hu] at hd
    exact Or.inr ⟨u, _, rfl, hd, fun _ => rfl⟩

theorem patchOf_control {e : Event} (hc : ∀ j, t' j = { t j with data := (t' j).data }) :
    patchOf t' i e = patchOf t i e := by
  rw [residue_withData hc]
  exact patchOf_withData t _ i e

/-- What one operation does to the written bytes in both runs. -/
theorem Twin.step {u u' : Slots} {e : Event} (h : Twin i own t t') (hgap : NoGap own t i e)
    (hu : perform t e = some u) (hu' : perform t' e = some u')
    (hc : ∀ j, u' j = { u j with data := (u' j).data }) (halive : (u i).used = true) :
    Twin i (written own t i e) u u' := by
  have hlive := living_step h.living hu halive
  have hcontrol := h.control i
  have halive' : (u' i).used = true := by rw [hc i]; exact halive
  have hused' : (t' i).used = true := by rw [hcontrol]; exact h.living.used
  have he := perform_effect h.living.used hu halive
  have he' := perform_effect hused' hu' halive'
  have hpatch : patchOf t' i e = patchOf t i e := patchOf_control h.control
  refine ⟨hlive, hc, fun k hk => ?_, fun k hk => ?_⟩
  · cases hp : patchOf t i e with
    | none =>
      rw [(he.quiet hp).1, (he'.quiet (hpatch.trans hp)).1]
      rcases hk with hk | ⟨w, hw, -⟩
      · exact h.same k hk
      · rw [hp] at hw
        cases hw
    | some w =>
      rw [he.data w hp k, he'.data w (hpatch.trans hp) k]
      by_cases hin : w.1 ≤ k ∧ k < w.1+w.2.1
      · rw [if_pos hin, if_pos hin]
      · rw [if_neg hin, if_neg hin]
        rcases hk with hk | ⟨w', hw', hin'⟩
        · exact h.same k hk
        · rw [hp] at hw'
          obtain rfl := Option.some.inj hw'
          exact absurd hin' hin
  · cases hp : patchOf t i e with
    | none =>
      rw [(he.quiet hp).2] at hk
      exact Or.inl (h.covered k hk)
    | some w =>
      rcases he.bounded w hp k hk with hlt | hlt
      · exact Or.inl (h.covered k hlt)
      · by_cases hin : w.1 ≤ k
        · exact Or.inr ⟨w, hp, hin, hlt⟩
        · by_cases hold : k < (t i).size
          · exact Or.inl (h.covered k hold)
          · exact Or.inl (hgap w hp k (Nat.not_lt.mp hold) (Nat.not_le.mp hin))

theorem gapless_reads (es : List Event) (h : Twin i own t t') (hg : Gapless own i t es) :
    SameReads i t t' es := by
  induction es generalizing own t t' with
  | nil => exact h.view
  | cons e es ih =>
    refine ⟨h.view, ?_⟩
    rcases perform_control h.control (e := e) with ⟨hn, hn'⟩ | ⟨u, u', hu, hu', hc⟩
    · rw [hn, hn']
      trivial
    · rw [hu, hu']
      exact fun halive => ih (h.step hg.1 hu hu' hc halive) (hg.2 u hu halive)

/-- A readable byte in which the two states differ is seen. -/
theorem differ_seen {k : ℕ} (hl : Living i t) (hc : ∀ j, t' j = { t j with data := (t' j).data })
    (hk : k < (t i).size) (hne : (t' i).data k ≠ (t i).data k) : ¬ SameView i t t' := by
  intro hview
  have hsize := hl.size
  unfold ramfsMaxData at hsize
  have hctl := hc i
  have hsz : (t' i).size = (t i).size := by rw [hctl]
  have hl' : Living i t' :=
    ⟨by rw [hctl]; exact hl.used, by rw [hctl]; exact hl.ops,
      (fileOf_congr (by rw [hctl])).trans hl.file, hsz ▸ hl.size⟩
  have hofNat : (UInt32.ofNat (t i).size).toNat = (t i).size :=
    UInt32.toNat_ofNat_of_lt' (by unfold UInt32.size; omega)
  have hkNat : (UInt32.ofNat k).toNat = k := UInt32.toNat_ofNat_of_lt' (by unfold UInt32.size; omega)
  have hone : clipped (UInt32.ofNat k) 1 (UInt32.ofNat (t i).size) = 1 := by
    unfold clipped
    rw [if_neg]
    · rfl
    · rw [gt_iff_lt, UInt32.lt_iff_toNat_lt, hofNat, UInt32.toNat_add, hkNat]
      have h1 : (1 : UInt32).toNat = 1 := rfl
      omega
  have hsame := hview true (UInt32.ofNat k) 1
  rw [read_living hl _ _ (by omega), read_living hl' _ _ (by omega), hsz, hone, hkNat,
    if_neg (by unfold ramfsMaxData; omega), if_neg (by unfold ramfsMaxData; omega)] at hsame
  apply hne
  simpa using hsame.symm

/-- If every byte that the file has not written may differ unseen, no write leaves a gap. -/
theorem reads_gapless (es : List Event) (hl : Living i t)
    (h : ∀ k, k ∉ own → ∃ t', (∀ j, t' j = { t j with data := (t' j).data }) ∧
      (t' i).data k ≠ (t i).data k ∧ SameReads i t t' es) : Gapless own i t es := by
  induction es generalizing own t with
  | nil => trivial
  | cons e es ih =>
    have hnext : ∀ u, perform t e = some u → (u i).used = true → ∀ k, k ∉ own →
        (∀ w, patchOf t i e = some w → ¬ (w.1 ≤ k ∧ k < w.1+w.2.1)) →
        ∃ u', (∀ j, u' j = { u j with data := (u' j).data }) ∧
          (u' i).data k ≠ (u i).data k ∧ SameReads i u u' es := by
      intro u hu halive k hk hout
      obtain ⟨t', hc, hne, -, hrest⟩ := h k hk
      rcases perform_control hc (e := e) with ⟨hn, -⟩ | ⟨v, u', hv, hu', hc'⟩
      · rw [hu] at hn
        cases hn
      · obtain rfl := Option.some.inj (hu.symm.trans hv)
        rw [hu, hu'] at hrest
        have hctl := hc i
        have he := perform_effect hl.used hu halive
        have he' := perform_effect (by rw [hctl]; exact hl.used) hu' (by rw [hc' i]; exact halive)
        have hpatch : patchOf t' i e = patchOf t i e := patchOf_control hc
        refine ⟨u', hc', ?_, hrest halive⟩
        cases hp : patchOf t i e with
        | none => rwa [(he.quiet hp).1, (he'.quiet (hpatch.trans hp)).1]
        | some w =>
          rwa [he.data w hp k, he'.data w (hpatch.trans hp) k, if_neg (hout w hp), if_neg (hout w hp)]
    refine ⟨fun w hw k hk hgap => ?_, fun u hu halive => ?_⟩
    · by_contra hk'
      obtain ⟨u, hu, halive⟩ := patch_returns hl.used hw
      obtain ⟨u', hc, hne, hreads⟩ := hnext u hu halive k hk' (fun w' hw' hin => by
        obtain rfl := Option.some.inj (hw.symm.trans hw')
        omega)
      have he := perform_effect hl.used hu halive
      have hview : SameView i u u' := by
        cases es with
        | nil => exact hreads
        | cons e' es => exact hreads.1
      exact differ_seen (living_step hl hu halive) hc
        (Nat.lt_of_lt_of_le hgap (he.grows w hw)) hne hview
    · refine ih (living_step hl hu halive) (fun k hk => ?_)
      exact hnext u hu halive k (fun h => hk (Or.inl h)) (fun w hw hin => hk (Or.inr ⟨w, hw, hin⟩))

end Compare

theorem created_slot {s : Slots} {name : List UInt8} {i : Slot} (hfree : (s i).used = false)
    (hnew : ((ramfsCreate s (some name)).2 i).used = true) :
    (ramfsCreate s (some name)).2 = Function.update s i (freshFile (s i) i name) := by
  simp only [ramfsCreate] at hnew ⊢
  by_cases hfound : (ramfsFind s (some name)).isSome
  · simp only [if_pos hfound, hfree] at hnew
    cases hnew
  · simp only [if_neg hfound] at hnew ⊢
    cases hslot : (List.finRange ramfsMaxFiles).find? (fun i => !(s i).used) with
    | none =>
      simp only [hslot, hfree] at hnew
      cases hnew
    | some j =>
      simp only [hslot] at hnew ⊢
      by_cases hij : i = j
      · rw [hij]
      · rw [Function.update_of_ne hij, hfree] at hnew
        cases hnew

theorem created_living {s : Slots} {name : List UInt8} {i : Slot} :
    Living i (Function.update s i (freshFile (s i) i name)) := by
  refine ⟨?_, ?_, ?_, ?_⟩
  · rw [Function.update_self]
    rfl
  · rw [Function.update_self]
    rfl
  · have hpriv : (Function.update s i (freshFile (s i) i name) i).vfsNode.privateData = some i.val := by
      rw [Function.update_self]
      rfl
    simp only [fileOf, hpriv]
    rw [dif_pos i.isLt]
  · rw [Function.update_self]
    exact Nat.zero_le _

/-- Reads of a new file never depend on what was left in its slot exactly
when no write to it leaves a gap. -/
theorem deleted_contents_hidden_iff (s : Slots) (name : List UInt8) (i : Slot)
    (hfree : (s i).used = false) (hnew : ((ramfsCreate s (some name)).2 i).used = true)
    (es : List Event) :
    (∀ s', Residue s s' →
      SameReads i (ramfsCreate s (some name)).2 (ramfsCreate s' (some name)).2 es) ↔
    Gapless {0} i (ramfsCreate s (some name)).2 es := by
  have hcreate : ∀ s', (∀ j, s' j = { s j with data := (s' j).data }) →
      (ramfsCreate s' (some name)).2 = Function.update s' i (freshFile (s' i) i name) ∧
      ∀ j, (ramfsCreate s' (some name)).2 j =
        { (ramfsCreate s (some name)).2 j with data := ((ramfsCreate s' (some name)).2 j).data } := by
    intro s' hc
    have hctl : ∀ j, (ramfsCreate s' (some name)).2 j =
        { (ramfsCreate s (some name)).2 j with data := ((ramfsCreate s' (some name)).2 j).data } := by
      rcases perform_control hc (e := .create (some name)) with ⟨hn, -⟩ | ⟨u, u', hu, hu', hc'⟩
      · cases hn
      · obtain rfl := Option.some.inj hu
        obtain rfl := Option.some.inj hu'
        exact hc'
    refine ⟨created_slot ?_ ?_, hctl⟩
    · rw [hc i]
      exact hfree
    · rw [hctl i]
      exact hnew
  have hbase := created_slot hfree hnew
  have hlive : Living i (ramfsCreate s (some name)).2 := hbase ▸ created_living
  constructor
  · intro h
    refine reads_gapless es hlive (fun k hk => ?_)
    have hk0 : k ≠ 0 := hk
    let s' := Function.update s i { s i with data := Function.update (s i).data k ((s i).data k + 1) }
    have hc : ∀ j, s' j = { s j with data := (s' j).data } := by
      intro j
      by_cases hj : j = i
      · subst hj
        simp [s']
      · simp [s', hj]
    have hres : Residue s s' := by
      refine ⟨hc, fun j hu k' _ => ?_⟩
      have hj : j ≠ i := by
        rintro rfl
        rw [hfree] at hu
        cases hu
      simp [s', hj]
    obtain ⟨hs', hctl⟩ := hcreate s' hc
    refine ⟨_, hctl, ?_, h s' hres⟩
    have hleft : ((ramfsCreate s' (some name)).2 i).data k = (s i).data k + 1 := by
      rw [hs', Function.update_self]
      simp [freshFile, s', hk0]
    have hright : ((ramfsCreate s (some name)).2 i).data k = (s i).data k := by
      rw [hbase, Function.update_self]
      simp [freshFile, hk0]
    rw [hleft, hright]
    simp
  · intro hg s' hres
    obtain ⟨hs', hctl⟩ := hcreate s' hres.control
    refine gapless_reads es ⟨hlive, hctl, fun k hk => ?_, fun k hk => ?_⟩ hg
    · obtain rfl : k = 0 := hk
      rw [hs', hbase, Function.update_self, Function.update_self]
      simp [freshFile]
    · rw [hbase, Function.update_self] at hk
      exact absurd hk (Nat.not_lt_zero k)

def firstSlot : Slot := ⟨0, by decide⟩

/-- A file with the name "b" in the first slot of a fresh table, written from its start. -/
theorem deleted_contents_hidden_iff_sample :
    (∀ s', Residue ramfsCleared s' →
      SameReads firstSlot (ramfsCreate ramfsCleared (some [98])).2 (ramfsCreate s' (some [98])).2
        [.vfsWrite (some firstSlot) 0 4 (some fun _ => 7)]) ↔
    Gapless {0} firstSlot (ramfsCreate ramfsCleared (some [98])).2
      [.vfsWrite (some firstSlot) 0 4 (some fun _ => 7)] :=
  deleted_contents_hidden_iff ramfsCleared [98] firstSlot rfl (by decide +kernel) _

def stateOr (s : Slots) : Option Slots → Slots
  | some t => t
  | none => s

def runSlots (s : Slots) (es : List Event) : Slots :=
  es.foldl (fun s e => stateOr s (perform s e)) s

/-- A file "a" with four bytes `secret` is deleted and a file "b" takes its slot. -/
def recycled (secret : UInt8) : Slots :=
  runSlots ramfsCleared
    [.create (some [97]), .write (some [97]) (some fun _ => secret) 4, .delete (some [97]),
      .create (some [98])]

/-- One byte written at offset 3 of the new file uncovers what the deleted file held. -/
theorem secret_uncovered :
    ¬ SameReads firstSlot (recycled 1) (recycled 2) [.vfsWrite (some firstSlot) 3 1 (some fun _ => 9)] := by
  intro h
  have hafter : ∀ b : UInt8, b = 1 ∨ b = 2 →
      perform (recycled b) (.vfsWrite (some firstSlot) 3 1 (some fun _ => 9)) =
        some (runSlots (recycled b) [.vfsWrite (some firstSlot) 3 1 (some fun _ => 9)]) := by
    intro b hb
    have hsome : ∀ o : Option Slots, o.isSome → o = some (stateOr (recycled b) o) := by
      intro o ho
      cases o with
      | none => cases ho
      | some t => rfl
    exact hsome _ (by rcases hb with rfl | rfl <;> decide +kernel)
  have hrest := h.2
  rw [hafter 1 (Or.inl rfl), hafter 2 (Or.inr rfl)] at hrest
  have hview := hrest (by decide +kernel) true 0 4
  exact absurd hview (by decide +kernel)

end Dionnex.RamfsResidue
