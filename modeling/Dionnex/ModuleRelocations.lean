import Dionnex.ModuleLoader

/-!
# Relocation entries

Types 4 and 5 are taken for additions to a half word and a byte, which have
the numbers 20 and 22; an entry of a type that is not in the switch and one
whose symbol does not exist are passed over, and the load goes on. So a load
that returns 0 has applied all entries as they are meant exactly when they
keep to the two types that the switch gets right.
-/

set_option autoImplicit false

namespace Dionnex.ModuleRelocations
open ByteMemory Dionnex.KernelHeap Dionnex.ModuleImage Dionnex.ModuleLoader

/-- The i386 meaning of the types that need no table but the symbols, the inner `none` for the type that does
nothing. The other types have no meaning in a module. -/
def abiPatch (type s p : ℕ) : Option (Option Patch) :=
  match type with
  | 0 => some none
  | 1 => some (some (.add32 p s))
  | 2 => some (some (.add32 p (sub32 s p)))
  | 4 => some (some (.add32 p (sub32 s p)))
  | 20 => some (some (.add16 p (s % 65536)))
  | 21 => some (some (.add16 p (sub32 s p % 65536)))
  | 22 => some (some (.add8 p (s % 256)))
  | 23 => some (some (.add8 p (sub32 s p % 256)))
  | _ => none

/-- Entry `r` of section `i`, the target of which is an allocated section. -/
def IsEntry (d : Mem) (shdrs i r : ℕ) : Prop :=
  i < eShnum d ∧ shType d shdrs i = shtRel ∧ shInfo d shdrs i < eShnum d ∧
    shFlags d shdrs (shInfo d shdrs i) &&& shfAlloc ≠ 0 ∧ r < shSize d shdrs i / 8

instance (d : Mem) (shdrs i r : ℕ) : Decidable (IsEntry d shdrs i r) := inferInstanceAs (Decidable (_ ∧ _))

def infoAt (d : Mem) (shdrs i r : ℕ) : ℕ := rInfo d (shOffset d shdrs i) r

/-- What the entry asks for; an entry without a symbol asks for nothing that can be done. -/
def meaning (d : Mem) (t : Tables) (shdrs i r : ℕ) : Option (Option Patch) :=
  if t.symCount ≤ rSym (infoAt d shdrs i r) then none
  else abiPatch (rType (infoAt d shdrs i r)) (stValue d t.syms (rSym (infoAt d shdrs i r)))
    (wrap (shAddr d shdrs (shInfo d shdrs i) + rOffset d (shOffset d shdrs i) r))

/-- Every entry was applied as it is meant; `shdrs` is the place of the section headers. -/
def Applied (out : Outcome) (shdrs : ℕ) : Prop :=
  ∀ d t, out.image = some d → out.tables = some t → ∀ i r, IsEntry d shdrs i r →
    ∃ p, ⟨i, r, p⟩ ∈ out.visits ∧ meaning d t shdrs i r = some p

/-- Every entry names a symbol of the table and has one of the types `R_386_NONE`, `R_386_32` and `R_386_PC32`. -/
def Supported (out : Outcome) (shdrs : ℕ) : Prop :=
  ∀ d t, out.image = some d → out.tables = some t → ∀ i r, IsEntry d shdrs i r →
    rSym (infoAt d shdrs i r) < t.symCount ∧ rType (infoAt d shdrs i r) ≤ 2

/-! ## The record of the relocations -/

section Record

variable {m d : Mem} {t : Tables} {targetBase rels index shdrs r i n : ℕ} {v : Visit}

theorem mem_applyEntries : v ∈ (applyEntries m d t targetBase rels index r n).2 ↔
    ∃ j < n, v = ⟨index, r+j, entryPatch d t targetBase rels (r+j)⟩ := by
  induction n generalizing m r with
  | zero => simp [applyEntries]
  | succ n ih =>
    rw [applyEntries]
    dsimp only
    rw [List.mem_cons, ih]
    constructor
    · rintro (rfl | ⟨j, hj, rfl⟩)
      · exact ⟨0, by omega, rfl⟩
      · exact ⟨j+1, by omega, by rw [Nat.add_assoc, Nat.add_comm 1 j]⟩
    · rintro ⟨j, hj, rfl⟩
      cases j with
      | zero => exact Or.inl rfl
      | succ j => exact Or.inr ⟨j, by omega, by rw [Nat.add_assoc, Nat.add_comm 1 j]⟩

/-- Every entry of every section with a target is visited. -/
theorem mem_applySections : v ∈ (applySections m d shdrs t i n).2 ↔
    ∃ j, i ≤ j ∧ j < i+n ∧ (shType d shdrs j = shtRel ∧ shInfo d shdrs j < eShnum d) ∧
      ∃ r < shSize d shdrs j / 8,
        v = ⟨j, r, entryPatch d t (shAddr d shdrs (shInfo d shdrs j)) (shOffset d shdrs j) r⟩ := by
  induction n generalizing m i with
  | zero =>
    refine iff_of_false List.not_mem_nil ?_
    rintro ⟨j, hlo, hhi, -⟩
    omega
  | succ n ih =>
    rw [applySections]
    by_cases h : shType d shdrs i = shtRel ∧ shInfo d shdrs i < eShnum d
    · rw [if_pos h]
      dsimp only
      rw [List.mem_append, ih, mem_applyEntries]
      constructor
      · rintro (⟨r, hr, rfl⟩ | ⟨j, hlo, hhi, hj⟩)
        · rw [Nat.zero_add]
          exact ⟨i, le_rfl, by omega, h, r, hr, rfl⟩
        · exact ⟨j, by omega, by omega, hj⟩
      · rintro ⟨j, hlo, hhi, hj⟩
        by_cases hji : j = i
        · subst hji
          obtain ⟨-, r, hr, rfl⟩ := hj
          exact Or.inl ⟨r, hr, by rw [Nat.zero_add]⟩
        · exact Or.inr ⟨j, by omega, by omega, hj⟩
    · rw [if_neg h, ih]
      constructor
      · rintro ⟨j, hlo, hhi, hj⟩
        exact ⟨j, by omega, by omega, hj⟩
      · rintro ⟨j, hlo, hhi, hj⟩
        have hji : j ≠ i := by
          rintro rfl
          exact h hj.1
        exact ⟨j, by omega, by omega, hj⟩

/-- Memory ends up as the recorded additions leave it, one after the other. -/
theorem applyEntries_mem : (applyEntries m d t targetBase rels index r n).1 =
    ((applyEntries m d t targetBase rels index r n).2.filterMap Visit.patch).foldl Patch.apply m := by
  induction n generalizing m r with
  | zero => rfl
  | succ n ih =>
    rw [applyEntries]
    dsimp only
    rw [ih]
    cases entryPatch d t targetBase rels r with
    | none => rfl
    | some p => rfl

theorem applySections_mem : (applySections m d shdrs t i n).1 =
    ((applySections m d shdrs t i n).2.filterMap Visit.patch).foldl Patch.apply m := by
  induction n generalizing m i with
  | zero => rfl
  | succ n ih =>
    rw [applySections]
    by_cases h : shType d shdrs i = shtRel ∧ shInfo d shdrs i < eShnum d
    · rw [if_pos h]
      dsimp only
      rw [ih, List.filterMap_append, List.foldl_append, ← applyEntries_mem]
    · rw [if_neg h]
      exact ih

end Record

/-! ## What the switch gets right -/

theorem switch_meant (type s p : ℕ) : abiPatch type s p = some (switchPatch type s p) ↔ type ≤ 2 := by
  unfold abiPatch switchPatch r386_32 r386_pc32 r386_16 r386_8
  split
  · simp
  · simp
  · simp
  · simp
  · simp
  · simp
  · simp
  · simp
  · rename_i h0 h1 h2 _ _ _ _ _
    refine iff_of_false (fun h => by cases h) (fun hle => ?_)
    have htype : type = 0 ∨ type = 1 ∨ type = 2 := by omega
    exact htype.elim h0 (fun h => h.elim h1 h2)

section Loads

variable {env : Env} {k : Kernel} {name : Option (List UInt8)} {d : Mem} {size : ℕ} {out : Outcome}
  {symbols : List (List UInt8 × ℕ)} {m : Mem} {base : ℕ}

theorem entry_meant {t : Tables} {shdrs i r : ℕ} :
    meaning d t shdrs i r = some (entryPatch d t (shAddr d shdrs (shInfo d shdrs i)) (shOffset d shdrs i) r) ↔
      rSym (infoAt d shdrs i r) < t.symCount ∧ rType (infoAt d shdrs i r) ≤ 2 := by
  unfold meaning entryPatch infoAt
  dsimp only
  by_cases hsym : t.symCount ≤ rSym (rInfo d (shOffset d shdrs i) r)
  · rw [if_pos hsym]
    refine iff_of_false (fun h => by cases h) (fun h => ?_)
    omega
  · rw [if_neg hsym, if_neg hsym, switch_meant, and_iff_right (Nat.not_le.mp hsym)]

/-- Linking that finds the functions has been through the relocations. -/
theorem link_visits {functions : ℕ × ℕ} (h : (linkModule symbols m d base).functions = some functions) :
    ∃ t m', (linkModule symbols m d base).tables = some t ∧
      (linkModule symbols m d base).visits = (applySections m' (linkModule symbols m d base).image (eShoff d) t 0
        (eShnum (linkModule symbols m d base).image)).2 := by
  unfold linkModule at *
  dsimp only at *
  cases htables : symbolTables (copySections m d (eShoff d) base 0 0 sectionLimit).2 (eShoff d) with
  | none =>
    rw [htables] at h
    cases h
  | some t =>
    rw [htables] at h
    dsimp only at *
    split at h
    · cases h
    · rename_i hresolved
      rw [if_neg hresolved]
      exact ⟨t, _, rfl, rfl⟩

/-- A load that returns 0 has visited every entry of its image once. -/
theorem load_visits (hload : moduleLoadBinary env k name (some d) size = .ok out) (hzero : out.result = 0) :
    ∃ img t, out.image = some img ∧ out.tables = some t ∧
      ∀ i r, IsEntry img (eShoff d) i r → ∀ p, ⟨i, r, p⟩ ∈ out.visits ↔
        p = entryPatch img t (shAddr img (eShoff d) (shInfo img (eShoff d) i)) (shOffset img (eShoff d) i) r := by
  rcases load_cases hload with ⟨hfail, -⟩ | ⟨n, d', base, u, -, hd, -, -, -, -, l, hl, hreg⟩
  · rw [hfail] at hzero
    cases hzero
  cases hd
  obtain ⟨⟨himage, htables, hvisits⟩, hout⟩ := register_cases hreg
  rcases hout with ⟨hfail, -⟩ | ⟨functions, addr, v, hfunctions, -⟩
  · rw [hfail] at hzero
    cases hzero
  rw [hl] at hfunctions himage htables hvisits
  obtain ⟨t, m', ht, hv⟩ := link_visits hfunctions
  refine ⟨_, t, himage, htables.trans ht, fun i r hentry p => ?_⟩
  obtain ⟨hi, hrel, htarget, -, hr⟩ := hentry
  rw [hvisits, hv, mem_applySections]
  constructor
  · rintro ⟨j, -, -, -, r', -, he⟩
    cases he
    rfl
  · rintro rfl
    exact ⟨i, Nat.zero_le i, by omega, ⟨hrel, htarget⟩, r, hr, rfl⟩

theorem applied_supported (hload : moduleLoadBinary env k name (some d) size = .ok out) (hzero : out.result = 0)
    (h : Applied out (eShoff d)) : Supported out (eShoff d) := by
  obtain ⟨img, t, himage, htables, hvisit⟩ := load_visits hload hzero
  intro d' t' hd' ht' i r he
  obtain rfl := Option.some.inj (himage.symm.trans hd')
  obtain rfl := Option.some.inj (htables.symm.trans ht')
  obtain ⟨p, hp, hmeant⟩ := h _ _ himage htables i r he
  rw [(hvisit i r he p).mp hp] at hmeant
  exact entry_meant.mp hmeant

theorem supported_applied (hload : moduleLoadBinary env k name (some d) size = .ok out) (hzero : out.result = 0)
    (h : Supported out (eShoff d)) : Applied out (eShoff d) := by
  obtain ⟨img, t, himage, htables, hvisit⟩ := load_visits hload hzero
  intro d' t' hd' ht' i r he
  obtain rfl := Option.some.inj (himage.symm.trans hd')
  obtain rfl := Option.some.inj (htables.symm.trans ht')
  exact ⟨_, (hvisit i r he _).mpr rfl, entry_meant.mpr (h _ _ himage htables i r he)⟩

/-- A load that returns 0 has applied every entry as it is meant exactly when each names a symbol and has a type
that the switch knows by its number. -/
theorem relocations_applied_iff (hload : moduleLoadBinary env k name (some d) size = .ok out)
    (hzero : out.result = 0) : Applied out (eShoff d) ↔ Supported out (eShoff d) :=
  ⟨applied_supported hload hzero, supported_applied hload hzero⟩

end Loads

/-! ## A call of a function -/

/-- What a load of the small module shows: its result, its entry, and that the entry has a target. -/
def reportOf (r : Except Fault Outcome) : Option (ℤ × Option (ℕ × Bool)) :=
  r.toOption.map (fun out => (out.result, out.image.map (fun d => (infoAt d 52 4 0, decide (IsEntry d 52 4 0)))))

theorem report_some {r : Except Fault Outcome} {z : ℤ} {info : ℕ} (h : reportOf r = some (z, some (info, true))) :
    ∃ out d, r = .ok out ∧ out.result = z ∧ out.image = some d ∧ infoAt d 52 4 0 = info ∧ IsEntry d 52 4 0 := by
  cases r with
  | error e => cases h
  | ok out =>
    obtain ⟨hz, hd⟩ := Prod.ext_iff.mp (Option.some.inj h)
    obtain ⟨d, hd, hi⟩ := Option.map_eq_some_iff.mp hd
    obtain ⟨hinfo, hentry⟩ := Prod.ext_iff.mp hi
    exact ⟨out, d, rfl, hz, hd, hinfo, of_decide_eq_true hentry⟩

/-- A word relocated by its symbol. -/
theorem relocations_applied_iff_sample :
    ∃ out, moduleLoadBinary sampleEnv sampleKernel (some []) (some (imageWith shtSymtab 257)) 312 = .ok out ∧
      (Applied out 52 ↔ Supported out 52) := by
  have heval : reportOf (moduleLoadBinary sampleEnv sampleKernel (some []) (some (imageWith shtSymtab 257)) 312) =
      some (0, some (257, true)) := by decide +kernel
  have hshoff : eShoff (imageWith shtSymtab 257) = 52 := by decide
  obtain ⟨out, d, hout, hzero, -⟩ := report_some heval
  have hiff := relocations_applied_iff hout hzero
  rw [hshoff] at hiff
  exact ⟨out, hout, hiff⟩

/-- An entry of type 4, as compilers make them for calls, is applied to half a word. -/
theorem call_misread : ¬ ∀ (env : Env) (k : Kernel) (name : Option (List UInt8)) (d : Mem) (size : ℕ) (out : Outcome),
    moduleLoadBinary env k name (some d) size = .ok out → out.result = 0 → Applied out (eShoff d) := by
  intro hclaim
  have heval : reportOf (moduleLoadBinary sampleEnv sampleKernel (some []) (some (imageWith shtSymtab 260)) 312) =
      some (0, some (260, true)) := by decide +kernel
  have hshoff : eShoff (imageWith shtSymtab 260) = 52 := by decide
  obtain ⟨out, d, hout, hzero, himage, hinfo, hentry⟩ := report_some heval
  have hsupported := applied_supported hout hzero (hclaim _ _ _ _ _ _ hout hzero)
  obtain ⟨img, t, hd, ht, -⟩ := load_visits hout hzero
  obtain rfl := Option.some.inj (himage.symm.trans hd)
  rw [hshoff] at hsupported
  have htype := (hsupported _ _ hd ht 4 0 hentry).2
  rw [hinfo] at htype
  exact absurd htype (by decide)

end Dionnex.ModuleRelocations
