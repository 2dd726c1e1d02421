import Dionnex.PathTokens
import Dionnex.StringBuffers

/-!
# The tokenizer over whole runs

`strtok` goes on where its last call has stopped, and cuts the string while it does. The
first call is given the string and the others none, until one finds nothing more. Positions are
those of the original string, which the buffer still holds from `strtok_saved` on.
-/

set_option autoImplicit false

namespace Dionnex.Strtok
open StringBuffers Dionnex.KernelString

/-! ## The code -/

/-- The string is given by its bytes, here and for the delimiters; the answer is the index. -/
def strchr (c : UInt8) : List UInt8 → ℕ → Option ℕ
  | [], p => if c = 0 then some p else none
  | a::s, p => if a = 0 then (if c = 0 then some p else none) else if a = c then some p else strchr c s (p+1)

def isDelim (delim : List UInt8) (c : UInt8) : Bool := (strchr c delim 0).isSome

/-- For the record `reads` and `writes` list the positions at which the string was read and written. -/
structure Tokenizer where
  buf : Buffer
  saved : Option ℕ
  reads : List ℕ
  writes : List ℕ

/-- `while (*p && stays(*p)) p++;`, if it ends within `n` tests. -/
def scanWhile (stays : UInt8 → Bool) (buf : Buffer) : ℕ → ℕ → List ℕ → Option (ℕ × List ℕ)
  | 0, _, _ => none
  | n+1, p, reads =>
    if buf p ≠ 0 ∧ stays (buf p) = true then scanWhile stays buf n (p+1) (reads++[p]) else some (p, reads++[p])

/-- From the token on. -/
def endToken (t : Tokenizer) (start stop : ℕ) (reads : List ℕ) : Option ℕ × Tokenizer :=
  if t.buf stop ≠ 0 then (some start, ⟨Function.update t.buf stop 0, some (stop+1), reads, t.writes++[stop]⟩)
  else (some start, { t with saved := none, reads := reads })

/-- `none` when a loop does not end within `n` tests. -/
def strtok (n : ℕ) (delim : List UInt8) (t : Tokenizer) (str : Option ℕ) : Option (Option ℕ × Tokenizer) :=
  let t := { t with saved := str.or t.saved }
  match t.saved with
  | none => some (none, t)
  | some p =>
    (scanWhile (isDelim delim) t.buf n p t.reads).bind (fun r =>
      if t.buf r.1 = 0 then some (none, { t with saved := some r.1, reads := r.2 })
      else
        (scanWhile (fun c => !isDelim delim c) t.buf n r.1 r.2).map (fun r' => endToken t r.1 r'.1 r'.2))

/-- The calls with NULL behind a first one, until one returns NULL: the tokens, each with the buffer as the call
has left it. -/
def tokenLoop (n : ℕ) (delim : List UInt8) : ℕ → Option ℕ × Tokenizer → Option (List (ℕ × Buffer) × Tokenizer)
  | 0, _ => none
  | _+1, (none, t) => some ([], t)
  | m+1, (some token, t) =>
    (strtok n delim t none).bind (fun r => (tokenLoop n delim m r).map (fun l => ((token, t.buf) :: l.1, l.2)))

def tokenize (n : ℕ) (delim : List UInt8) (t : Tokenizer) (str : ℕ) : Option (List (ℕ × Buffer) × Tokenizer) :=
  (strtok n delim t (some str)).bind (tokenLoop n delim n)

/-- So many further calls with NULL and their answers. -/
def laterCalls (n : ℕ) (delim : List UInt8) : ℕ → Tokenizer → Option (List (Option ℕ) × Tokenizer)
  | 0, t => some ([], t)
  | k+1, t => (strtok n delim t none).bind (fun r => (laterCalls n delim k r.2).map (fun l => (r.1 :: l.1, l.2)))

/-! ## What the tokens are -/

/-- A string with its NUL at `stop`. -/
structure StringAt (buf : Buffer) (start stop : ℕ) : Prop where
  le : start ≤ stop
  bytes : ∀ x, start ≤ x → x < stop → buf x ≠ 0
  nul : buf stop = 0

def Delim (delim : List UInt8) (buf : Buffer) (x : ℕ) : Prop := buf x ∈ cstr delim

/-- From `i` to `j` there are bytes and none is a delimiter, and on both sides the string ends or there is one. -/
structure MaximalRun (delim : List UInt8) (buf : Buffer) (start stop i j : ℕ) : Prop where
  inside : start ≤ i ∧ i < j ∧ j ≤ stop
  plain : ∀ x, i ≤ x → x < j → ¬ Delim delim buf x
  left : i = start ∨ Delim delim buf (i-1)
  right : j = stop ∨ Delim delim buf j

/-- The bytes of a run are those of the original string, and a NUL ends them. -/
def Terminated (buf b : Buffer) (i j : ℕ) : Prop := (∀ x, i ≤ x → x < j → b x = buf x) ∧ b j = 0

/-- The tokens are the maximal runs in their order, terminated when they are returned and at the end; only
delimiters are overwritten, and nothing behind the NUL is read. -/
structure Tokenized (delim : List UInt8) (buf : Buffer) (start stop : ℕ) (l : List (ℕ × Buffer)) (t : Tokenizer) : Prop where
  ordered : (l.map Prod.fst).Pairwise (· < ·)
  runs : ∀ i, i ∈ l.map Prod.fst ↔ ∃ j, MaximalRun delim buf start stop i j
  terminated : ∀ token ∈ l, ∃ j, MaximalRun delim buf start stop token.1 j ∧
    Terminated buf token.2 token.1 j ∧ Terminated buf t.buf token.1 j
  writes : ∀ x ∈ t.writes, start ≤ x ∧ x < stop ∧ Delim delim buf x
  kept : ∀ x, x ∉ t.writes → t.buf x = buf x
  reads : ∀ x ∈ t.reads, start ≤ x ∧ x ≤ stop

/-! ## One call -/

section Scans

variable {delim : List UInt8} {buf : Buffer} {stays : UInt8 → Bool} {start stop n p i j : ℕ} {reads : List ℕ} {c : UInt8}

theorem strchr_some (hc : c ≠ 0) : (strchr c delim p).isSome = true ↔ c ∈ cstr delim := by
  induction delim generalizing p with
  | nil =>
    rw [strchr, if_neg hc]
    exact iff_of_false Bool.false_ne_true List.not_mem_nil
  | cons a delim ih =>
    rw [strchr]
    by_cases ha : a = 0
    · rw [if_pos ha, if_neg hc, ha, cstr_zero]
      exact iff_of_false Bool.false_ne_true List.not_mem_nil
    · rw [if_neg ha, cstr_cons a delim ha, List.mem_cons]
      by_cases hac : a = c
      · rw [if_pos hac]
        exact iff_of_true rfl (.inl hac.symm)
      · rw [if_neg hac, ih]
        exact (or_iff_right (Ne.symm hac)).symm

theorem isDelim_iff (h : buf p ≠ 0) : isDelim delim (buf p) = true ↔ Delim delim buf p := strchr_some h

/-- The scan stops at the NUL at the latest, and reads no further than where it stops. -/
theorem scanWhile_stops (hstop : buf stop = 0) (hp : p ≤ stop) (hn : stop - p < n) :
    ∃ q seen, scanWhile stays buf n p reads = some (q, reads++seen) ∧ p ≤ q ∧ q ≤ stop ∧
      (∀ x, p ≤ x → x < q → buf x ≠ 0 ∧ stays (buf x) = true) ∧ (buf q = 0 ∨ stays (buf q) = false) ∧
      ∀ x ∈ seen, p ≤ x ∧ x ≤ q := by
  induction n generalizing p reads with
  | zero => exact absurd hn (Nat.not_lt_zero _)
  | succ n ih =>
    rw [scanWhile]
    by_cases htest : buf p ≠ 0 ∧ stays (buf p) = true
    · have hlt : p < stop := Nat.lt_of_le_of_ne hp (fun he => htest.1 (he ▸ hstop))
      obtain ⟨q, seen, hscan, hpq, hq, hall, hend, hseen⟩ := @ih (p+1) (reads++[p]) hlt (by omega)
      rw [if_pos htest]
      refine ⟨q, p::seen, ?_, Nat.le_of_succ_le hpq, hq, fun x hx hxq => ?_, hend, fun x hx => ?_⟩
      · rw [hscan, List.append_assoc]
        rfl
      · rcases Nat.eq_or_lt_of_le hx with rfl | hlt'
        · exact htest
        · exact hall x hlt' hxq
      · rcases List.mem_cons.mp hx with rfl | hx
        · exact ⟨le_rfl, Nat.le_of_succ_le hpq⟩
        · exact ⟨Nat.le_of_succ_le (hseen x hx).1, (hseen x hx).2⟩
    · rw [if_neg htest]
      refine ⟨p, [p], rfl, le_rfl, hp, fun x hx hxp => absurd hxp (Nat.not_lt.mpr hx), ?_, fun x hx => ?_⟩
      · rcases not_and_or.mp htest with h0 | hstays
        · exact .inl (not_not.mp h0)
        · exact .inr (Bool.eq_false_iff.mpr hstays)
      · obtain rfl := List.mem_singleton.mp hx
        exact ⟨le_rfl, le_rfl⟩

/-- A run that does not begin before the delimiters in front of another one begins with it or behind it. -/
theorem run_first {q i' j' : ℕ} (h : MaximalRun delim buf start stop i j) (hskip : ∀ x, q ≤ x → x < i → Delim delim buf x)
    (h' : MaximalRun delim buf start stop i' j') (hq : q ≤ i') : (i' = i ∧ j' = j) ∨ j < i' := by
  have hi : i ≤ i' := by
    by_contra hlt
    exact h'.plain i' le_rfl h'.inside.2.1 (hskip i' hq (Nat.not_le.mp hlt))
  rcases Nat.eq_or_lt_of_le hi with rfl | hlt
  · refine .inl ⟨rfl, ?_⟩
    by_contra hne
    rcases Nat.lt_or_gt_of_ne hne with hj | hj
    · have hright : Delim delim buf j' := h'.right.resolve_left (by have hin := h.inside; omega)
      exact h.plain j' h'.inside.2.1.le hj hright
    · have hright : Delim delim buf j := h.right.resolve_left (by have hin := h'.inside; omega)
      exact h'.plain j h.inside.2.1.le hj hright
  · right
    by_contra hle
    have hleft : Delim delim buf (i'-1) := h'.left.resolve_left (by have hin := h.inside; omega)
    exact h.plain (i'-1) (by omega) (by omega) hleft

end Scans

section Calls

variable {delim : List UInt8} {buf : Buffer} {start stop n q i j : ℕ} {t t' : Tokenizer} {str : Option ℕ}

/-- What every call keeps. -/
structure Clean (delim : List UInt8) (buf : Buffer) (start stop : ℕ) (t : Tokenizer) : Prop where
  writes : ∀ x ∈ t.writes, start ≤ x ∧ x < stop ∧ Delim delim buf x
  zeros : ∀ x ∈ t.writes, t.buf x = 0
  kept : ∀ x, x ∉ t.writes → t.buf x = buf x
  reads : ∀ x ∈ t.reads, start ≤ x ∧ x ≤ stop

/-- The next call begins at `q`, at the start or behind a delimiter, and nothing from there on has been written. -/
structure Ahead (delim : List UInt8) (buf : Buffer) (start stop : ℕ) (t : Tokenizer) (q : ℕ) : Prop where
  inside : start ≤ q ∧ q ≤ stop
  left : q = start ∨ Delim delim buf (q-1)
  writes : ∀ x ∈ t.writes, x < q

/-- No further token can be found. -/
def Finished (start stop : ℕ) (t : Tokenizer) : Prop :=
  t.saved = none ∨ ∃ p, t.saved = some p ∧ start ≤ p ∧ p ≤ stop ∧ t.buf p = 0

theorem Ahead.same (h : Ahead delim buf start stop t q) (hclean : Clean delim buf start stop t) {x : ℕ} (hx : q ≤ x) :
    t.buf x = buf x := hclean.kept x (fun hw => Nat.not_lt.mpr hx (h.writes x hw))

/-- Ahead of the calls the only NUL is the one of the string. -/
theorem Ahead.nul_stop (ha : Ahead delim buf start stop t q) (hs : StringAt buf start stop) (h : Clean delim buf start stop t)
    {x : ℕ} (hx : q ≤ x) (hle : x ≤ stop) (h0 : t.buf x = 0) : x = stop := by
  have hin := ha.inside
  by_contra hne
  exact hs.bytes x (by omega) (Nat.lt_of_le_of_ne hle hne) ((ha.same h hx).symm.trans h0)

/-- A run has its bytes as long as its end is cut. -/
theorem Clean.terminated (h : Clean delim buf start stop t) (hs : StringAt buf start stop)
    (hrun : MaximalRun delim buf start stop i j) (hcut : j = stop ∨ j ∈ t.writes) : Terminated buf t.buf i j := by
  refine ⟨fun x hi hj => h.kept x (fun hw => hrun.plain x hi hj (h.writes x hw).2.2), ?_⟩
  rcases hcut with rfl | hw
  · rw [h.kept j (fun hw => absurd (h.writes j hw).2.1 (Nat.lt_irrefl j))]
    exact hs.nul
  · exact h.zeros j hw

/-- What a call does to the state when it finds a token. -/
structure Found (delim : List UInt8) (buf : Buffer) (start stop q i j : ℕ) (t t' : Tokenizer) : Prop where
  run : MaximalRun delim buf start stop i j
  skipped : q ≤ i ∧ ∀ x, q ≤ x → x < i → Delim delim buf x
  clean : Clean delim buf start stop t'
  grows : ∀ x ∈ t.writes, x ∈ t'.writes
  next : (j = stop ∧ t'.saved = none) ∨
    (j ∈ t'.writes ∧ j < stop ∧ t'.saved = some (j+1) ∧ Ahead delim buf start stop t' (j+1))

theorem clean_reads (h : Clean delim buf start stop t) {reads : List ℕ} {saved : Option ℕ}
    (hreads : ∀ x ∈ reads, start ≤ x ∧ x ≤ stop) : Clean delim buf start stop { t with saved := saved, reads := reads } :=
  ⟨h.writes, h.zeros, h.kept, hreads⟩

theorem endToken_found (hs : StringAt buf start stop) (h : Clean delim buf start stop t) (ha : Ahead delim buf start stop t q)
    (hrun : MaximalRun delim buf start stop i j) (hskip : q ≤ i ∧ ∀ x, q ≤ x → x < i → Delim delim buf x) {reads : List ℕ}
    (hreads : ∀ x ∈ reads, start ≤ x ∧ x ≤ stop) :
    ∃ t', endToken t i j reads = (some i, t') ∧ Found delim buf start stop q i j t t' := by
  have hin := hrun.inside
  have hsame : t.buf j = buf j := ha.same h (by omega)
  unfold endToken
  by_cases hend : t.buf j ≠ 0
  · have hlt : j < stop := Nat.lt_of_le_of_ne hin.2.2 (fun he => hend (hsame.trans (he ▸ hs.nul)))
    have hdelim : Delim delim buf j := hrun.right.resolve_left hlt.ne
    rw [if_pos hend]
    refine ⟨_, rfl, hrun, hskip, ⟨?_, ?_, ?_, hreads⟩, fun x hx => List.mem_append_left _ hx, .inr ⟨?_, hlt, rfl, ?_⟩⟩
    · intro x hx
      rcases List.mem_append.mp hx with hx | hx
      · exact h.writes x hx
      · obtain rfl := List.mem_singleton.mp hx
        exact ⟨by omega, hlt, hdelim⟩
    · intro x hx
      by_cases hxj : x = j
      · exact hxj ▸ Function.update_self _ _ _
      · refine (Function.update_of_ne hxj _ _).trans (h.zeros x ?_)
        exact (List.mem_append.mp hx).resolve_right (fun hx => hxj (List.mem_singleton.mp hx))
    · intro x hx
      obtain ⟨hold, hnew⟩ := not_or.mp (fun hor => hx (List.mem_append.mpr hor))
      exact (Function.update_of_ne (fun he => hnew (List.mem_singleton.mpr he)) _ _).trans (h.kept x hold)
    · exact List.mem_append_right _ (List.mem_singleton_self j)
    · refine ⟨⟨by omega, hlt⟩, .inr hdelim, fun x hx => ?_⟩
      rcases List.mem_append.mp hx with hx | hx
      · have hxq := ha.writes x hx
        omega
      · rw [List.mem_singleton.mp hx]
        exact Nat.lt_succ_self j
  · rw [if_neg hend]
    have hnul := not_not.mp hend
    have hstop := ha.nul_stop hs h (by omega) hin.2.2 hnul
    exact ⟨_, rfl, hrun, hskip, clean_reads h hreads, fun x hx => hx, .inl ⟨hstop, rfl⟩⟩

theorem Ahead.delim_iff (ha : Ahead delim buf start stop t q) (h : Clean delim buf start stop t) {x : ℕ} (hx : q ≤ x)
    (h0 : t.buf x ≠ 0) : isDelim delim (t.buf x) = true ↔ Delim delim buf x := by
  have hsame := ha.same h hx
  rw [hsame] at h0 ⊢
  exact isDelim_iff h0

/-- Where the second scan has gone from and to there is a run. -/
theorem scan_run (hs : StringAt buf start stop) (h : Clean delim buf start stop t) (ha : Ahead delim buf start stop t q)
    (hqi : q ≤ i) (hskip : ∀ x, q ≤ x → x < i → Delim delim buf x) (hnul : t.buf i ≠ 0) (hfirst : isDelim delim (t.buf i) = false)
    (hij : i ≤ j) (hj : j ≤ stop) (hplain : ∀ x, i ≤ x → x < j → t.buf x ≠ 0 ∧ (!isDelim delim (t.buf x)) = true)
    (hend : t.buf j = 0 ∨ (!isDelim delim (t.buf j)) = false) : MaximalRun delim buf start stop i j := by
  have hin := ha.inside
  have hlt : i < j := by
    refine Nat.lt_of_le_of_ne hij (fun he => ?_)
    rw [← he, hfirst] at hend
    exact hend.elim hnul (fun hd => by cases hd)
  refine ⟨⟨by omega, hlt, hj⟩, fun x hx hxj => ?_, ?_, ?_⟩
  · obtain ⟨h0, hd⟩ := hplain x hx hxj
    rw [← ha.delim_iff h (hqi.trans hx) h0]
    intro htrue
    rw [htrue] at hd
    cases hd
  · rcases Nat.eq_or_lt_of_le hqi with rfl | hqlt
    · exact ha.left
    · exact .inr (hskip (i-1) (by omega) (by omega))
  · by_cases h0 : t.buf j = 0
    · exact .inl (ha.nul_stop hs h (hqi.trans hij) hj h0)
    · have hd := hend.resolve_left h0
      rw [Bool.not_eq_eq_eq_not, Bool.not_false] at hd
      exact .inr ((ha.delim_iff h (hqi.trans hij) h0).mp hd)

/-- A call finds the next run or that there is none. -/
theorem strtok_call (hs : StringAt buf start stop) (h : Clean delim buf start stop t) (ha : Ahead delim buf start stop t q)
    (hq : str.or t.saved = some q) (hn : stop - start < n) :
    (∃ i j t', strtok n delim t str = some (some i, t') ∧ Found delim buf start stop q i j t t') ∨
      ∃ t', strtok n delim t str = some (none, t') ∧ (∀ i j, MaximalRun delim buf start stop i j → i < q) ∧
        Clean delim buf start stop t' ∧ Finished start stop t' ∧ t'.writes = t.writes := by
  have hstop : t.buf stop = 0 := (ha.same h ha.inside.2).trans hs.nul
  have hin := ha.inside
  obtain ⟨i, seen, hscan, hqi, hi, hskip, hend, hseen⟩ :=
    @scanWhile_stops t.buf (isDelim delim) stop n q t.reads hstop ha.inside.2 (by omega)
  have hreads : ∀ x ∈ t.reads ++ seen, start ≤ x ∧ x ≤ stop := by
    intro x hx
    rcases List.mem_append.mp hx with hx | hx
    · exact h.reads x hx
    · have hsx := hseen x hx
      omega
  have hdelims : ∀ x, q ≤ x → x < i → Delim delim buf x :=
    fun x hx hxi => (ha.delim_iff h hx (hskip x hx hxi).1).mp (hskip x hx hxi).2
  unfold strtok
  simp only [hq, hscan, Option.bind_some]
  by_cases hnul : t.buf i = 0
  · rw [if_pos hnul]
    refine .inr ⟨_, rfl, fun i' j' hrun' => ?_, clean_reads h hreads, .inr ⟨i, rfl, by omega, hi, hnul⟩, rfl⟩
    by_contra hle
    have hstopi := ha.nul_stop hs h hqi hi hnul
    have hin' := hrun'.inside
    exact hrun'.plain i' le_rfl hin'.2.1 (hdelims i' (Nat.not_lt.mp hle) (by omega))
  · rw [if_neg hnul]
    obtain ⟨j, seen', hscan', hij, hj, hplain, hend', hseen'⟩ :=
      @scanWhile_stops t.buf (fun c => !isDelim delim c) stop n i (t.reads++seen) hstop hi (by omega)
    have hreads' : ∀ x ∈ t.reads ++ seen ++ seen', start ≤ x ∧ x ≤ stop := by
      intro x hx
      rcases List.mem_append.mp hx with hx | hx
      · exact hreads x hx
      · have hsx := hseen' x hx
        omega
    have hrun := scan_run hs h ha hqi hdelims hnul (hend.resolve_left hnul) hij hj hplain hend'
    rw [hscan', Option.map_some]
    obtain ⟨t', hcall, hfound⟩ := @endToken_found delim buf start stop q i j { t with saved := some q } hs
      (clean_reads h h.reads) ⟨ha.inside, ha.left, ha.writes⟩ hrun ⟨hqi, hdelims⟩ _ hreads'
    exact .inl ⟨i, j, t', congrArg some hcall, hfound.run, hfound.skipped, hfound.clean, hfound.grows, hfound.next⟩

end Calls

/-! ## All calls -/

section Runs

variable {delim : List UInt8} {buf : Buffer} {start stop n m q i j : ℕ} {t t' tf : Tokenizer} {str : Option ℕ}
  {l : List (ℕ × Buffer)}

/-- What has been returned from the call at `q` on until NULL. -/
structure Collected (delim : List UInt8) (buf : Buffer) (start stop q : ℕ) (t : Tokenizer) (l : List (ℕ × Buffer))
    (tf : Tokenizer) : Prop where
  ordered : (l.map Prod.fst).Pairwise (· < ·)
  runs : ∀ i, i ∈ l.map Prod.fst ↔ q ≤ i ∧ ∃ j, MaximalRun delim buf start stop i j
  terminated : ∀ token ∈ l, ∃ j, MaximalRun delim buf start stop token.1 j ∧ Terminated buf token.2 token.1 j ∧
    (j = stop ∨ j ∈ tf.writes)
  clean : Clean delim buf start stop tf
  finished : Finished start stop tf
  grows : ∀ x ∈ t.writes, x ∈ tf.writes

theorem collected_none (hnone : ∀ i j, MaximalRun delim buf start stop i j → i < q) (hclean : Clean delim buf start stop tf)
    (hfinished : Finished start stop tf) (hgrows : ∀ x ∈ t.writes, x ∈ tf.writes) :
    Collected delim buf start stop q t [] tf := by
  refine ⟨.nil, fun i => iff_of_false List.not_mem_nil ?_, fun _ hx => absurd hx List.not_mem_nil, hclean, hfinished, hgrows⟩
  rintro ⟨hqi, j, hrun⟩
  exact Nat.not_lt.mpr hqi (hnone i j hrun)

/-- One token in front of those that the later calls return. -/
theorem collected_cons (hs : StringAt buf start stop) (hfound : Found delim buf start stop q i j t t')
    (hrest : Collected delim buf start stop (j+1) t' l tf) : Collected delim buf start stop q t ((i, t'.buf)::l) tf := by
  have hcut : j = stop ∨ j ∈ t'.writes := hfound.next.imp And.left And.left
  have hin := hfound.run.inside
  have hqi := hfound.skipped.1
  refine ⟨?_, fun x => ?_, fun token htoken => ?_, hrest.clean, hrest.finished, fun x hx => hrest.grows x (hfound.grows x hx)⟩
  · refine List.pairwise_cons.mpr ⟨fun x hx => ?_, hrest.ordered⟩
    have hlater := ((hrest.runs x).mp hx).1
    change i < x
    omega
  · rw [List.map_cons, List.mem_cons, hrest.runs]
    constructor
    · rintro (rfl | ⟨hjx, hx⟩)
      · exact ⟨hqi, j, hfound.run⟩
      · exact ⟨by omega, hx⟩
    · rintro ⟨hqx, j', hx⟩
      rcases run_first hfound.run hfound.skipped.2 hx hqx with ⟨rfl, -⟩ | hlt
      · exact .inl rfl
      · exact .inr ⟨hlt, j', hx⟩
  · rcases List.mem_cons.mp htoken with rfl | htoken
    · exact ⟨j, hfound.run, hfound.clean.terminated hs hfound.run hcut, hcut.imp id (hrest.grows j)⟩
    · exact hrest.terminated token htoken

theorem strtok_null (h : t.saved = none) : strtok n delim t none = some (none, t) := by
  cases t
  obtain rfl : _ = none := h
  rfl

theorem tokenLoop_some : tokenLoop n delim (m+1) (some i, t) =
    ((strtok n delim t none).bind (tokenLoop n delim m)).map (fun l => ((i, t.buf) :: l.1, l.2)) := by
  rw [tokenLoop]
  cases strtok n delim t none <;> rfl

/-- The calls from a position on until one returns NULL. -/
theorem tokenLoop_collects (hs : StringAt buf start stop) (hn : stop - start < n) (h : Clean delim buf start stop t)
    (ha : Ahead delim buf start stop t q) (hq : str.or t.saved = some q) (hm : stop - q < m) :
    ∃ l tf, (strtok n delim t str).bind (tokenLoop n delim m) = some (l, tf) ∧
      Collected delim buf start stop q t l tf := by
  induction m generalizing t q str with
  | zero => exact absurd hm (Nat.not_lt_zero _)
  | succ m ih =>
    rcases strtok_call hs h ha hq hn with ⟨i, j, t', hcall, hfound⟩ | ⟨t', hcall, hnone, hclean, hfinished, hwrites⟩
    · have hin := hfound.run.inside
      have hqi := hfound.skipped.1
      rw [hcall, Option.bind_some, tokenLoop_some]
      rcases hfound.next with ⟨hj, hsaved⟩ | ⟨-, hj, hsaved, hahead⟩
      · -- The token ends the string: the next call has nothing to go on with.
        obtain ⟨m, rfl⟩ := Nat.exists_eq_succ_of_ne_zero (show m ≠ 0 by omega)
        have hend : ∀ i' j', MaximalRun delim buf start stop i' j' → i' < j+1 := by
          intro i' j' hrun'
          have hin' := hrun'.inside
          omega
        have hrest := collected_none hend hfound.clean (Or.inl hsaved) (fun x hx => hx)
        rw [strtok_null hsaved]
        exact ⟨_, t', rfl, collected_cons hs hfound hrest⟩
      · have hnext : (none : Option ℕ).or t'.saved = some (j+1) := hsaved
        obtain ⟨l, tf, hloop, hrest⟩ := ih hfound.clean hahead hnext (by omega)
        rw [hloop]
        exact ⟨_, tf, rfl, collected_cons hs hfound hrest⟩
    · rw [hcall]
      exact ⟨[], t', rfl, collected_none hnone hclean hfinished (fun x hx => hwrites.symm ▸ hx)⟩

theorem Collected.tokenized (hs : StringAt buf start stop) (h : Collected delim buf start stop start t l tf) :
    Tokenized delim buf start stop l tf := by
  refine ⟨h.ordered, fun i => ?_, fun token htoken => ?_, h.clean.writes, h.clean.kept, h.clean.reads⟩
  · rw [h.runs]
    exact and_iff_right_of_imp (fun ⟨_, hrun⟩ => hrun.inside.1)
  · obtain ⟨j, hrun, hterminated, hcut⟩ := h.terminated token htoken
    exact ⟨j, hrun, hterminated, h.clean.terminated hs hrun hcut⟩

/-- A call when nothing is left looks at one byte at most. -/
theorem strtok_finished (h : Finished start stop t) (hn : 0 < n) : ∃ t', strtok n delim t none = some (none, t') ∧
    Finished start stop t' ∧ t'.buf = t.buf ∧ t'.writes = t.writes ∧ ∀ x ∈ t'.reads, x ∈ t.reads ∨ start ≤ x ∧ x ≤ stop := by
  rcases h with hsaved | ⟨p, hsaved, hstart, hstop, hnul⟩
  · exact ⟨t, strtok_null hsaved, .inl hsaved, rfl, rfl, fun x hx => .inl hx⟩
  · obtain ⟨n, rfl⟩ := Nat.exists_eq_succ_of_ne_zero hn.ne'
    have hscan : scanWhile (isDelim delim) t.buf (n+1) p t.reads = some (p, t.reads++[p]) := by
      rw [scanWhile, if_neg (fun htest => htest.1 hnul)]
    refine ⟨{ t with saved := some p, reads := t.reads++[p] }, ?_, .inr ⟨p, rfl, hstart, hstop, hnul⟩, rfl, rfl, fun x hx => ?_⟩
    · unfold strtok
      simp only [hsaved, Option.none_or, hscan, Option.bind_some]
      rw [if_pos hnul]
    · rcases List.mem_append.mp hx with hx | hx
      · exact .inl hx
      · rw [List.mem_singleton.mp hx]
        exact .inr ⟨hstart, hstop⟩

theorem later_calls (hn : 0 < n) (k : ℕ) (h : Finished start stop t) : ∃ t', laterCalls n delim k t =
    some (List.replicate k none, t') ∧ t'.buf = t.buf ∧ t'.writes = t.writes ∧
      ∀ x ∈ t'.reads, x ∈ t.reads ∨ start ≤ x ∧ x ≤ stop := by
  induction k generalizing t with
  | zero => exact ⟨t, rfl, rfl, rfl, fun x hx => .inl hx⟩
  | succ k ih =>
    obtain ⟨t1, hcall, hfinished, hbuf, hwrites, hreads⟩ := @strtok_finished delim start stop n t h hn
    obtain ⟨t2, hcalls, hbuf', hwrites', hreads'⟩ := ih hfinished
    refine ⟨t2, ?_, hbuf'.trans hbuf, hwrites'.trans hwrites, fun x hx => (hreads' x hx).elim (hreads x) .inr⟩
    rw [laterCalls, hcall, Option.bind_some, hcalls]
    rfl

theorem Tokenized.later (h : Tokenized delim buf start stop l t) (hbuf : t'.buf = t.buf) (hwrites : t'.writes = t.writes)
    (hreads : ∀ x ∈ t'.reads, x ∈ t.reads ∨ start ≤ x ∧ x ≤ stop) : Tokenized delim buf start stop l t' := by
  refine ⟨h.ordered, h.runs, ?_, ?_, ?_, fun x hx => (hreads x hx).elim (h.reads x) id⟩
  · rw [hbuf]
    exact h.terminated
  · rw [hwrites]
    exact h.writes
  · rw [hbuf, hwrites]
    exact h.kept

/-- The calls end and return the maximal runs of the string, and every later call returns NULL and changes nothing. -/
theorem strtok_tokens (delim : List UInt8) (buf : Buffer) (start stop : ℕ) (saved : Option ℕ) (n : ℕ)
    (hs : StringAt buf start stop) (hn : stop - start < n) :
    ∃ l t, tokenize n delim ⟨buf, saved, [], []⟩ start = some (l, t) ∧ Tokenized delim buf start stop l t ∧
      ∀ k, ∃ t', laterCalls n delim k t = some (List.replicate k none, t') ∧ Tokenized delim buf start stop l t' := by
  have hclean : Clean delim buf start stop ⟨buf, saved, [], []⟩ :=
    ⟨fun _ hx => absurd hx List.not_mem_nil, fun _ hx => absurd hx List.not_mem_nil, fun _ _ => rfl,
      fun _ hx => absurd hx List.not_mem_nil⟩
  have hahead : Ahead delim buf start stop ⟨buf, saved, [], []⟩ start :=
    ⟨⟨le_rfl, hs.le⟩, .inl rfl, fun _ hx => absurd hx List.not_mem_nil⟩
  obtain ⟨l, t, hloop, hcollected⟩ := @tokenLoop_collects delim buf start stop n n start _ (some start) hs hn hclean hahead rfl hn
  have htokens := hcollected.tokenized hs
  refine ⟨l, t, hloop, htokens, fun k => ?_⟩
  obtain ⟨t', hcalls, hbuf, hwrites, hreads⟩ := @later_calls delim start stop n t (by omega) k hcollected.finished
  exact ⟨t', hcalls, htokens.later hbuf hwrites hreads⟩

end Runs

/-- `a,,b` with the comma. -/
def sampleBuffer : Buffer := put (fun _ => 0) 0 [97, 44, 44, 98]

theorem strtok_tokens_sample :
    ∃ l t, tokenize 5 [44] ⟨sampleBuffer, none, [], []⟩ 0 = some (l, t) ∧ Tokenized [44] sampleBuffer 0 4 l t ∧
      ∀ k, ∃ t', laterCalls 5 [44] k t = some (List.replicate k none, t') ∧ Tokenized [44] sampleBuffer 0 4 l t' :=
  strtok_tokens [44] sampleBuffer 0 4 none 5
    ⟨by decide, fun x _ hx => by interval_cases x <;> decide, by decide⟩ (by decide)

/-! ## Paths -/

section Paths

variable {b : List UInt8} {stays test : UInt8 → Bool} {n p : ℕ} {reads : List ℕ}

/-- An array with NULs behind it. -/
def bytesOf (b : List UInt8) : Buffer := fun i => b.getD i 0

theorem bytesOf_set (b : List UInt8) (i : ℕ) : bytesOf (b.set i 0) = Function.update (bytesOf b) i 0 := by
  funext x
  unfold bytesOf
  by_cases hx : x = i
  · subst hx
    rw [Function.update_self]
    by_cases hlt : x < b.length
    · rw [List.getD_eq_getElem _ _ (by rw [List.length_set]; exact hlt), List.getElem_set_self]
    · exact List.getD_eq_default _ _ (by rw [List.length_set]; exact Nat.not_lt.mp hlt)
  · rw [Function.update_of_ne hx, List.getD_eq_getElem?_getD, List.getElem?_set_ne (Ne.symm hx), List.getD_eq_getElem?_getD]

theorem bytesOf_drop {c : UInt8} {l : List UInt8} (h : b.drop p = c::l) : bytesOf b p = c ∧ b.drop (p+1) = l := by
  constructor
  · have hget : b[p]? = some c := by rw [← List.head?_drop, h, List.head?_cons]
    unfold bytesOf
    rw [List.getD_eq_getElem?_getD, hget]
    rfl
  · rw [← List.tail_drop, h, List.tail_cons]

/-- The scan of the array is that of its list. -/
theorem scanWhile_list (h : ∀ c, c ≠ 0 → stays c = test c) (l : List UInt8) (hl : b.drop p = l) (hn : l.length < n) :
    ∃ seen, scanWhile stays (bytesOf b) n p reads = some (PathTokens.scan test l p, reads++seen) := by
  induction l generalizing n p reads with
  | nil =>
    obtain ⟨n, rfl⟩ := Nat.exists_eq_succ_of_ne_zero (Nat.ne_of_gt hn)
    have hend : bytesOf b p = 0 := List.getD_eq_default _ _ (List.drop_eq_nil_iff.mp hl)
    rw [scanWhile, if_neg (fun htest => htest.1 hend)]
    exact ⟨[p], rfl⟩
  | cons c l ih =>
    obtain ⟨n, rfl⟩ := Nat.exists_eq_succ_of_ne_zero (Nat.ne_of_gt (Nat.zero_lt_of_lt hn))
    obtain ⟨hbyte, hrest⟩ := bytesOf_drop hl
    have htest : (c ≠ 0 ∧ stays c = true) ↔ (c ≠ 0 ∧ test c = true) := and_congr_right (fun hc => by rw [h c hc])
    rw [scanWhile, hbyte, PathTokens.scan]
    by_cases hc : c ≠ 0 ∧ test c = true
    · obtain ⟨seen, hscan⟩ := @ih n (p+1) (reads++[p]) hrest (Nat.lt_of_succ_lt_succ hn)
      rw [if_pos (htest.mpr hc), if_pos hc, hscan, List.append_assoc]
      exact ⟨_, rfl⟩
    · rw [if_neg (fun hs => hc (htest.mp hs)), if_neg hc]
      exact ⟨[p], rfl⟩

theorem isDelim_slash {c : UInt8} (hc : c ≠ 0) : isDelim [Vfs.slash] c = PathTokens.isSlash c := by
  rw [Bool.eq_iff_iff, isDelim, strchr_some hc]
  unfold PathTokens.isSlash
  rw [decide_eq_true_eq]
  exact List.mem_singleton

/-- The path tokenizer is this one with the slash. -/
theorem strtokBuffer_strtok (t : PathTokens.Tokenizer) (str : Option ℕ) (hn : t.buf.length < n) (reads writes : List ℕ) :
    ∃ reads' writes', strtok n [Vfs.slash] ⟨bytesOf t.buf, t.saved, reads, writes⟩ str =
      some ((PathTokens.strtokBuffer t str).1, ⟨bytesOf (PathTokens.strtokBuffer t str).2.buf,
        (PathTokens.strtokBuffer t str).2.saved, reads', writes'⟩) := by
  unfold strtok PathTokens.strtokBuffer
  cases hsaved : str.or t.saved with
  | none =>
    dsimp only
    exact ⟨reads, writes, rfl⟩
  | some p =>
    have hshort : ∀ k, (t.buf.drop k).length < n := fun k => by
      rw [List.length_drop]
      omega
    obtain ⟨seen, hscan⟩ := @scanWhile_list t.buf (isDelim [Vfs.slash]) PathTokens.isSlash n p reads
      (fun c hc => isDelim_slash hc) _ rfl (hshort p)
    simp only [hscan, Option.bind_some]
    generalize PathTokens.scan PathTokens.isSlash (t.buf.drop p) p = start
    by_cases hend : t.buf.getD start 0 = 0
    · rw [if_pos hend, if_pos (show bytesOf t.buf start = 0 from hend)]
      exact ⟨_, _, rfl⟩
    · rw [if_neg hend, if_neg (show ¬ bytesOf t.buf start = 0 from hend)]
      obtain ⟨seen', hscan'⟩ := @scanWhile_list t.buf (fun c => !isDelim [Vfs.slash] c) PathTokens.notSlash n start
        (reads++seen) (fun c hc => by
          rw [isDelim_slash hc]
          unfold PathTokens.isSlash PathTokens.notSlash
          rw [← decide_not]) _ rfl (hshort start)
      rw [hscan', Option.map_some, endToken]
      generalize PathTokens.scan PathTokens.notSlash (t.buf.drop start) start = stop
      by_cases hcut : t.buf.getD stop 0 ≠ 0
      · rw [if_pos hcut, if_pos (show bytesOf t.buf stop ≠ 0 from hcut), bytesOf_set]
        exact ⟨_, _, rfl⟩
      · rw [if_neg hcut, if_neg (show ¬ bytesOf t.buf stop ≠ 0 from hcut)]
        exact ⟨_, _, rfl⟩

end Paths

end Dionnex.Strtok
