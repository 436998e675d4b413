import Cfengine.VerifyPackages

/-!
# What parsing a version keeps

The numerals and separators of `ParsePackageVersion` are the whole version exactly if it has no run
of 30 letters and digits (`parsePackageVersion_lossless_iff`): of such a run the 30th character is
lost, and an empty separator is in its place.
-/

namespace Cfengine

variable {version s t run : CString} {c : Char} {fuel : Nat}

/-- Numerals and separators in turn. -/
def interleave : List CString → List CString → CString
  | numeral :: num, separator :: sep => numeral ++ separator ++ interleave num sep
  | num, [] => num.flatten
  | [], sep => sep.flatten

/-- Nothing of a version is lost. -/
structure Lossless (version : CString) : Prop where
  whole : interleave (parsePackageVersion version).1 (parsePackageVersion version).2 = version
  numerals : ∀ numeral ∈ (parsePackageVersion version).1, ∀ c ∈ numeral, c.isAlphanum
  separators : ∀ separator ∈ (parsePackageVersion version).2,
    ∃ c, separator = [c] ∧ c.isAlphanum = false
  unique : ∀ other, parsePackageVersion other = parsePackageVersion version → other = version

/-- There are 30 letters and digits in a row. -/
def HasLongRun (version : CString) : Prop :=
  ∃ run, run <:+: version ∧ run.length = 30 ∧ ∀ c ∈ run, c.isAlphanum

theorem infix_of_not_mem (hc : c ∉ run) (h : run <:+: s ++ c :: t) : run <:+: s ∨ run <:+: t := by
  obtain ⟨before, behind, heq⟩ := h
  rw [List.append_assoc, List.append_eq_append_iff] at heq
  obtain ⟨mid, rfl, hmid⟩ | ⟨mid, rfl, hmid⟩ := heq
  · rw [List.append_eq_append_iff] at hmid
    obtain ⟨last, rfl, _⟩ | ⟨last, rfl, hlast⟩ := hmid
    · exact .inl ⟨before, last, List.append_assoc ..⟩
    · cases last with
      | nil => exact .inl ⟨before, [], by simp⟩
      | cons d last =>
        obtain ⟨rfl, _⟩ := List.cons_eq_cons.mp hlast
        exact absurd (List.mem_append_right _ List.mem_cons_self) hc
  · cases mid with
    | nil =>
      cases run with
      | nil => exact .inl (List.nil_infix)
      | cons d run =>
        obtain ⟨rfl, _⟩ := List.cons_eq_cons.mp hmid
        exact absurd List.mem_cons_self hc
    | cons d mid =>
      obtain ⟨rfl, htail⟩ := List.cons_eq_cons.mp hmid
      exact .inr ⟨mid, behind, (List.append_assoc ..).trans htail.symm⟩

/-! ## The parser -/

/-- The numeral at the start of a text, and what follows it. -/
theorem exists_numeral_split (s : CString) :
    ∃ numeral rest, (s.take 29).takeWhile Char.isAlphanum = numeral ∧ s = numeral ++ rest ∧
      numeral.length ≤ 29 ∧ (∀ c ∈ numeral, c.isAlphanum) ∧
      ∀ c ∈ rest.head?, c.isAlphanum = true → numeral.length = 29 := by
  have hsplit : (s.take 29).takeWhile Char.isAlphanum ++
      ((s.take 29).dropWhile Char.isAlphanum ++ s.drop 29) = s := by
    rw [← List.append_assoc, List.takeWhile_append_dropWhile, List.take_append_drop]
  have hlength :=
    congrArg List.length (List.takeWhile_append_dropWhile (p := Char.isAlphanum) (l := s.take 29))
  rw [List.length_append, List.length_take] at hlength
  refine ⟨_, _, rfl, hsplit.symm, by omega, fun c hc => List.mem_takeWhile_imp hc, ?_⟩
  intro c hc halnum
  cases hdrop : (s.take 29).dropWhile Char.isAlphanum with
  | nil =>
    rw [hdrop, List.nil_append] at hc
    rw [hdrop, List.length_nil] at hlength
    have hlong : 29 < s.length := by
      by_contra hshort
      rw [List.drop_eq_nil_of_le (by omega)] at hc
      cases hc
    omega
  | cons d tail =>
    have hnot := List.head?_dropWhile_not Char.isAlphanum (s.take 29)
    rw [hdrop] at hc hnot
    cases hc
    rw [List.head?_cons] at hnot
    rw [hnot] at halnum
    cases halnum

theorem parseLoop_nil : parsePackageVersion.loop fuel [] = ([], []) := by
  cases fuel <;> rfl

theorem parseLoop_end {numeral : CString} (hne : numeral ≠ [])
    (hnumeral : (numeral.take 29).takeWhile Char.isAlphanum = numeral) :
    parsePackageVersion.loop (fuel + 1) numeral = ([numeral], []) := by
  obtain ⟨d, sp, rfl⟩ := List.exists_cons_of_ne_nil hne
  rw [parsePackageVersion.loop, hnumeral, List.drop_length]

theorem parseLoop_step {numeral sp : CString}
    (hnumeral : ((numeral ++ c :: sp).take 29).takeWhile Char.isAlphanum = numeral) :
    parsePackageVersion.loop (fuel + 1) (numeral ++ c :: sp) =
      (numeral :: (parsePackageVersion.loop fuel sp).1,
        (if c.isAlphanum then [] else [c]) :: (parsePackageVersion.loop fuel sp).2) := by
  obtain ⟨d, tail, htail⟩ : ∃ d tail, numeral ++ c :: sp = d :: tail :=
    List.exists_cons_of_ne_nil (by simp)
  rw [htail] at hnumeral ⊢
  rw [parsePackageVersion.loop, hnumeral, ← htail, List.drop_left]

/-- An empty separator stands for a character of a long run. -/
theorem nil_mem_parseLoop_iff (h : s.length ≤ fuel) :
    [] ∈ (parsePackageVersion.loop fuel s).2 ↔ HasLongRun s := by
  induction fuel generalizing s with
  | zero =>
    rw [List.length_eq_zero_iff.mp (Nat.le_zero.mp h), parseLoop_nil]
    refine iff_of_false List.not_mem_nil fun ⟨run, hinfix, hlength, _⟩ => ?_
    have := hinfix.length_le
    rw [hlength] at this
    exact absurd this (by decide)
  | succ fuel ih =>
    obtain ⟨numeral, rest, hnumeral, rfl, hshort, halnum, hfull⟩ := exists_numeral_split s
    have hno : ¬ HasLongRun numeral := fun ⟨run, hinfix, hlength, _⟩ => by
      have := hinfix.length_le
      omega
    cases rest with
    | nil =>
      rw [List.append_nil] at hnumeral ⊢
      by_cases hnil : numeral = []
      · rw [hnil, parseLoop_nil]
        exact iff_of_false List.not_mem_nil (hnil ▸ hno)
      · rw [parseLoop_end hnil hnumeral]
        exact iff_of_false List.not_mem_nil hno
    | cons c sp =>
      rw [parseLoop_step hnumeral]
      cases hc : c.isAlphanum with
      | true =>
        refine iff_of_true List.mem_cons_self ⟨numeral ++ [c], ⟨[], sp, by simp⟩, ?_, ?_⟩
        · rw [List.length_append, hfull c rfl hc]
          rfl
        · exact List.forall_mem_append.mpr ⟨halnum, List.forall_mem_singleton.mpr hc⟩
      | false =>
        have hlength : sp.length ≤ fuel := by
          rw [List.length_append, List.length_cons] at h
          omega
        have hmem : [] ∈ [c] :: (parsePackageVersion.loop fuel sp).2 ↔
            [] ∈ (parsePackageVersion.loop fuel sp).2 := by simp
        rw [if_neg Bool.false_ne_true, hmem, ih hlength]
        constructor
        · rintro ⟨run, ⟨before, behind, heq⟩, hrun⟩
          exact ⟨run, ⟨numeral ++ c :: before, behind, by simp [← heq]⟩, hrun⟩
        · rintro ⟨run, hinfix, hrun, hall⟩
          have hnot : c ∉ run := fun hmem => by
            rw [hall c hmem] at hc
            cases hc
          exact (infix_of_not_mem hnot hinfix).elim (fun h => absurd ⟨run, h, hrun, hall⟩ hno)
            fun h => ⟨run, h, hrun, hall⟩

/-- Without empty separators, the numerals and separators are what was parsed. -/
theorem parseLoop_parts (h : s.length ≤ fuel) (hnil : [] ∉ (parsePackageVersion.loop fuel s).2) :
    interleave (parsePackageVersion.loop fuel s).1 (parsePackageVersion.loop fuel s).2 = s ∧
      (∀ numeral ∈ (parsePackageVersion.loop fuel s).1, ∀ c ∈ numeral, c.isAlphanum) ∧
      ∀ separator ∈ (parsePackageVersion.loop fuel s).2, ∃ c, separator = [c] ∧
        c.isAlphanum = false := by
  induction fuel generalizing s with
  | zero =>
    rw [List.length_eq_zero_iff.mp (Nat.le_zero.mp h), parseLoop_nil]
    exact ⟨rfl, List.forall_mem_nil _, List.forall_mem_nil _⟩
  | succ fuel ih =>
    obtain ⟨numeral, rest, hnumeral, rfl, hshort, halnum, hfull⟩ := exists_numeral_split s
    cases rest with
    | nil =>
      rw [List.append_nil] at hnumeral ⊢
      by_cases hempty : numeral = []
      · rw [hempty, parseLoop_nil]
        exact ⟨rfl, List.forall_mem_nil _, List.forall_mem_nil _⟩
      · rw [parseLoop_end hempty hnumeral]
        exact ⟨List.append_nil _, List.forall_mem_singleton.mpr halnum, List.forall_mem_nil _⟩
    | cons c sp =>
      rw [parseLoop_step hnumeral] at hnil ⊢
      obtain ⟨hhere, hlater⟩ := not_or.mp fun h => hnil (List.mem_cons.mpr h)
      have hc : c.isAlphanum = false := by
        by_contra htrue
        rw [if_pos (eq_true_of_ne_false htrue)] at hhere
        exact hhere rfl
      have hlength : sp.length ≤ fuel := by
        rw [List.length_append, List.length_cons] at h
        omega
      obtain ⟨hwhole, hnumerals, hseparators⟩ := ih hlength hlater
      rw [hc, if_neg Bool.false_ne_true]
      refine ⟨?_, List.forall_mem_cons.mpr ⟨halnum, hnumerals⟩,
        List.forall_mem_cons.mpr ⟨⟨c, rfl, hc⟩, hseparators⟩⟩
      rw [interleave, hwhole, List.append_assoc, List.singleton_append]

/-- The numerals and separators are the whole version exactly if it has no long run. -/
theorem parsePackageVersion_lossless_iff (version : CString) :
    Lossless version ↔ ¬ HasLongRun version := by
  have hnil :=
    fun version : CString => @nil_mem_parseLoop_iff version version.length (Nat.le_refl _)
  constructor
  · intro hlossless hrun
    obtain ⟨c, hc, _⟩ := hlossless.separators [] ((hnil version).mpr hrun)
    cases hc
  · intro hrun
    have hparts := fun version h => @parseLoop_parts version version.length (Nat.le_refl _) h
    obtain ⟨hwhole, hnumerals, hseparators⟩ := hparts version fun h => hrun ((hnil version).mp h)
    refine ⟨hwhole, hnumerals, hseparators, fun other hother => ?_⟩
    have hsame : parsePackageVersion.loop other.length other =
        parsePackageVersion.loop version.length version := hother
    obtain ⟨hwholeOther, _, _⟩ := hparts other fun h => hrun ((hnil version).mp (hsame ▸ h))
    rw [hsame, hwhole] at hwholeOther
    exact hwholeOther.symm

/-- A version of 30 letters. -/
theorem parsePackageVersion_not_lossless : ¬ Lossless (List.replicate 30 'a') := fun h => by
  obtain ⟨c, hc, _⟩ := h.separators [] (by decide)
  cases hc

end Cfengine
