import Cfengine.VerifyPackages

/-!
# The order of package versions

A version is a nonempty sequence of segments with separators between them. The built-in comparison
compares the sequences of segments (`numerals`) lexicographically, and `ComparePackageVersionsCmd`
answers with the same order where the two versions fit in the buffer of `CanonifyChar`.
-/

namespace Cfengine

/-- A segment of a version. -/
structure VersionSegment where
  text : CString
  ne : text ≠ []
  short : text.length ≤ 29
  alphanum : ∀ c ∈ text, c.isAlphanum

/-- A separator of a version. -/
structure VersionSeparator where
  char : Char
  notAlphanum : char.isAlphanum = false
  notComma : char ≠ ','

/-- What follows the first segment of a version. -/
abbrev VersionTail := List (VersionSeparator × VersionSegment)

namespace VersionTail

def text : VersionTail → CString
  | [] => []
  | (separator, segment) :: rest => separator.char :: (segment.text ++ text rest)

def separators (rest : VersionTail) : List CString := rest.map fun p => [p.1.char]

def segments (rest : VersionTail) : List CString := rest.map fun p => p.2.text

end VersionTail

/-- A version. -/
structure PackageVersion where
  first : VersionSegment
  rest : VersionTail

namespace PackageVersion

def text (v : PackageVersion) : CString := v.first.text ++ v.rest.text

/-- The separators of the version are the first ones of a common sequence. -/
def Follows (common : List CString) (v : PackageVersion) : Prop := v.rest.separators <+: common

/-- The version fits in the buffer of `CanonifyChar`. -/
def Fits (v : PackageVersion) : Prop := v.text.length < cfBufSize

end PackageVersion

/-! ## Parsing -/

section Parsing

variable {run tail : CString} {c : Char} {fuel : Nat}

theorem takeWhile_run (hshort : run.length ≤ 29) (hrun : ∀ d ∈ run, d.isAlphanum)
    (hc : c.isAlphanum = false) :
    ((run ++ c :: tail).take 29).takeWhile Char.isAlphanum = run := by
  have htake : (run ++ c :: tail).take 29 = run ++ (c :: tail).take (29 - run.length) := by
    rw [List.take_append, List.take_of_length_le hshort]
  rw [htake, List.takeWhile_append_of_pos hrun]
  cases 29 - run.length with
  | zero => simp
  | succ n => simp [hc]

theorem parsePackageVersion_loop_run (hne : run ≠ []) (hshort : run.length ≤ 29)
    (hrun : ∀ d ∈ run, d.isAlphanum) :
    parsePackageVersion.loop (fuel + 1) run = ([run], []) := by
  obtain ⟨d, sp, rfl⟩ := List.exists_cons_of_ne_nil hne
  rw [parsePackageVersion.loop, List.take_of_length_le hshort, List.takeWhile_eq_self_iff.2 hrun,
    List.drop_length]

theorem parsePackageVersion_loop_separator (hne : run ≠ []) (hshort : run.length ≤ 29)
    (hrun : ∀ d ∈ run, d.isAlphanum) (hc : c.isAlphanum = false) :
    parsePackageVersion.loop (fuel + 1) (run ++ c :: tail) =
      (run :: (parsePackageVersion.loop fuel tail).1,
        [c] :: (parsePackageVersion.loop fuel tail).2) := by
  have hnumeral : ((run ++ c :: tail).take 29).takeWhile Char.isAlphanum = run :=
    takeWhile_run hshort hrun hc
  have hdrop : (run ++ c :: tail).drop run.length = c :: tail := List.drop_left
  obtain ⟨d, sp, rfl⟩ := List.exists_cons_of_ne_nil hne
  rw [List.cons_append] at hnumeral hdrop ⊢
  rw [parsePackageVersion.loop, hnumeral]
  simp only [hdrop, hc, Bool.false_eq_true, if_false]

/-- A version is parsed to its segments and separators. -/
theorem parsePackageVersion_loop_text (segment : VersionSegment) (rest : VersionTail)
    (hfuel : (segment.text ++ rest.text).length ≤ fuel) :
    parsePackageVersion.loop fuel (segment.text ++ rest.text) =
      (segment.text :: rest.segments, rest.separators) := by
  induction rest generalizing segment fuel with
  | nil =>
    rw [VersionTail.text, List.append_nil] at hfuel ⊢
    have hpos := List.length_pos_of_ne_nil segment.ne
    obtain ⟨fuel, rfl⟩ : ∃ n, fuel = n + 1 := ⟨fuel - 1, by omega⟩
    rw [parsePackageVersion_loop_run segment.ne segment.short segment.alphanum]
    rfl
  | cons p rest ih =>
    obtain ⟨separator, next⟩ := p
    rw [VersionTail.text] at hfuel ⊢
    rw [List.length_append, List.length_cons] at hfuel
    obtain ⟨fuel, rfl⟩ : ∃ n, fuel = n + 1 := ⟨fuel - 1, by omega⟩
    rw [parsePackageVersion_loop_separator segment.ne segment.short segment.alphanum
      separator.notAlphanum, ih next (by omega)]
    rfl

/-- A version that is cut off within a segment. -/
theorem parsePackageVersion_loop_cut (segment : VersionSegment) {k : Nat}
    (hk : k ≤ segment.text.length) :
    (parsePackageVersion.loop fuel ((segment.text ++ tail).take k)).2 = [] := by
  rw [List.take_append_of_le_length hk]
  cases fuel with
  | zero => rfl
  | succ fuel =>
    by_cases hne : segment.text.take k = []
    · rw [hne]
      rfl
    · have hshort : (segment.text.take k).length ≤ 29 :=
        Nat.le_trans (List.length_take_le' k segment.text) segment.short
      rw [parsePackageVersion_loop_run hne hshort
        fun d hd => segment.alphanum d (List.mem_of_mem_take hd)]

/-- A version that is cut off has a part of its separators. -/
theorem separators_cut (segment : VersionSegment) (rest : VersionTail) (k : Nat) :
    (parsePackageVersion.loop fuel ((segment.text ++ rest.text).take k)).2 <+:
      rest.separators := by
  induction rest generalizing segment fuel k with
  | nil =>
    rw [VersionTail.text, List.append_nil]
    have hcut : segment.text.take k = (segment.text ++ []).take (min k segment.text.length) := by
      rw [List.append_nil, List.take_eq_take_min]
    rw [hcut, parsePackageVersion_loop_cut segment (Nat.min_le_right ..)]
    exact List.nil_prefix
  | cons p rest ih =>
    obtain ⟨separator, next⟩ := p
    rw [VersionTail.text]
    rcases Nat.lt_or_ge segment.text.length k with hk | hk
    · obtain ⟨j, rfl⟩ : ∃ j, k = segment.text.length + (j + 1) :=
        ⟨k - segment.text.length - 1, by omega⟩
      rw [List.take_length_add_append, List.take_succ_cons]
      cases fuel with
      | zero => exact List.nil_prefix
      | succ fuel =>
        rw [parsePackageVersion_loop_separator segment.ne segment.short segment.alphanum
          separator.notAlphanum]
        exact (List.cons_prefix_cons).2 ⟨rfl, ih next j⟩
    · rw [parsePackageVersion_loop_cut segment hk]
      exact List.nil_prefix

theorem parsePackageVersion_ne_nil {version : CString} (hne : version ≠ []) :
    (parsePackageVersion version).1 ≠ [] := by
  obtain ⟨c, sp, rfl⟩ := List.exists_cons_of_ne_nil hne
  rw [parsePackageVersion, List.length_cons, parsePackageVersion.loop]
  split
  · exact List.cons_ne_nil _ _
  · exact List.cons_ne_nil _ _

end Parsing

/-! ## The loops -/

theorem strcmp_of_lt {s t : CString} (h : s < t) : strcmp s t = .lt := by
  rw [strcmp, cmp, cmpUsing, if_pos h]

theorem strcmp_of_gt {s t : CString} (h : t < s) : strcmp s t = .gt := by
  rw [strcmp, cmp, cmpUsing, if_neg h.not_gt, if_pos h]

@[simp] theorem strcmp_self {s : CString} : strcmp s s = .eq := by
  rw [strcmp, cmp, cmpUsing, if_neg (lt_irrefl s), if_neg (lt_irrefl s)]

theorem strcmp_eq_iff {s t : CString} : strcmp s t = .eq ↔ s = t := by
  rcases lt_trichotomy s t with h | rfl | h
  · simp [strcmp_of_lt h, h.ne]
  · simp
  · simp [strcmp_of_gt h, h.ne']

theorem strcmp_swap (s t : CString) : (strcmp s t).swap = strcmp t s := by
  rcases lt_trichotomy s t with h | rfl | h
  · rw [strcmp_of_lt h, strcmp_of_gt h]
    rfl
  · rw [strcmp_self]
    rfl
  · rw [strcmp_of_lt h, strcmp_of_gt h]
    rfl

section Loops

variable {prs ins : List CString} {e : Bool}

theorem compareNumerals_eq_iff :
    compareNumerals .eq e prs ins = true ↔ e = true ∧ prs ≠ [] ∧ ins ≠ [] := by
  induction prs generalizing ins with
  | nil => cases ins <;> simp [compareNumerals]
  | cons pr prs ih =>
    cases ins with
    | nil => simp [compareNumerals]
    | cons «in» ins =>
      rw [compareNumerals, versionMatched, breakLoop]
      cases e <;> simp [ih]

theorem compareNumerals_neq :
    compareNumerals .neq e prs ins = compareNumerals .eq (!e) prs ins := by
  induction prs generalizing ins with
  | nil => cases ins <;> rfl
  | cons pr prs ih =>
    cases ins with
    | nil => rfl
    | cons «in» ins =>
      rw [compareNumerals, compareNumerals, ih]
      rfl

theorem compareNumerals_cmpNone :
    compareNumerals .cmpNone e prs ins = compareNumerals .eq e prs ins := by
  induction prs generalizing ins with
  | nil => cases ins <;> rfl
  | cons pr prs ih =>
    cases ins with
    | nil => rfl
    | cons «in» ins =>
      rw [compareNumerals, compareNumerals, ih]
      rfl

/-- `>` is the lexicographic order of the sequences. -/
theorem compareNumerals_gt_iff : compareNumerals .gt e prs ins = true ↔ prs < ins := by
  induction prs generalizing ins with
  | nil => cases ins <;> simp [compareNumerals]
  | cons pr prs ih =>
    cases ins with
    | nil => simp [compareNumerals]
    | cons «in» ins =>
      rw [compareNumerals, List.cons_lt_cons_iff]
      rcases lt_trichotomy pr «in» with h | rfl | h
      · simp [strcmp_of_lt h, versionMatched, h]
      · simp [versionMatched, breakLoop, ih]
      · simp [strcmp_of_gt h, versionMatched, breakLoop, h.not_gt, h.ne']

theorem compareNumerals_ge_false :
    compareNumerals .ge false prs ins = compareNumerals .gt false prs ins := by
  induction prs generalizing ins with
  | nil => cases ins <;> rfl
  | cons pr prs ih =>
    cases ins with
    | nil => rfl
    | cons «in» ins =>
      rw [compareNumerals, compareNumerals, ih, versionMatched, versionMatched, Bool.or_false]
      rfl

theorem compareNumerals_ge_iff (hpr : prs ≠ []) (hin : ins ≠ []) :
    compareNumerals .ge e prs ins = true ↔ prs < ins ∨ e = true := by
  obtain ⟨pr, prs, rfl⟩ := List.exists_cons_of_ne_nil hpr
  obtain ⟨«in», ins, rfl⟩ := List.exists_cons_of_ne_nil hin
  cases e with
  | false => rw [compareNumerals_ge_false, compareNumerals_gt_iff, or_iff_left (by decide)]
  | true => simp [compareNumerals, versionMatched]

/-- The operator with its arguments the other way round. -/
def VersionCmp.swap : VersionCmp → VersionCmp
  | .gt => .lt
  | .lt => .gt
  | .ge => .le
  | .le => .ge
  | cmp => cmp

theorem compareNumerals_swap (cmp : VersionCmp) :
    compareNumerals cmp.swap e prs ins = compareNumerals cmp e ins prs := by
  induction prs generalizing ins with
  | nil => cases ins <;> cases cmp <;> rfl
  | cons pr prs ih =>
    cases ins with
    | nil => cases cmp <;> rfl
    | cons «in» ins =>
      rw [compareNumerals, compareNumerals, ih, ← strcmp_swap «in» pr]
      cases cmp <;> cases strcmp «in» pr <;> rfl

theorem compareNumerals_lt_iff : compareNumerals .lt e prs ins = true ↔ ins < prs := by
  have h : compareNumerals .lt e prs ins = compareNumerals .gt e ins prs :=
    compareNumerals_swap .gt
  rw [h, compareNumerals_gt_iff]

theorem compareNumerals_le_iff (hpr : prs ≠ []) (hin : ins ≠ []) :
    compareNumerals .le e prs ins = true ↔ ins < prs ∨ e = true := by
  have h : compareNumerals .le e prs ins = compareNumerals .ge e ins prs :=
    compareNumerals_swap .ge
  rw [h, compareNumerals_ge_iff hin hpr]

end Loops

/-! ## The comparison of two versions -/

/-- The segments that the comparison finds in a version. -/
def numerals (version : CString) : List CString :=
  (parsePackageVersion (canonifyChar version ',')).1

/-- The result that a condition gives. -/
def VersionCmpResult.of (p : Prop) [Decidable p] : VersionCmpResult :=
  if p then .match else .noMatch

/-- `x` and `y` are in the relation of the operator, in the order of their segments. -/
def VersionCmp.Holds (x y : CString) : VersionCmp → Prop
  | .eq | .cmpNone => x = y
  | .neq => x ≠ y
  | .gt => numerals y < numerals x
  | .lt => numerals x < numerals y
  | .ge => numerals y < numerals x ∨ x = y
  | .le => numerals x < numerals y ∨ x = y

attribute [grind =] VersionCmp.Holds

instance (cmp : VersionCmp) (x y : CString) : Decidable (cmp.Holds x y) :=
  match cmp with
  | .eq | .cmpNone => inferInstanceAs (Decidable (x = y))
  | .neq => inferInstanceAs (Decidable (x ≠ y))
  | .gt => inferInstanceAs (Decidable (numerals y < numerals x))
  | .lt => inferInstanceAs (Decidable (numerals x < numerals y))
  | .ge => inferInstanceAs (Decidable (numerals y < numerals x ∨ x = y))
  | .le => inferInstanceAs (Decidable (numerals x < numerals y ∨ x = y))

section Results

variable {p q : Prop} [Decidable p] [Decidable q]

theorem VersionCmpResult.of_congr (h : p ↔ q) : VersionCmpResult.of p = VersionCmpResult.of q :=
  if_congr h rfl rfl

theorem VersionCmpResult.of_eq_match_iff : VersionCmpResult.of p = .match ↔ p := by
  by_cases h : p <;> simp [VersionCmpResult.of, h]

theorem invertResult_of : invertResult (.of p) = .of ¬p := by
  by_cases h : p <;> simp [VersionCmpResult.of, invertResult, h]

theorem andResults_of : andResults (.of p) (.of q) = .of (p ∧ q) := by
  by_cases hp : p <;> by_cases hq : q <;> simp [VersionCmpResult.of, andResults, hp, hq]

end Results

namespace VersionTail

theorem comma_notMem_text (rest : VersionTail) : ',' ∉ rest.text := by
  induction rest with
  | nil => exact List.not_mem_nil
  | cons p rest ih =>
    obtain ⟨separator, segment⟩ := p
    rw [text, List.mem_cons, List.mem_append, not_or, not_or]
    exact ⟨separator.notComma.symm, fun h => absurd (segment.alphanum _ h) (by decide), ih⟩

theorem text_eq_of_eq {rest rest' : VersionTail} (hsegments : rest.segments = rest'.segments)
    (hseparators : rest.separators = rest'.separators) : rest.text = rest'.text := by
  induction rest generalizing rest' with
  | nil =>
    cases rest' with
    | nil => rfl
    | cons p rest' => cases hsegments
  | cons p rest ih =>
    cases rest' with
    | nil => cases hsegments
    | cons p' rest' =>
      obtain ⟨hsegment, hsegments⟩ := List.cons.inj hsegments
      obtain ⟨hseparator, hseparators⟩ := List.cons.inj hseparators
      have hseparator : p.1.char = p'.1.char := (List.cons.inj hseparator).1
      have hsegment : p.2.text = p'.2.text := hsegment
      rw [text, text, hseparator, hsegment, ih hsegments hseparators]

end VersionTail

namespace PackageVersion

variable {v w : PackageVersion} {common : List CString}

theorem text_ne_nil (v : PackageVersion) : v.text ≠ [] :=
  List.append_ne_nil_of_left_ne_nil v.first.ne _

theorem canonifyChar_text (v : PackageVersion) :
    canonifyChar v.text ',' = v.text.take (cfBufSize - 1) := by
  have hcomma : ',' ∉ v.text := by
    rw [text, List.mem_append, not_or]
    exact ⟨fun h => absurd (v.first.alphanum _ h) (by decide), v.rest.comma_notMem_text⟩
  rw [canonifyChar]
  refine (List.map_congr_left fun c hc => ?_).trans (List.map_id _)
  have hne : c ≠ ',' := fun h => hcomma (h ▸ List.mem_of_mem_take hc)
  rw [if_neg hne, id]

theorem numerals_text (hv : v.Fits) : numerals v.text = v.first.text :: v.rest.segments := by
  have hlength : v.text.length ≤ cfBufSize - 1 := Nat.le_pred_of_lt hv
  rw [numerals, canonifyChar_text, List.take_of_length_le hlength, parsePackageVersion, text,
    parsePackageVersion_loop_text v.first v.rest (Nat.le_refl _)]

theorem numerals_ne_nil (v : PackageVersion) : numerals v.text ≠ [] := by
  rw [numerals, canonifyChar_text]
  refine parsePackageVersion_ne_nil fun h => v.text_ne_nil ?_
  exact (List.take_eq_nil_iff.1 h).resolve_left (by decide)

/-- Where two versions fit, their segments tell them apart. -/
theorem text_eq_of_numerals_eq (hv : v.Follows common) (hw : w.Follows common) (hfitv : v.Fits)
    (hfitw : w.Fits) (h : numerals v.text = numerals w.text) : v.text = w.text := by
  rw [numerals_text hfitv, numerals_text hfitw] at h
  have h := List.cons.inj h
  have hlength : v.rest.separators.length = w.rest.separators.length := by
    rw [VersionTail.separators, VersionTail.separators, List.length_map, List.length_map]
    simpa [VersionTail.segments] using congrArg List.length h.2
  have hseparators : v.rest.separators = w.rest.separators := by
    rw [List.prefix_iff_eq_take.1 hv, List.prefix_iff_eq_take.1 hw, hlength]
  rw [text, text, h.1, VersionTail.text_eq_of_eq h.2 hseparators]

theorem separators_follow (hv : v.Follows common) :
    (parsePackageVersion (canonifyChar v.text ',')).2 <+: common := by
  rw [canonifyChar_text]
  exact (separators_cut v.first v.rest _).trans hv

end PackageVersion

theorem compatibleSeparators_of_common {prs ins common : List CString} (hpr : prs <+: common)
    (hin : ins <+: common) : compatibleSeparators prs ins = true := by
  induction prs generalizing ins common with
  | nil => rfl
  | cons pr prs ih =>
    cases ins with
    | nil => rfl
    | cons «in» ins =>
      obtain ⟨rest, rfl⟩ := hpr
      obtain ⟨rfl, htail⟩ := List.cons_prefix_cons.1 hin
      rw [compatibleSeparators, if_pos strcmp_self]
      exact ih (List.prefix_append prs rest) htail

section Comparison

variable {v w : PackageVersion} {common : List CString}

theorem compareNumerals_text (cmp : VersionCmp) :
    compareNumerals cmp (strcmp w.text v.text = .eq) (numerals v.text) (numerals w.text) = true ↔
      cmp.Holds w.text v.text := by
  have hequal : decide (strcmp w.text v.text = .eq) = true ↔ w.text = v.text :=
    decide_eq_true_iff.trans strcmp_eq_iff
  have heq : compareNumerals .eq (strcmp w.text v.text = .eq) (numerals v.text)
      (numerals w.text) = true ↔ w.text = v.text := by
    rw [compareNumerals_eq_iff, hequal]
    exact and_iff_left ⟨v.numerals_ne_nil, w.numerals_ne_nil⟩
  cases cmp with
  | eq => exact heq
  | cmpNone => rw [compareNumerals_cmpNone, heq, VersionCmp.Holds]
  | neq =>
    rw [compareNumerals_neq, compareNumerals_eq_iff, Bool.not_eq_true', ← Bool.not_eq_true,
      hequal]
    exact and_iff_left ⟨v.numerals_ne_nil, w.numerals_ne_nil⟩
  | gt => exact compareNumerals_gt_iff
  | lt => exact compareNumerals_lt_iff
  | ge => rw [compareNumerals_ge_iff v.numerals_ne_nil w.numerals_ne_nil, hequal, VersionCmp.Holds]
  | le => rw [compareNumerals_le_iff v.numerals_ne_nil w.numerals_ne_nil, hequal, VersionCmp.Holds]

/-- The built-in comparison of two versions with compatible separators. -/
theorem comparePackageVersionsInternal_text (hv : v.Follows common) (hw : w.Follows common)
    (cmp : VersionCmp) :
    comparePackageVersionsInternal v.text w.text cmp = .of (cmp.Holds w.text v.text) := by
  rw [comparePackageVersionsInternal]
  dsimp only
  rw [compatibleSeparators_of_common (PackageVersion.separators_follow hv)
    (PackageVersion.separators_follow hw), Bool.true_and]
  exact VersionCmpResult.of_congr (compareNumerals_text cmp)

end Comparison

/-! ## The two paths -/

/-- The attributes without a command for less. -/
def Packages.builtin (a : Packages) : Packages := { a with packageVersionLessCommand := none }

/-- `v cmp w` by the built-in comparison. -/
def BuiltinMatches (cmp : VersionCmp) (v w : PackageVersion) : Prop :=
  comparePackageVersionsInternal w.text v.text cmp = .match

section Paths

variable (commands : CmpCommands) (a : Packages) (common : List CString)

/-- `ComparePackageVersionsLess` without a command. -/
def BuiltinLess (v w : PackageVersion) : Prop :=
  comparePackageVersionsLess commands a.builtin v.text w.text = .match

/-- The command for less computes the relation of the built-in comparison. -/
def ComputesLess (command : CString) : Prop :=
  ∀ v w : PackageVersion, v.Follows common → w.Follows common →
    runCmpCommand commands a command v.text w.text =
      comparePackageVersionsLess commands a.builtin v.text w.text

/-- The comparison of the versions whose separators are the first ones of `common` is coherent. It
is total on the versions in `P`, and on these the two paths agree. -/
structure ComparisonCoherent (P : PackageVersion → Prop) : Prop where
  irrefl : ∀ v : PackageVersion, v.Follows common → ¬BuiltinLess commands a v v
  trans : ∀ u v w : PackageVersion, u.Follows common → v.Follows common → w.Follows common →
    BuiltinLess commands a u v → BuiltinLess commands a v w → BuiltinLess commands a u w
  total : ∀ v w : PackageVersion, v.Follows common → w.Follows common → P v → P w →
    v.text ≠ w.text → BuiltinLess commands a v w ∨ BuiltinLess commands a w v
  exactlyOne : ∀ v w : PackageVersion, v.Follows common → w.Follows common → P v → P w →
    BuiltinMatches .eq v w ∧ ¬BuiltinMatches .lt v w ∧ ¬BuiltinMatches .gt v w ∨
    ¬BuiltinMatches .eq v w ∧ BuiltinMatches .lt v w ∧ ¬BuiltinMatches .gt v w ∨
    ¬BuiltinMatches .eq v w ∧ ¬BuiltinMatches .lt v w ∧ BuiltinMatches .gt v w
  ge_iff : ∀ v w : PackageVersion, v.Follows common → w.Follows common →
    (BuiltinMatches .ge v w ↔ BuiltinMatches .gt v w ∨ BuiltinMatches .eq v w)
  le_iff : ∀ v w : PackageVersion, v.Follows common → w.Follows common →
    (BuiltinMatches .le v w ↔ BuiltinMatches .lt v w ∨ BuiltinMatches .eq v w)
  neq_iff : ∀ v w : PackageVersion, v.Follows common → w.Follows common →
    (BuiltinMatches .neq v w ↔ ¬BuiltinMatches .eq v w)
  agrees : ∀ command, a.packageVersionLessCommand = some command →
    a.packageVersionEqualCommand = none → ComputesLess commands a common command →
    ∀ (n arch name installedArch : CString) (v w : PackageVersion), v.Follows common →
    w.Follows common → (a.packageSelect = .lt ∨ a.packageSelect = .gt ∨ P v ∧ P w) →
    comparePackages commands a n v.text arch ⟨name, w.text, installedArch⟩ =
      comparePackages commands a.builtin n v.text arch ⟨name, w.text, installedArch⟩

variable {commands a common} {v w : PackageVersion}

theorem comparePackageVersionsLess_builtin (hv : v.Follows common) (hw : w.Follows common) :
    comparePackageVersionsLess commands a.builtin v.text w.text =
      .of (numerals v.text < numerals w.text) :=
  comparePackageVersionsInternal_text hv hw .gt

theorem builtinLess_iff (hv : v.Follows common) (hw : w.Follows common) :
    BuiltinLess commands a v w ↔ numerals v.text < numerals w.text := by
  rw [BuiltinLess, comparePackageVersionsLess_builtin hv hw, VersionCmpResult.of_eq_match_iff]

theorem builtinMatches_iff (cmp : VersionCmp) (hv : v.Follows common) (hw : w.Follows common) :
    BuiltinMatches cmp v w ↔ cmp.Holds v.text w.text := by
  rw [BuiltinMatches, comparePackageVersionsInternal_text hw hv, VersionCmpResult.of_eq_match_iff]

/-- The emulated operators agree with the built-in ones. -/
theorem comparePackageVersionsCmd_text {command : CString}
    (hcommand : a.packageVersionLessCommand = some command)
    (hequal : a.packageVersionEqualCommand = none) (hless : ComputesLess commands a common command)
    (hv : v.Follows common) (hw : w.Follows common)
    (hfits : a.packageSelect = .lt ∨ a.packageSelect = .gt ∨ v.Fits ∧ w.Fits) :
    comparePackageVersionsCmd commands a w.text v.text =
      .of (a.packageSelect.Holds w.text v.text) := by
  have hless {x y : PackageVersion} (hx : x.Follows common) (hy : y.Follows common) :
      comparePackageVersionsLess commands a x.text y.text =
        .of (numerals x.text < numerals y.text) := by
    rw [comparePackageVersionsLess, hcommand]
    exact (hless x y hx hy).trans (comparePackageVersionsLess_builtin hx hy)
  have hinj (h : v.Fits ∧ w.Fits) : numerals w.text = numerals v.text ↔ w.text = v.text :=
    ⟨PackageVersion.text_eq_of_numerals_eq hw hv h.2 h.1, congrArg numerals⟩
  have heq (h : v.Fits ∧ w.Fits) :
      ¬numerals w.text < numerals v.text ∧ ¬numerals v.text < numerals w.text ↔
        w.text = v.text := by
    rw [← hinj h, not_lt, not_lt, le_antisymm_iff, and_comm]
  rw [comparePackageVersionsCmd, comparePackageVersionsEqual, hequal]
  dsimp only
  rw [hless hw hv, hless hv hw, invertResult_of, invertResult_of, andResults_of, invertResult_of]
  have hfits (hlt : a.packageSelect ≠ .lt) (hgt : a.packageSelect ≠ .gt) : v.Fits ∧ w.Fits :=
    (hfits.resolve_left hlt).resolve_left hgt
  cases hselect : a.packageSelect with
  | lt | gt => rfl
  | eq | cmpNone =>
    rw [hselect] at hfits
    exact VersionCmpResult.of_congr (heq (hfits (by decide) (by decide)))
  | neq =>
    rw [hselect] at hfits
    exact VersionCmpResult.of_congr (not_congr (heq (hfits (by decide) (by decide))))
  | ge =>
    rw [hselect] at hfits
    refine VersionCmpResult.of_congr ?_
    rw [VersionCmp.Holds, not_lt, le_iff_lt_or_eq, eq_comm, hinj (hfits (by decide) (by decide))]
  | le =>
    rw [hselect] at hfits
    refine VersionCmpResult.of_congr ?_
    rw [VersionCmp.Holds, not_lt, le_iff_lt_or_eq, hinj (hfits (by decide) (by decide))]

/-- The comparison of versions is coherent, and total where they fit in the buffer of
`CanonifyChar`. -/
theorem comparePackages_coherent (commands : CmpCommands) (a : Packages) (common : List CString) :
    ComparisonCoherent commands a common PackageVersion.Fits where
  irrefl v hv := by
    rw [builtinLess_iff hv hv]
    exact lt_irrefl _
  trans u v w hu hv hw huv hvw := by
    rw [builtinLess_iff hu hv] at huv
    rw [builtinLess_iff hv hw] at hvw
    exact (builtinLess_iff hu hw).2 (huv.trans hvw)
  total v w hv hw hfitv hfitw hne := by
    rw [builtinLess_iff hv hw, builtinLess_iff hw hv]
    exact lt_or_gt_of_ne fun h => hne (PackageVersion.text_eq_of_numerals_eq hv hw hfitv hfitw h)
  exactlyOne v w hv hw hfitv hfitw := by
    rw [builtinMatches_iff .eq hv hw, builtinMatches_iff .lt hv hw, builtinMatches_iff .gt hv hw,
      VersionCmp.Holds, VersionCmp.Holds, VersionCmp.Holds]
    rcases lt_trichotomy (numerals v.text) (numerals w.text) with h | h | h
    · exact .inr (.inl ⟨fun htext => h.ne (congrArg numerals htext), h, h.not_gt⟩)
    · have htext := PackageVersion.text_eq_of_numerals_eq hv hw hfitv hfitw h
      exact .inl ⟨htext, h.not_lt, h.not_gt⟩
    · exact .inr (.inr ⟨fun htext => h.ne' (congrArg numerals htext), h.not_gt, h⟩)
  ge_iff v w hv hw := by
    rw [builtinMatches_iff .ge hv hw, builtinMatches_iff .gt hv hw, builtinMatches_iff .eq hv hw]
    rfl
  le_iff v w hv hw := by
    rw [builtinMatches_iff .le hv hw, builtinMatches_iff .lt hv hw, builtinMatches_iff .eq hv hw]
    rfl
  neq_iff v w hv hw := by
    rw [builtinMatches_iff .neq hv hw, builtinMatches_iff .eq hv hw]
    rfl
  agrees command hcommand hequal hless n arch name installedArch v w hv hw hfits := by
    have hcmd := comparePackageVersionsCmd_text hcommand hequal hless hv hw hfits
    have hinternal := comparePackageVersionsInternal_text hv hw a.builtin.packageSelect
    have hbuiltin : a.builtin.packageVersionLessCommand.isSome = false := rfl
    rw [comparePackages, comparePackages, hcommand, Option.isSome_some, if_pos rfl, hbuiltin,
      if_neg Bool.false_ne_true, hcmd, hinternal]
    rfl

end Paths

/-! ## Versions that do not fit -/

/-- A segment of one character. -/
def letterSegment (c : Char) (hc : c.isAlphanum) : VersionSegment where
  text := [c]
  ne := List.cons_ne_nil _ _
  short := Nat.le_add_left 1 28
  alphanum _ hd := List.mem_singleton.1 hd ▸ hc

def dotSeparator : VersionSeparator := ⟨'.', by decide, by decide⟩

/-- `2047` segments, each with its separator. -/
def longTail : VersionTail :=
  List.replicate 2047 (dotSeparator, letterSegment '1' (by decide))

/-- A version of `4097` characters that ends in `c`. -/
def longVersion (c : Char) (hc : c.isAlphanum) : PackageVersion where
  first := letterSegment '1' (by decide)
  rest := longTail ++ [(dotSeparator, letterSegment c hc)]

theorem VersionTail.text_append (rest rest' : VersionTail) :
    VersionTail.text (rest ++ rest') = rest.text ++ rest'.text := by
  induction rest with
  | nil => rfl
  | cons p rest ih => simp [VersionTail.text, ih]

theorem longTail_length : longTail.text.length = 4094 := by
  have hreplicate (n : Nat) : (VersionTail.text
      (List.replicate n (dotSeparator, letterSegment '1' (by decide)))).length = 2 * n := by
    induction n with
    | zero => rfl
    | succ n ih =>
      rw [List.replicate_succ, VersionTail.text, List.length_cons, List.length_append, ih]
      simp only [letterSegment, List.length_singleton]
      omega
  exact hreplicate 2047

theorem numerals_longVersion (c : Char) (hc : c.isAlphanum) :
    numerals (longVersion c hc).text = (parsePackageVersion ('1' :: longTail.text)).1 := by
  have htext : (longVersion c hc).text = ('1' :: longTail.text) ++ ['.', c] := by
    rw [PackageVersion.text, longVersion, VersionTail.text_append]
    rfl
  have hlength : ('1' :: longTail.text).length = cfBufSize - 1 := by
    rw [List.length_cons, longTail_length]
    rfl
  rw [numerals, PackageVersion.canonifyChar_text, htext, List.take_left' hlength]

theorem longVersion_follows (c : Char) (hc : c.isAlphanum) :
    (longVersion c hc).Follows (List.replicate 2048 ['.']) := by
  rw [PackageVersion.Follows, longVersion, VersionTail.separators, List.map_append, longTail,
    List.map_replicate, List.map_singleton, List.replicate_succ' (n := 2047)]
  exact List.prefix_rfl

theorem longVersion_text_ne :
    (longVersion 'a' (by decide)).text ≠ (longVersion 'b' (by decide)).text := by
  intro h
  rw [PackageVersion.text, PackageVersion.text, longVersion, longVersion, VersionTail.text_append,
    VersionTail.text_append] at h
  have hend := List.append_cancel_left (List.append_cancel_left h)
  revert hend
  decide

/-- What is behind the end of the buffer is not compared. -/
theorem comparePackages_not_total :
    ¬∀ (commands : CmpCommands) (a : Packages) (common : List CString),
      ComparisonCoherent commands a common fun _ => True := by
  intro h
  have ha := longVersion_follows 'a' (by decide)
  have hb := longVersion_follows 'b' (by decide)
  have htotal := (h (fun _ _ _ _ => none) ⟨.gt, none, none, false⟩ _).total _ _ ha hb trivial
    trivial longVersion_text_ne
  rw [builtinLess_iff ha hb, builtinLess_iff hb ha, numerals_longVersion, numerals_longVersion,
    or_self] at htotal
  exact lt_irrefl _ htotal

end Cfengine
