import Cfengine.Verify.PackageVersions
import Cfengine.Verify.VersionParsing

/-!
# Numbers in versions

The segments of two versions are compared as texts, so a version that ends with a number comes
before one that ends with another number exactly if the digits come first in the order of `strcmp`,
but for the digits that the parser and the buffer of `CanonifyChar` lose
(`comparePackages_numbers_iff`).
-/

namespace Cfengine

section Order
variable {α : Type*} [LinearOrder α] {a b x y : List α}

/-- Two texts in two pieces, where a shorter first piece is all there is. -/
theorem append_lt_append_iff (h : a.length = b.length ∨ (a.length < b.length ∧ x = []) ∨
    (b.length < a.length ∧ y = [])) : a ++ x < b ++ y ↔ a < b ∨ a = b ∧ x < y := by
  induction a generalizing b with
  | nil =>
    cases b with
    | nil => simp
    | cons c b =>
      obtain rfl : x = [] := by
        rcases h with h | ⟨-, h⟩ | ⟨h, -⟩
        · cases h
        · exact h
        · cases h
      simp
  | cons c a ih =>
    cases b with
    | nil =>
      obtain rfl : y = [] := by
        rcases h with h | ⟨h, -⟩ | ⟨-, h⟩
        · cases h
        · cases h
        · exact h
      simp
    | cons d b =>
      have ih := @ih b (by simpa using h)
      rw [List.cons_append, List.cons_append, List.cons_lt_cons_iff, List.cons_lt_cons_iff, ih,
        List.cons.injEq]
      tauto

theorem append_lt_append_left_iff : a ++ x < a ++ y ↔ x < y := by
  rw [append_lt_append_iff (.inl rfl), or_iff_right (lt_irrefl a), and_iff_right rfl]

end Order

/-! ## The segments of a number -/

variable {w w' p sp numeral : CString} {c : Char} {fuel fuel' : Nat}

/-- The digits that are left of a number: every 30th is lost. -/
def keptDigits (w : CString) : CString :=
  if w = [] then [] else w.take 29 ++ keptDigits (w.drop 30)
termination_by w.length
decreasing_by
  rw [List.length_drop]
  have := List.length_pos_of_ne_nil ‹w ≠ []›
  omega

/-- The segments that a number is taken apart into. -/
def digitSegments (w : CString) : List CString :=
  if w = [] then [] else w.take 29 :: digitSegments (w.drop 30)
termination_by w.length
decreasing_by
  rw [List.length_drop]
  have := List.length_pos_of_ne_nil ‹w ≠ []›
  omega

theorem keptDigits_nil : keptDigits [] = [] := by
  rw [keptDigits, if_pos rfl]

theorem digitSegments_nil : digitSegments [] = [] := by
  rw [digitSegments, if_pos rfl]

theorem keptDigits_of_ne_nil (h : w ≠ []) : keptDigits w = w.take 29 ++ keptDigits (w.drop 30) := by
  rw [keptDigits, if_neg h]

theorem digitSegments_of_ne_nil (h : w ≠ []) :
    digitSegments w = w.take 29 :: digitSegments (w.drop 30) := by
  rw [digitSegments, if_neg h]

theorem keptDigits_ne_nil (h : w ≠ []) : keptDigits w ≠ [] := by
  obtain ⟨c, w, rfl⟩ := List.exists_cons_of_ne_nil h
  rw [keptDigits_of_ne_nil h]
  exact List.cons_ne_nil _ _

/-- The segments are in the order of the digits. -/
theorem digitSegments_lt_iff :
    digitSegments w < digitSegments w' ↔ keptDigits w < keptDigits w' := by
  induction hn : w.length using Nat.strong_induction_on generalizing w w' with
  | _ n ih =>
    by_cases hw : w = []
    · subst hw
      rw [digitSegments_nil, keptDigits_nil]
      by_cases hw' : w' = []
      · rw [hw', digitSegments_nil, keptDigits_nil]
        simp
      · obtain ⟨c, k, hk⟩ := List.exists_cons_of_ne_nil (keptDigits_ne_nil hw')
        rw [digitSegments_of_ne_nil hw', hk]
        simp
    · by_cases hw' : w' = []
      · obtain ⟨c, k, hk⟩ := List.exists_cons_of_ne_nil (keptDigits_ne_nil hw)
        rw [hw', digitSegments_nil, keptDigits_nil, digitSegments_of_ne_nil hw, hk]
        simp
      · have hpos := List.length_pos_of_ne_nil hw
        have ih :=
          @ih (w.drop 30).length (by rw [List.length_drop]; omega) (w.drop 30) (w'.drop 30) rfl
        have hpieces : (w.take 29).length = (w'.take 29).length ∨
            ((w.take 29).length < (w'.take 29).length ∧ keptDigits (w.drop 30) = []) ∨
            ((w'.take 29).length < (w.take 29).length ∧ keptDigits (w'.drop 30) = []) := by
          rw [List.length_take, List.length_take]
          rcases Nat.lt_trichotomy (min 29 w.length) (min 29 w'.length) with h | h | h
          · refine .inr (.inl ⟨h, ?_⟩)
            rw [List.drop_eq_nil_of_le (by omega), keptDigits_nil]
          · exact .inl h
          · refine .inr (.inr ⟨h, ?_⟩)
            rw [List.drop_eq_nil_of_le (by omega), keptDigits_nil]
        rw [digitSegments_of_ne_nil hw, digitSegments_of_ne_nil hw', keptDigits_of_ne_nil hw,
          keptDigits_of_ne_nil hw', append_lt_append_iff hpieces, List.cons_lt_cons_iff, ih]

/-! ## The parser -/

/-- A numeral is read up to a separator, or to the 29th character. -/
theorem takeWhile_numeral (hshort : numeral.length ≤ 29) (halnum : ∀ c ∈ numeral, c.isAlphanum)
    (hc : c.isAlphanum = true → numeral.length = 29) :
    ((numeral ++ c :: sp).take 29).takeWhile Char.isAlphanum = numeral := by
  cases halnumc : c.isAlphanum with
  | true =>
    rw [List.take_append_of_le_length (hc halnumc).ge, ← hc halnumc, List.take_length,
      List.takeWhile_eq_self_iff.mpr halnum]
  | false => exact takeWhile_run hshort halnum halnumc

/-- More steps than characters make no difference. -/
theorem parseLoop_fuel (h : w.length ≤ fuel) (h' : w.length ≤ fuel') :
    parsePackageVersion.loop fuel w = parsePackageVersion.loop fuel' w := by
  induction fuel generalizing w fuel' with
  | zero =>
    rw [List.length_eq_zero_iff.mp (Nat.le_zero.mp h), parseLoop_nil, parseLoop_nil]
  | succ fuel ih =>
    cases fuel' with
    | zero => rw [List.length_eq_zero_iff.mp (Nat.le_zero.mp h'), parseLoop_nil, parseLoop_nil]
    | succ fuel' =>
      obtain ⟨numeral, rest, hnumeral, rfl, -⟩ := exists_numeral_split w
      cases rest with
      | nil =>
        rw [List.append_nil] at hnumeral ⊢
        by_cases hnil : numeral = []
        · rw [hnil, parseLoop_nil, parseLoop_nil]
        · rw [parseLoop_end hnil hnumeral, parseLoop_end hnil hnumeral]
      | cons c sp =>
        rw [List.length_append, List.length_cons] at h h'
        rw [parseLoop_step hnumeral, parseLoop_step hnumeral,
          @ih sp fuel' (by omega) (by omega)]

/-- A text that is empty or ends with a separator. -/
def EndsWithSeparator (p : CString) : Prop := ∀ c ∈ p.getLast?, c.isAlphanum = false

/-- What is in front of a number is parsed on its own. -/
theorem exists_parseLoop_append (hp : EndsWithSeparator p) :
    ∃ num sep, ∀ w fuel fuel', (p ++ w).length ≤ fuel → w.length ≤ fuel' →
      parsePackageVersion.loop fuel (p ++ w) =
        (num ++ (parsePackageVersion.loop fuel' w).1,
          sep ++ (parsePackageVersion.loop fuel' w).2) := by
  induction hn : p.length using Nat.strong_induction_on generalizing p with
  | _ n ih =>
    obtain ⟨numeral, rest, hnumeral, rfl, hshort, halnum, hfull⟩ := exists_numeral_split p
    cases rest with
    | nil =>
      obtain rfl : numeral = [] := by
        by_contra hne
        rw [List.append_nil] at hp
        have hlast := hp _ (List.getLast?_eq_some_getLast hne)
        rw [halnum _ (List.getLast_mem hne)] at hlast
        cases hlast
      exact ⟨[], [], fun w fuel fuel' h h' => parseLoop_fuel h h'⟩
    | cons c sp =>
      have hsp : EndsWithSeparator sp :=
        fun d hd => hp d (by simp [List.getLast?_append, List.getLast?_cons, Option.mem_def.mp hd])
      obtain ⟨num, sep, hloop⟩ := ih sp.length (by simp at hn; omega) hsp rfl
      refine ⟨numeral :: num, (if c.isAlphanum then [] else [c]) :: sep, fun w fuel fuel' h h' =>
        ?_⟩
      rw [List.append_assoc, List.cons_append, List.length_append, List.length_cons] at h
      obtain ⟨fuel, rfl⟩ : ∃ n, fuel = n + 1 := ⟨fuel - 1, by omega⟩
      rw [List.append_assoc, List.cons_append,
        parseLoop_step (takeWhile_numeral hshort halnum (hfull c rfl)),
        hloop w fuel fuel' (by omega) h']
      rfl

/-- A number is taken apart into segments of 29 digits, with empty separators. -/
theorem parseLoop_digits (hw : ∀ c ∈ w, c.isAlphanum) (h : w.length ≤ fuel) :
    (parsePackageVersion.loop fuel w).1 = digitSegments w ∧
      ∀ separator ∈ (parsePackageVersion.loop fuel w).2, separator = [] := by
  induction fuel generalizing w with
  | zero =>
    rw [List.length_eq_zero_iff.mp (Nat.le_zero.mp h), parseLoop_nil, digitSegments_nil]
    exact ⟨rfl, List.forall_mem_nil _⟩
  | succ fuel ih =>
    by_cases hnil : w = []
    · rw [hnil, parseLoop_nil, digitSegments_nil]
      exact ⟨rfl, List.forall_mem_nil _⟩
    · have hnumeral : (w.take 29).takeWhile Char.isAlphanum = w.take 29 :=
        List.takeWhile_eq_self_iff.mpr fun c hc => hw c (List.mem_of_mem_take hc)
      have hsplit := List.take_append_drop 29 w
      have hdrop : (w.drop 29).tail = w.drop 30 := List.tail_drop
      rw [digitSegments_of_ne_nil hnil, ← hdrop]
      cases hrest : w.drop 29 with
      | nil =>
        rw [hrest, List.append_nil] at hsplit
        rw [hsplit] at hnumeral
        rw [parseLoop_end hnil (hsplit.symm ▸ hnumeral), hsplit, List.tail_nil, digitSegments_nil]
        exact ⟨rfl, List.forall_mem_nil _⟩
      | cons c sp =>
        rw [hrest] at hsplit
        have hc : c.isAlphanum = true := hw c (by rw [← hsplit]; simp)
        have hsp : ∀ c ∈ sp, c.isAlphanum := fun d hd => hw d (by rw [← hsplit]; simp [hd])
        have hlength : sp.length ≤ fuel := by
          rw [← hsplit, List.length_append, List.length_cons] at h
          omega
        obtain ⟨hsegments, hseparators⟩ := ih hsp hlength
        have hstep := @parseLoop_step c fuel (w.take 29) sp (by rw [hsplit]; exact hnumeral)
        rw [hsplit] at hstep
        rw [hstep, if_pos hc, hsegments, List.tail_cons]
        exact ⟨rfl, List.forall_mem_cons.mpr ⟨rfl, hseparators⟩⟩

/-! ## The comparison -/

/-- What `CanonifyChar` leaves of a number behind a text. -/
theorem canonifyChar_append (hw : ∀ c ∈ w, c.isAlphanum) : canonifyChar (p ++ w) ',' =
    canonifyChar p ',' ++ w.take (cfBufSize - 1 - p.length) := by
  have hsame : (w.take (cfBufSize - 1 - p.length)).map (fun c => if c = ',' then '_' else c) =
      w.take (cfBufSize - 1 - p.length) := by
    refine (List.map_congr_left fun c hc => if_neg ?_).trans (List.map_id' _)
    rintro rfl
    exact absurd (hw ',' (List.mem_of_mem_take hc)) (by decide)
  rw [canonifyChar, List.take_append, List.map_append, hsame, canonifyChar]

theorem endsWithSeparator_canonifyChar (hp : EndsWithSeparator p)
    (hlength : p.length ≤ cfBufSize - 1) :
    EndsWithSeparator (canonifyChar p ',') := by
  rw [EndsWithSeparator, canonifyChar, List.take_of_length_le hlength, List.getLast?_map]
  intro c hc
  obtain ⟨d, hd, rfl⟩ := Option.mem_map.mp hc
  split_ifs
  · rfl
  · exact hp d hd

/-- A version that ends with a number is parsed into what its beginning gives and the segments of
the digits. -/
theorem exists_parsePackageVersion (hp : EndsWithSeparator p) :
    ∃ num sep, ∀ w : CString, (∀ c ∈ w, c.isAlphanum) →
      (parsePackageVersion (canonifyChar (p ++ w) ',')).1 =
          num ++ digitSegments (w.take (cfBufSize - 1 - p.length)) ∧
        ∃ empty, (∀ separator ∈ empty, separator = []) ∧
          (parsePackageVersion (canonifyChar (p ++ w) ',')).2 = sep ++ empty := by
  rcases Nat.le_total p.length (cfBufSize - 1) with hlength | hlength
  · obtain ⟨num, sep, hloop⟩ := exists_parseLoop_append (endsWithSeparator_canonifyChar hp hlength)
    refine ⟨num, sep, fun w hw => ?_⟩
    have hkept : ∀ c ∈ w.take (cfBufSize - 1 - p.length), c.isAlphanum := fun c hc =>
      hw c (List.mem_of_mem_take hc)
    obtain ⟨hsegments, hempty⟩ := parseLoop_digits hkept (Nat.le_refl _)
    rw [canonifyChar_append hw, parsePackageVersion, hloop _ _ _ (Nat.le_refl _) (Nat.le_refl _)]
    exact ⟨by rw [hsegments], _, hempty, rfl⟩
  · refine ⟨(parsePackageVersion (canonifyChar p ',')).1,
      (parsePackageVersion (canonifyChar p ',')).2, fun w hw => ?_⟩
    rw [canonifyChar_append hw, Nat.sub_eq_zero_of_le hlength, List.take_zero, List.append_nil,
      digitSegments_nil, List.append_nil]
    exact ⟨rfl, [], List.forall_mem_nil _, (List.append_nil _).symm⟩

/-- The digits of a number that the comparison looks at. -/
def comparedDigits (p : CString) (m : Nat) : CString :=
  keptDigits ((Nat.toDigits 10 m).take (cfBufSize - 1 - p.length))

theorem isAlphanum_toDigits {m : Nat} : ∀ c ∈ Nat.toDigits 10 m, c.isAlphanum := fun c hc => by
  rw [Char.isAlphanum, Nat.isDigit_of_mem_toDigits (by decide) (by decide) hc, Bool.or_true]

theorem compatibleSeparators_append {sep empty empty' : List CString}
    (h : ∀ separator ∈ empty, separator = []) (h' : ∀ separator ∈ empty', separator = []) :
    compatibleSeparators (sep ++ empty) (sep ++ empty') = true := by
  have hfollows : ∀ {list : List CString}, (∀ separator ∈ list, separator = []) →
      list.length ≤ max empty.length empty'.length →
      sep ++ list <+: sep ++ List.replicate (max empty.length empty'.length) [] := by
    intro list hlist hlength
    rw [List.prefix_append_right_inj, List.prefix_replicate_iff]
    exact ⟨hlength, List.eq_replicate_of_mem hlist⟩
  exact compatibleSeparators_of_common (hfollows h (Nat.le_max_left _ _))
    (hfollows h' (Nat.le_max_right _ _))

/-- The built-in comparison of two versions that differ in their last number. -/
theorem comparePackageVersionsInternal_numbers (hp : EndsWithSeparator p) (m k : Nat) :
    (comparePackageVersionsInternal (p ++ Nat.toDigits 10 k) (p ++ Nat.toDigits 10 m) .lt = .match ↔
        comparedDigits p m < comparedDigits p k) ∧
      (comparePackageVersionsInternal (p ++ Nat.toDigits 10 k) (p ++ Nat.toDigits 10 m) .gt =
        .match ↔
        comparedDigits p k < comparedDigits p m) := by
  obtain ⟨num, sep, hparse⟩ := exists_parsePackageVersion hp
  obtain ⟨hm, _, hemptym, hsepm⟩ := hparse _ (@isAlphanum_toDigits m)
  obtain ⟨hk, _, hemptyk, hsepk⟩ := hparse _ (@isAlphanum_toDigits k)
  rw [comparePackageVersionsInternal, comparePackageVersionsInternal]
  dsimp only
  rw [hm, hk, hsepm, hsepk, compatibleSeparators_append hemptyk hemptym, Bool.true_and,
    Bool.true_and]
  have hmatch : ∀ b : Bool, (if b then VersionCmpResult.match else .noMatch) = .match ↔
      b = true := by
    decide
  rw [hmatch, hmatch, compareNumerals_lt_iff, compareNumerals_gt_iff, append_lt_append_left_iff,
    append_lt_append_left_iff, digitSegments_lt_iff, digitSegments_lt_iff]
  exact ⟨Iff.rfl, Iff.rfl⟩

/-- The package that is promised is the one that is installed, but for the version. -/
structure SamePackage (n arch name installedArch : CString) : Prop where
  name : compareCsvName n name
  arch : arch = "*".toList ∨ arch = installedArch

/-- The version `lower` is less than `higher`, whichever of them is promised and the other
installed. -/
def TakenForLess (commands : CmpCommands) (a : Packages)
    (n arch name installedArch lower higher : CString) :
    Prop :=
  (comparePackages commands { a with packageSelect := .lt } n higher arch
    ⟨name, lower, installedArch⟩ =
      .match ∧
    comparePackages commands { a with packageSelect := .gt } n higher arch
    ⟨name, lower, installedArch⟩ ≠
      .match) ∧
  comparePackages commands { a with packageSelect := .gt } n lower arch
    ⟨name, higher, installedArch⟩ =
      .match ∧
    comparePackages commands { a with packageSelect := .lt } n lower arch
      ⟨name, higher, installedArch⟩ ≠
      .match

theorem append_toDigits_ne_star {m : Nat} : p ++ Nat.toDigits 10 m ≠ "*".toList := by
  intro h
  obtain ⟨c, w, hw⟩ := List.exists_cons_of_ne_nil (Nat.toDigits_ne_nil : Nat.toDigits 10 m ≠ [])
  have hc : c ∈ Nat.toDigits 10 m := hw ▸ List.mem_cons_self
  have halnum := isAlphanum_toDigits c hc
  have hstar : c ∈ "*".toList := h ▸ List.mem_append_right p hc
  rw [List.mem_singleton.mp hstar] at halnum
  cases halnum

theorem comparePackages_builtin {commands : CmpCommands} {a : Packages} {n v arch : CString}
    {pi : PackageItem} (ha : a.packageVersionLessCommand = none)
    (hsame : SamePackage n arch pi.name pi.arch) (hv : v ≠ "*".toList) :
    comparePackages commands a n v arch pi =
      comparePackageVersionsInternal v pi.version a.packageSelect := by
  have harch : (decide (arch ≠ "*".toList) && decide (arch ≠ pi.arch)) = false := by
    rcases hsame.arch with h | h <;> simp [h]
  rw [comparePackages, hsame.name, harch, if_neg hv, ha]
  rfl

/-- A version that ends with a number is less than one that ends with another number exactly if the
digits that are compared are less in the order of `strcmp`. -/
theorem comparePackages_numbers_iff {commands : CmpCommands} {a : Packages}
    {n arch name installedArch : CString} (ha : a.packageVersionLessCommand = none)
    (hsame : SamePackage n arch name installedArch) (hp : EndsWithSeparator p) (m k : Nat) :
    TakenForLess commands a n arch name installedArch (p ++ Nat.toDigits 10 m)
      (p ++ Nat.toDigits 10 k) ↔
      comparedDigits p m < comparedDigits p k := by
  have hbuiltin : ∀ select m k, comparePackages commands { a with packageSelect := select } n
      (p ++ Nat.toDigits 10 k) arch ⟨name, p ++ Nat.toDigits 10 m, installedArch⟩ =
        comparePackageVersionsInternal (p ++ Nat.toDigits 10 k) (p ++ Nat.toDigits 10 m) select :=
    fun select m k => @comparePackages_builtin commands { a with packageSelect := select } n _ arch
      ⟨name, _, installedArch⟩ ha hsame append_toDigits_ne_star
  rw [TakenForLess, hbuiltin, hbuiltin, hbuiltin, hbuiltin]
  obtain ⟨hlt, hgt⟩ := comparePackageVersionsInternal_numbers hp m k
  obtain ⟨hlt', hgt'⟩ := comparePackageVersionsInternal_numbers hp k m
  rw [hlt, Ne, hgt, hgt', Ne, hlt']
  exact ⟨fun h => h.1.1, fun h => ⟨⟨h, h.not_gt⟩, h, h.not_gt⟩⟩

/-- `1.2` and `1.3` -/
theorem comparePackages_two_three :
    TakenForLess (fun _ _ _ _ => none) ⟨.eq, none, none, false⟩ ['n'] ['*'] ['n'] []
      (['1', '.'] ++ Nat.toDigits 10 2) (['1', '.'] ++ Nat.toDigits 10 3) ↔
      comparedDigits ['1', '.'] 2 < comparedDigits ['1', '.'] 3 :=
  comparePackages_numbers_iff rfl ⟨rfl, .inl rfl⟩ (fun c hc => by cases hc; rfl) 2 3

/-- `1.9` and `1.10` -/
theorem comparePackages_nine_ten : SamePackage ['n'] ['*'] ['n'] [] ∧
    ¬ TakenForLess (fun _ _ _ _ => none) ⟨.eq, none, none, false⟩ ['n'] ['*'] ['n'] []
      ['1', '.', '9'] ['1', '.', '1', '0'] := by
  refine ⟨⟨rfl, .inl rfl⟩, fun h => ?_⟩
  exact absurd h.1.1 (by decide)

end Cfengine
