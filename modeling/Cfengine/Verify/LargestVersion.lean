import Cfengine.Theory.RunningMinimum
import Cfengine.VerifyPackages

/-!
# The largest available version

`FindLargestVersionAvail` keeps a version that is less than the one it has, so that it has a running
minimum below the version that is asked for.
-/

namespace Cfengine

open RunningMinimum

section LargestVersion

variable (env : PackageFiles) (refAnyVer : CString) (commands : CmpCommands) (a : Packages)

/-- `v1` is less than `v2`, as a condition takes the result. -/
def VersionLess (v1 v2 : CString) : Prop := comparePackageVersionsLess commands a v1 v2 ≠ .noMatch

instance : DecidableRel (VersionLess commands a) := fun _ _ => inferInstanceAs (Decidable (_ ≠ _))

/-- The files of the repositories that can be read whose names match. -/
def matchingFiles (repositories : List CString) : List Dirent :=
  (repositories.flatMap fun repository => (env.openDirLocal repository).getD []).filter
    fun f => fullTextMatch env refAnyVer f.dName

/-- The version in the name of a file. -/
def fileVersion (f : Dirent) : CString := extractFirstReference env refAnyVer f.dName

/-- The version is one that is asked for. -/
def SatisfiesRequest (ver : CString) (packageSelect : VersionCmp) (version : CString) : Prop :=
  ver = [] ∨ ver = "*".toList ∨
    if packageSelect = .gt then VersionLess commands a ver version
    else ¬VersionLess commands a version ver

/-- The result is the name and the version of a newest file, and there is one if a version is asked
for. -/
def PicksNewest (ver : CString) (packageSelect : VersionCmp) (repositories : List CString)
    (result : Option (CString × CString)) : Prop :=
  (result.isSome ↔ ∃ f ∈ matchingFiles env refAnyVer repositories,
    SatisfiesRequest commands a ver packageSelect (fileVersion env refAnyVer f)) ∧
  ∀ matchName matchVers, result = some (matchName, matchVers) →
    ∃ f ∈ matchingFiles env refAnyVer repositories, matchName = f.dName ∧
      matchVers = fileVersion env refAnyVer f ∧
      ∀ g ∈ matchingFiles env refAnyVer repositories,
        ¬VersionLess commands a matchVers (fileVersion env refAnyVer g)

/-- No version is below the initial one and none is asked for, or there is only one version, which
is asked for and below the initial one. -/
def MinimumSuffices (ver : CString) (packageSelect : VersionCmp) (repositories : List CString) :
    Prop :=
  (∀ f ∈ matchingFiles env refAnyVer repositories,
    ¬VersionLess commands a (fileVersion env refAnyVer f) (initialVersion ver packageSelect) ∧
      ¬SatisfiesRequest commands a ver packageSelect (fileVersion env refAnyVer f)) ∨
  ∃ version, matchingFiles env refAnyVer repositories ≠ [] ∧
    (∀ f ∈ matchingFiles env refAnyVer repositories, fileVersion env refAnyVer f = version) ∧
    VersionLess commands a version (initialVersion ver packageSelect) ∧
    SatisfiesRequest commands a ver packageSelect version

variable {env refAnyVer commands a}

/-! ## The loops -/

theorem firstBackReference_length (rx : Pcre) (teststring : CString) :
    (firstBackReference rx teststring).length < cfMaxVarSize := by
  rw [firstBackReference]
  split
  · decide
  · split
    next h => exact Nat.lt_of_le_of_lt (List.length_take_le ..) h
    · decide

/-- An extracted version fits in `largestVer`. -/
theorem fileVersion_length (f : Dirent) :
    (fileVersion env refAnyVer f).length ≤ cfMaxVarSize - 1 := by
  rw [fileVersion, extractFirstReference]
  split
  · decide
  · next rx _ =>
    split
    · decide
    · next h => exact h ▸ Nat.le_pred_of_lt (firstBackReference_length rx f.dName)

theorem dName_length (f : Dirent) : f.dName.length ≤ cfMaxVarSize - 1 :=
  Nat.le_trans f.fits (by decide)

/-- The state of the loops with the file for its name. -/
def largestOf (best : CString × Option Dirent) : CString × Option CString :=
  (best.1, best.2.map Dirent.dName)

theorem checkFile_largestOf (best : CString × Option Dirent) (f : Dirent) :
    checkFile env refAnyVer commands a (largestOf best) f =
      largestOf (if fullTextMatch env refAnyVer f.dName then
        improve (VersionLess commands a) (fileVersion env refAnyVer) best f else best) := by
  rw [checkFile]
  split
  · dsimp only
    rw [← fileVersion, List.take_of_length_le (fileVersion_length f),
      List.take_of_length_le (dName_length f), improve]
    by_cases h : VersionLess commands a (fileVersion env refAnyVer f) best.1
    · rw [if_pos h]
      exact if_pos h
    · rw [if_neg h]
      exact if_neg h
  · rfl

theorem foldl_checkFile (files : List Dirent) (best : CString × Option Dirent) :
    files.foldl (checkFile env refAnyVer commands a) (largestOf best) =
      largestOf ((files.filter fun f => fullTextMatch env refAnyVer f.dName).foldl
        (improve (VersionLess commands a) (fileVersion env refAnyVer)) best) := by
  induction files generalizing best with
  | nil => rfl
  | cons f files ih =>
    rw [List.foldl_cons, checkFile_largestOf, ih]
    rw [List.filter_cons]
    split
    · rfl
    · rfl

theorem findLargestVersionAvail_loop_largestOf (repositories : List CString)
    (best : CString × Option Dirent) :
    findLargestVersionAvail.loop env refAnyVer commands a repositories (largestOf best) =
      largestOf ((matchingFiles env refAnyVer repositories).foldl
        (improve (VersionLess commands a) (fileVersion env refAnyVer)) best) := by
  induction repositories generalizing best with
  | nil => rfl
  | cons repository repositories ih =>
    rw [findLargestVersionAvail.loop, matchingFiles, List.flatMap_cons, List.filter_append,
      List.foldl_append, ← matchingFiles]
    split
    next h => rw [ih, h]; rfl
    next files h => rw [foldl_checkFile, ih, h]; rfl

/-- The search is a running minimum. -/
theorem findLargestVersionAvail_eq (ver : CString) (packageSelect : VersionCmp)
    (repositories : List CString) :
    findLargestVersionAvail env refAnyVer commands a ver packageSelect repositories =
      ((matchingFiles env refAnyVer repositories).foldl
        (improve (VersionLess commands a) (fileVersion env refAnyVer))
        (initialVersion ver packageSelect, none)).2.map
          fun f => (f.dName, fileVersion env refAnyVer f) := by
  have hkey : ∀ m, ((matchingFiles env refAnyVer repositories).foldl
      (improve (VersionLess commands a) (fileVersion env refAnyVer))
      (initialVersion ver packageSelect, none)).2 = some m → _ := foldl_improve_key nofun
  have hloop : findLargestVersionAvail.loop env refAnyVer commands a repositories
      (initialVersion ver packageSelect, none) = _ :=
    findLargestVersionAvail_loop_largestOf repositories (initialVersion ver packageSelect, none)
  rw [findLargestVersionAvail, hloop]
  revert hkey
  generalize (matchingFiles env refAnyVer repositories).foldl _ _ = best
  obtain ⟨version, _ | m⟩ := best
  · exact fun _ => rfl
  · intro hkey
    have hversion : version = fileVersion env refAnyVer m := hkey m rfl
    rw [hversion]
    rfl

/-! ## The result -/

theorem picksNewest_iff (ver : CString) (packageSelect : VersionCmp) (repositories : List CString)
    (answer : Option Dirent) :
    PicksNewest env refAnyVer commands a ver packageSelect repositories
        (answer.map fun f => (f.dName, fileVersion env refAnyVer f)) ↔
      PicksLargest (VersionLess commands a) (fileVersion env refAnyVer)
        (SatisfiesRequest commands a ver packageSelect) (matchingFiles env refAnyVer repositories)
        answer := by
  rw [PicksNewest, PicksLargest, Option.isSome_map]
  refine and_congr_right fun _ => ?_
  cases answer with
  | none => exact ⟨fun _ => nofun, fun _ => nofun⟩
  | some f =>
    constructor
    · rintro h m hm
      obtain rfl := Option.some.inj hm
      obtain ⟨g, hg, hname, -, hlargest⟩ := h _ _ rfl
      have hfg : f = g := by
        cases f
        cases g
        congr
      exact ⟨hfg ▸ hg, hlargest⟩
    · intro h matchName matchVers hresult
      obtain ⟨rfl, rfl⟩ := Prod.mk.inj (Option.some.inj hresult)
      obtain ⟨hf, hlargest⟩ := h f rfl
      exact ⟨f, hf, rfl, rfl, hlargest⟩

/-- The search finds the newest version exactly if the least one will do. -/
theorem findLargestVersionAvail_newest_iff {S : CString → Prop} (ver : CString)
    (packageSelect : VersionCmp) (repositories : List CString)
    (horder : StrictTotalOn (VersionLess commands a) S)
    (hfirst : S (initialVersion ver packageSelect))
    (hfiles : ∀ f ∈ matchingFiles env refAnyVer repositories, S (fileVersion env refAnyVer f)) :
    PicksNewest env refAnyVer commands a ver packageSelect repositories
        (findLargestVersionAvail env refAnyVer commands a ver packageSelect repositories) ↔
      MinimumSuffices env refAnyVer commands a ver packageSelect repositories := by
  rw [findLargestVersionAvail_eq, picksNewest_iff]
  exact foldl_improve_picksLargest_iff horder hfiles hfirst

/-- Where the version asked for is a least one, the least will do only if there is no file. -/
theorem minimumSuffices_ge_iff {ver : CString} {packageSelect : VersionCmp}
    (repositories : List CString) (hne : ver ≠ []) (hany : ver ≠ "*".toList)
    (hlength : ver.length ≤ cfMaxVarSize - 1) (hselect : packageSelect ≠ .gt) :
    MinimumSuffices env refAnyVer commands a ver packageSelect repositories ↔
      matchingFiles env refAnyVer repositories = [] := by
  have hspecific : ¬(ver = [] || ver = "*".toList) = true := by
    rw [Bool.or_eq_true, decide_eq_true_iff, decide_eq_true_iff, not_or]
    exact ⟨hne, hany⟩
  have hinitial : initialVersion ver packageSelect = ver := by
    rw [initialVersion, if_neg hspecific]
    dsimp only
    rw [List.take_of_length_le hlength, if_neg hselect]
  have hrequest (version : CString) :
      SatisfiesRequest commands a ver packageSelect version ↔
        ¬VersionLess commands a version ver := by
    rw [SatisfiesRequest, if_neg hselect, or_iff_right hne, or_iff_right hany]
  rw [MinimumSuffices, hinitial]
  constructor
  · rintro (hnone | ⟨version, -, -, hless, hsatisfies⟩)
    · refine List.eq_nil_iff_forall_not_mem.2 fun f hf => ?_
      exact (hnone f hf).2 ((hrequest _).2 (hnone f hf).1)
    · exact absurd hless ((hrequest version).1 hsatisfies)
  · intro hnil
    rw [hnil]
    exact .inl nofun

end LargestVersion

/-! ## A repository -/

/-- `foo-(.*)\.rpm` -/
def rpmPattern : Pcre where
  matchFullString s :=
    "foo-".toList.isPrefixOf s && ".rpm".toList.isSuffixOf s && s.length ≥ 8
  firstGroup s :=
    if "foo-".toList.isPrefixOf s && ".rpm".toList.isSuffixOf s && s.length ≥ 8 then
      some (4, s.length - 4)
    else none

/-- A directory of files that are named after their versions. -/
def rpmFiles (files : List Dirent) : PackageFiles where
  compileRegExp _ := some rpmPattern
  openDirLocal _ := some files

def selectOnly (packageSelect : VersionCmp) : Packages := ⟨packageSelect, none, none, false⟩

def foo10 : Dirent := ⟨"foo-1.0.rpm".toList, by decide⟩

def foo105 : Dirent := ⟨"foo-1.0.5.rpm".toList, by decide⟩

def foo20 : Dirent := ⟨"foo-2.0.rpm".toList, by decide⟩

/-- The order of a few versions by the built-in comparison. -/
theorem strictTotalOn_mem {a : Packages} {commands : CmpCommands} {versions : List CString}
    (hirrefl : ∀ x ∈ versions, ¬VersionLess commands a x x)
    (htrans : ∀ x ∈ versions, ∀ y ∈ versions, ∀ z ∈ versions,
      VersionLess commands a x y → VersionLess commands a y z → VersionLess commands a x z)
    (htotal : ∀ x ∈ versions, ∀ y ∈ versions, x ≠ y →
      VersionLess commands a x y ∨ VersionLess commands a y x) :
    StrictTotalOn (VersionLess commands a) (· ∈ versions) where
  irrefl hx := hirrefl _ hx
  trans hx hy hz := htrans _ hx _ hy _ hz
  total hx hy := htotal _ hx _ hy

/-- The only file has a version between the one asked for and the initial one. -/
theorem findLargestVersionAvail_foo105 :
    PicksNewest (rpmFiles [foo105]) "foo-(.*)\\.rpm".toList (fun _ _ _ _ => none) (selectOnly .gt)
      "1.0".toList .gt ["/repo".toList]
      (findLargestVersionAvail (rpmFiles [foo105]) "foo-(.*)\\.rpm".toList (fun _ _ _ _ => none)
        (selectOnly .gt) "1.0".toList .gt ["/repo".toList]) :=
  (findLargestVersionAvail_newest_iff (S := (· ∈ ["1.1".toList, "1.0.5".toList])) _ _ _
    (strictTotalOn_mem (by decide) (by decide) (by decide)) (by decide) (by decide)).2
    (.inr ⟨"1.0.5".toList, by decide, by decide, by decide, .inr (.inr (by decide))⟩)

/-- A version of at least `1.5` is asked for, and the one that is found is `1.0`. -/
theorem findLargestVersionAvail_older :
    StrictTotalOn (VersionLess (fun _ _ _ _ => none) (selectOnly .ge))
        (· ∈ ["1.0".toList, "1.5".toList, "2.0".toList]) ∧
      findLargestVersionAvail (rpmFiles [foo10, foo20]) "foo-(.*)\\.rpm".toList
        (fun _ _ _ _ => none) (selectOnly .ge) "1.5".toList .ge ["/repo".toList] =
        some ("foo-1.0.rpm".toList, "1.0".toList) ∧
      ¬PicksNewest (rpmFiles [foo10, foo20]) "foo-(.*)\\.rpm".toList (fun _ _ _ _ => none)
        (selectOnly .ge) "1.5".toList .ge ["/repo".toList]
        (findLargestVersionAvail (rpmFiles [foo10, foo20]) "foo-(.*)\\.rpm".toList
          (fun _ _ _ _ => none) (selectOnly .ge) "1.5".toList .ge ["/repo".toList]) := by
  have hfound : findLargestVersionAvail (rpmFiles [foo10, foo20]) "foo-(.*)\\.rpm".toList
      (fun _ _ _ _ => none) (selectOnly .ge) "1.5".toList .ge ["/repo".toList] =
      some ("foo-1.0.rpm".toList, "1.0".toList) := by decide
  refine ⟨strictTotalOn_mem (by decide) (by decide) (by decide), hfound, fun h => ?_⟩
  obtain ⟨f, -, -, -, hlargest⟩ := h.2 _ _ hfound
  exact hlargest foo20 (by decide) (by decide)

end Cfengine
