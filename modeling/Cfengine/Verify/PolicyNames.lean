import Cfengine.PolicyNames

/-!
# Which bodies and bundles are found

`IsBody` finds a body by the qualified name of the key (`isBody_resolves_iff`), `IsBundle` a bundle
by its qualified name or its base name. `IsBundle` takes a key that begins like a namespace for one
that is qualified by it, and so misses bundles (`names_resolve_iff`).
-/

namespace Cfengine
namespace Policy

/-- A bundle that is named by its namespace. -/
structure NamedBundle extends Bundle where
  base : CString
  colon_not_mem : ':' ∉ base
  name_eq : name = if «namespace» = defaultNamespace then base else «namespace» ++ ':' :: base

/-- The qualified name of the key, as seen from the namespace. -/
def qualified (ns key : CString) : CString :=
  if ':' ∈ key ∨ ns = defaultNamespace then stripDefault key else ns ++ ':' :: key

namespace NamedBundle

/-- The key stands for the bundle. -/
def Wanted (b : NamedBundle) (key : CString) : Prop :=
  b.name = key ∨ "default:".toList ++ b.name = key ∨ ':' ∉ key ∧ b.base = key

/-- The key stands for a bundle that is not in the default namespace, and is not made the name of
it: it has `default:` in front of the name, or is a base name that begins like the namespace or
leaves no space for it. -/
def Missed (b : NamedBundle) (key : CString) : Prop :=
  b.namespace ≠ defaultNamespace ∧ ("default:".toList ++ b.name = key ∨
    b.base = key ∧ (b.namespace <+: key ∨ cfBufSize - 2 < b.name.length))

/-- The bundle has the name that is cut off by the buffer. -/
def Cut (b : NamedBundle) (key : CString) : Prop :=
  b.namespace ≠ defaultNamespace ∧ ¬ b.namespace <+: key ∧ b.base ≠ key ∧
    b.name = printName b.namespace key

/-- The key does not fit where it is copied to for the bundle. -/
def Overlong (b : NamedBundle) (key : CString) : Prop :=
  if b.namespace = defaultNamespace then cfBufSize ≤ (stripDefault key).length
  else b.namespace <+: key ∧ cfBufSize ≤ key.length

end NamedBundle

variable {b : NamedBundle} {list : List NamedBundle} {bodies : List Body} {ns key s : CString}

theorem stripDefault_eq_iff {base : CString} (hbase : ':' ∉ base) :
    base = stripDefault key ↔ base = key ∨ "default:".toList ++ base = key := by
  rw [stripDefault]
  split
  · rename_i hdefault
    obtain ⟨rest, rfl⟩ := List.isPrefixOf_iff_prefix.mp hdefault
    have hdrop : ("default:".toList ++ rest).drop "default:".length = rest := List.drop_left
    rw [hdrop, List.append_cancel_left_eq]
    refine (or_iff_right ?_).symm
    rintro rfl
    exact hbase (List.mem_append_left _ (by decide))
  · rename_i hdefault
    refine (or_iff_left ?_).symm
    rintro rfl
    exact hdefault (List.isPrefixOf_iff_prefix.mpr (List.prefix_append _ _))

namespace NamedBundle

theorem name_of_default (h : b.namespace = defaultNamespace) : b.name = b.base := by
  rw [b.name_eq, if_pos h]

theorem name_of_ne (h : b.namespace ≠ defaultNamespace) :
    b.name = b.namespace ++ ':' :: b.base := by
  rw [b.name_eq, if_neg h]

/-- What the comparison with the name finds. -/
def Found (b : NamedBundle) (key : CString) : Prop := b.Wanted key ∧ ¬ b.Missed key ∨ b.Cut key

theorem found_of_default (h : b.namespace = defaultNamespace) :
    b.Found key ↔ b.name = stripDefault key := by
  have hmissed : ¬ b.Missed key := fun hmissed => hmissed.1 h
  have hcut : ¬ b.Cut key := fun hcut => hcut.1 h
  rw [Found, or_iff_left hcut, and_iff_left hmissed, Wanted, name_of_default h,
    stripDefault_eq_iff b.colon_not_mem]
  constructor
  · rintro (hkey | hkey | ⟨-, hkey⟩)
    · exact .inl hkey
    · exact .inr hkey
    · exact .inl hkey
  · rintro (hkey | hkey)
    · exact .inl hkey
    · exact .inr (.inl hkey)

/-- A key that begins like the namespace finds a bundle just by its name. -/
theorem found_of_begins (h : b.namespace ≠ defaultNamespace) (hbegin : b.namespace <+: key) :
    b.Found key ↔ b.name = key := by
  constructor
  · rintro (⟨hkey | hkey | ⟨-, hkey⟩, hmissed⟩ | hcut)
    · exact hkey
    · exact absurd ⟨h, .inl hkey⟩ hmissed
    · exact absurd ⟨h, .inr ⟨hkey, .inl hbegin⟩⟩ hmissed
    · exact absurd hbegin hcut.2.1
  · intro hkey
    refine .inl ⟨.inl hkey, ?_⟩
    rintro ⟨-, hdefault | ⟨hbase, -⟩⟩
    · rw [← hkey] at hdefault
      exact absurd (congrArg List.length hdefault) (by simp; omega)
    · apply b.colon_not_mem
      rw [hbase, ← hkey, name_of_ne h]
      exact List.mem_append_right _ List.mem_cons_self

theorem found_of_not_begins (h : b.namespace ≠ defaultNamespace) (hbegin : ¬ b.namespace <+: key) :
    b.Found key ↔ b.name = printName b.namespace key := by
  constructor
  · rintro (⟨hkey | hkey | ⟨-, hkey⟩, hmissed⟩ | hcut)
    · refine absurd ?_ hbegin
      rw [← hkey, name_of_ne h]
      exact List.prefix_append _ _
    · exact absurd ⟨h, .inl hkey⟩ hmissed
    · have hshort : ¬ cfBufSize - 2 < b.name.length :=
        fun hlong => hmissed ⟨h, .inr ⟨hkey, .inr hlong⟩⟩
      rw [printName, ← hkey, ← name_of_ne h, List.take_of_length_le (Nat.le_of_not_lt hshort)]
    · exact hcut.2.2.2
  · intro hname
    by_cases hkey : b.base = key
    · have hcolon : ':' ∉ key := hkey ▸ b.colon_not_mem
      refine .inl ⟨.inr (.inr ⟨hcolon, hkey⟩), ?_⟩
      rintro ⟨-, hdefault | ⟨-, hbegins | hlong⟩⟩
      · apply hcolon
        rw [← hdefault]
        exact List.mem_append_left _ (by decide)
      · exact hbegin hbegins
      · rw [hname, printName, List.length_take] at hlong
        omega
    · exact .inr ⟨h, hbegin, hkey, hname⟩

/-- How a bundle is compared with the key. -/
theorem bundleKey_spec (b : NamedBundle) (key : CString) :
    (b.Overlong key ∧ bundleKey b.namespace key = .error .bufferOverflow) ∨
      ¬ b.Overlong key ∧ ∃ fqname, bundleKey b.namespace key = .ok fqname ∧
        (b.name = fqname ↔ b.Found key) := by
  rw [bundleKey, Overlong]
  by_cases h : b.namespace = defaultNamespace
  · rw [if_pos h, if_pos h, copyName]
    by_cases hfits : (stripDefault key).length < cfBufSize
    · exact .inr ⟨hfits.not_ge, _, if_pos hfits, (found_of_default h).symm⟩
    · exact .inl ⟨Nat.le_of_not_lt hfits, if_neg hfits⟩
  · rw [if_neg h, if_neg h]
    by_cases hbegin : b.namespace <+: key
    · rw [if_pos (List.isPrefixOf_iff_prefix.mpr hbegin), copyName]
      by_cases hfits : key.length < cfBufSize
      · exact .inr ⟨fun hover => hfits.not_ge hover.2, _, if_pos hfits,
          (found_of_begins h hbegin).symm⟩
      · exact .inl ⟨⟨hbegin, Nat.le_of_not_lt hfits⟩, if_neg hfits⟩
    · rw [if_neg fun hpos => hbegin (List.isPrefixOf_iff_prefix.mp hpos)]
      exact .inr ⟨fun hover => hbegin hover.1, _, rfl, (found_of_not_begins h hbegin).symm⟩

end NamedBundle

/-! ## Bundles -/

/-- Where a key is too long to be compared with a bundle, one in front of that is found. -/
def Fits (list : List NamedBundle) (key : CString) : Prop :=
  ∀ front b back, list = front ++ b :: back → b.Overlong key → ∃ b' ∈ front, b'.Found key

theorem fits_nil : Fits [] key := by
  intro front b back h
  cases front <;> cases h

theorem fits_cons_of_found (hover : ¬ b.Overlong key) (hfound : b.Found key) :
    Fits (b :: list) key := by
  intro front b' back h hover'
  cases front with
  | nil =>
    cases h
    exact absurd hover' hover
  | cons d front =>
    cases h
    exact ⟨b, List.mem_cons_self, hfound⟩

theorem fits_cons_of_not_found (hfound : ¬ b.Found key) :
    Fits (b :: list) key ↔ ¬ b.Overlong key ∧ Fits list key := by
  constructor
  · refine fun h => ⟨fun hover => ?_, fun front b' back hlist hover => ?_⟩
    · obtain ⟨b', hb', -⟩ := h [] b list rfl hover
      cases hb'
    · obtain ⟨d, hd, hfound'⟩ := h (b :: front) b' back (congrArg (b :: ·) hlist) hover
      obtain rfl | hd := List.mem_cons.mp hd
      · exact absurd hfound' hfound
      · exact ⟨d, hd, hfound'⟩
  · rintro ⟨hover, h⟩ front b' back hlist hover'
    cases front with
    | nil =>
      cases hlist
      exact absurd hover' hover
    | cons d front =>
      cases hlist
      obtain ⟨d, hd, hfound'⟩ := h front b' back rfl hover'
      exact ⟨d, List.mem_cons_of_mem _ hd, hfound'⟩

/-- `IsBundle` returns a bundle just if one is found, unless the key is too long. -/
theorem isBundle_of_fits (h : Fits list key) :
    ∃ r, isBundle (list.map NamedBundle.toBundle) key = .ok r ∧
      (r.isSome = true ↔ ∃ b ∈ list, b.Found key) := by
  induction list with
  | nil => exact ⟨none, rfl, by simp⟩
  | cons b list ih =>
    rw [List.map_cons, isBundle]
    obtain ⟨hover, -⟩ | ⟨hover, fqname, hkey, hname⟩ := b.bundleKey_spec key
    · obtain ⟨b', hb', -⟩ := h [] b list rfl hover
      cases hb'
    · rw [hkey]
      by_cases hfound : b.Found key
      · exact ⟨some b.toBundle, if_pos (hname.mpr hfound),
          iff_of_true rfl ⟨b, List.mem_cons_self, hfound⟩⟩
      · obtain ⟨r, hr, hsome⟩ := ih ((fits_cons_of_not_found hfound).mp h).2
        refine ⟨r, (if_neg (hname.not.mpr hfound)).trans hr, hsome.trans ?_⟩
        rw [List.exists_mem_cons_iff, or_iff_right hfound]

theorem isBundle_of_not_fits (h : ¬ Fits list key) :
    isBundle (list.map NamedBundle.toBundle) key = .error .bufferOverflow := by
  induction list with
  | nil => exact absurd fits_nil h
  | cons b list ih =>
    rw [List.map_cons, isBundle]
    obtain ⟨-, hkey⟩ | ⟨hover, fqname, hkey, hname⟩ := b.bundleKey_spec key
    · rw [hkey]
      rfl
    · have hfound : ¬ b.Found key := fun hfound => h (fits_cons_of_found hover hfound)
      rw [fits_cons_of_not_found hfound, not_and] at h
      rw [hkey]
      exact (if_neg (hname.not.mpr hfound)).trans (ih (h hover))

/-- `IsBundle` returns a bundle just if the key stands for one. -/
def BundleResolves (list : List NamedBundle) (key : CString) : Prop :=
  ∃ r, isBundle (list.map NamedBundle.toBundle) key = .ok r ∧
    (r.isSome = true ↔ ∃ b ∈ list, b.Wanted key)

theorem bundleResolves_iff : BundleResolves list key ↔
    Fits list key ∧ ((∃ b ∈ list, b.Wanted key) ↔ ∃ b ∈ list, b.Found key) := by
  constructor
  · rintro ⟨r, hr, hwanted⟩
    have hfits : Fits list key := by
      by_contra hfits
      rw [isBundle_of_not_fits hfits] at hr
      cases hr
    obtain ⟨r', hr', hfound⟩ := isBundle_of_fits hfits
    cases hr.symm.trans hr'
    exact ⟨hfits, hwanted.symm.trans hfound⟩
  · rintro ⟨hfits, hiff⟩
    obtain ⟨r, hr, hfound⟩ := isBundle_of_fits hfits
    exact ⟨r, hr, hfound.trans hiff.symm⟩

/-! ## Bodies -/

/-- `IsBody` returns a body just if one has the qualified name of the key. -/
def BodyResolves (bodies : List Body) (ns key : CString) : Prop :=
  ∃ r, isBody bodies ns key = .ok r ∧ (r.isSome = true ↔ ∃ bp ∈ bodies, bp.name = qualified ns key)

/-- The qualified name of the key fits where it is made, or no body shows that it does not. -/
def BodyKeyFits (bodies : List Body) (ns key : CString) : Prop :=
  if ':' ∈ key ∨ ns = defaultNamespace then bodies ≠ [] → (stripDefault key).length < cfBufSize
  else cfBufSize - 2 < (qualified ns key).length →
    ((∃ bp ∈ bodies, bp.name = printName ns key) ↔ ∃ bp ∈ bodies, bp.name = qualified ns key)

theorem isBody_of_ok {fqname : CString} (h : bodyKey ns key = .ok fqname) :
    isBody bodies ns key = .ok (bodies.find? fun bp => bp.name = fqname) := by
  induction bodies with
  | nil => rfl
  | cons bp bodies ih =>
    rw [isBody, h, List.find?_cons]
    by_cases hname : bp.name = fqname
    · rw [decide_eq_true hname]
      exact if_pos hname
    · rw [decide_eq_false hname]
      exact (if_neg hname).trans ih

theorem bodyKey_eq (ns key : CString) : bodyKey ns key =
    if ':' ∈ key ∨ ns = defaultNamespace then copyName (stripDefault key)
    else .ok (printName ns key) := by
  rw [bodyKey]
  simp

/-- Where nothing overflows, the body is the one that a copied promise gets. -/
theorem isBody_eq {r : Option Body} (h : isBody bodies ns key = .ok r) :
    PolicyEnv.isBody bodies ns key = r := by
  cases bodies with
  | nil =>
    cases h
    rfl
  | cons bp bodies =>
    cases hkey : bodyKey ns key with
    | error fault =>
      rw [isBody, hkey] at h
      cases h
    | ok fqname =>
      rw [isBody_of_ok hkey] at h
      cases h
      have hname : fqname = if ':' ∈ key ∨ ns = defaultNamespace then stripDefault key
          else printName ns key := by
        rw [bodyKey_eq, copyName] at hkey
        split_ifs at hkey ⊢ <;> cases hkey <;> rfl
      rw [hname]
      rfl

theorem isSome_find?_name {fqname : CString} :
    (bodies.find? fun bp => bp.name = fqname).isSome = true ↔ ∃ bp ∈ bodies, bp.name = fqname := by
  rw [List.find?_isSome]
  simp only [decide_eq_true_iff]

theorem bodyResolves_of_ok {fqname : CString} (h : bodyKey ns key = .ok fqname) :
    BodyResolves bodies ns key ↔
    ((∃ bp ∈ bodies, bp.name = fqname) ↔ ∃ bp ∈ bodies, bp.name = qualified ns key) := by
  rw [BodyResolves, isBody_of_ok h, ← @isSome_find?_name bodies fqname]
  exact ⟨fun ⟨r, hr, hiff⟩ => by cases hr; exact hiff, fun hiff => ⟨_, rfl, hiff⟩⟩

theorem bodyResolves_iff : BodyResolves bodies ns key ↔ BodyKeyFits bodies ns key := by
  rw [BodyKeyFits]
  have hkey := bodyKey_eq ns key
  by_cases hqualified : ':' ∈ key ∨ ns = defaultNamespace
  · have hname : qualified ns key = stripDefault key := if_pos hqualified
    rw [if_pos hqualified, copyName] at hkey
    rw [if_pos hqualified]
    by_cases hfits : (stripDefault key).length < cfBufSize
    · rw [if_pos hfits] at hkey
      rw [bodyResolves_of_ok hkey, hname]
      exact iff_of_true Iff.rfl fun _ => hfits
    · rw [if_neg hfits] at hkey
      cases bodies with
      | nil => exact iff_of_true ⟨none, rfl, by simp⟩ fun hne => absurd rfl hne
      | cons bp bodies =>
        refine iff_of_false ?_ fun h => hfits (h (List.cons_ne_nil _ _))
        rintro ⟨r, hr, -⟩
        rw [isBody, hkey] at hr
        cases hr
  · have hname : qualified ns key = ns ++ ':' :: key := if_neg hqualified
    rw [if_neg hqualified] at hkey
    rw [if_neg hqualified, bodyResolves_of_ok hkey]
    refine ⟨fun h _ => h, fun h => ?_⟩
    by_cases hlong : cfBufSize - 2 < (qualified ns key).length
    · exact h hlong
    · rw [printName, ← hname, List.take_of_length_le (Nat.le_of_not_lt hlong)]

/-- Bodies and bundles are found by their names, but for the buffers, if a bundle that the key
stands for is found where there is one. -/
theorem names_resolve_iff (bodies : List Body) (ns key : CString) (bundles : List NamedBundle)
    (bundle : CString) :
    (BodyResolves bodies ns key ∧ BundleResolves bundles bundle) ↔
      BodyKeyFits bodies ns key ∧ Fits bundles bundle ∧
        ((∃ b ∈ bundles, b.Wanted bundle) ↔
          ∃ b ∈ bundles, b.Wanted bundle ∧ ¬ b.Missed bundle ∨ b.Cut bundle) := by
  rw [bodyResolves_iff, bundleResolves_iff]
  rfl

/-- A bundle whose base name begins like its namespace. -/
def webserver : NamedBundle where
  name := "web:webserver".toList
  «namespace» := "web".toList
  base := "webserver".toList
  colon_not_mem := by decide
  name_eq := by decide

theorem not_bundleResolves_webserver : ¬ BundleResolves [webserver] "webserver".toList := by
  rintro ⟨r, hr, hwanted⟩
  have hnone : isBundle [webserver.toBundle] "webserver".toList = .ok none := by rfl
  cases hr.symm.trans hnone
  exact Bool.false_ne_true
    (hwanted.mpr ⟨webserver, List.mem_cons_self, .inr (.inr ⟨by decide, rfl⟩)⟩)

end Policy
end Cfengine
