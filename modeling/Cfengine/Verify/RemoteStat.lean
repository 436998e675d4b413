import Cfengine.RemoteStat
import Cfengine.Verify.AddrLib

/-!
# What a remote `stat` transmits

The numbers of the line are scanned as they were printed where each fits the width of its conversion
(`scanWidths_decimals`), and those of a file fit (`cfRemoteStat_statReplies`).
-/

namespace Cfengine
open Numerals

/-! ## Scanning decimals -/

section
variable {n : Int} {rest : CString} {width : Nat}

theorem isspace_of_mem_toDigits {m : Nat} : ∀ c ∈ Nat.toDigits 10 m, isspace c = false :=
  fun c hc => isspace_of_isDigit (isDigit_of_mem_toDigits c hc)

theorem scanInteger_toDigits {m : Nat} (hrest : ∀ c ∈ rest.head?, isDigit 10 c = false) :
    (Nat.toDigits 10 m ++ rest).takeWhile (isDigit 10) = Nat.toDigits 10 m ∧
      (Nat.toDigits 10 m ++ rest).drop (Nat.toDigits 10 m).length = rest := by
  have htake := (Numeral.mk (Nat.toDigits 10 m) Nat.toDigits_ne_nil
    isDigit_of_mem_toDigits).takeWhile_append hrest
  exact ⟨htake, List.drop_left⟩

/-- A decimal is read up to its end if no digit follows. -/
theorem scanInteger_decimal (hrest : ∀ c ∈ rest.head?, isDigit 10 c = false) :
    scanInteger 10 (decimal n ++ rest) = some (n, rest) := by
  cases n with
  | ofNat m =>
    obtain ⟨htake, hdrop⟩ := @scanInteger_toDigits rest m hrest
    obtain ⟨c, s, hcs⟩ := List.exists_cons_of_ne_nil (Nat.toDigits_ne_nil : Nat.toDigits 10 m ≠ [])
    have hc : isDigit 10 c = true := isDigit_of_mem_toDigits c (hcs ▸ List.mem_cons_self)
    have hspace : (Nat.toDigits 10 m ++ rest).dropWhile isspace = Nat.toDigits 10 m ++ rest := by
      rw [hcs, List.cons_append, List.dropWhile_cons_of_neg]
      simp [isspace_of_isDigit hc]
    have hsign : scanSign (Nat.toDigits 10 m ++ rest) = (1, Nat.toDigits 10 m ++ rest) := by
      rw [hcs, List.cons_append, scanSign_of_isDigit (by decide) hc]
    simp only [scanInteger, decimal, hspace, hsign, skipHexPrefix_ten, htake, hdrop,
      if_neg Nat.toDigits_ne_nil, value_toDigits, one_mul]
    rfl
  | negSucc m =>
    obtain ⟨htake, hdrop⟩ := @scanInteger_toDigits rest (m + 1) hrest
    have hspace : ('-' :: Nat.toDigits 10 (m + 1) ++ rest).dropWhile isspace =
        '-' :: Nat.toDigits 10 (m + 1) ++ rest := List.dropWhile_cons_of_neg (by decide)
    simp only [scanInteger, decimal, hspace]
    simp only [List.cons_append, scanSign, skipHexPrefix_ten, htake, hdrop,
      if_neg Nat.toDigits_ne_nil, value_toDigits]
    rw [Int.negSucc_eq]
    simp

theorem scanWidth_decimal (hwidth : (decimal n).length ≤ width)
    (hrest : ∀ c ∈ rest.head?, isDigit 10 c = false) :
    scanWidth width (' ' :: decimal n ++ rest) = some (n, rest) := by
  have hhead : ∀ c ∈ (decimal n).head?, isspace c = false := by
    cases n with
    | ofNat m => exact fun c hc => isspace_of_mem_toDigits c (List.mem_of_mem_head? hc)
    | negSucc m =>
      intro c hc
      cases hc
      decide
  have hne : decimal n ≠ [] := by
    cases n with
    | ofNat m => exact Nat.toDigits_ne_nil
    | negSucc m => exact List.cons_ne_nil _ _
  have hspace : (' ' :: decimal n ++ rest).dropWhile isspace = decimal n ++ rest := by
    obtain ⟨c, s, hcs⟩ := List.exists_cons_of_ne_nil hne
    rw [List.cons_append, List.dropWhile_cons_of_pos (by decide), hcs, List.cons_append,
      List.dropWhile_cons_of_neg]
    simp [hhead c (by rw [hcs]; rfl)]
  have htake : (decimal n ++ rest).take width =
      decimal n ++ rest.take (width - (decimal n).length) := by
    rw [List.take_append, List.take_of_length_le hwidth]
  have hdrop : (decimal n ++ rest).drop width = rest.drop (width - (decimal n).length) := by
    rw [List.drop_append, List.drop_of_length_le hwidth, List.nil_append]
  have hnext : ∀ c ∈ (rest.take (width - (decimal n).length)).head?, isDigit 10 c = false := by
    intro c hc
    rw [List.head?_take] at hc
    split at hc
    · cases hc
    · exact hrest c hc
  rw [scanWidth, hspace]
  simp only [htake, scanInteger_decimal hnext, hdrop, Option.map_some, List.take_append_drop]

/-- Decimals that fit are scanned one after another. -/
theorem scanWidths_decimals {widths : List Nat} {fields : List Int}
    (h : List.Forall₂ (fun width n => (decimal n).length ≤ width) widths fields) :
    scanWidths widths (fields.flatMap fun n => ' ' :: decimal n) = fields := by
  induction h with
  | nil => rfl
  | @cons width n widths fields hwidth _ ih =>
    have hrest : ∀ c ∈ (fields.flatMap fun n => ' ' :: decimal n).head?, isDigit 10 c = false := by
      intro c hc
      cases fields with
      | nil => cases hc
      | cons n' fields =>
        cases hc
        decide
    rw [List.flatMap_cons, scanWidths, scanWidth_decimal hwidth hrest]
    dsimp only
    rw [ih]

end

/-! ## The line of a file -/

section
variable {cfst : CfStat} {statbuf buf : StatBuf} {linkbuf stattype : CString}
  {statlinkbuf : Option StatBuf}

/-- The size, the times and the device fit the widths of their conversions. -/
structure CfStat.Fits (cfst : CfStat) : Prop where
  size : -10 ^ 15 < cfst.cf_size ∧ cfst.cf_size < 10 ^ 16
  atime : -10 ^ 13 < cfst.cf_atime ∧ cfst.cf_atime < 10 ^ 14
  mtime : -10 ^ 13 < cfst.cf_mtime ∧ cfst.cf_mtime < 10 ^ 14
  ctime : -10 ^ 13 < cfst.cf_ctime ∧ cfst.cf_ctime < 10 ^ 14
  dev : cfst.cf_dev < 10 ^ 16

/-- The other fields have the ranges of their types. -/
structure CfStat.Typed (cfst : CfStat) : Prop where
  type : cfst.cf_type.isSome = true
  lmode : cfst.cf_lmode ≤ 0o7777
  mode : cfst.cf_mode ≤ 0o7777
  uid : cfst.cf_uid < 2 ^ 32
  gid : cfst.cf_gid < 2 ^ 32
  makeholes : cfst.cf_makeholes = 0 ∨ cfst.cf_makeholes = 1
  nlink : -2 ^ 31 ≤ cfst.cf_nlink ∧ cfst.cf_nlink < 2 ^ 31
  ino : -2 ^ 31 ≤ cfst.cf_ino ∧ cfst.cf_ino < 2 ^ 31
  dev : 0 ≤ cfst.cf_dev

theorem bmod_range (n : Int) : -2 ^ 31 ≤ n.bmod (2 ^ 32) ∧ n.bmod (2 ^ 32) < 2 ^ 31 := by
  have hlower := @Int.le_bmod n (2 ^ 32) (by norm_num)
  have hupper := @Int.bmod_lt n (2 ^ 32) (by norm_num)
  norm_num at hlower hupper ⊢
  omega

theorem typed_statFile : (statFile statbuf linkbuf statlinkbuf).Typed := by
  rw [statFile.eq_def]
  constructor <;> dsimp only
  case type => rfl
  case lmode =>
    split
    · exact Nat.and_le_right
    · exact Nat.zero_le _
  case mode => exact Nat.and_le_right
  case uid => exact Nat.lt_of_le_of_lt Nat.and_le_right (by norm_num)
  case gid => exact Nat.lt_of_le_of_lt Nat.and_le_right (by norm_num)
  case makeholes => exact (ite_eq_or_eq _ _ _).symm
  case nlink => exact bmod_range _
  case ino => exact bmod_range _
  case dev => exact Int.natCast_nonneg _

theorem CfFiletype.ofInt?_toInt (type : CfFiletype) : CfFiletype.ofInt? type.toInt = some type := by
  cases type <;> rfl

theorem CfFiletype.toInt_range (type : CfFiletype) : 0 ≤ type.toInt ∧ type.toInt < 7 := by
  cases type <;> decide

theorem fields_fit (htyped : cfst.Typed) (hfits : cfst.Fits) :
    List.Forall₂ (fun width n => (decimal n).length ≤ width) statWidths cfst.fields := by
  obtain ⟨type, htype⟩ := Option.isSome_iff_exists.mp htyped.type
  obtain ⟨hpos, hseven⟩ := type.toInt_range
  obtain ⟨_, hlmode, hmode, huid, hgid, hholes, hnlink, hino, hdev⟩ := htyped
  obtain ⟨hsize, hatime, hmtime, hctime, hdev'⟩ := hfits
  rw [CfStat.fields, htype, statWidths]
  simp only [List.forall₂_cons, List.Forall₂.nil, and_true, Option.elim_some]
  refine ⟨?_, ?_, ?_, ?_, ?_, ?_, ?_, ?_, ?_, ?_, ?_, ?_, ?_⟩ <;>
    exact length_decimal_le (by norm_num; omega) (by norm_num; omega)

theorem length_decimals_le {widths : List Nat} {fields : List Int}
    (h : List.Forall₂ (fun width n => (decimal n).length ≤ width) widths fields) :
    (fields.flatMap fun n => ' ' :: decimal n).length ≤ (widths.map (· + 1)).sum := by
  induction h with
  | nil => rfl
  | cons hwidth _ ih =>
    rw [List.flatMap_cons, List.length_append, List.map_cons, List.sum_cons, List.length_cons]
    omega

theorem statReplies_line (htyped : cfst.Typed) (hfits : cfst.Fits) :
    (statReplies cfst).1 = "OK:".toList ++ cfst.fields.flatMap fun n => ' ' :: decimal n := by
  have hlen := length_decimals_le (fields_fit htyped hfits)
  have hsum : (statWidths.map (· + 1)).sum = 154 := by decide
  rw [statReplies, List.take_of_length_le]
  rw [List.length_append, cfBufSize, show "OK:".toList.length = 3 from rfl]
  omega

theorem and_or_bits {mode bits : Nat} (hmode : mode ≤ 0o7777) (hbits : bits &&& 0o7777 = 0) :
    (mode ||| bits) &&& 0o7777 = mode := by
  rw [Nat.and_or_distrib_right, hbits, Nat.or_zero]
  exact (Nat.and_two_pow_sub_one_eq_mod mode 12).trans (Nat.mod_eq_of_lt (by omega))

theorem CfFiletype.bits_and (type : CfFiletype) : type.bits &&& 0o7777 = 0 := by
  cases type <;> decide

theorem bmod_type (type : CfFiletype) : type.toInt.bmod (2 ^ 32) = type.toInt := by
  obtain ⟨hpos, hlt⟩ := type.toInt_range
  exact Int.bmod_eq_of_le (by omega) (by omega)

theorem bmod_int {n : Int} (h : -2 ^ 31 ≤ n ∧ n < 2 ^ 31) : n.bmod (2 ^ 32) = n := by
  exact Int.bmod_eq_of_le (by norm_num at h ⊢; omega) (by norm_num at h ⊢; omega)

/-- What is stored for the fields of a file. -/
theorem ofFields_fields (htyped : cfst.Typed) (hfits : cfst.Fits) (readlink : Option CString) :
    CfStat.ofFields readlink cfst.fields = some
      { cfst with
        cf_lmode := if cfst.cf_lmode ≠ 0 then cfst.cf_lmode ||| CfFiletype.link.bits
        else cfst.cf_lmode
        cf_mode := cfst.cf_mode ||| cfst.cf_type.elim 0 CfFiletype.bits
        cf_readlink := readlink } := by
  obtain ⟨type, htype⟩ := Option.isSome_iff_exists.mp htyped.type
  obtain ⟨_, hlmode, hmode, huid, hgid, hholes, hnlink, hino, hdev⟩ := htyped
  have hdev' := hfits.dev
  have hmode32 : (cfst.cf_mode : Int) % 2 ^ 32 = cfst.cf_mode :=
    Int.emod_eq_of_lt (by omega) (by omega)
  have hlmode32 : (cfst.cf_lmode : Int) % 2 ^ 32 = cfst.cf_lmode :=
    Int.emod_eq_of_lt (by omega) (by omega)
  have huid32 : (cfst.cf_uid : Int) % 2 ^ 32 = cfst.cf_uid :=
    Int.emod_eq_of_lt (by omega) (by omega)
  have hgid32 : (cfst.cf_gid : Int) % 2 ^ 32 = cfst.cf_gid :=
    Int.emod_eq_of_lt (by omega) (by omega)
  have hdev64 : cfst.cf_dev % 2 ^ 64 = cfst.cf_dev := Int.emod_eq_of_lt hdev (by omega)
  have hholes8 : cfst.cf_makeholes.bmod (2 ^ 8) = cfst.cf_makeholes := by
    rcases hholes with h | h <;> rw [h] <;> rfl
  rw [CfStat.fields, htype, Option.elim_some, CfStat.ofFields]
  simp only [bmod_type, CfFiletype.ofInt?_toInt, hmode32, hlmode32, huid32, hgid32, hdev64, hholes8,
    bmod_int hnlink, bmod_int hino, Int.toNat_natCast, Option.elim_some]

theorem not_unsynchronized {fields : List Int} :
    ¬ "unsynchronized".toList <:+: "OK:".toList ++ fields.flatMap fun n => ' ' :: decimal n := by
  intro h
  have hmem : 'u' ∈ "OK:".toList ++ fields.flatMap fun n => ' ' :: decimal n :=
    h.subset (by decide)
  rcases List.mem_append.mp hmem with hmem | hmem
  · exact absurd hmem (by decide)
  · obtain ⟨n, -, hmem⟩ := List.mem_flatMap.mp hmem
    rcases List.mem_cons.mp hmem with hmem | hmem
    · exact absurd hmem (by decide)
    · have hdigits : ∀ m, 'u' ∉ Nat.toDigits 10 m := fun m hm =>
        absurd (isDigit_of_mem_toDigits _ hm) (by decide)
      cases n with
      | ofNat m => exact hdigits m hmem
      | negSucc m =>
        rcases List.mem_cons.mp hmem with hmem | hmem
        · exact absurd hmem (by decide)
        · exact hdigits _ hmem

/-- What `cf_remote_stat` makes of a first reply that is not an error. -/
theorem cfRemoteStat_ok {text reply : CString}
    (hsync : ¬ "unsynchronized".toList <:+: "OK:".toList ++ text) :
    ∃ readlink, cfRemoteStat ("OK:".toList ++ text, reply) stattype buf =
      (CfStat.ofFields readlink (scanWidths statWidths text)).map fun cfst =>
        (cfst, cfst.fill stattype buf) := by
  have hbad : ¬ "BAD:".toList <+: "OK:".toList ++ text := fun h =>
    absurd (List.cons_prefix_cons.mp h).1 (by decide)
  unfold cfRemoteStat
  rw [if_neg hsync, if_neg hbad, if_pos (List.prefix_append _ _)]
  exact ⟨_, rfl⟩

theorem cfRemoteStat_eq (htyped : cfst.Typed) (hfits : cfst.Fits) :
    ∃ readlink, cfRemoteStat (statReplies cfst) stattype buf =
      (CfStat.ofFields readlink cfst.fields).map fun cfst => (cfst, cfst.fill stattype buf) := by
  have hpair : statReplies cfst = ("OK:".toList ++ cfst.fields.flatMap fun n => ' ' :: decimal n,
      (statReplies cfst).2) := Prod.ext (statReplies_line htyped hfits) rfl
  rw [hpair]
  obtain ⟨readlink, heq⟩ := @cfRemoteStat_ok buf stattype _ (statReplies cfst).2
    (@not_unsynchronized cfst.fields)
  rw [scanWidths_decimals (fields_fit htyped hfits)] at heq
  exact ⟨readlink, heq⟩

/-- The client has the fields of the server. -/
structure SameFields (r cfst : CfStat) : Prop where
  type : r.cf_type = cfst.cf_type
  mode : r.cf_mode &&& 0o7777 = cfst.cf_mode
  lmode : r.cf_lmode &&& 0o7777 = cfst.cf_lmode
  uid : r.cf_uid = cfst.cf_uid
  gid : r.cf_gid = cfst.cf_gid
  size : r.cf_size = cfst.cf_size
  atime : r.cf_atime = cfst.cf_atime
  mtime : r.cf_mtime = cfst.cf_mtime
  ctime : r.cf_ctime = cfst.cf_ctime
  makeholes : r.cf_makeholes = cfst.cf_makeholes
  ino : r.cf_ino = cfst.cf_ino
  nlink : r.cf_nlink = cfst.cf_nlink
  dev : r.cf_dev = cfst.cf_dev

theorem sameFields_stored (htyped : cfst.Typed) (readlink : Option CString) :
    SameFields
      { cfst with
        cf_lmode := if cfst.cf_lmode ≠ 0 then cfst.cf_lmode ||| CfFiletype.link.bits
        else cfst.cf_lmode
        cf_mode := cfst.cf_mode ||| cfst.cf_type.elim 0 CfFiletype.bits
        cf_readlink := readlink } cfst := by
  refine ⟨rfl, ?_, ?_, rfl, rfl, rfl, rfl, rfl, rfl, rfl, rfl, rfl, rfl⟩
  · obtain ⟨type, htype⟩ := Option.isSome_iff_exists.mp htyped.type
    rw [htype]
    dsimp only [Option.elim_some]
    exact and_or_bits htyped.mode type.bits_and
  · dsimp only
    split
    · exact and_or_bits htyped.lmode CfFiletype.link.bits_and
    · exact (Nat.and_two_pow_sub_one_eq_mod cfst.cf_lmode 12).trans
        (Nat.mod_eq_of_lt (Nat.lt_succ_of_le htyped.lmode))

/-- `cf_remote_stat` parses the line of `StatFile` into the fields that it was formatted from. -/
theorem cfRemoteStat_statReplies (hfits : (statFile statbuf linkbuf statlinkbuf).Fits) :
    ∃ r, cfRemoteStat (statReplies (statFile statbuf linkbuf statlinkbuf)) stattype buf =
        some (r, r.fill stattype buf) ∧
      SameFields r (statFile statbuf linkbuf statlinkbuf) := by
  have htyped : (statFile statbuf linkbuf statlinkbuf).Typed := typed_statFile
  generalize statFile statbuf linkbuf statlinkbuf = cfst at htyped hfits
  obtain ⟨readlink, heq⟩ := @cfRemoteStat_eq cfst buf stattype htyped hfits
  rw [ofFields_fields htyped hfits, Option.map_some] at heq
  exact ⟨_, heq, sameFields_stored htyped readlink⟩

end

/-- A regular file. -/
def sampleStat : StatBuf :=
  ⟨0o100644, 0, 1000, 4096, 1300000000, 1300000001, 1300000002, 123456, 1, 2049, 8⟩

theorem cfRemoteStat_sampleStat :
    ∃ r, cfRemoteStat (statReplies (statFile sampleStat [] none)) "file".toList sampleStat =
        some (r, r.fill "file".toList sampleStat) ∧
      SameFields r (statFile sampleStat [] none) :=
  cfRemoteStat_statReplies ⟨by decide, by decide, by decide,
    by decide, by decide⟩

end Cfengine
