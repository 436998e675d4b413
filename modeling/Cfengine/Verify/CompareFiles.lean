import Cfengine.FilesHashes
import Cfengine.Theory.Runs

/-!
# When two files are called identical

The digests of `CompareFileHashes` are static, so a file that cannot be opened has the digest of
another one, and a file that is read in part has the digest of that part. `CompareBinaryFiles` does
not look at whether its reads fail. `LastTexts` records the texts whose digests the buffers hold
(`holds_run`), and `run_justified_iff` says of a run of comparisons when all this makes no
difference.
-/

namespace Cfengine
open Runs

variable {md : MessageDigest} {static : StaticDigests} {last : LastTexts} {c : Comparison}
  {reads1 reads2 : List (Option (List Char))}

/-! ## What a comparison has to say -/

/-- All that is read of the file, if it can be opened. -/
def HashedFile.textRead (file : HashedFile) : Option (List Char) :=
  file.freads.map fun freads => (freads.takeWhile (· ≠ [])).flatten

/-- All that is in the file was read. -/
def HashedFile.ReadCompletely (file : HashedFile) : Prop := file.textRead = some file.contents

/-- The end of the file was reached. -/
def ComparedFile.ReadCompletely (file : ComparedFile) : Prop :=
  ∃ (pieces : List (List Char)) (rest : List (Option (List Char))),
    (∀ piece ∈ pieces, piece ≠ []) ∧ file.reads = pieces.map some ++ some [] :: rest

namespace Comparison

def Complete : Comparison → Prop
  | fileHashes file1 file2 _ _ _ => file1.ReadCompletely ∧ file2.ReadCompletely
  | binaryFiles file1 file2 _ _ _ => file1.ReadCompletely ∧ file2.ReadCompletely

def Equal : Comparison → Prop
  | fileHashes file1 file2 _ _ _ => file1.contents = file2.contents
  | binaryFiles file1 file2 _ _ _ => file1.contents = file2.contents

/-- The files are on this host, and of equal size as far as `stat` says. -/
def Proper : Comparison → Prop
  | fileHashes _ _ ssize dsize servers => ssize = dsize ∧ isLocalCopy servers = true
  | binaryFiles _ _ ssize dsize servers => ssize = dsize ∧ isLocalCopy servers = true

/-- False is returned only if both files were read completely and are equal, and true if both were
and are not. -/
def Justified (md : MessageDigest) (static : StaticDigests) (c : Comparison) : Prop :=
  c.Proper → ∃ b, (c.call md static).1 = .ok b ∧ (b = false → c.Complete ∧ c.Equal) ∧
    (c.Complete → ¬ c.Equal → b = true)

end Comparison

/-- The texts that were last read for each of the two digests, if there were any. -/
structure LastTexts where
  text1 : Option (List Char)
  text2 : Option (List Char)

namespace LastTexts

def start : LastTexts := ⟨none, none⟩

/-- A file that cannot be opened leaves the text of an earlier one. -/
def readFiles (last : LastTexts) (file1 file2 : HashedFile) : LastTexts :=
  ⟨file1.textRead.or last.text1, file2.textRead.or last.text2⟩

/-- Only a comparison of digests on this host reads files for them, and only if their sizes are
equal. -/
def step (last : LastTexts) : Comparison → LastTexts
  | .fileHashes file1 file2 ssize dsize servers =>
    if ssize = dsize ∧ isLocalCopy servers = true then last.readFiles file1 file2 else last
  | .binaryFiles _ _ _ _ _ => last

/-- The texts are different. Where there is only one of them, its digest is not the one of zeros
that the other buffer holds at the start. -/
def Differ (md : MessageDigest) (last : LastTexts) : Prop :=
  match last.text1, last.text2 with
  | some text1, some text2 => text1 ≠ text2
  | some text, none => md.final text ≠ List.replicate md.size '\x00'
  | none, some text => md.final text ≠ List.replicate md.size '\x00'
  | none, none => False

end LastTexts

/-- The files go on equally until a read of both fails. -/
def FailTogether (reads1 reads2 : List (Option (List Char))) : Prop :=
  ∃ (pieces : List (List Char)) (rest1 rest2 : List (Option (List Char))),
    (∀ piece ∈ pieces, piece ≠ []) ∧ reads1 = pieces.map some ++ rest1 ∧
      reads2 = pieces.map some ++ rest2 ∧ rest1.headD none = none ∧ rest2.headD none = none

/-- What is read decides the comparison: both files completely, or different texts, of which one
may be left from an earlier comparison. -/
def Comparison.Decisive (md : MessageDigest) (last : LastTexts) (c : Comparison) : Prop :=
  c.Proper →
    match c with
    | .fileHashes file1 file2 _ _ _ => file1.ReadCompletely ∧ file2.ReadCompletely ∨
        (last.readFiles file1 file2).Differ md
    | .binaryFiles file1 file2 _ _ _ => ¬ FailTogether file1.reads file2.reads

/-- The texts that comparisons of digests read. -/
def textsRead (cs : List Comparison) : Set (List Char) :=
  {text | ∃ file1 file2 ssize dsize servers,
    .fileHashes file1 file2 ssize dsize servers ∈ cs ∧
      (file1.textRead = some text ∨ file2.textRead = some text)}

/-! ## Digests -/

/-- The buffer of a digest behind the text that was last read for it. -/
def digestOf (md : MessageDigest) : Option (List Char) → List Char
  | none => List.replicate (evpMaxMdSize + 1) '\x00'
  | some text => md.final text ++ List.replicate (evpMaxMdSize + 1 - md.size) '\x00'

theorem hashFile.loop_eq {freads : List (List Char)} :
    loop freads = (freads.takeWhile (· ≠ [])).flatten := by
  induction freads with
  | nil => rfl
  | cons buffer freads ih =>
    rw [loop]
    by_cases hend : buffer = []
    · simp [hend]
    · simp [hend, ih]

/-- Behind the digest there are zeros. -/
theorem drop_digestOf {text : Option (List Char)} :
    (digestOf md text).drop md.size = List.replicate (evpMaxMdSize + 1 - md.size) '\x00' := by
  cases text with
  | none => rw [digestOf, List.drop_replicate]
  | some text => rw [digestOf, List.drop_left' (md.length_final text)]

theorem hashFile_digestOf {file : HashedFile} {text : Option (List Char)} :
    hashFile md file (digestOf md text) = digestOf md (file.textRead.or text) := by
  rw [hashFile, HashedFile.textRead]
  cases file.freads with
  | none => rfl
  | some freads =>
    simp only [drop_digestOf, hashFile.loop_eq]
    rfl

/-- The bytes that are compared are those of the digest, with zeros behind them. -/
theorem take_digestOf {text : Option (List Char)} :
    (digestOf md text).take evpMaxMdSize =
      (text.map md.final).getD (List.replicate md.size '\x00') ++
        List.replicate (evpMaxMdSize - md.size) '\x00' := by
  have hsize := md.size_le
  cases text with
  | none =>
    rw [digestOf, List.take_replicate, Option.map_none, Option.getD_none,
      List.replicate_append_replicate]
    congr 1
    omega
  | some text =>
    rw [digestOf, List.take_append, md.length_final,
      List.take_of_length_le ((md.length_final text).trans_le hsize),
      List.take_replicate, Option.map_some, Option.getD_some]
    congr 2
    omega

theorem take_digestOf_inj {text1 text2 : Option (List Char)} :
    (digestOf md text1).take evpMaxMdSize = (digestOf md text2).take evpMaxMdSize ↔
      (text1.map md.final).getD (List.replicate md.size '\x00') =
        (text2.map md.final).getD (List.replicate md.size '\x00') := by
  rw [take_digestOf, take_digestOf, List.append_left_inj]

/-- The buffers differ exactly if the texts do, where no two texts have the same digest. -/
theorem LastTexts.differ_iff
    (h : ∀ text1 text2, last.text1 = some text1 → last.text2 = some text2 →
      md.final text1 = md.final text2 → text1 = text2) :
    (digestOf md last.text1).take evpMaxMdSize ≠ (digestOf md last.text2).take evpMaxMdSize ↔
      last.Differ md := by
  obtain ⟨text1, text2⟩ := last
  rw [ne_eq, take_digestOf_inj]
  cases text1 with
  | none =>
    cases text2 with
    | none => exact iff_of_false (not_not_intro rfl) id
    | some text2 => exact not_congr eq_comm
  | some text1 =>
    cases text2 with
    | none => exact Iff.rfl
    | some text2 => exact not_congr ⟨h text1 text2 rfl rfl, congrArg md.final⟩

/-! ## Digests of a run -/

/-- The buffers hold the digests of the texts that were last read. -/
def StaticDigests.Holds (md : MessageDigest) (static : StaticDigests) (last : LastTexts) : Prop :=
  static = ⟨digestOf md last.text1, digestOf md last.text2⟩

theorem StaticDigests.Holds.step (h : static.Holds md last) (c : Comparison) :
    (c.step md static).Holds md (last.step c) := by
  cases c with
  | binaryFiles file1 file2 ssize dsize servers => exact h
  | fileHashes file1 file2 ssize dsize servers =>
    rw [Comparison.step, Comparison.call, compareFileHashes, LastTexts.step]
    by_cases hproper : ssize = dsize ∧ isLocalCopy servers = true
    · rw [if_pos hproper]
      obtain ⟨hsize, hlocal⟩ := hproper
      simp only [hsize, hlocal, ne_eq, not_true_eq_false, if_false, if_true]
      rw [StaticDigests.Holds, h, hashFile_digestOf, hashFile_digestOf]
      rfl
    · rw [if_neg hproper]
      by_cases hsize : ssize = dsize
      · have hlocal : ¬ isLocalCopy servers = true := fun hlocal => hproper ⟨hsize, hlocal⟩
        simpa [hsize, hlocal] using h
      · simpa [hsize] using h

theorem holds_start : StaticDigests.start.Holds md LastTexts.start := rfl

theorem holds_run {cs : List Comparison} :
    (run (Comparison.step md) StaticDigests.start cs).Holds md
      (run LastTexts.step LastTexts.start cs) :=
  simulation (P := fun _ _ => True) holds_start (fun _ _ c h _ => h.step c) fun _ _ _ => trivial

/-- What was last read is among `texts`. -/
def LastTexts.Among (texts : Set (List Char)) (last : LastTexts) : Prop :=
  ∀ text, last.text1 = some text ∨ last.text2 = some text → text ∈ texts

theorem LastTexts.Among.readFiles {cs : List Comparison} {file1 file2 : HashedFile}
    {ssize dsize : Nat} {servers : List CString} (h : last.Among (textsRead cs))
    (hmem : .fileHashes file1 file2 ssize dsize servers ∈ cs) :
    (last.readFiles file1 file2).Among (textsRead cs) := by
  intro text htext
  have hnew (hread : file1.textRead = some text ∨ file2.textRead = some text) :
      text ∈ textsRead cs := ⟨file1, file2, ssize, dsize, servers, hmem, hread⟩
  simp only [LastTexts.readFiles, Option.or_eq_some_iff] at htext
  rcases htext with (hread | ⟨-, hlast⟩) | (hread | ⟨-, hlast⟩)
  · exact hnew (.inl hread)
  · exact h text (.inl hlast)
  · exact hnew (.inr hread)
  · exact h text (.inr hlast)

theorem among_run {pre cs : List Comparison} (hpre : pre <+: cs) :
    (run LastTexts.step LastTexts.start pre).Among (textsRead cs) := by
  refine invariant (P := fun _ c => c ∈ cs) (fun text h => ?_) (fun last c h hc => ?_)
    fun _ c hp => (hp.trans hpre).subset (by simp)
  · rcases h with h | h <;> cases h
  · cases c with
    | binaryFiles file1 file2 ssize dsize servers => exact h
    | fileHashes file1 file2 ssize dsize servers =>
      rw [LastTexts.step]
      split
      · exact h.readFiles hc
      · exact h

/-! ## Bytes -/

theorem failTogether_of_fail (h1 : reads1.headD none = none) (h2 : reads2.headD none = none) :
    FailTogether reads1 reads2 :=
  ⟨[], reads1, reads2, List.forall_mem_nil _, rfl, rfl, h1, h2⟩

/-- Files go on if the next pieces are equal. -/
theorem failTogether_cons {buff1 buff2 : List Char} :
    FailTogether (some buff1 :: reads1) (some buff2 :: reads2) ↔
      buff1 ≠ [] ∧ buff1 = buff2 ∧ FailTogether reads1 reads2 := by
  constructor
  · intro ⟨pieces, rest1, rest2, hne, h1, h2, hfail1, hfail2⟩
    cases pieces with
    | nil =>
      rw [← show _ = rest1 from h1] at hfail1
      cases hfail1
    | cons piece pieces =>
      rw [List.map_cons, List.cons_append, List.cons.injEq, Option.some.injEq] at h1 h2
      obtain ⟨hpiece, hne⟩ := List.forall_mem_cons.mp hne
      exact ⟨h1.1 ▸ hpiece, h1.1.trans h2.1.symm, pieces, rest1, rest2, hne, h1.2, h2.2, hfail1,
        hfail2⟩
  · intro ⟨hbuff, heq, pieces, rest1, rest2, hne, h1, h2, hfail1, hfail2⟩
    subst heq
    refine ⟨buff1 :: pieces, rest1, rest2, List.forall_mem_cons.mpr ⟨hbuff, hne⟩, ?_, ?_, hfail1,
      hfail2⟩
    · rw [h1]
      rfl
    · rw [h2]
      rfl

/-- Where only one of two files goes on, they do not fail together. -/
theorem fail_of_failTogether (h : FailTogether reads1 reads2)
    (hno : ∀ buff1 rest1 buff2 rest2, reads1 = some buff1 :: rest1 →
      reads2 = some buff2 :: rest2 → False) :
    reads1.headD none = none ∧ reads2.headD none = none := by
  obtain ⟨pieces, rest1, rest2, _, rfl, rfl, hfail1, hfail2⟩ := h
  cases pieces with
  | nil => exact ⟨hfail1, hfail2⟩
  | cons piece pieces => exact (hno _ _ _ _ rfl rfl).elim

namespace compareBinaryFiles

theorem loop_eq_error_iff {f : Fault} :
    loop reads1 reads2 = .error f ↔ f = .outOfBounds ∧ FailTogether reads1 reads2 := by
  fun_induction loop reads1 reads2 with
  | case1 buff1 reads1 buff2 reads2 hdiffer =>
    apply iff_of_false
    · intro h
      cases h
    · intro ⟨_, hfail⟩
      obtain ⟨_, rfl, _⟩ := failTogether_cons.mp hfail
      simp at hdiffer
  | case2 buff1 reads1 buff2 reads2 hsame hne ih =>
    have heq : buff1 = buff2 := by
      by_contra hdiffer
      exact hsame (by simp [hdiffer])
    rw [ih, failTogether_cons, and_iff_right hne, and_iff_right heq]
  | case3 buff1 reads1 buff2 reads2 hsame hnil =>
    apply iff_of_false
    · intro h
      cases h
    · intro ⟨_, hfail⟩
      exact hnil (failTogether_cons.mp hfail).1
  | case4 reads1 reads2 _ hfail =>
    rw [Bool.and_eq_true, decide_eq_true_eq, decide_eq_true_eq] at hfail
    rw [and_iff_left (failTogether_of_fail hfail.1 hfail.2), Except.error.injEq]
    exact eq_comm
  | case5 reads1 reads2 hno hfail =>
    apply iff_of_false
    · intro h
      cases h
    · intro ⟨_, hfails⟩
      apply hfail
      rw [Bool.and_eq_true, decide_eq_true_eq, decide_eq_true_eq]
      exact fail_of_failTogether hfails hno

/-- Files that are called identical go on equally until they end. -/
theorem loop_eq_false (h : loop reads1 reads2 = .ok false) :
    ∃ (pieces : List (List Char)) (rest1 rest2 : List (Option (List Char))),
      (∀ piece ∈ pieces, piece ≠ []) ∧ reads1 = pieces.map some ++ some [] :: rest1 ∧
        reads2 = pieces.map some ++ some [] :: rest2 := by
  fun_induction loop reads1 reads2 with
  | case1 buff1 reads1 buff2 reads2 hdiffer => cases h
  | case2 buff1 reads1 buff2 reads2 hsame hne ih =>
    have heq : buff1 = buff2 := by
      by_contra hdiffer
      exact hsame (by simp [hdiffer])
    obtain ⟨pieces, rest1, rest2, hpieces, rfl, rfl⟩ := ih h
    subst heq
    exact ⟨buff1 :: pieces, rest1, rest2, List.forall_mem_cons.mpr ⟨hne, hpieces⟩, rfl, rfl⟩
  | case3 buff1 reads1 buff2 reads2 hsame hnil =>
    have heq : buff1 = buff2 := by
      by_contra hdiffer
      exact hsame (by simp [hdiffer])
    rw [not_ne_iff.mp hnil] at heq ⊢
    subst heq
    exact ⟨[], reads1, reads2, List.forall_mem_nil _, rfl, rfl⟩
  | case4 reads1 reads2 hno hfail => cases h
  | case5 reads1 reads2 hno hfail => cases h

end compareBinaryFiles

/-! ## Comparisons -/

open Comparison in
theorem justified_fileHashes_iff {file1 file2 : HashedFile} {ssize dsize : Nat}
    {servers : List CString} (hholds : static.Holds md last)
    (h : ∀ text1 text2, (last.readFiles file1 file2).text1 = some text1 →
      (last.readFiles file1 file2).text2 = some text2 →
        md.final text1 = md.final text2 → text1 = text2) :
    Justified md static (fileHashes file1 file2 ssize dsize servers) ↔
      Decisive md last (fileHashes file1 file2 ssize dsize servers) := by
  apply forall_congr'
  intro ⟨hsize, hlocal⟩
  -- files that are read completely leave the digests of their contents
  have hequal (hcomplete : file1.ReadCompletely ∧ file2.ReadCompletely) :
      ¬ (last.readFiles file1 file2).Differ md ↔ file1.contents = file2.contents := by
    have htext1 : (last.readFiles file1 file2).text1 = some file1.contents :=
      congrArg (Option.or · last.text1) hcomplete.1
    have htext2 : (last.readFiles file1 file2).text2 = some file2.contents :=
      congrArg (Option.or · last.text2) hcomplete.2
    rw [LastTexts.Differ, htext1, htext2]
    exact not_not
  have hcall : (call md static (fileHashes file1 file2 ssize dsize servers)).1 =
      .ok (decide ((digestOf md (last.readFiles file1 file2).text1).take evpMaxMdSize ≠
        (digestOf md (last.readFiles file1 file2).text2).take evpMaxMdSize)) := by
    simp only [call, compareFileHashes, hlocal, hsize, ne_eq, not_true_eq_false, if_false, if_true]
    rw [hholds, hashFile_digestOf, hashFile_digestOf]
    rfl
  rw [hcall]
  constructor
  · intro ⟨b, hb, hfalse, _⟩
    cases b with
    | false => exact .inl (hfalse rfl).1
    | true => exact .inr ((LastTexts.differ_iff h).mp (of_decide_eq_true (Except.ok.inj hb)))
  · intro hdecisive
    refine ⟨_, rfl, ?_, ?_⟩
    · intro hb
      have hsame := fun hdiffer => of_decide_eq_false hb ((LastTexts.differ_iff h).mpr hdiffer)
      have hcomplete := hdecisive.resolve_right hsame
      exact ⟨hcomplete, (hequal hcomplete).mp hsame⟩
    · intro hcomplete hdiffer
      refine decide_eq_true ((LastTexts.differ_iff h).mpr ?_)
      exact not_not.mp fun hsame => hdiffer ((hequal hcomplete).mp hsame)

open Comparison in
theorem justified_binaryFiles_iff {file1 file2 : ComparedFile} {ssize dsize : Nat}
    {servers : List CString} :
    Justified md static (binaryFiles file1 file2 ssize dsize servers) ↔
      Decisive md last (binaryFiles file1 file2 ssize dsize servers) := by
  apply forall_congr'
  intro ⟨hsize, hlocal⟩
  have hidentical (hfalse : compareBinaryFiles.loop file1.reads file2.reads = .ok false) :
      (file1.ReadCompletely ∧ file2.ReadCompletely) ∧ file1.contents = file2.contents := by
    obtain ⟨pieces, rest1, rest2, hne, h1, h2⟩ := compareBinaryFiles.loop_eq_false hfalse
    refine ⟨⟨⟨pieces, rest1, hne, h1⟩, pieces, rest2, hne, h2⟩, ?_⟩
    rw [← file1.eof pieces rest1 hne h1, ← file2.eof pieces rest2 hne h2]
  simp only [call, compareBinaryFiles, hlocal, hsize, ne_eq, not_true_eq_false, if_false, if_true]
  constructor
  · intro ⟨b, hb, _⟩ hfail
    rw [compareBinaryFiles.loop_eq_error_iff.mpr ⟨rfl, hfail⟩] at hb
    cases hb
  · intro hno
    cases hresult : compareBinaryFiles.loop file1.reads file2.reads with
    | error f => exact absurd (compareBinaryFiles.loop_eq_error_iff.mp hresult).2 hno
    | ok b =>
      refine ⟨b, rfl, ?_, ?_⟩
      · intro hb
        rw [hb] at hresult
        exact hidentical hresult
      · intro _ hdiffer
        cases b with
        | true => rfl
        | false => exact absurd (hidentical hresult).2 hdiffer

/-- Files are called identical only if they are, exactly if each comparison of digests reads both
files completely or has last read different texts for the two digests, and in none of bytes the
reads of both files fail at the same place. -/
theorem run_justified_iff {cs : List Comparison} (h : Set.InjOn md.final (textsRead cs)) :
    Along (Comparison.step md) (fun static c => c.Justified md static) StaticDigests.start cs ↔
      Along LastTexts.step (fun last c => c.Decisive md last) LastTexts.start cs := by
  apply forall_congr'
  intro pre
  apply forall_congr'
  intro c
  apply forall_congr'
  intro hpre
  cases c with
  | binaryFiles file1 file2 ssize dsize servers => exact justified_binaryFiles_iff
  | fileHashes file1 file2 ssize dsize servers =>
    apply justified_fileHashes_iff holds_run
    intro text1 text2 htext1 htext2
    have hamong := (among_run ((List.prefix_append _ _).trans hpre)).readFiles
      (hpre.subset List.mem_concat_self)
    exact h (hamong text1 (.inl htext1)) (hamong text2 (.inr htext2))

/-- The digest MD5 of the files `a`, `b` and of the empty one. -/
def md5Sample : MessageDigest where
  size := 16
  size_le := by decide
  final := fun bytes =>
    if bytes = "a".toList then
      [0x0c, 0xc1, 0x75, 0xb9, 0xc0, 0xf1, 0xb6, 0xa8, 0x31, 0xc3, 0x99, 0xe2, 0x69, 0x77, 0x26,
        0x61].map Char.ofNat
    else if bytes = "b".toList then
      [0x92, 0xeb, 0x5f, 0xfe, 0xe6, 0xae, 0x2f, 0xec, 0x3a, 0xd7, 0x1c, 0x77, 0x75, 0x31, 0x57,
        0x8f].map Char.ofNat
    else
      [0xd4, 0x1d, 0x8c, 0xd9, 0x8f, 0x00, 0xb2, 0x04, 0xe9, 0x80, 0x09, 0x98, 0xec, 0xf8, 0x42,
        0x7e].map Char.ofNat
  length_final := by
    intro bytes
    split
    · rfl
    split
    · rfl
    · rfl

/-- Pieces without an empty one are what is in front of the first empty one. -/
theorem pieces_eq {pieces pieces' : List (List Char)} {rest rest' : List (Option (List Char))}
    (hne : ∀ piece ∈ pieces, piece ≠ []) (hne' : ∀ piece ∈ pieces', piece ≠ [])
    (h : pieces.map some ++ some [] :: rest = pieces'.map some ++ some [] :: rest') :
    pieces = pieces' := by
  have htake {ps : List (List Char)} {r : List (Option (List Char))} (hps : ∀ p ∈ ps, p ≠ []) :
      (ps.map some ++ some [] :: r).takeWhile (· ≠ some []) = ps.map some := by
    rw [List.takeWhile_append_of_pos (by simpa using hps)]
    simp
  have hmap := congrArg (List.takeWhile (· ≠ some [])) h
  rw [htake hne, htake hne'] at hmap
  exact List.map_injective_iff.mpr (Option.some_injective _) hmap

/-- A file that is read to its end in these pieces. -/
def ComparedFile.ofPieces (pieces : List (List Char)) (hne : ∀ piece ∈ pieces, piece ≠ []) :
    ComparedFile where
  contents := pieces.flatten
  reads := pieces.map some ++ [some []]
  eof := fun _ _ hne' h => congrArg List.flatten (pieces_eq hne hne' h).symm

/-- A comparison of two files that both contain `a`. -/
def compareEqual : Comparison :=
  .fileHashes ⟨"a".toList, some ["a".toList]⟩ ⟨"a".toList, some ["a".toList]⟩ 1 1 []

/-- A comparison of a file that cannot be opened with one that contains `a`. -/
def compareUnopened : Comparison :=
  .fileHashes ⟨"b".toList, none⟩ ⟨"a".toList, some ["a".toList]⟩ 1 1 []

/-- A comparison of bytes, of files that differ behind the first piece. -/
def compareBytes : Comparison :=
  .binaryFiles (.ofPieces ["a".toList, "b".toList] (by decide))
    (.ofPieces ["a".toList, "c".toList] (by decide)) 2 2 []

/-- A comparison of a file that contains `b` with one that cannot be opened. -/
def compareOther : Comparison :=
  .fileHashes ⟨"b".toList, some ["b".toList]⟩ ⟨"a".toList, none⟩ 1 1 []

theorem decisive_sample :
    Along LastTexts.step (fun last c => c.Decisive md5Sample last) LastTexts.start
      [compareEqual, compareBytes, compareOther] := by
  rw [along_cons, along_cons, along_cons]
  refine ⟨fun _ => .inl ⟨rfl, rfl⟩, fun _ hfail => ?_, fun _ => .inr ?_, Along.nil⟩
  · have hsecond := (failTogether_cons.mp hfail).2.2
    exact absurd (failTogether_cons.mp hsecond).2.1 (by decide)
  · change "b".toList ≠ "a".toList
    decide

/-- The texts of the sample have different digests. -/
theorem injOn_md5Sample :
    Set.InjOn md5Sample.final (textsRead [compareEqual, compareBytes, compareOther]) := by
  have hmem {text : List Char}
      (h : text ∈ textsRead [compareEqual, compareBytes, compareOther]) :
      text = "a".toList ∨ text = "b".toList := by
    obtain ⟨file1, file2, ssize, dsize, servers, hc, hread⟩ := h
    simp only [compareEqual, compareBytes, compareOther, List.mem_cons, List.not_mem_nil,
      Comparison.fileHashes.injEq, reduceCtorEq, or_false, false_or] at hc
    rcases hc with ⟨rfl, rfl, -⟩ | ⟨rfl, rfl, -⟩
    · rcases hread with hread | hread <;> cases hread <;> exact .inl rfl
    · rcases hread with hread | hread <;> cases hread
      exact .inr rfl
  intro text1 h1 text2 h2 hfinal
  rcases hmem h1 with rfl | rfl <;> rcases hmem h2 with rfl | rfl
  · rfl
  · exact absurd hfinal (by decide)
  · exact absurd hfinal (by decide)
  · rfl

theorem run_justified_iff_sample :
    Along (Comparison.step md5Sample) (fun static c => c.Justified md5Sample static)
      StaticDigests.start [compareEqual, compareBytes, compareOther] :=
  (run_justified_iff injOn_md5Sample).mpr decisive_sample

/-- A file that cannot be opened is called identical to the one that was compared before. -/
theorem run_justified_stale :
    let static := Comparison.step md5Sample StaticDigests.start compareEqual
    (compareUnopened.call md5Sample static).1 = .ok false ∧
      ¬ Along (Comparison.step md5Sample) (fun static c => c.Justified md5Sample static)
        StaticDigests.start [compareEqual, compareUnopened] := by
  intro static
  have hresult : (compareUnopened.call md5Sample static).1 = .ok false := rfl
  refine ⟨hresult, ?_⟩
  intro h
  obtain ⟨b, hb, hfalse, _⟩ := h [compareEqual] compareUnopened (List.prefix_refl _) ⟨rfl, rfl⟩
  have hb : (.ok false : Except Fault Bool) = .ok b := hresult.symm.trans hb
  cases hb
  cases (hfalse rfl).1.1

end Cfengine
