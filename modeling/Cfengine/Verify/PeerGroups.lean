import Cfengine.Verify.Peers

/-!
# Peers and their leaders

A file of hosts is cut into groups of consecutive names. `onePartition_iff` says for which files
and group sizes the three functions agree on the groups.
-/

namespace Cfengine
open Blocks

variable {host : ThisHost}

/-! ## Files of hosts -/

/-- A file that consists of one name a line, once its comments are stripped. -/
structure HostFile (host : ThisHost) where
  contents : CString
  pattern : Option (CString → Option (Nat × Nat))
  lines : List CString
  rest : Option CString
  length_lt : contents.length < 100000
  stripped : (cfReadFile (some contents) 100000).map (stripPatterns pattern) =
    some (linesText lines rest)
  isWord : ∀ name ∈ lines ++ rest.toList, IsWord name
  nodup : (lines ++ rest.toList).Nodup
  unique : ∀ name ∈ lines ++ rest.toList, ∀ name' ∈ lines ++ rest.toList,
    host.isNamed name = true → host.isNamed name' = true → name = name'

namespace HostFile

def names (f : HostFile host) : List CString := f.lines ++ f.rest.toList

/-- What is read of the names. -/
def namesRead (f : HostFile host) : List CString := f.lines ++ (f.rest.map cutName).toList

/-- The lines with a newline fit in the buffer that they are copied to. -/
def LinesFit (f : HostFile host) : Prop := ∀ line ∈ f.lines, line.length < cfMaxVarSize

/-- The group size as an `int`. -/
def groupsize (size : Nat) : Int := (size : Int).bmod (2 ^ 32)

/-- The functions applied to the file. -/
def peers (f : HostFile host) (size : Nat) : Except Fault FnCallResult :=
  fnCallPeers host f.pattern (some f.contents) size

def peerLeader (f : HostFile host) (size : Nat) : Except Fault FnCallResult :=
  fnCallPeerLeader host f.pattern (some f.contents) size

def peerLeaders (f : HostFile host) (size : Nat) : Except Fault FnCallResult :=
  fnCallPeerLeaders host f.pattern (some f.contents) size

end HostFile

namespace HostFile

variable {f : HostFile host} {size : Nat}

/-! ## Reading the file -/

theorem length_closeStringHole_le (s : CString) (start stop : Nat) :
    (closeStringHole s start stop).length ≤ s.length := by
  rw [closeStringHole]
  split
  · exact Nat.le_refl _
  · rw [List.length_append, List.length_take, List.length_drop]
    omega

theorem length_stripPatterns_le (pattern : Option (CString → Option (Nat × Nat))) (s : CString) :
    (stripPatterns pattern s).length ≤ s.length := by
  cases pattern with
  | none => exact Nat.le_refl _
  | some blockTextMatch =>
    change (stripPatterns.loop blockTextMatch (s.length + 2) 0 s).length ≤ s.length
    generalize s.length + 2 = fuel, 0 = count
    induction fuel generalizing s count with
    | zero => exact Nat.le_refl _
    | succ fuel ih =>
      rw [stripPatterns.loop]
      split
      · exact Nat.le_refl _
      · rename_i start stop _
        have hle := length_closeStringHole_le s start stop
        simp only
        split
        · exact hle
        · exact Nat.le_trans (ih _ _) hle

theorem exists_fileBuffer (f : HostFile host) :
    ∃ fileBuffer, cfReadFile (some f.contents) 100000 = some fileBuffer ∧
      fileBuffer.length < 100000 ∧
        stripPatterns f.pattern fileBuffer = linesText f.lines f.rest := by
  obtain ⟨fileBuffer, hread, hstrip⟩ := Option.map_eq_some_iff.mp f.stripped
  refine ⟨fileBuffer, hread, ?_, hstrip⟩
  refine Nat.lt_of_le_of_lt ?_ f.length_lt
  cases hread
  have hle := List.length_take_le 100000 f.contents
  have hle' := List.length_take_le' 100000 f.contents
  simp only
  split
  · exact hle'
  · split
    · rw [List.length_dropLast]
      omega
    · exact hle'

theorem length_lines_le : f.lines.length ≤ (linesText f.lines f.rest).length := by
  rw [linesText, List.length_append, List.length_flatMap]
  refine Nat.le_trans ?_ (Nat.le_add_right _ _)
  generalize f.lines = lines
  induction lines with
  | nil => exact Nat.le_refl _
  | cons line lines ih =>
    rw [List.map_cons, List.sum_cons, List.length_append, List.length_singleton, List.length_cons]
    omega

theorem length_names_le (f : HostFile host) : f.names.length ≤ 100000 := by
  obtain ⟨fileBuffer, _, hlt, hstrip⟩ := f.exists_fileBuffer
  have hle := length_stripPatterns_le f.pattern fileBuffer
  have hlines := @length_lines_le _ f
  rw [hstrip] at hle
  have hrest : f.rest.toList.length ≤ 1 := by
    cases f.rest with
    | none => exact Nat.zero_le 1
    | some name => exact Nat.le_refl 1
  rw [names, List.length_append]
  omega

/-- What the functions do with the file. -/
theorem readNames_eq (f : HostFile host) :
    ∃ fileBuffer, cfReadFile (some f.contents) 100000 = some fileBuffer ∧
      (f.LinesFit → readNames f.pattern fileBuffer = .ok f.namesRead) ∧
      (¬ f.LinesFit → readNames f.pattern fileBuffer = .error .bufferOverflow) := by
  obtain ⟨fileBuffer, hread, hlt, hstrip⟩ := f.exists_fileBuffer
  have hle := length_stripPatterns_le f.pattern fileBuffer
  have hlines := @length_lines_le _ f
  rw [hstrip] at hle
  have hloop := @splitLines.loop_text (linesText f.lines f.rest) f.lines f.rest
    (fun line hline => f.isWord line (List.mem_append_left _ hline))
    (fun name hname => f.isWord name (List.mem_append_right _ (by simpa using hname)))
    ((linesText f.lines f.rest).length + 1) 100000 (Nat.lt_succ_self _) (by omega)
  refine ⟨fileBuffer, hread, fun hfit => ?_, fun hfit => ?_⟩
  · rw [LinesFit] at hfit
    rw [if_pos hfit] at hloop
    obtain ⟨newlist, heq, hnames⟩ := hloop
    rw [readNames, splitLines, hstrip, heq]
    exact congrArg Except.ok hnames
  · rw [LinesFit] at hfit
    rw [if_neg hfit] at hloop
    rw [readNames, splitLines, hstrip, hloop]
    rfl

end HostFile

/-! ## What the functions are meant to return -/

/-- A list with these members in any order, or a failure if there are none. -/
def IsListOf (members : List CString) (result : Except Fault FnCallResult) : Prop :=
  if members = [] then result = .ok .failure
  else ∃ l : List CString, l.Perm members ∧ result = .ok (.success (.list (l.map .scalar)))

/-- The functions agree on the groups of `size` names. -/
structure GroupsAgree (f : HostFile host) (size : Nat) (leaders : List CString) : Prop where
  leaders_eq : f.peerLeaders size = .ok (.success (.list (leaders.map .scalar)))
  leaders_perm : leaders.Perm ((firsts size 0 f.names).map (leaderName host))
  listed : ∀ p name, f.names[p]? = some name → host.isNamed name = true →
    IsListOf ((block size p f.names).filter (!host.isNamed ·)) (f.peers size) ∧
      ∃ leader, (block size p f.names).head? = some leader ∧
        f.peerLeader size = .ok (.success (.scalar (leaderName host leader))) ∧
        leaderName host leader ∈ leaders
  unlisted : (∀ name ∈ f.names, host.isNamed name = false) →
    f.peers size = .ok .failure ∧ f.peerLeader size = .ok .failure

/-- One partition into groups, and no group size divides by zero or fails in another way. -/
structure OnePartition (f : HostFile host) (size : Nat) : Prop where
  no_fault : ∀ result ∈ [f.peers size, f.peerLeader size, f.peerLeaders size], ∀ fault,
    result ≠ .error fault
  agree : 0 < size → ∃ leaders, GroupsAgree f size leaders

/-- The condition on a last line without a newline that does not fit in its buffer: the group that
it is in is neither its own nor that of this host, and what is left of it is not this host. -/
structure CutAway (f : HostFile host) (size : Nat) (last : CString) : Prop where
  not_first : f.lines.length % (HostFile.groupsize size).natAbs ≠ 0
  other_group : ∀ p name, f.names[p]? = some name → host.isNamed name = true →
    f.lines.length / (HostFile.groupsize size).natAbs ≠ p / (HostFile.groupsize size).natAbs
  not_named : (∀ name ∈ f.names, host.isNamed name = false) → host.isNamed (cutName last) = false

/-- The condition under which the functions agree. There is no group size 0. -/
structure PeersRight (f : HostFile host) (size : Nat) : Prop where
  fits : f.LinesFit
  ne_nil : f.names ≠ []
  ne_zero : HostFile.groupsize size ≠ 0
  ne_min : HostFile.groupsize size ≠ intMin
  one_group : HostFile.groupsize size = size ∨
    f.names.length ≤ (HostFile.groupsize size).natAbs
  first : ∀ p name, f.names[p]? = some name → host.isNamed name = true →
    p % (HostFile.groupsize size).natAbs = 0
  whole : (∀ name ∈ f.names, host.isNamed name = false) → 0 < HostFile.groupsize size ∧
    f.names.length % (HostFile.groupsize size).natAbs = 0
  cut : ∀ last ∈ f.rest, cfMaxVarSize ≤ last.length → CutAway f size last

/-! ## What the functions return -/

section
variable {f : HostFile host} {size k p : Nat} {name : CString}

namespace HostFile

theorem peers_of_fits (hfit : f.LinesFit) :
    f.peers size = (fnCallPeers.loop host (groupsize size) f.namesRead 0 false []).bind
      fun pruned =>
      .ok (if pruned = [] then .failure else .success (.list (pruned.map .scalar))) := by
  obtain ⟨fileBuffer, hread, hnames, _⟩ := f.readNames_eq
  rw [peers, fnCallPeers, hread]
  simp only [hnames hfit]
  rfl

theorem peerLeader_of_fits (hfit : f.LinesFit) :
    f.peerLeader size = (fnCallPeerLeader.loop host (groupsize size) f.namesRead 0 false).bind
      fun buffer => .ok (if buffer = [] then .failure else .success (.scalar buffer)) := by
  obtain ⟨fileBuffer, hread, hnames, _⟩ := f.readNames_eq
  rw [peerLeader, fnCallPeerLeader, hread]
  simp only [hnames hfit]
  rfl

theorem peerLeaders_of_fits (hfit : f.LinesFit) :
    f.peerLeaders size = (fnCallPeerLeaders.loop host (groupsize size) f.namesRead 0 []).bind
      fun pruned => if pruned = [] then .error .doubleFree
        else .ok (.success (.list (pruned.map .scalar))) := by
  obtain ⟨fileBuffer, hread, hnames, _⟩ := f.readNames_eq
  rw [peerLeaders, fnCallPeerLeaders, hread]
  simp only [hnames hfit]
  rfl

theorem results_of_not_fits (hfit : ¬ f.LinesFit) :
    ∀ result ∈ [f.peers size, f.peerLeader size, f.peerLeaders size],
      result = .error .bufferOverflow := by
  obtain ⟨fileBuffer, hread, _, herror⟩ := f.readNames_eq
  have hpeers : f.peers size = .error .bufferOverflow := by
    rw [peers, fnCallPeers, hread]
    simp only [herror hfit]
    rfl
  have hleader : f.peerLeader size = .error .bufferOverflow := by
    rw [peerLeader, fnCallPeerLeader, hread]
    simp only [herror hfit]
    rfl
  have hleaders : f.peerLeaders size = .error .bufferOverflow := by
    rw [peerLeaders, fnCallPeerLeaders, hread]
    simp only [herror hfit]
    rfl
  simp [hpeers, hleader, hleaders]

/-- The names are read as they are, or the last one is cut. -/
theorem namesRead_cases (f : HostFile host) :
    (f.namesRead = f.names ∧ ∀ last ∈ f.rest, ¬ cfMaxVarSize ≤ last.length) ∨
      ∃ last, f.rest = some last ∧ cfMaxVarSize ≤ last.length ∧ f.names = f.lines ++ [last] ∧
        f.namesRead = f.lines ++ [cutName last] := by
  rw [namesRead, names]
  cases hrest : f.rest with
  | none => exact .inl ⟨rfl, by simp⟩
  | some last =>
    rcases Nat.lt_or_ge last.length cfMaxVarSize with hlt | hge
    · have hcut : cutName last = last := List.take_of_length_le (Nat.le_pred_of_lt hlt)
      refine .inl ⟨by rw [Option.map_some, hcut], ?_⟩
      intro last' h
      cases h
      exact Nat.not_le.mpr hlt
    · exact .inr ⟨last, rfl, hge, rfl, rfl⟩

/-- A name that does not fit in a buffer is not one of this host. -/
theorem isNamed_eq_false (h : cfMaxVarSize ≤ name.length) : host.isNamed name = false := by
  have hfq : name ≠ host.vfqname := by
    intro heq
    exact absurd host.vfqname_lt (Nat.not_lt.mpr (heq ▸ h))
  have huq : name ≠ host.vuqname := by
    intro heq
    exact absurd host.vuqname_lt (Nat.not_lt.mpr (heq ▸ h))
  simp [ThisHost.isNamed, hfq, huq]

theorem length_leaderName_cutName : (leaderName host (cutName name)).length < cfMaxVarSize := by
  rw [leaderName]
  split
  · decide
  · exact Nat.lt_of_le_of_lt (List.length_take_le _ _) (by decide)

theorem namesRead_ne_nil (h : f.names ≠ []) : f.namesRead ≠ [] := by
  rcases f.namesRead_cases with ⟨heq, _⟩ | ⟨last, _, _, _, heq⟩
  · rwa [heq]
  · rw [heq]
    simp

theorem length_namesRead : f.namesRead.length = f.names.length := by
  rcases f.namesRead_cases with ⟨heq, _⟩ | ⟨last, _, _, hnames, hread⟩
  · rw [heq]
  · rw [hnames, hread, List.length_append, List.length_append]
    rfl

/-! ## The leaders -/

/-- If the group size does not fit in an `int`, all names are in one group. -/
theorem length_names_le_size (h : groupsize size ≠ size) : f.names.length ≤ size := by
  have hlen := f.length_names_le
  have hsize : 2 ^ 31 ≤ size := by
    apply Nat.le_of_not_lt
    intro hlt
    exact h (Int.bmod_eq_of_le (by omega) (by omega))
  omega

theorem firsts_names (hne : f.names ≠ [])
    (h : groupsize size = size ∨ f.names.length ≤ (groupsize size).natAbs) :
    firsts size 0 f.names = firsts (groupsize size).natAbs 0 f.names := by
  rcases eq_or_ne (groupsize size) size with heq | hne'
  · rw [heq, Int.natAbs_natCast]
  · have hsize := @length_names_le_size _ f _ hne'
    have hlen := h.resolve_left hne'
    obtain ⟨name, names, hnames⟩ := List.exists_cons_of_ne_nil hne
    rw [hnames] at hsize hlen ⊢
    rw [firsts_of_length_le hsize, firsts_of_length_le hlen]

theorem block_names (h : groupsize size = size ∨ f.names.length ≤ (groupsize size).natAbs)
    (hp : p < f.names.length) :
    block size p f.names = block (groupsize size).natAbs p f.names := by
  rcases eq_or_ne (groupsize size) size with heq | hne
  · rw [heq, Int.natAbs_natCast]
  · rw [block_of_length_le (@length_names_le_size _ f _ hne) hp,
      block_of_length_le (h.resolve_left hne) hp]

/-- The leaders are right unless there are too many groups or the last name is one of them. -/
theorem leaders_perm_iff (hne : f.names ≠ []) (hg : groupsize size ≠ 0) :
    (((firsts (groupsize size).natAbs 0 f.namesRead).map (leaderName host)).Perm
        ((firsts size 0 f.names).map (leaderName host))) ↔
      (groupsize size = size ∨ f.names.length ≤ (groupsize size).natAbs) ∧
        ∀ last ∈ f.rest, cfMaxVarSize ≤ last.length →
          f.lines.length % (groupsize size).natAbs ≠ 0 := by
  have hk : 0 < (groupsize size).natAbs := Int.natAbs_pos.mpr hg
  by_cases hone : groupsize size = size ∨ f.names.length ≤ (groupsize size).natAbs
  · rw [and_iff_right hone, firsts_names hne hone]
    rcases f.namesRead_cases with ⟨heq, hshort⟩ | ⟨last, hrest, hlong, hnames, hread⟩
    · rw [heq]
      exact iff_of_true (List.Perm.refl _) fun last hlast hlong => absurd hlong (hshort last hlast)
    · rw [hnames, hread, firsts_concat, firsts_concat, Nat.zero_add, List.map_append,
        List.map_append, List.perm_append_left_iff, hrest]
      split
      · rename_i hmod
        refine iff_of_false ?_ fun h => h last rfl hlong hmod
        intro hperm
        have heq : leaderName host (cutName last) = leaderName host last :=
          List.singleton_perm_singleton.mp hperm
        have hlt : (leaderName host (cutName last)).length < cfMaxVarSize :=
          length_leaderName_cutName
        rw [heq, leaderName, isNamed_eq_false hlong, if_neg Bool.false_ne_true] at hlt
        exact absurd hlt (Nat.not_lt.mpr hlong)
      · rename_i hmod
        exact iff_of_true (List.Perm.refl _) fun _ _ _ => hmod
  · rw [not_or, Nat.not_le] at hone
    refine iff_of_false ?_ fun h => not_or.mpr ⟨hone.1, Nat.not_le.mpr hone.2⟩ h.1
    intro hperm
    have hlen := hperm.length_eq
    rw [List.length_map, List.length_map] at hlen
    have hmany := one_lt_length_firsts hk (Nat.lt_of_lt_of_eq hone.2 length_namesRead.symm)
    have hsize := @length_names_le_size _ f _ hone.1
    obtain ⟨name, names, hnames⟩ := List.exists_cons_of_ne_nil hne
    rw [hnames] at hsize hlen
    rw [firsts_of_length_le hsize, List.length_singleton] at hlen
    omega

/-! ## The peers -/

theorem isListOf_iff {l members : List CString} :
    IsListOf members (.ok (if l = [] then .failure else .success (.list (l.map .scalar)))) ↔
      l.Perm members := by
  rw [IsListOf]
  cases l with
  | nil =>
    rw [if_pos rfl, List.nil_perm]
    split
    · rename_i h
      exact iff_of_true rfl h
    · rename_i h
      refine iff_of_false ?_ h
      intro ⟨l, _, heq⟩
      cases heq
  | cons name l =>
    rw [if_neg (List.cons_ne_nil _ _)]
    split
    · rename_i h
      refine iff_of_false ?_ ?_
      · intro heq
        cases heq
      · rw [h, List.perm_nil]
        exact List.cons_ne_nil _ _
    · refine ⟨?_, fun hperm => ⟨_, hperm, rfl⟩⟩
      intro ⟨l', hperm, heq⟩
      have hinj : Function.Injective Rval.scalar := fun _ _ h => Rval.scalar.inj h
      have hmap : (name :: l).map Rval.scalar = l'.map Rval.scalar :=
        Rval.list.inj (FnCallResult.success.inj (Except.ok.inj heq))
      rwa [List.map_injective_iff.mpr hinj hmap]

/-- This host is in the list, where it is read as it is, and no other name is read as this one. -/
structure Listed (f : HostFile host) (p : Nat) (name : CString) : Prop where
  get : f.names[p]? = some name
  named : host.isNamed name = true

theorem Listed.unique (h : Listed f p name) {j : Nat} {name' : CString}
    (hj : f.names[j]? = some name') (hnamed : host.isNamed name' = true) : j = p := by
  have heq : name' = name := f.unique name' (List.mem_of_getElem? hj) name
    (List.mem_of_getElem? h.get) hnamed h.named
  obtain ⟨hlt, _⟩ := List.getElem?_eq_some_iff.mp hj
  exact (List.getElem?_inj hlt f.nodup).mp (by rw [hj, h.get, heq])

theorem Listed.lt (h : Listed f p name) : p < f.names.length :=
  (List.getElem?_eq_some_iff.mp h.get).1

theorem Listed.lt_lines (h : Listed f p name) {last : CString}
    (hnames : f.names = f.lines ++ [last]) (hlong : cfMaxVarSize ≤ last.length) :
    p < f.lines.length := by
  have hlt := h.lt
  rw [hnames, List.length_append, List.length_singleton] at hlt
  apply Nat.lt_of_le_of_ne (Nat.le_of_lt_succ hlt)
  intro heq
  have hget := h.get
  rw [hnames, heq, List.getElem?_concat_length] at hget
  cases hget
  have hnamed := h.named
  rw [isNamed_eq_false hlong] at hnamed
  cases hnamed

theorem Listed.getElem?_namesRead (h : Listed f p name) : f.namesRead[p]? = some name := by
  rcases f.namesRead_cases with ⟨heq, _⟩ | ⟨last, _, hlong, hnames, hread⟩
  · rw [heq, h.get]
  · have hlt := h.lt_lines hnames hlong
    have hget := h.get
    rw [hnames, List.getElem?_append_left hlt] at hget
    rw [hread, List.getElem?_append_left hlt, hget]

/-- This host is not read before its own place. -/
theorem Listed.before (h : Listed f p name) :
    ∀ s ∈ f.namesRead.take p, host.isNamed s = false := by
  have htake : f.namesRead.take p = f.names.take p := by
    rcases f.namesRead_cases with ⟨heq, _⟩ | ⟨last, _, hlong, hnames, hread⟩
    · rw [heq]
    · have hle := Nat.le_of_lt (h.lt_lines hnames hlong)
      rw [hread, hnames, List.take_append_of_le_length hle, List.take_append_of_le_length hle]
  rw [htake]
  intro s hs
  obtain ⟨j, hj⟩ := List.mem_iff_getElem?.mp hs
  obtain ⟨hlt, _⟩ := List.getElem?_eq_some_iff.mp hj
  rw [List.length_take] at hlt
  have hjp : j < p := Nat.lt_of_lt_of_le hlt (Nat.min_le_left _ _)
  rw [List.getElem?_take_of_lt hjp] at hj
  cases hnamed : host.isNamed s with
  | false => rfl
  | true => exact absurd (h.unique hj hnamed) (Nat.ne_of_lt hjp)

/-- What `peers` returns for a host in the list. -/
theorem Listed.peers_eq (h : Listed f p name) (hfit : f.LinesFit) (hg : groupsize size ≠ 0)
    (hmin : groupsize size ≠ intMin)
    (hone : groupsize size = size ∨ f.names.length ≤ (groupsize size).natAbs) :
    ∃ pruned, pruned.Perm ((block (groupsize size).natAbs p f.namesRead).filter
        (!host.isNamed ·)) ∧
      f.peers size =
        .ok (if pruned = [] then .failure else .success (.list (pruned.map .scalar))) := by
  have hk : 0 < (groupsize size).natAbs := Int.natAbs_pos.mpr hg
  refine ⟨_, List.reverse_perm _, ?_⟩
  rw [peers_of_fits hfit]
  rcases Int.natAbs_eq (groupsize size) with hpos | hneg
  · have hloop := fnCallPeers.loop_listed hk h.getElem?_namesRead h.named h.before
    rw [← hpos] at hloop
    rw [hloop]
    rfl
  · have hlt : groupsize size < 0 := by omega
    have hle : f.namesRead.length ≤ (groupsize size).natAbs := by
      rw [length_namesRead]
      exact hone.resolve_left fun heq => by omega
    rw [fnCallPeers.loop_of_neg hlt hmin,
      block_of_length_le hle (Nat.lt_of_lt_of_eq h.lt length_namesRead.symm)]
    rfl

/-- The peers are right unless the last name is one of them. -/
theorem Listed.peers_iff (h : Listed f p name) (hfit : f.LinesFit) (hg : groupsize size ≠ 0)
    (hmin : groupsize size ≠ intMin)
    (hone : groupsize size = size ∨ f.names.length ≤ (groupsize size).natAbs) :
    IsListOf ((block size p f.names).filter (!host.isNamed ·)) (f.peers size) ↔
      ∀ last ∈ f.rest, cfMaxVarSize ≤ last.length →
        f.lines.length / (groupsize size).natAbs ≠ p / (groupsize size).natAbs := by
  have hk : 0 < (groupsize size).natAbs := Int.natAbs_pos.mpr hg
  obtain ⟨pruned, hpruned, heq⟩ := h.peers_eq hfit hg hmin hone
  rw [heq, isListOf_iff, hpruned.congr_left, block_names hone h.lt]
  rcases f.namesRead_cases with ⟨heq, hshort⟩ | ⟨last, hrest, hlong, hnames, hread⟩
  · rw [heq]
    exact iff_of_true (List.Perm.refl _) fun last hlast hlong => absurd hlong (hshort last hlast)
  · have hlt := h.lt_lines hnames hlong
    rw [hnames, hread, block_concat hk hlt, block_concat hk hlt, hrest]
    split
    · rename_i hsame
      refine iff_of_false ?_ fun h => h last rfl hlong hsame
      intro hperm
      have hmem : last ∈ (block (groupsize size).natAbs p f.lines ++ [last]).filter
          (!host.isNamed ·) := by
        rw [List.mem_filter, isNamed_eq_false hlong]
        exact ⟨List.mem_append_right _ (List.mem_singleton_self last), rfl⟩
      have hcut := List.mem_of_mem_filter (hperm.mem_iff.mpr hmem)
      rcases List.mem_append.mp hcut with hcut | hcut
      · have hnodup : (f.lines ++ [last]).Nodup := hnames ▸ f.nodup
        exact (List.nodup_append.mp hnodup).2.2 last
          (List.mem_of_mem_drop (List.mem_of_mem_take hcut)) last (List.mem_singleton_self last) rfl
      · have hlen := congrArg List.length (List.mem_singleton.mp hcut)
        rw [cutName, List.length_take] at hlen
        rw [cfMaxVarSize] at hlong hlen
        omega
    · rename_i hother
      exact iff_of_true (List.Perm.refl _) fun _ _ _ => hother

/-! ## The leader -/

theorem leaderName_ne_nil (h : name ≠ []) : leaderName host name ≠ [] := by
  rw [leaderName]
  split
  · decide
  · exact h

theorem leaderName_of_not_named (h : host.isNamed name = false) : leaderName host name = name := by
  rw [leaderName, h, if_neg Bool.false_ne_true]

theorem isWord_namesRead : ∀ s ∈ f.namesRead, IsWord s := by
  rcases f.namesRead_cases with ⟨heq, _⟩ | ⟨last, hrest, _, hnames, hread⟩
  · rw [heq]
    exact f.isWord
  · rw [hread]
    intro s hs
    rcases List.mem_append.mp hs with hs | hs
    · exact f.isWord s (List.mem_append_left _ hs)
    · rw [List.mem_singleton.mp hs]
      refine (f.isWord last ?_).cutName
      rw [hrest]
      exact List.mem_append_right _ (List.mem_singleton_self last)

theorem Listed.drop_namesRead (h : Listed f p name) :
    f.namesRead.drop p = name :: f.namesRead.drop (p + 1) := by
  obtain ⟨hlt, hget⟩ := List.getElem?_eq_some_iff.mp h.getElem?_namesRead
  rw [List.drop_eq_getElem_cons hlt, hget]

/-- The leader that is found is the next one. -/
theorem Listed.peerLeader_eq (h : Listed f p name) (hfit : f.LinesFit)
    (hg : groupsize size ≠ 0) :
    f.peerLeader size = .ok ((firsts (groupsize size).natAbs p (f.namesRead.drop p)).head?.elim
      .failure fun s => .success (.scalar (leaderName host s))) := by
  have hlt : p < f.namesRead.length := Nat.lt_of_lt_of_eq h.lt length_namesRead.symm
  have hfound : fnCallPeerLeader.loop host (groupsize size) (f.namesRead.drop p) p false =
      fnCallPeerLeader.loop host (groupsize size) (f.namesRead.drop p) p true := by
    rw [h.drop_namesRead, fnCallPeerLeader.loop, fnCallPeerLeader.loop, h.named, Bool.or_self,
      Bool.or_true]
  have hloop : fnCallPeerLeader.loop host (groupsize size) f.namesRead 0 false =
      .ok ((firsts (groupsize size).natAbs p (f.namesRead.drop p)).head?.elim []
        (leaderName host)) := by
    nth_rewrite 1 [← List.take_append_drop p f.namesRead]
    rw [fnCallPeerLeader.loop_append hg h.before, Nat.zero_add,
      List.length_take_of_le (Nat.le_of_lt hlt), hfound, fnCallPeerLeader.loop_found hg]
  rw [peerLeader_of_fits hfit, hloop]
  cases hhead : (firsts (groupsize size).natAbs p (f.namesRead.drop p)).head? with
  | none => rfl
  | some s =>
    have hmem := List.mem_of_mem_head? (Option.mem_def.mpr hhead)
    obtain ⟨j, hj, _⟩ := exists_of_mem_firsts hmem
    have hword := isWord_namesRead s (List.mem_of_mem_drop (List.mem_of_getElem? hj))
    exact congrArg Except.ok (if_neg (leaderName_ne_nil hword.ne_nil))

/-- Behind the last name that is read as it is there is no leader. -/
theorem getElem?_names_of_leader {s : CString} {j : Nat}
    (hcut : ∀ last ∈ f.rest, cfMaxVarSize ≤ last.length → f.lines.length % k ≠ 0)
    (hj : f.namesRead[j]? = some s) (hmod : j % k = 0) : f.names[j]? = some s := by
  rcases f.namesRead_cases with ⟨heq, _⟩ | ⟨last, hrest, hlong, hnames, hread⟩
  · rwa [← heq]
  · have hne : j ≠ f.lines.length := by
      intro heq
      exact hcut last hrest hlong (heq ▸ hmod)
    obtain ⟨hlt, _⟩ := List.getElem?_eq_some_iff.mp hj
    rw [hread, List.length_append, List.length_singleton] at hlt
    rw [hread, List.getElem?_append_left (by omega)] at hj
    rw [hnames, List.getElem?_append_left (by omega), hj]

/-- The leader is right if this host is the leader itself. -/
theorem Listed.peerLeader_iff (h : Listed f p name) (hfit : f.LinesFit)
    (hg : groupsize size ≠ 0)
    (hone : groupsize size = size ∨ f.names.length ≤ (groupsize size).natAbs)
    (hcut : ∀ last ∈ f.rest, cfMaxVarSize ≤ last.length →
      f.lines.length % (groupsize size).natAbs ≠ 0) :
    (∃ leader, (block size p f.names).head? = some leader ∧
        f.peerLeader size = .ok (.success (.scalar (leaderName host leader)))) ↔
      p % (groupsize size).natAbs = 0 := by
  have hk : 0 < (groupsize size).natAbs := Int.natAbs_pos.mpr hg
  rw [block_names hone h.lt, head?_block hk, h.peerLeader_eq hfit hg]
  set k := (groupsize size).natAbs
  constructor
  · intro ⟨leader, hleader, heq⟩
    cases hhead : (firsts k p (f.namesRead.drop p)).head? with
    | none =>
      rw [hhead] at heq
      cases heq
    | some s =>
      rw [hhead] at heq
      have hname : leaderName host s = leaderName host leader :=
        Rval.scalar.inj (FnCallResult.success.inj (Except.ok.inj heq))
      obtain ⟨j, hj, hmod⟩ :=
        exists_of_mem_firsts (List.mem_of_mem_head? (Option.mem_def.mpr hhead))
      rw [List.getElem?_drop] at hj
      have hs := getElem?_names_of_leader hcut hj hmod
      -- either one is this host, or the two are the same name
      cases hnamed : host.isNamed s with
      | true => rw [← h.unique hs hnamed, hmod]
      | false =>
        cases hnamed' : host.isNamed leader with
        | true => rw [← h.unique hleader hnamed', Nat.mul_mod_left]
        | false =>
          rw [leaderName_of_not_named hnamed, leaderName_of_not_named hnamed'] at hname
          obtain ⟨hlt', _⟩ := List.getElem?_eq_some_iff.mp hs
          have hindex : p + j = p / k * k :=
            (List.getElem?_inj hlt' f.nodup).mp (by rw [hs, hleader, hname])
          have hle := Nat.div_mul_le_self p k
          have heq : p / k * k = p := by omega
          rw [← heq, Nat.mul_mod_left]
  · intro hmod
    refine ⟨name, by rw [Nat.div_mul_cancel (Nat.dvd_of_mod_eq_zero hmod), h.get], ?_⟩
    rw [h.drop_namesRead, firsts_cons, if_pos hmod]
    rfl

/-! ## Hosts that are not in the list -/

theorem peerLeader_of_unread (hfit : f.LinesFit) (hg : groupsize size ≠ 0)
    (h : ∀ s ∈ f.namesRead, host.isNamed s = false) : f.peerLeader size = .ok .failure := by
  have hloop := @fnCallPeerLeader.loop_append host (groupsize size) 0 f.namesRead [] hg h
  rw [List.append_nil] at hloop
  rw [peerLeader_of_fits hfit, hloop]
  rfl

/-- A host that is not read has no peers if the groups are complete. -/
theorem peers_of_unread (hfit : f.LinesFit) (hne : f.names ≠ []) (hg : groupsize size ≠ 0)
    (hmin : groupsize size ≠ intMin) (h : ∀ s ∈ f.namesRead, host.isNamed s = false) :
    f.peers size = .ok .failure ↔
      0 < groupsize size ∧ f.names.length % (groupsize size).natAbs = 0 := by
  have hk : 0 < (groupsize size).natAbs := Int.natAbs_pos.mpr hg
  rw [peers_of_fits hfit]
  rcases Int.natAbs_eq (groupsize size) with hpos | hneg
  · have hloop := fnCallPeers.loop_unlisted hk h
    rw [← hpos] at hloop
    have hmod : f.namesRead.drop (f.namesRead.length / (groupsize size).natAbs *
        (groupsize size).natAbs) = [] ↔ f.names.length % (groupsize size).natAbs = 0 := by
      have hdiv := Nat.div_add_mod f.names.length (groupsize size).natAbs
      rw [Nat.mul_comm] at hdiv
      rw [List.drop_eq_nil_iff, length_namesRead]
      omega
    rw [hloop, and_iff_right (by omega), ← hmod]
    simp only [Except.bind, List.reverse_eq_nil_iff]
    split
    · rename_i hnil
      exact iff_of_true rfl hnil
    · rename_i hnil
      refine iff_of_false ?_ hnil
      intro heq
      cases heq
  · have hfilter : f.namesRead.filter (!host.isNamed ·) = f.namesRead := by
      rw [List.filter_eq_self]
      intro s hs
      rw [h s hs]
      rfl
    rw [fnCallPeers.loop_of_neg (by omega) hmin, hfilter]
    refine iff_of_false ?_ fun h => by omega
    simp only [Except.bind, List.reverse_eq_nil_iff, if_neg (namesRead_ne_nil hne)]
    intro heq
    cases heq

/-- A host that is read by mistake, as a part of the last name, has peers. -/
theorem peers_of_cut (hfit : f.LinesFit) (hg : groupsize size ≠ 0)
    (hmin : groupsize size ≠ intMin) {last : CString}
    (hread : f.namesRead = f.lines ++ [cutName last])
    (hmod : f.lines.length % (groupsize size).natAbs ≠ 0)
    (h : ∀ s ∈ f.lines, host.isNamed s = false) (hnamed : host.isNamed (cutName last) = true) :
    f.peers size ≠ .ok .failure := by
  have hk : 0 < (groupsize size).natAbs := Int.natAbs_pos.mpr hg
  obtain ⟨pruned, hne, hloop⟩ : ∃ pruned, pruned ≠ [] ∧
      fnCallPeers.loop host (groupsize size) f.namesRead 0 false [] = .ok pruned := by
    have hlt : f.lines.length / (groupsize size).natAbs * (groupsize size).natAbs <
        f.lines.length := by
      have hdiv := Nat.div_add_mod f.lines.length (groupsize size).natAbs
      rw [Nat.mul_comm] at hdiv
      omega
    -- the first name of the group of the last name is not this host
    have hget : f.namesRead[f.lines.length / (groupsize size).natAbs *
        (groupsize size).natAbs]? = some f.lines[f.lines.length / (groupsize size).natAbs *
        (groupsize size).natAbs] := by
      rw [hread, List.getElem?_append_left hlt, List.getElem?_eq_getElem hlt]
    have hother := h _ (List.getElem_mem hlt)
    rcases Int.natAbs_eq (groupsize size) with hpos | hneg
    · have hlast : f.namesRead[f.lines.length]? = some (cutName last) := by
        rw [hread, List.getElem?_concat_length]
      have hbefore : ∀ s ∈ f.namesRead.take f.lines.length, host.isNamed s = false := by
        rw [hread, List.take_left]
        exact h
      have hloop := fnCallPeers.loop_listed hk hlast hnamed hbefore
      rw [← hpos] at hloop
      refine ⟨_, ?_, hloop⟩
      rw [ne_eq, List.reverse_eq_nil_iff]
      apply List.ne_nil_of_mem
      rw [List.mem_filter]
      exact ⟨mem_block hk hget (Nat.mul_div_cancel _ hk), by rw [hother]; rfl⟩
    · refine ⟨_, ?_, fnCallPeers.loop_of_neg (by omega) hmin⟩
      rw [ne_eq, List.reverse_eq_nil_iff]
      apply List.ne_nil_of_mem
      rw [List.mem_filter]
      exact ⟨List.mem_of_getElem? hget, by rw [hother]; rfl⟩
  rw [peers_of_fits hfit, hloop]
  simp only [Except.bind, if_neg hne]
  intro heq
  cases heq

theorem unlisted_iff (hfit : f.LinesFit) (hne : f.names ≠ []) (hg : groupsize size ≠ 0)
    (hmin : groupsize size ≠ intMin)
    (hcut : ∀ last ∈ f.rest, cfMaxVarSize ≤ last.length →
      f.lines.length % (groupsize size).natAbs ≠ 0)
    (h : ∀ s ∈ f.names, host.isNamed s = false) :
    (f.peers size = .ok .failure ∧ f.peerLeader size = .ok .failure) ↔
      (0 < groupsize size ∧ f.names.length % (groupsize size).natAbs = 0) ∧
        ∀ last ∈ f.rest, cfMaxVarSize ≤ last.length → host.isNamed (cutName last) = false := by
  rcases f.namesRead_cases with ⟨heq, hshort⟩ | ⟨last, hrest, hlong, hnames, hread⟩
  · have hunread : ∀ s ∈ f.namesRead, host.isNamed s = false := heq ▸ h
    rw [peers_of_unread hfit hne hg hmin hunread,
      and_iff_left (peerLeader_of_unread hfit hg hunread), and_iff_left fun last hlast hlong =>
        absurd hlong (hshort last hlast)]
  · have hlines : ∀ s ∈ f.lines, host.isNamed s = false := fun s hs =>
      h s (List.mem_append_left _ hs)
    cases hnamed : host.isNamed (cutName last) with
    | true =>
      have hpeers := peers_of_cut hfit hg hmin hread (hcut last hrest hlong) hlines hnamed
      refine iff_of_false (fun h => hpeers h.1) ?_
      intro ⟨_, h⟩
      have hfalse := h last hrest hlong
      rw [hnamed] at hfalse
      cases hfalse
    | false =>
      have hunread : ∀ s ∈ f.namesRead, host.isNamed s = false := by
        rw [hread]
        exact List.forall_mem_append.mpr ⟨hlines, List.forall_mem_singleton.mpr hnamed⟩
      have hnot : ∀ last ∈ f.rest, cfMaxVarSize ≤ last.length →
          host.isNamed (cutName last) = false := by
        intro last' hlast' _
        rw [hrest] at hlast'
        cases hlast'
        exact hnamed
      rw [peers_of_unread hfit hne hg hmin hunread,
        and_iff_left (peerLeader_of_unread hfit hg hunread), and_iff_left hnot]

/-! ## One partition -/

theorem listed_or_unlisted (f : HostFile host) :
    (∃ p name, Listed f p name) ∨ ∀ s ∈ f.names, host.isNamed s = false := by
  cases hany : f.names.any host.isNamed with
  | true =>
    obtain ⟨s, hs, hnamed⟩ := List.any_eq_true.mp hany
    obtain ⟨p, hp⟩ := List.mem_iff_getElem?.mp hs
    exact .inl ⟨p, s, hp, hnamed⟩
  | false => exact .inr fun s hs => Bool.not_eq_true _ ▸ List.any_eq_false.mp hany s hs

/-- Where a loop over at least one name stops at once. -/
theorem results_of_ne_nil (hfit : f.LinesFit) (hne : f.names ≠ []) :
    (groupsize size = 0 → f.peerLeaders size = .error .divideByZero) ∧
      (groupsize size = intMin → f.peers size = .error .intOverflow) := by
  obtain ⟨s, names, hread⟩ := List.exists_cons_of_ne_nil (namesRead_ne_nil hne)
  refine ⟨fun h => ?_, fun h => ?_⟩
  · rw [peerLeaders_of_fits hfit, hread, fnCallPeerLeaders.loop, if_pos h]
    rfl
  · have hg : groupsize size ≠ 0 := by
      rw [h]
      decide
    rw [peers_of_fits hfit, hread, fnCallPeers.loop, if_neg hg, if_pos h]
    rfl

theorem results_of_nil (hfit : f.LinesFit) (hnil : f.names = []) :
    f.peers size = .ok .failure ∧ f.peerLeader size = .ok .failure ∧
      f.peerLeaders size = .error .doubleFree := by
  have hread : f.namesRead = [] := List.length_eq_zero_iff.mp (by rw [length_namesRead, hnil]; rfl)
  rw [peers_of_fits hfit, peerLeader_of_fits hfit, peerLeaders_of_fits hfit, hread]
  exact ⟨rfl, rfl, rfl⟩

theorem peerLeaders_eq (hfit : f.LinesFit) (hne : f.names ≠ []) (hg : groupsize size ≠ 0) :
    f.peerLeaders size = .ok (.success (.list
      (((firsts (groupsize size).natAbs 0 f.namesRead).map (leaderName host)).reverse.map
        .scalar))) := by
  have hfirsts := firsts_ne_nil (Nat.zero_mod (groupsize size).natAbs) (namesRead_ne_nil hne)
  rw [peerLeaders_of_fits hfit, fnCallPeerLeaders.loop_eq hg, List.append_nil]
  simp only [Except.bind, List.reverse_eq_nil_iff, List.map_eq_nil_iff, if_neg hfirsts]

end HostFile

open HostFile

theorem GroupsAgree.peersRight {leaders : List CString} (h : GroupsAgree f size leaders) :
    PeersRight f size := by
  have hfit : f.LinesFit := by
    apply Classical.byContradiction
    intro hnot
    have hleaders : f.peerLeaders size = .error .bufferOverflow :=
      @results_of_not_fits _ _ size hnot _ (by simp)
    rw [h.leaders_eq] at hleaders
    cases hleaders
  have hne : f.names ≠ [] := by
    intro hnil
    have hleaders := (@results_of_nil _ _ size hfit hnil).2.2
    rw [h.leaders_eq] at hleaders
    cases hleaders
  have hg : groupsize size ≠ 0 := by
    intro hzero
    have hleaders := (results_of_ne_nil hfit hne).1 hzero
    rw [h.leaders_eq] at hleaders
    cases hleaders
  have hmin : groupsize size ≠ intMin := by
    intro hmin
    have hpeers := (results_of_ne_nil hfit hne).2 hmin
    rcases f.listed_or_unlisted with ⟨p, name, hlisted⟩ | hunlisted
    · have hlist := (h.listed p name hlisted.get hlisted.named).1
      rw [hpeers, IsListOf] at hlist
      split at hlist
      · cases hlist
      · obtain ⟨l, _, heq⟩ := hlist
        cases heq
    · have hfailure := (h.unlisted hunlisted).1
      rw [hpeers] at hfailure
      cases hfailure
  have hperm : ((firsts (groupsize size).natAbs 0 f.namesRead).map (leaderName host)).Perm
      ((firsts size 0 f.names).map (leaderName host)) := by
    have hinj : Function.Injective Rval.scalar := fun _ _ h => Rval.scalar.inj h
    have heq := h.leaders_eq
    rw [peerLeaders_eq hfit hne hg] at heq
    have hmap := List.map_injective_iff.mpr hinj
      (Rval.list.inj (FnCallResult.success.inj (Except.ok.inj heq)))
    exact (List.reverse_perm _).symm.trans (hmap ▸ h.leaders_perm)
  obtain ⟨hone, hcut⟩ := (leaders_perm_iff hne hg).mp hperm
  have hunlisted : (∀ s ∈ f.names, host.isNamed s = false) → _ := fun hs =>
    (unlisted_iff hfit hne hg hmin hcut hs).mp (h.unlisted hs)
  refine ⟨hfit, hne, hg, hmin, hone, fun p name hp hs => ?_, fun hs => (hunlisted hs).1,
    fun last hlast hlong => ⟨hcut last hlast hlong, fun p name hp hs => ?_, fun hs => ?_⟩⟩
  · obtain ⟨leader, hleader, heq, _⟩ := (h.listed p name hp hs).2
    exact (Listed.peerLeader_iff ⟨hp, hs⟩ hfit hg hone hcut).mp ⟨leader, hleader, heq⟩
  · exact (Listed.peers_iff ⟨hp, hs⟩ hfit hg hmin hone).mp (h.listed p name hp hs).1
      last hlast hlong
  · exact (hunlisted hs).2 last hlast hlong

theorem PeersRight.groupsAgree (h : PeersRight f size) :
    GroupsAgree f size
      (((firsts (groupsize size).natAbs 0 f.namesRead).map (leaderName host)).reverse) := by
  obtain ⟨hfit, hne, hg, hmin, hone, hfirst, hwhole, hcut⟩ := h
  have hk : 0 < (groupsize size).natAbs := Int.natAbs_pos.mpr hg
  have hcut' : ∀ last ∈ f.rest, cfMaxVarSize ≤ last.length →
      f.lines.length % (groupsize size).natAbs ≠ 0 := fun last hlast hlong =>
    (hcut last hlast hlong).not_first
  have hperm := (List.reverse_perm _).trans ((leaders_perm_iff hne hg).mpr ⟨hone, hcut'⟩)
  refine ⟨peerLeaders_eq hfit hne hg, hperm, fun p name hp hs => ?_, fun hs => ?_⟩
  · have hlisted : Listed f p name := ⟨hp, hs⟩
    obtain ⟨leader, hleader, heq⟩ :=
      (hlisted.peerLeader_iff hfit hg hone hcut').mpr (hfirst p name hp hs)
    refine ⟨(hlisted.peers_iff hfit hg hmin hone).mpr fun last hlast hlong =>
      (hcut last hlast hlong).other_group p name hp hs, leader, hleader, heq, ?_⟩
    rw [block_names hone hlisted.lt, head?_block hk] at hleader
    rw [hperm.mem_iff, firsts_names hne hone]
    apply List.mem_map_of_mem
    exact mem_firsts hleader (by rw [Nat.zero_add, Nat.mul_mod_left])
  · exact (unlisted_iff hfit hne hg hmin hcut' hs).mpr ⟨hwhole hs, fun last hlast hlong =>
      (hcut last hlast hlong).not_named hs⟩

/-- Functions that agree do not fail. -/
theorem GroupsAgree.no_fault {leaders : List CString} (h : GroupsAgree f size leaders) :
    ∀ result ∈ [f.peers size, f.peerLeader size, f.peerLeaders size], ∀ fault,
      result ≠ .error fault := by
  have hpeers : ∀ fault, f.peers size ≠ .error fault ∧ f.peerLeader size ≠ .error fault := by
    intro fault
    rcases f.listed_or_unlisted with ⟨p, name, hlisted⟩ | hunlisted
    · obtain ⟨hlist, leader, _, heq, _⟩ := h.listed p name hlisted.get hlisted.named
      rw [IsListOf] at hlist
      rw [heq]
      split at hlist
      · rw [hlist]
        simp
      · obtain ⟨l, _, hl⟩ := hlist
        rw [hl]
        simp
    · obtain ⟨hpeers, hleader⟩ := h.unlisted hunlisted
      rw [hpeers, hleader]
      simp
  simp [hpeers, h.leaders_eq]

/-- `peerleaders` fails for the group size 0, whatever the file. -/
theorem exists_fault_of_zero : ∃ fault, f.peerLeaders 0 = .error fault := by
  by_cases hfit : f.LinesFit
  · by_cases hne : f.names = []
    · exact ⟨.doubleFree, (results_of_nil hfit hne).2.2⟩
    · exact ⟨.divideByZero, (results_of_ne_nil hfit hne).1 rfl⟩
  · exact ⟨.bufferOverflow, @results_of_not_fits _ f 0 hfit _ (by simp)⟩

/-- **When the peer functions agree on one partition**: for a host in the list only if it is the
first of its group, and for one that is not in it only if all groups are complete. -/
theorem onePartition_iff : OnePartition f size ↔ PeersRight f size := by
  constructor
  · intro h
    have hpos : 0 < size := by
      rw [Nat.pos_iff_ne_zero]
      rintro rfl
      obtain ⟨fault, hfault⟩ := @exists_fault_of_zero _ f
      exact h.no_fault _ (by simp) fault hfault
    obtain ⟨leaders, hagree⟩ := h.agree hpos
    exact hagree.peersRight
  · intro h
    exact ⟨h.groupsAgree.no_fault, fun _ => ⟨_, h.groupsAgree⟩⟩

end

/-! ## A host that is not the first of its group -/

def secondHost : ThisHost where
  vfqname := ['b']
  vuqname := ['b']
  vfqname_lt := by decide
  vuqname_lt := by decide

def fourHosts : List CString := [['a'], ['b'], ['c'], ['d']]

theorem isWord_fourHosts : ∀ name ∈ fourHosts ++ (none : Option CString).toList, IsWord name := by
  have hword : ∀ c, isspace c = false → IsWord [c] := fun c hc =>
    ⟨List.cons_ne_nil _ _, List.forall_mem_singleton.mpr hc⟩
  simpa [fourHosts] using ⟨hword 'a' rfl, hword 'b' rfl, hword 'c' rfl, hword 'd' rfl⟩

/-- The hosts `a`, `b`, `c` and `d`, read by `b`. -/
def fourHostsFile : HostFile secondHost where
  contents := "a\nb\nc\nd\n".toList
  pattern := none
  lines := fourHosts
  rest := none
  length_lt := by decide
  stripped := rfl
  isWord := isWord_fourHosts
  nodup := by decide
  unique := by decide

/-- In groups of two the leader of `b` is `a`, but the one that is found is `c`. -/
theorem peerLeader_of_next_group :
    (block 2 1 fourHostsFile.names).head? = some ['a'] ∧
      fourHostsFile.peerLeader 2 = .ok (.success (.scalar ['c'])) ∧
      ¬ OnePartition fourHostsFile 2 := by
  have hleader : fourHostsFile.peerLeader 2 = .ok (.success (.scalar ['c'])) := rfl
  refine ⟨rfl, hleader, ?_⟩
  intro h
  obtain ⟨leaders, hagree⟩ := h.agree (by decide)
  obtain ⟨_, leader, hhead, heq, _⟩ := hagree.listed 1 ['b'] rfl rfl
  obtain rfl : ['a'] = leader := Option.some.inj hhead
  rw [hleader] at heq
  cases heq

end Cfengine
