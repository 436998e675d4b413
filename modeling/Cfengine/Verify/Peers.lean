import Cfengine.Evalfunction
import Cfengine.Theory.Blocks

/-!
# The loops over a list of hosts

What is read of the lines of a file, and what `FnCallPeers`, `FnCallPeerLeader` and
`FnCallPeerLeaders` return for a list of names, in terms of its blocks.
-/

namespace Cfengine
open Blocks

variable {host : ThisHost}

/-! ## Reading the names -/

/-- The text of lines with a newline, and one without. -/
def linesText (lines : List CString) (rest : Option CString) : CString :=
  (lines.flatMap (· ++ ['\n'])) ++ rest.getD []

/-- The name that is read of a last line without a newline. -/
def cutName (name : CString) : CString := name.take (cfMaxVarSize - 1)

/-- One word. -/
structure IsWord (name : CString) : Prop where
  ne_nil : name ≠ []
  not_space : ∀ c ∈ name, isspace c = false

theorem IsWord.cutName {name : CString} (h : IsWord name) : IsWord (cutName name) where
  ne_nil := fun hnil => h.ne_nil ((List.take_eq_nil_iff.mp hnil).resolve_left (by decide))
  not_space := fun c hc => h.not_space c (List.mem_of_mem_take hc)

theorem IsWord.newline_not_mem {name : CString} (h : IsWord name) : '\n' ∉ name := fun hmem =>
  absurd (h.not_space '\n' hmem) (by decide)

theorem IsWord.emptyString {name : CString} (h : IsWord name) : emptyString name = false := by
  obtain ⟨c, s, rfl⟩ := List.exists_cons_of_ne_nil h.ne_nil
  rw [Cfengine.emptyString, List.all_cons, h.not_space c List.mem_cons_self, Bool.false_and]

theorem IsWord.scanWord {name : CString} (h : IsWord name) : scanWord name = name := by
  have hdrop : name.dropWhile isspace = name := by
    obtain ⟨c, s, rfl⟩ := List.exists_cons_of_ne_nil h.ne_nil
    rw [List.dropWhile_cons_of_neg]
    rw [h.not_space c List.mem_cons_self]
    exact Bool.false_ne_true
  rw [Cfengine.scanWord, hdrop, List.takeWhile_eq_self_iff]
  intro c hc
  rw [h.not_space c hc]
  rfl

theorem lineNames_cons {name : CString} (h : IsWord name) (newlist : List CString) :
    lineNames (name :: newlist) = name :: lineNames newlist := by
  rw [lineNames, List.filter_cons_of_pos (by rw [h.emptyString]; rfl), List.map_cons, h.scanWord]
  rfl

theorem lineNames_of_words {names : List CString} (h : ∀ name ∈ names, IsWord name) :
    lineNames names = names := by
  induction names with
  | nil => rfl
  | cons name names ih =>
    obtain ⟨hname, hnames⟩ := List.forall_mem_cons.mp h
    rw [lineNames_cons hname, ih hnames]

/-- The loop over the lines of a text that is the end of `string`. -/
theorem splitLines.loop_text {string : CString} {lines : List CString} {rest : Option CString}
    (hlines : ∀ line ∈ lines, IsWord line) (hrest : ∀ name ∈ rest, IsWord name) {fuel room : Nat}
    (hfuel : (linesText lines rest).length < fuel) (hroom : lines.length < room) :
    if ∀ line ∈ lines, line.length < cfMaxVarSize then
      ∃ newlist, splitLines.loop string fuel room (linesText lines rest) = .ok newlist ∧
        lineNames newlist = lines ++ (rest.map cutName).toList
    else splitLines.loop string fuel room (linesText lines rest) = .error .bufferOverflow := by
  induction lines generalizing fuel room with
  | nil =>
    obtain ⟨fuel, rfl⟩ := Nat.exists_eq_succ_of_ne_zero (Nat.ne_of_gt (Nat.zero_lt_of_lt hfuel))
    have hroom' : room ≠ 0 := Nat.ne_of_gt (Nat.zero_lt_of_lt hroom)
    rw [if_pos (List.forall_mem_nil _), loop, if_neg hroom']
    cases rest with
    | none =>
      have hnl : '\n' ∉ linesText [] none := List.not_mem_nil
      rw [if_neg hnl]
      refine ⟨_, rfl, ?_⟩
      split
      · rfl
      · rfl
    | some name =>
      have hword := hrest name rfl
      have hnl : '\n' ∉ linesText [] (some name) := hword.newline_not_mem
      rw [if_neg hnl]
      refine ⟨[cutName name], ?_, lineNames_of_words (List.forall_mem_singleton.mpr hword.cutName)⟩
      have hne : cutName name ≠ [] := hword.cutName.ne_nil
      have hcut : List.take (cfMaxVarSize - 1) (linesText [] (some name)) = cutName name := rfl
      simp only [hcut, hne, ne_eq, not_false_eq_true, decide_true, Bool.or_true, if_true]
  | cons line lines ih =>
    obtain ⟨fuel, rfl⟩ := Nat.exists_eq_succ_of_ne_zero (Nat.ne_of_gt (Nat.zero_lt_of_lt hfuel))
    obtain ⟨hline, hlines⟩ := List.forall_mem_cons.mp hlines
    have htext : linesText (line :: lines) rest = line ++ '\n' :: linesText lines rest := by
      simp [linesText]
    rw [htext, List.length_append, List.length_cons] at hfuel
    rw [List.length_cons] at hroom
    have hnl : ∀ c ∈ line, decide (c ≠ '\n') = true := fun c hc =>
      decide_eq_true fun heq => hline.newline_not_mem (heq ▸ hc)
    have hnode : (line ++ '\n' :: linesText lines rest).takeWhile (· ≠ '\n') = line := by
      rw [List.takeWhile_append_of_pos hnl, List.takeWhile_cons_of_neg (by simp), List.append_nil]
    have hdrop : (line ++ '\n' :: linesText lines rest).drop (line.length + 1) =
        linesText lines rest := by
      rw [List.drop_append, List.drop_of_length_le (Nat.le_succ _), Nat.add_sub_cancel_left]
      rfl
    have hroom' : room ≠ 0 := Nat.ne_of_gt (Nat.zero_lt_of_lt hroom)
    have hmem : '\n' ∈ line ++ '\n' :: linesText lines rest :=
      List.mem_append_right _ List.mem_cons_self
    have hloop := @ih hlines fuel (room - 1) (by omega) (by omega)
    rw [htext, loop, if_neg hroom', if_pos hmem]
    simp only [hnode, hdrop]
    cases Nat.lt_or_ge line.length cfMaxVarSize with
    | inr hlong =>
      rw [if_pos hlong, if_neg fun h => absurd (h line List.mem_cons_self) (Nat.not_lt.mpr hlong)]
    | inl hshort =>
      rw [if_neg (Nat.not_le.mpr hshort)]
      simp only [List.forall_mem_cons, hshort, true_and]
      split at hloop
      · rename_i h
        obtain ⟨newlist, heq, hnames⟩ := hloop
        rw [if_pos h]
        refine ⟨line :: newlist, by rw [heq]; rfl, ?_⟩
        rw [lineNames_cons hline, hnames]
        rfl
      · rename_i h
        rw [if_neg h, hloop]
        rfl

/-! ## The loops -/

section
variable {groupsize : Int} {i : Nat} {names names' : List CString}

theorem tmod_eq_zero_iff : (i : Int).tmod groupsize = 0 ↔ i % groupsize.natAbs = 0 := by
  rw [← Int.dvd_iff_tmod_eq_zero, ← Nat.dvd_iff_mod_eq_zero, ← Int.natAbs_dvd_natAbs,
    Int.natAbs_natCast]

/-- Once this host was found, its leader is the next name at the start of a group. -/
theorem fnCallPeerLeader.loop_found (hg : groupsize ≠ 0) :
    fnCallPeerLeader.loop host groupsize names i true =
      .ok ((firsts groupsize.natAbs i names).head?.elim [] (leaderName host)) := by
  induction names generalizing i with
  | nil => rfl
  | cons s names ih =>
    rw [loop, if_neg hg, firsts_cons]
    simp only [Bool.true_or, and_true, tmod_eq_zero_iff]
    split
    · rfl
    · exact ih

/-- Before this host is found. -/
theorem fnCallPeerLeader.loop_append (hg : groupsize ≠ 0)
    (h : ∀ s ∈ names, host.isNamed s = false) :
    fnCallPeerLeader.loop host groupsize (names ++ names') i false =
      fnCallPeerLeader.loop host groupsize names' (i + names.length) false := by
  induction names generalizing i with
  | nil => rfl
  | cons s names ih =>
    obtain ⟨hs, hnames⟩ := List.forall_mem_cons.mp h
    rw [List.cons_append, loop, if_neg hg]
    simp only [hs, Bool.or_false, Bool.false_eq_true, and_false, if_false]
    rw [ih hnames, List.length_cons]
    congr 1
    omega

theorem fnCallPeerLeaders.loop_eq (hg : groupsize ≠ 0) (pruned : List CString) :
    fnCallPeerLeaders.loop host groupsize names i pruned =
      .ok (((firsts groupsize.natAbs i names).map (leaderName host)).reverse ++ pruned) := by
  induction names generalizing i pruned with
  | nil => rfl
  | cons s names ih =>
    rw [loop, if_neg hg, firsts_cons]
    simp only [tmod_eq_zero_iff]
    split
    · rw [ih, List.map_cons, List.reverse_cons, List.append_assoc]
      rfl
    · exact ih pruned

/-- Where the loop over the peers does not get to the end of a group. -/
theorem fnCallPeers.loop_append (hg : groupsize ≠ 0) (hmin : groupsize ≠ intMin)
    (h : ∀ j < names.length, ((i + j : Nat) : Int).tmod groupsize ≠ groupsize - 1) {found : Bool}
    {pruned : List CString} :
    fnCallPeers.loop host groupsize (names ++ names') i found pruned =
      fnCallPeers.loop host groupsize names' (i + names.length) (found || names.any host.isNamed)
        ((names.filter (!host.isNamed ·)).reverse ++ pruned) := by
  induction names generalizing i found pruned with
  | nil => simp
  | cons s names ih =>
    have hnot : (i : Int).tmod groupsize ≠ groupsize - 1 := h 0 (Nat.succ_pos _)
    have hrest : ∀ j < names.length, ((i + 1 + j : Nat) : Int).tmod groupsize ≠ groupsize - 1 := by
      intro j hj
      have hj' := h (j + 1) (Nat.succ_lt_succ hj)
      rwa [show i + (j + 1) = i + 1 + j by omega] at hj'
    rw [List.cons_append, loop, if_neg hg, if_neg hmin, if_neg hnot, ih hrest, List.length_cons,
      show i + 1 + names.length = i + (names.length + 1) by omega, List.any_cons, Bool.or_assoc,
      List.filter_cons]
    cases host.isNamed s with
    | true => rfl
    | false => simp

/-- With a negative group size there is one group. -/
theorem fnCallPeers.loop_of_neg (hg : groupsize < 0) (hmin : groupsize ≠ intMin) :
    fnCallPeers.loop host groupsize names 0 false [] =
      .ok (names.filter (!host.isNamed ·)).reverse := by
  have hnot : ∀ j < names.length, ((0 + j : Nat) : Int).tmod groupsize ≠ groupsize - 1 := by
    intro j _
    have := Int.tmod_nonneg groupsize (Int.natCast_nonneg (0 + j))
    omega
  have hloop := @loop_append host groupsize 0 names [] (Int.ne_of_lt hg) hmin hnot false []
  rwa [List.append_nil, List.append_nil] at hloop

end

/-! ## The loop over the groups -/

section
variable {k i p : Nat} {names names' : List CString}

theorem tmod_eq_sub_one_iff (hk : 0 < k) : (i : Int).tmod k = k - 1 ↔ i % k = k - 1 := by
  rw [← Int.ofNat_tmod]
  omega

theorem natCast_ne_intMin : (k : Int) ≠ intMin := by
  rw [intMin]
  omega

/-- A part of a group that does not get to its end. -/
theorem fnCallPeers.loop_part (hi : i % k = 0) (hlen : names.length < k) :
    fnCallPeers.loop host k (names ++ names') i false [] =
      fnCallPeers.loop host k names' (i + names.length) (names.any host.isNamed)
        (names.filter (!host.isNamed ·)).reverse := by
  have hk : 0 < k := Nat.zero_lt_of_lt hlen
  have hnot : ∀ j < names.length, ((i + j : Nat) : Int).tmod k ≠ k - 1 := by
    intro j hj
    rw [ne_eq, tmod_eq_sub_one_iff hk, Nat.add_mod, hi, Nat.zero_add, Nat.mod_mod,
      Nat.mod_eq_of_lt (by omega)]
    omega
  rw [loop_append (by omega) natCast_ne_intMin hnot, Bool.false_or, List.append_nil]

/-- A whole group. -/
theorem fnCallPeers.loop_group (hk : 0 < k) (hi : i % k = 0) (hlen : names.length = k) :
    fnCallPeers.loop host k (names ++ names') i false [] =
      if names.any host.isNamed then .ok (names.filter (!host.isNamed ·)).reverse
      else fnCallPeers.loop host k names' (i + k) false [] := by
  obtain ⟨init, s, rfl⟩ : ∃ init s, names = init ++ [s] :=
    (List.eq_nil_or_concat' names).resolve_left (List.ne_nil_of_length_pos (by omega))
  rw [List.length_append, List.length_singleton] at hlen
  have hend : ((i + init.length : Nat) : Int).tmod k = k - 1 := by
    rw [tmod_eq_sub_one_iff hk, Nat.add_mod, hi, Nat.zero_add, Nat.mod_mod,
      Nat.mod_eq_of_lt (by omega)]
    omega
  have hany : (init.any host.isNamed || host.isNamed s) = (init ++ [s]).any host.isNamed := by
    simp
  have hpruned : (if host.isNamed s then (init.filter (!host.isNamed ·)).reverse
      else s :: (init.filter (!host.isNamed ·)).reverse) =
      ((init ++ [s]).filter (!host.isNamed ·)).reverse := by
    cases hs : host.isNamed s with
    | true => simp [hs]
    | false => simp [hs]
  rw [List.append_assoc, loop_part hi (by omega), List.singleton_append, loop,
    if_neg (by omega), if_neg natCast_ne_intMin, if_pos hend, hany, hpruned,
    show i + init.length + 1 = i + k by omega]
  split
  · rfl
  · rename_i h
    rw [Bool.not_eq_true] at h
    rw [h]

/-- Groups without this host. -/
theorem fnCallPeers.loop_skip (hk : 0 < k) {m : Nat} (hi : i % k = 0)
    (hlen : names.length = m * k) (h : ∀ s ∈ names, host.isNamed s = false) :
    fnCallPeers.loop host k (names ++ names') i false [] =
      fnCallPeers.loop host k names' (i + m * k) false [] := by
  induction m generalizing i names with
  | zero =>
    obtain rfl := List.length_eq_zero_iff.mp (hlen.trans (Nat.zero_mul k))
    rw [Nat.zero_mul]
    rfl
  | succ m ih =>
    rw [Nat.succ_mul] at hlen
    have hgroup : (names.take k).length = k := List.length_take_of_le (by omega)
    have hany : (names.take k).any host.isNamed = false :=
      List.any_eq_false.mpr fun s hs => Bool.not_eq_true _ ▸ h s (List.mem_of_mem_take hs)
    have hrest : (names.drop k).length = m * k := by
      rw [List.length_drop]
      omega
    rw [← List.take_append_drop k names, List.append_assoc, loop_group hk hi hgroup, hany,
      if_neg Bool.false_ne_true,
      ih (by rw [Nat.add_mod_right, hi]) hrest fun s hs => h s (List.mem_of_mem_drop hs),
      Nat.add_assoc, Nat.succ_mul, Nat.add_comm k]

/-- This host is in the list, at the index `p` first. -/
theorem fnCallPeers.loop_listed (hk : 0 < k) {s : CString} (hp : names[p]? = some s)
    (hs : host.isNamed s = true) (h : ∀ s ∈ names.take p, host.isNamed s = false) :
    fnCallPeers.loop host k names 0 false [] =
      .ok ((block k p names).filter (!host.isNamed ·)).reverse := by
  have hlt : p < names.length := (List.getElem?_eq_some_iff.mp hp).1
  have hle : p / k * k ≤ p := Nat.div_mul_le_self p k
  have hskip : (names.take (p / k * k)).length = p / k * k := List.length_take_of_le (by omega)
  have hbefore : ∀ s ∈ names.take (p / k * k), host.isNamed s = false := fun s hs =>
    h s ((List.take_sublist_take_left hle).subset hs)
  have hany : (block k p names).any host.isNamed = true :=
    List.any_eq_true.mpr ⟨s, mem_block hk hp rfl, hs⟩
  rw [← List.take_append_drop (p / k * k) names, loop_skip hk (Nat.zero_mod k) hskip hbefore,
    Nat.zero_add, List.take_append_drop]
  have hi : p / k * k % k = 0 := Nat.mul_mod_left _ _
  rcases Nat.lt_or_ge (names.drop (p / k * k)).length k with hpart | hgroup
  · have hblock : block k p names = names.drop (p / k * k) :=
      List.take_of_length_le (Nat.le_of_lt hpart)
    have hloop := @loop_part host k (p / k * k) (names.drop (p / k * k)) [] hi hpart
    rw [List.append_nil] at hloop
    rw [hloop, hblock]
    rfl
  · rw [← List.take_append_drop k (names.drop (p / k * k)),
      loop_group hk hi (List.length_take_of_le hgroup)]
    exact if_pos hany

/-- This host is not in the list: the last group is left if it is not complete. -/
theorem fnCallPeers.loop_unlisted (hk : 0 < k) (h : ∀ s ∈ names, host.isNamed s = false) :
    fnCallPeers.loop host k names 0 false [] =
      .ok (names.drop (names.length / k * k)).reverse := by
  have hle : names.length / k * k ≤ names.length := Nat.div_mul_le_self _ k
  have hskip : (names.take (names.length / k * k)).length = names.length / k * k :=
    List.length_take_of_le hle
  have hpart : (names.drop (names.length / k * k)).length < k := by
    have hmod := Nat.mod_lt names.length hk
    have hdiv := Nat.div_add_mod names.length k
    rw [Nat.mul_comm] at hdiv
    rw [List.length_drop]
    omega
  have hfilter : (names.drop (names.length / k * k)).filter (!host.isNamed ·) =
      names.drop (names.length / k * k) := by
    rw [List.filter_eq_self]
    intro s hs
    rw [h s (List.mem_of_mem_drop hs)]
    rfl
  have hloop := @loop_part host k (names.length / k * k) (names.drop (names.length / k * k)) []
    (Nat.mul_mod_left _ _) hpart
  rw [List.append_nil, hfilter] at hloop
  nth_rewrite 1 [← List.take_append_drop (names.length / k * k) names]
  rw [loop_skip hk (Nat.zero_mod k) hskip fun s hs => h s (List.mem_of_mem_take hs),
    Nat.zero_add, hloop]
  rfl

end

end Cfengine
