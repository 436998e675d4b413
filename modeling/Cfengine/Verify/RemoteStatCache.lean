import Cfengine.RemoteStatCache
import Cfengine.Theory.Memo

/-!
# Asking the cache again

The cache of a promise is the memo of what the servers said about files (`cache_afterCalls`).
`CacheStat` returns 1 where `cf_remote_stat` returned 0, so that an answer that was accepted is not
repeated (`cacheTransparent_iff`).
-/

namespace Cfengine
open Runs

/-- A call of `cf_remote_stat`. -/
structure StatCall where
  server : CString
  file : CString
  stattype : CString
  buf : StatBuf

/-- What is asked. -/
def StatCall.question (call : StatCall) : CString × CString := (call.server, call.file)

/-- The call in a promise, where the files are unchanged. -/
def StatPromise.stat (answers : CString × CString → StatAnswer) (pp : StatPromise)
    (call : StatCall) :
    Int × StatBuf × StatPromise :=
  { pp with thisServer := call.server }.cfRemoteStat (answers call.question) call.file call.buf
    call.stattype

/-- What the caller gets. -/
def StatPromise.result (answers : CString × CString → StatAnswer) (pp : StatPromise)
    (call : StatCall) :
    Int × StatBuf :=
  ((pp.stat answers call).1, (pp.stat answers call).2.1)

/-- The promise after calls. -/
def afterCalls (answers : CString × CString → StatAnswer) (makeholes : Int)
    (calls : List StatCall) : StatPromise :=
  run (fun pp call => (pp.stat answers call).2.2) ⟨[], [], makeholes⟩ calls

/-- What the caller gets if the server is asked. -/
def freshResult (answers : CString × CString → StatAnswer) (call : StatCall) : Int × StatBuf :=
  StatPromise.result answers ⟨[], [], 0⟩ call

/-- The server replies with the 13 numbers, and the text of the link comes behind. -/
def StatAnswer.Accepted (answer : StatAnswer) : Prop :=
  ∃ reply link, answer.reply = some reply ∧ answer.link = some link ∧
    ¬ "unsynchronized".toList <:+: reply ∧
    ¬ "BAD:".toList <+: reply ∧ "OK:".toList <+: reply ∧
      (scanWidths statWidths (reply.drop 3)).length = 13

variable {answers : CString × CString → StatAnswer} {answer : StatAnswer} {pp : StatPromise}
  {call : StatCall}
  {replies : CString × CString} {file stattype : CString} {buf : StatBuf} {cfst : CfStat}
    {makeholes : Int}

/-! ## The answer -/

theorem ofFields_isSome {readlink : Option CString} {fields : List Int} :
    (CfStat.ofFields readlink fields).isSome = true ↔ fields.length = 13 := by
  constructor
  · intro h
    unfold CfStat.ofFields at h
    split at h
    · rfl
    · cases h
  · intro h
    iterate 13
      obtain _ | ⟨n, fields⟩ := fields
      · cases h
    cases List.length_eq_zero_iff.mp (Nat.add_right_cancel (m := 13) h)
    rfl

/-- What is read of the replies. -/
def readReplies (replies : CString × CString) : Option CfStat :=
  if "unsynchronized".toList <:+: replies.1 ∨ "BAD:".toList <+: replies.1 ∨
    ¬ "OK:".toList <+: replies.1 then none
  else
    CfStat.ofFields (if replies.2.length > 3 then some (replies.2.drop 3) else none)
      (scanWidths statWidths (replies.1.drop 3))

theorem cfRemoteStat_readReplies : cfRemoteStat replies stattype buf =
    (readReplies replies).map fun cfst => (cfst, cfst.fill stattype buf) := by
  unfold cfRemoteStat readReplies
  by_cases hunsync : "unsynchronized".toList <:+: replies.1
  · simp only [if_pos hunsync, if_pos (Or.inl hunsync), Option.map_none]
  by_cases hbad : "BAD:".toList <+: replies.1
  · simp only [if_neg hunsync, if_pos hbad, if_pos (Or.inr (Or.inl hbad)), Option.map_none]
  by_cases hok : "OK:".toList <+: replies.1
  · have haccepted := not_or.mpr ⟨hunsync, not_or.mpr ⟨hbad, not_not_intro hok⟩⟩
    simp only [if_neg hunsync, if_neg hbad, if_pos hok, if_neg haccepted]
  · simp only [if_neg hunsync, if_neg hbad, if_neg hok, if_pos (Or.inr (Or.inr hok)),
      Option.map_none]

/-- What is put in the cache for the answer. -/
def StatAnswer.read (answer : StatAnswer) : Option CfStat :=
  answer.reply.bind fun reply => answer.link.bind fun link => readReplies (reply, link)

theorem readReplies_isSome : (readReplies replies).isSome = true ↔
    ¬ "unsynchronized".toList <:+: replies.1 ∧ ¬ "BAD:".toList <+: replies.1 ∧
      "OK:".toList <+: replies.1 ∧
      (scanWidths statWidths (replies.1.drop 3)).length = 13 := by
  unfold readReplies
  split
  · rename_i hrefused
    refine iff_of_false Bool.false_ne_true fun h => ?_
    obtain hunsync | hbad | hok := hrefused
    · exact h.1 hunsync
    · exact h.2.1 hbad
    · exact hok h.2.2.1
  · rename_i haccepted
    rw [not_or, not_or, not_not] at haccepted
    rw [ofFields_isSome]
    exact ⟨fun h => ⟨haccepted.1, haccepted.2.1, haccepted.2.2, h⟩, fun h => h.2.2.2⟩

theorem read_isSome : answer.read.isSome = true ↔ answer.Accepted := by
  rw [StatAnswer.read, StatAnswer.Accepted]
  cases answer.reply with
  | none => exact iff_of_false Bool.false_ne_true fun ⟨_, _, h, _⟩ => by cases h
  | some reply =>
    cases answer.link with
    | none => exact iff_of_false Bool.false_ne_true fun ⟨_, _, _, h, _⟩ => by cases h
    | some link =>
      refine readReplies_isSome.trans ⟨fun h => ⟨reply, link, rfl, rfl, h⟩, ?_⟩
      rintro ⟨reply', link', hreply, hlink, h⟩
      cases hreply
      exact h

namespace StatPromise

theorem askServer_none (h : answer.read = none) : (pp.askServer answer file buf stattype).1 = -1 ∧
    (pp.askServer answer file buf stattype).2.1 = buf ∧
    (pp.askServer answer file buf stattype).2.2.cache = pp.cache := by
  rw [askServer]
  cases hreply : answer.reply with
  | none => exact ⟨rfl, rfl, rfl⟩
  | some reply =>
    dsimp only
    rw [cfRemoteStat_readReplies]
    cases hread : readReplies (reply, answer.link.getD []) with
    | none => exact ⟨rfl, rfl, rfl⟩
    | some cfst =>
      cases hlink : answer.link with
      | none => exact ⟨rfl, rfl, rfl⟩
      | some link =>
        rw [hlink] at hread
        rw [StatAnswer.read, hreply, hlink] at h
        cases h.symm.trans hread

theorem askServer_some (h : answer.read = some cfst) : pp.askServer answer file buf stattype =
    (0, cfst.fill stattype buf,
      { pp with
        makeholes := cfst.cf_makeholes
        cache := { cfst with
          cf_filename := file, cf_server := pp.thisServer, cf_failed := false } :: pp.cache }) := by
  rw [StatAnswer.read] at h
  obtain ⟨reply, hreply, h⟩ := Option.bind_eq_some_iff.mp h
  obtain ⟨link, hlink, h⟩ := Option.bind_eq_some_iff.mp h
  rw [askServer, hreply]
  dsimp only
  rw [cfRemoteStat_readReplies, hlink, Option.getD_some, h]
  rfl

end StatPromise

/-! ## The cache -/

/-- What a cached answer is for. -/
def CachedStat.question (sp : CachedStat) : CString × CString := (sp.cf_server, sp.cf_filename)

/-- The entry that is made for a question. -/
def entryFor (answers : CString × CString → StatAnswer)
    (question : CString × CString) : Option CachedStat :=
  if question.2.length > cfBufSize - 30 then none
  else
    (answers question).read.map fun cfst =>
      { cfst with cf_filename := question.2, cf_server := question.1, cf_failed := false }

theorem entryFor_of_long (h : call.file.length > cfBufSize - 30) :
    entryFor answers call.question = none := if_pos h

theorem entryFor_of_fits (h : ¬ call.file.length > cfBufSize - 30) :
    entryFor answers call.question =
    (answers call.question).read.map fun cfst =>
      { cfst with cf_filename := call.file, cf_server := call.server, cf_failed := false } :=
  if_neg h

theorem keyed_entryFor : Memo.Keyed CachedStat.question (entryFor answers) := by
  intro question e h
  rw [entryFor] at h
  split at h
  · cases h
  · obtain ⟨cfst, -, rfl⟩ := Option.map_eq_some_iff.mp h
    rfl

namespace StatPromise

theorem find?_eq_lookup :
    (pp.cache.find? fun sp => pp.thisServer = sp.cf_server && file = sp.cf_filename) =
    Memo.lookup CachedStat.question pp.cache (pp.thisServer, file) := by
  rw [Memo.lookup]
  congr 1
  funext sp
  simp only [CachedStat.question, Prod.mk.injEq, Bool.decide_and, eq_comm]

theorem cacheStat_of_none
    (h : Memo.lookup CachedStat.question pp.cache (pp.thisServer, file) = none) :
    pp.cacheStat file buf stattype = (0, buf) := by
  rw [cacheStat, find?_eq_lookup, h]

theorem cacheStat_of_some {sp : CachedStat}
    (h : Memo.lookup CachedStat.question pp.cache (pp.thisServer, file) = some sp) :
    (pp.cacheStat file buf stattype).1 = if sp.cf_failed then -1 else 1 := by
  rw [cacheStat, find?_eq_lookup, h]
  dsimp only
  split <;> rfl

/-- All but the device is stored as it is where the server is asked. -/
theorem cacheStat_snd {sp : CachedStat} (hfailed : sp.cf_failed = false)
    (h : Memo.lookup CachedStat.question pp.cache (pp.thisServer, file) = some sp) :
    (pp.cacheStat file buf stattype).2 =
      { sp.toCfStat.fill stattype buf with st_dev := buf.st_dev } := by
  rw [cacheStat, find?_eq_lookup, h]
  dsimp only
  rw [hfailed, if_neg Bool.false_ne_true, CfStat.fill]
  simp only [Bool.and_comm]

/-- What is in the cache is not asked for. -/
theorem cfRemoteStat_of_some (pp : StatPromise) {sp : CachedStat}
    (hfile : ¬ file.length > cfBufSize - 30)
    (h : Memo.lookup CachedStat.question pp.cache (pp.thisServer, file) = some sp) :
    (pp.cfRemoteStat answer file buf stattype).1 = (if sp.cf_failed then -1 else 1) ∧
      (pp.cfRemoteStat answer file buf stattype).2.2 = pp := by
  have hret := @cacheStat_of_some pp file stattype buf sp h
  rw [cfRemoteStat, if_neg hfile]
  dsimp only
  rw [if_pos]
  · exact ⟨hret, rfl⟩
  · rw [hret]
    split <;> decide

theorem cfRemoteStat_of_none (pp : StatPromise) (hfile : ¬ file.length > cfBufSize - 30)
    (h : Memo.lookup CachedStat.question pp.cache (pp.thisServer, file) = none) :
    pp.cfRemoteStat answer file buf stattype = pp.askServer answer file buf stattype := by
  rw [cfRemoteStat, if_neg hfile, cacheStat_of_none h]
  exact if_neg (not_not_intro rfl)

/-- A call asks the memo. -/
theorem cache_stat (pp : StatPromise) (call : StatCall) : (pp.stat answers call).2.2.cache =
    Memo.ask CachedStat.question (entryFor answers) pp.cache call.question := by
  rw [stat, Memo.ask]
  by_cases hfile : call.file.length > cfBufSize - 30
  · rw [cfRemoteStat, if_pos hfile, entryFor_of_long hfile]
    split <;> rfl
  · cases hlookup : Memo.lookup CachedStat.question pp.cache call.question with
    | some sp => rw [(cfRemoteStat_of_some { pp with thisServer := call.server } hfile hlookup).2]
    | none =>
      rw [cfRemoteStat_of_none { pp with thisServer := call.server } hfile hlookup,
        entryFor_of_fits hfile]
      cases hread : (answers call.question).read with
      | none => exact (askServer_none hread).2.2
      | some cfst =>
        rw [askServer_some hread]
        rfl

end StatPromise

/-- After calls, the cache is the memo of what was asked. -/
theorem cache_afterCalls (calls : List StatCall) : (afterCalls answers makeholes calls).cache =
    run (Memo.ask CachedStat.question (entryFor answers)) [] (calls.map StatCall.question) := by
  induction calls using List.reverseRecOn with
  | nil => rfl
  | append_singleton calls call ih =>
    rw [List.map_append, List.map_singleton, run_concat, ← ih, ← StatPromise.cache_stat]
    rw [afterCalls, run_concat]
    rfl

/-- A question that was asked before gets the answer that the server would give again just if that
is none, or the name of the file is too long to ask. -/
theorem cacheTransparent_iff (answers : CString × CString → StatAnswer) (makeholes : Int)
    (front back : List StatCall) (server file stattype stattype' : CString) (buf buf' : StatBuf) :
    (afterCalls answers makeholes (front ++ ⟨server, file, stattype, buf⟩ :: back)).result answers
        ⟨server, file, stattype', buf'⟩ = freshResult answers ⟨server, file, stattype', buf'⟩ ↔
      cfBufSize - 30 < file.length ∨ ¬ (answers (server, file)).Accepted := by
  have hmem : (server, file) ∈ (front ++ ⟨server, file, stattype, buf⟩ :: back).map
      StatCall.question :=
    List.mem_map.mpr ⟨_, List.mem_append_right front List.mem_cons_self, rfl⟩
  have hlookup := Memo.lookup_run (@keyed_entryFor answers)
    ((front ++ ⟨server, file, stattype, buf⟩ :: back).map StatCall.question) (server, file)
  rw [← @cache_afterCalls answers makeholes, if_pos hmem] at hlookup
  generalize afterCalls answers makeholes (front ++ ⟨server, file, stattype, buf⟩ :: back) =
    pp at hlookup ⊢
  rw [StatPromise.result, freshResult, StatPromise.result, StatPromise.stat, StatPromise.stat]
  dsimp only [StatCall.question]
  by_cases hfile : file.length > cfBufSize - 30
  · refine iff_of_true ?_ (.inl hfile)
    rw [StatPromise.cfRemoteStat, StatPromise.cfRemoteStat, if_pos hfile, if_pos hfile]
  rw [StatPromise.cfRemoteStat_of_none ⟨server, [], 0⟩ hfile rfl, ← read_isSome, or_iff_right hfile]
  rw [entryFor, if_neg hfile] at hlookup
  cases hread : (answers (server, file)).read with
  | none =>
    rw [hread] at hlookup
    rw [StatPromise.cfRemoteStat_of_none { pp with thisServer := server } hfile hlookup]
    obtain ⟨hret, hbuf, -⟩ :=
      @StatPromise.askServer_none _ { pp with thisServer := server } file stattype' buf' hread
    obtain ⟨hret', hbuf', -⟩ :=
      @StatPromise.askServer_none _ ⟨server, [], 0⟩ file stattype' buf' hread
    rw [hret, hbuf, hret', hbuf']
    exact iff_of_true rfl Bool.false_ne_true
  | some cfst =>
    rw [hread] at hlookup
    refine iff_of_false (fun heq => ?_) (not_not_intro rfl)
    -- what was found in the cache is 1, and what the server says is 0
    have hret := congrArg Prod.fst heq
    rw [(StatPromise.cfRemoteStat_of_some { pp with thisServer := server } hfile hlookup).1,
      StatPromise.askServer_some hread] at hret
    cases hret

/-- A file of no bytes, in the words of the server. -/
def emptyFileAnswer : StatAnswer where
  reply := some "OK: 0 33188 0 0 0 0 0 0 0 0 1 1 5".toList
  link := some "OK:".toList

def zeroStat : StatBuf := ⟨0, 0, 0, 0, 0, 0, 0, 0, 0, 0, 0⟩

/-- The second call returns 1, and leaves the device at what it was. -/
theorem not_cacheTransparent_emptyFile :
    (afterCalls (fun _ => emptyFileAnswer) 0
      [⟨"hub".toList, "/x".toList, "file".toList, zeroStat⟩]).result
        (fun _ => emptyFileAnswer) ⟨"hub".toList, "/x".toList, "link".toList, zeroStat⟩ ≠
      freshResult (fun _ => emptyFileAnswer) ⟨"hub".toList, "/x".toList, "link".toList,
        zeroStat⟩ := by
  decide

end Cfengine
