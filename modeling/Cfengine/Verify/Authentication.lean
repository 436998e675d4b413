import Cfengine.Authentication
import Cfengine.Verify.RemoteStat
import Cfengine.Verify.Session

/-!
# What the two sides of an authentication know

The agent sends nothing that depends on its keys before the server has answered its challenge
(`authenticateAgent_sends`), the dialogue decides as `AuthenticationDialogue` does
(`authenticationDialogue_of_trace`), and what each side has received is traced back to what the
other one has sent: when the server has authenticated the client, both have the same session key
(`authentication_agrees`). If nothing fails, every order of the steps leads there
(`authentication_completes`).
-/

namespace Cfengine
open Dialogue
open Dialogue.Party (Trace)
open Numerals

/-! ## The challenge -/

section
variable {encryptedLen nonceLen n : Nat} {c : Char} {rest body : List Char}

theorem scanUnsigned_decimal (hn : n < 2 ^ 32) (hrest : ∀ c ∈ rest.head?, isDigit 10 c = false) :
    scanUnsigned (' ' :: decimal n ++ rest) = some (n, rest) := by
  have hskip : scanInteger 10 (' ' :: decimal n ++ rest) = scanInteger 10 (decimal n ++ rest) := rfl
  have habs : (n : Int).natAbs < 2 ^ 64 := lt_trans hn (by decide)
  have hmod : ((n : Int).emod (2 ^ 32)).toNat = n := by
    have : (n : Int) % 2 ^ 32 = n := Int.emod_eq_of_lt (by omega) (by exact_mod_cast hn)
    exact (congrArg Int.toNat this).trans (Int.toNat_natCast n)
  rw [scanUnsigned, hskip, scanInteger_decimal hrest, Option.map_some]
  change some (if (n : Int).natAbs < 2 ^ 64 then ((n : Int).emod (2 ^ 32)).toNat
    else 2 ^ 32 - 1, rest) = _
  rw [if_pos habs, hmod]

theorem scanSauth_sauthHeader (hc : isspace c = false) (hencrypted : encryptedLen < 2 ^ 32)
    (hnonce : nonceLen < 2 ^ 32) :
    scanSauth (sauthHeader c encryptedLen nonceLen) = some (c, encryptedLen, nonceLen, 'c') := by
  have htext : sauthHeader c encryptedLen nonceLen =
      ['S', 'A', 'U', 'T', 'H'] ++
        ' ' :: c :: (' ' :: decimal encryptedLen ++ (' ' :: decimal nonceLen ++ [' ', 'c'])) := by
    have hsauth : "SAUTH ".toList = ['S', 'A', 'U', 'T', 'H', ' '] := rfl
    unfold sauthHeader
    generalize decimal encryptedLen = encrypted
    generalize decimal nonceLen = nonce
    rw [hsauth]
    simp only [List.cons_append, List.nil_append, List.append_assoc]
  have hword : ((sauthHeader c encryptedLen nonceLen).dropWhile isspace).dropWhile (!isspace ·) =
      ' ' :: c :: (' ' :: decimal encryptedLen ++ (' ' :: decimal nonceLen ++ [' ', 'c'])) := by
    rw [htext]
    simp [isspace]
  have hchar : scanChar
    (' ' :: c :: (' ' :: decimal encryptedLen ++ (' ' :: decimal nonceLen ++ [' ', 'c']))) =
      some (c, ' ' :: decimal encryptedLen ++ (' ' :: decimal nonceLen ++ [' ', 'c'])) := by
    have hspace : isspace ' ' = true := rfl
    rw [scanChar, List.dropWhile_cons_of_pos hspace, List.dropWhile_cons_of_neg (by simp [hc])]
  have hblank : ∀ d ∈ (' ' :: decimal nonceLen ++ [' ', 'c']).head?, isDigit 10 d = false := by
    rintro d ⟨⟩
    rfl
  have hfield : ∀ d ∈ [' ', 'c'].head?, isDigit 10 d = false := by
    rintro d ⟨⟩
    rfl
  rw [scanSauth, hword, hchar]
  simp only [Option.bind_eq_bind, Option.bind_some, scanUnsigned_decimal hencrypted hblank,
    scanUnsigned_decimal hnonce hfield]
  rfl

theorem length_sauthHeader_le (hencrypted : encryptedLen < 2 ^ 31) (hnonce : nonceLen < 100) :
    (sauthHeader c encryptedLen nonceLen).length ≤ 23 := by
  have hencrypted' : (decimal encryptedLen).length ≤ 10 :=
    length_decimal_le (k := 9) (by omega) (by omega)
  have hnonce' : (decimal nonceLen).length ≤ 2 := length_decimal_le (k := 1) (by omega) (by omega)
  have hsauth : "SAUTH ".toList.length = 6 := rfl
  unfold sauthHeader
  simp only [List.length_append, List.length_cons, List.length_nil]
  omega

theorem nul_not_mem_decimal : '\x00' ∉ decimal n := fun h =>
  absurd (isDigit_of_mem_toDigits _ h) (by decide)

theorem nul_not_mem_sauthHeader (hc : c ≠ '\x00') :
    '\x00' ∉ sauthHeader c encryptedLen nonceLen := by
  have hsauth : '\x00' ∉ "SAUTH ".toList := by decide
  unfold sauthHeader
  simp only [List.mem_append, List.mem_cons, List.not_mem_nil, not_or]
  exact ⟨⟨⟨hsauth, hc.symm, by decide, nul_not_mem_decimal⟩, by decide, nul_not_mem_decimal⟩,
    by decide, by decide, not_false⟩

variable {agent : AgentEnv}

/-- The header is as long as the offset, and its text ends at the NUL. -/
theorem challenge_eq (hencrypted : encryptedLen < 2 ^ 31)
    (hnonce : agent.nonceChallenge.length < 100) :
    ∃ rest, authenticateAgent.challenge agent c encryptedLen body =
        sauthHeader c encryptedLen agent.nonceChallenge.length ++ '\x00' :: rest ++ body ∧
      (sauthHeader c encryptedLen agent.nonceChallenge.length ++ '\x00' :: rest).length =
        cfRsaProtoOffset := by
  have hlen := @length_sauthHeader_le encryptedLen _ c hencrypted hnonce
  obtain ⟨k, hk⟩ : ∃ k,
      cfRsaProtoOffset - (sauthHeader c encryptedLen agent.nonceChallenge.length).length = k + 1 :=
    ⟨_, (Nat.succ_pred_eq_of_pos (by rw [cfRsaProtoOffset]; omega)).symm⟩
  have htotal : (sauthHeader c encryptedLen agent.nonceChallenge.length ++
      '\x00' :: agent.uninitialised.takeD k '\x00').length = cfRsaProtoOffset := by
    rw [List.length_append, List.length_cons, List.takeD_length]
    rw [cfRsaProtoOffset] at hk ⊢
    omega
  refine ⟨agent.uninitialised.takeD k '\x00', ?_, htotal⟩
  rw [authenticateAgent.challenge, hk]
  simp only [List.takeD_succ, List.head?_cons, Option.getD_some, List.tail_cons]
  rw [List.take_of_length_le (Nat.le_of_eq htotal)]

theorem cstr_challenge (hc : c ≠ '\x00') (hencrypted : encryptedLen < 2 ^ 31)
    (hnonce : agent.nonceChallenge.length < 100) :
    cstr (authenticateAgent.challenge agent c encryptedLen body) =
      sauthHeader c encryptedLen agent.nonceChallenge.length := by
  obtain ⟨rest, heq, -⟩ := @challenge_eq encryptedLen c body agent hencrypted hnonce
  have hall : ∀ d ∈ sauthHeader c encryptedLen agent.nonceChallenge.length,
      decide (d ≠ '\x00') = true := fun d hd =>
    decide_eq_true fun h => nul_not_mem_sauthHeader hc (h ▸ hd)
  rw [heq, cstr, List.append_assoc, List.takeWhile_append_of_pos hall, List.cons_append,
    List.takeWhile_cons_of_neg (by decide), List.append_nil]

theorem drop_challenge (hencrypted : encryptedLen < 2 ^ 31)
    (hnonce : agent.nonceChallenge.length < 100) :
    (authenticateAgent.challenge agent c encryptedLen body).drop cfRsaProtoOffset = body := by
  obtain ⟨rest, heq, hlen⟩ := @challenge_eq encryptedLen c body agent hencrypted hnonce
  rw [heq, ← hlen, List.drop_left]

end

/-! ## What the agent has received when it sends -/

section
variable {agent : AgentEnv} {ins : List (Option (List Char))} {outs : List (List Char)}
  {message : List Char}
  {q : AgentParty} {key : PublicKey} {next : Nat → AgentParty}

theorem not_trace_fail : ¬ Trace authenticateAgent.fail ins (message :: outs) q := nofun

theorem trace_sendSessionKey
    (h : Trace (authenticateAgent.sendSessionKey agent key) ins (message :: outs) q) :
    ins = [] ∧ outs = [] ∧ ∃ sessionKey, agent.sessionKey = some sessionKey ∧
      agent.rsaPublicEncrypt (sessionKey.take cfBlowfishSize) key = some message ∧
      q = .ended false ⟨true, some sessionKey, some key⟩ := by
  rw [authenticateAgent.sendSessionKey] at h
  split at h
  · exact absurd h not_trace_fail
  · rename_i sessionKey hsession
    split at h
    · cases h
    · rename_i out hencrypt
      obtain ⟨rfl, h'⟩ := h.of_send_cons
      obtain ⟨rfl, rfl, rfl⟩ := h'.of_ended
      exact ⟨rfl, rfl, sessionKey, hsession, hencrypt, rfl⟩

theorem trace_agentReceiveKey
    (h : Trace (authenticateAgent.receiveKey agent next) ins (message :: outs) q) :
    ∃ bytes number ins', ins = some bytes :: ins' ∧ agent.mpi2bn bytes = some number ∧
      Trace (next number) ins' (message :: outs) q := by
  obtain ⟨received, ins', rfl, h'⟩ := h.of_receive_cons
  cases received with
  | none => exact absurd h' not_trace_fail
  | some bytes =>
    by_cases hnil : bytes = []
    · rw [Option.bind_some, if_pos hnil] at h'
      exact absurd h' not_trace_fail
    · rw [Option.bind_some, if_neg hnil] at h'
      cases hnumber : agent.mpi2bn bytes with
      | none =>
        rw [hnumber] at h'
        exact absurd h' not_trace_fail
      | some number =>
        rw [hnumber] at h'
        exact ⟨bytes, number, ins', rfl, hnumber, h'⟩

/-- The key of the server that the agent has: it is known, or it is received. -/
inductive CollectedKey (agent : AgentEnv) : List (Option (List Char)) → PublicKey → Prop where
  | known {key : PublicKey} : agent.havePublicKeyByIP = some key → CollectedKey agent [] key
  | received {n e : List Char} {key : PublicKey} : agent.havePublicKeyByIP = none →
      agent.mpi2bn n = some key.n →
    agent.mpi2bn e = some key.e → CollectedKey agent [some n, some e] key

theorem trace_collectKey (h : Trace (authenticateAgent.collectKey agent) ins (message :: outs) q) :
    outs = [] ∧ ∃ key sessionKey, CollectedKey agent ins key ∧ agent.sessionKey = some sessionKey ∧
      agent.rsaPublicEncrypt (sessionKey.take cfBlowfishSize) key = some message ∧
      q = .ended false ⟨true, some sessionKey, some key⟩ := by
  rw [authenticateAgent.collectKey] at h
  split at h
  · rename_i key hknown
    obtain ⟨rfl, rfl, sessionKey, hsend⟩ := trace_sendSessionKey h
    exact ⟨rfl, key, sessionKey, .known hknown, hsend⟩
  · rename_i hunknown
    obtain ⟨n, number, ins', rfl, hn, h'⟩ := trace_agentReceiveKey h
    obtain ⟨e, number', ins', rfl, he, h''⟩ := trace_agentReceiveKey h'
    obtain ⟨rfl, rfl, sessionKey, hsend⟩ := trace_sendSessionKey h''
    exact ⟨rfl, ⟨number, number'⟩, sessionKey, .received hunknown hn he, hsend⟩

theorem trace_replyToChallenge
    (h : Trace (authenticateAgent.replyToChallenge agent) ins (message :: outs) q) :
    ∃ encrypted plain ins', ins = some encrypted :: ins' ∧
      agent.rsaPrivateDecrypt encrypted = some plain ∧
      message =
        agent.hashString ((overwrite plain agent.uninitialised).take agent.nonceChallenge.length) ∧
      Trace (authenticateAgent.collectKey agent) ins' outs q := by
  obtain ⟨received, ins', rfl, h'⟩ := h.of_receive_cons
  cases received with
  | none => exact absurd h' not_trace_fail
  | some encrypted =>
    by_cases hnil : encrypted = []
    · rw [Option.bind_some, if_pos hnil] at h'
      exact absurd h' not_trace_fail
    · rw [Option.bind_some, if_neg hnil] at h'
      cases hplain : agent.rsaPrivateDecrypt encrypted with
      | none =>
        rw [hplain] at h'
        exact absurd h' not_trace_fail
      | some plain =>
        rw [hplain] at h'
        obtain ⟨rfl, h''⟩ := h'.of_send_cons
        exact ⟨encrypted, plain, ins', rfl, hplain, rfl, h''⟩

/-- The response of the server begins with the digest of the nonce. -/
def AgentEnv.Responds (agent : AgentEnv) (response : List Char) : Prop :=
  hashesMatch agent.defaultDigestSize
    (overwrite (agent.hashString agent.nonceChallenge) agent.uninitialised) response ∨
    hashesMatch cfMd5Len (overwrite (agent.hashString agent.nonceChallenge) agent.uninitialised)
      response

/-- The key of the server is known, or it may be taken on trust. -/
def AgentEnv.Trusts (agent : AgentEnv) : Prop := agent.havePublicKeyByIP.isSome ∨ agent.trustkey

theorem trace_checkResponse
    (h : Trace (authenticateAgent.checkResponse agent) ins (message :: outs) q) :
    ∃ response ins', ins = some response :: ins' ∧ agent.Responds response ∧ agent.Trusts ∧
      Trace (authenticateAgent.replyToChallenge agent) ins' (message :: outs) q := by
  obtain ⟨received, ins', rfl, h'⟩ := h.of_receive_cons
  cases received with
  | none => exact absurd h' not_trace_fail
  | some response =>
    dsimp only at h'
    split at h'
    · rename_i hresponds
      split at h'
      · rename_i htrusts
        exact ⟨response, ins', rfl, Bool.or_eq_true_iff.mp hresponds,
          Bool.or_eq_true_iff.mp htrusts, h'⟩
      · exact absurd h' not_trace_fail
    · exact absurd h' not_trace_fail

theorem trace_checkReply (h : Trace (authenticateAgent.checkReply agent) ins (message :: outs) q) :
    ∃ reply ins', ins = some reply :: ins' ∧ badProtoReply reply = false ∧
      Trace (authenticateAgent.checkResponse agent) ins' (message :: outs) q := by
  obtain ⟨received, ins', rfl, h'⟩ := h.of_receive_cons
  cases received with
  | none => exact absurd h' not_trace_fail
  | some reply =>
    dsimp only at h'
    split at h'
    · exact absurd h' not_trace_fail
    · rename_i hbad
      exact ⟨reply, ins', rfl, Bool.eq_false_iff.mpr hbad, h'⟩

variable {c₁ c₂ c₃ : List Char}

theorem trace_authenticateAgent
    (h : Trace (authenticateAgent agent) ins (c₁ :: c₂ :: c₃ :: outs) q) :
    authenticateAgent.propositionC1 agent = some c₁ ∧ c₂ = agent.bn2mpi agent.publicKey.n ∧
      c₃ = agent.bn2mpi agent.publicKey.e ∧
        Trace (authenticateAgent.checkReply agent) ins outs q := by
  rw [authenticateAgent] at h
  split at h
  · exact absurd h not_trace_fail
  · split at h
    · exact absurd h not_trace_fail
    · rename_i challenge hchallenge
      obtain ⟨rfl, h'⟩ := h.of_send_cons
      obtain ⟨rfl, h''⟩ := h'.of_send_cons
      obtain ⟨rfl, h'''⟩ := h''.of_send_cons
      exact ⟨hchallenge, rfl, rfl, h'''⟩

/-- Whatever the other side sends, the agent replies to no counter challenge and sends no session
key before the server has answered its own challenge and the key of the server is known or may be
trusted. -/
theorem authenticateAgent_sends (h : Trace (authenticateAgent agent) ins outs q)
    (hlen : 3 < outs.length) :
    ∃ reply response ins', ins = some reply :: some response :: ins' ∧ badProtoReply reply = false ∧
      agent.Responds response ∧ agent.Trusts := by
  obtain ⟨c₁, c₂, c₃, c₄, rest, rfl⟩ : ∃ c₁ c₂ c₃ c₄ rest, outs = c₁ :: c₂ :: c₃ :: c₄ :: rest := by
    match outs, hlen with
    | c₁ :: c₂ :: c₃ :: c₄ :: rest, _ => exact ⟨c₁, c₂, c₃, c₄, rest, rfl⟩
  obtain ⟨-, -, -, hcheck⟩ := trace_authenticateAgent h
  obtain ⟨reply, ins', rfl, hreply, hresponse⟩ := trace_checkReply hcheck
  obtain ⟨response, ins', rfl, hresponds, htrusts, -⟩ := trace_checkResponse hresponse
  exact ⟨reply, response, ins', rfl, hreply, hresponds, htrusts⟩

/-- The session key is the fifth message, and it is encrypted with the key of the server that the
agent has. -/
theorem trace_sessionKey {c₄ c₅ : List Char}
    (h : Trace (authenticateAgent agent) ins (c₁ :: c₂ :: c₃ :: c₄ :: c₅ :: outs) q) :
    ∃ s₁ s₂ s₃ rest key sessionKey, ins = some s₁ :: some s₂ :: some s₃ :: rest ∧
      CollectedKey agent rest key ∧
      agent.sessionKey = some sessionKey ∧
      agent.rsaPublicEncrypt (sessionKey.take cfBlowfishSize) key = some c₅ ∧
      q = .ended false ⟨true, some sessionKey, some key⟩ := by
  obtain ⟨-, -, -, hcheck⟩ := trace_authenticateAgent h
  obtain ⟨s₁, ins₁, rfl, -, hresponse⟩ := trace_checkReply hcheck
  obtain ⟨s₂, ins₂, rfl, -, -, hreply⟩ := trace_checkResponse hresponse
  obtain ⟨s₃, plain, ins₃, rfl, -, -, hcollect⟩ := trace_replyToChallenge hreply
  obtain ⟨-, key, sessionKey, hkey, hsession, hencrypt, hend⟩ := trace_collectKey hcollect
  exact ⟨s₁, s₂, s₃, ins₃, key, sessionKey, rfl, hkey, hsession, hencrypt, hend⟩

end

/-! ## What the server has received when it has authenticated the client -/

section
variable {env : DialogueEnv} {conn conn' : ServerConnectionState} {ins : List (Option (List Char))}
  {outs : List (List Char)} {b : Bool} {next : Nat → ServerParty} {out : List Char}
    {enterpriseField iscrypt : Char}
  {result result' : Bool × ServerConnectionState}

theorem trace_sauthReply (h : Trace (sauthReply result) ins outs (.ended b (true, conn'))) :
    ins = [] ∧ outs = [] ∧ result = (true, conn') := by
  rw [sauthReply] at h
  split at h
  · obtain ⟨rfl, rfl, hresult⟩ := h.of_ended
    injection hresult with _ hresult
    exact ⟨rfl, rfl, hresult.symm⟩
  · rename_i hfalse
    obtain ⟨outs', rfl, h'⟩ := h.of_send
    obtain ⟨-, -, hresult⟩ := h'.of_ended
    injection hresult with _ hresult
    rw [← hresult] at hfalse
    exact absurd rfl hfalse

theorem not_trace_refused :
    ¬ Trace (sauthReply (false, conn)) ins outs (.ended b (true, conn')) := fun h =>
  Bool.noConfusion (congrArg Prod.fst (trace_sauthReply h).2.2)

theorem eq_of_trace_sauthReply (h : Trace (sauthReply result) ins outs (.ended b result')) :
    result' = result := by
  rw [sauthReply] at h
  split at h
  · obtain ⟨-, -, hresult⟩ := h.of_ended
    injection hresult
  · obtain ⟨outs', -, h'⟩ := h.of_send
    obtain ⟨-, -, hresult⟩ := h'.of_ended
    injection hresult

/-- The last messages of the dialogue, without what is sent. -/
theorem result_of_receiveReplies
    (h : Trace (serverDialogue.receiveReplies env conn out enterpriseField) ins outs
      (.ended b result))
    (hins : ins <+: [env.propositionC4, env.propositionC5]) :
    result = if env.propositionC4.any (repliesTo env.toSessionEnv) then
      receiveSessionKey env.toSessionEnv conn out enterpriseField else (false, conn) := by
  obtain ⟨c₄, ins₁, rfl, h₁⟩ := h.of_receive
  obtain ⟨rfl, hins₁⟩ := List.cons_prefix_cons.mp hins
  split at h₁
  · rename_i hreply
    obtain ⟨c₅, ins₂, rfl, h₂⟩ := h₁.of_receive
    obtain ⟨rfl, -⟩ := List.cons_prefix_cons.mp hins₁
    rw [if_pos hreply]
    exact eq_of_trace_sauthReply h₂
  · rename_i hreply
    rw [if_neg hreply]
    exact eq_of_trace_sauthReply h₁

theorem result_of_sendChallenge {nonce : List Char} {key : PublicKey}
    (h : Trace (serverDialogue.sendChallenge env conn nonce key iscrypt enterpriseField) ins outs
      (.ended b result))
    (hins : ins <+: [env.propositionC4, env.propositionC5]) :
    result = (env.rsaPublicEncrypt env.counterChallenge key).elim (false, conn) fun out =>
      if env.propositionC4.any (repliesTo env.toSessionEnv) then
        receiveSessionKey env.toSessionEnv conn out enterpriseField else (false, conn) := by
  obtain ⟨outs₁, -, h₁⟩ := h.of_send
  split at h₁
  · rename_i hencrypt
    rw [hencrypt]
    exact eq_of_trace_sauthReply h₁
  · rename_i out hencrypt
    rw [hencrypt]
    obtain ⟨outs₂, -, h₂⟩ := h₁.of_send
    split at h₂
    · obtain ⟨outs₃, -, h₃⟩ := h₂.of_send
      obtain ⟨outs₄, -, h₄⟩ := h₃.of_send
      exact result_of_receiveReplies h₄ hins
    · exact result_of_receiveReplies h₂ hins

/-- The dialogue ends as `AuthenticationDialogue` does on the messages that it has received. -/
theorem authenticationDialogue_of_trace {recvbuffer : List Char}
    (h : Trace (serverDialogue env conn recvbuffer) ins outs (.ended b result))
    (hins : ins <+: [env.propositionC2, env.propositionC3, env.propositionC4, env.propositionC5]) :
    result = authenticationDialogue env.toSessionEnv conn recvbuffer := by
  rw [serverDialogue] at h
  rw [authenticationDialogue]
  split at h
  · rename_i hkeys
    rw [if_pos hkeys]
    exact eq_of_trace_sauthReply h
  rename_i hkeys
  rw [if_neg hkeys]
  cases hscan : scanSauth (cstr recvbuffer) with
  | none =>
    rw [hscan] at h
    exact eq_of_trace_sauthReply h
  | some fields =>
    obtain ⟨iscrypt, cryptLen, nonceLen, enterpriseField⟩ := fields
    rw [hscan] at h
    dsimp only at h ⊢
    split at h
    · rename_i haccepts
      rw [if_pos haccepts]
      exact eq_of_trace_sauthReply h
    rename_i haccepts
    rw [if_neg haccepts]
    obtain ⟨c₂, ins₁, rfl, h₁⟩ := h.of_receive
    obtain ⟨rfl, hins₁⟩ := List.cons_prefix_cons.mp hins
    cases hn : receiveNumber env.toSessionEnv env.propositionC2 with
    | none =>
      rw [hn] at h₁
      exact eq_of_trace_sauthReply h₁
    | some n =>
      rw [hn] at h₁
      obtain ⟨c₃, ins₂, rfl, h₂⟩ := h₁.of_receive
      obtain ⟨rfl, hins₂⟩ := List.cons_prefix_cons.mp hins₁
      cases he : receiveNumber env.toSessionEnv env.propositionC3 with
      | none =>
        rw [he] at h₂
        exact eq_of_trace_sauthReply h₂
      | some e =>
        rw [he] at h₂
        dsimp only
        obtain ⟨outs₃, -, h₃⟩ := h₂.of_send
        split at h₃
        · rename_i hstore
          rw [if_pos hstore]
          exact eq_of_trace_sauthReply h₃
        · rename_i hstore
          rw [if_neg hstore]
          have hresult := result_of_sendChallenge h₃ hins₂
          cases hencrypt : env.rsaPublicEncrypt env.counterChallenge ⟨n, e⟩ with
          | none | some =>
            rw [hencrypt] at hresult
            exact hresult

theorem trace_serverReceiveKey
    (h : Trace (serverDialogue.receiveKey env conn next) ins outs (.ended b (true, conn'))) :
    ∃ bytes number ins', ins = some bytes :: ins' ∧ env.mpi2bn bytes = some number ∧
      Trace (next number) ins' outs (.ended b (true, conn')) := by
  obtain ⟨received, ins', rfl, h'⟩ := h.of_receive
  cases received with
  | none => exact absurd h' not_trace_refused
  | some bytes =>
    cases hnumber : receiveNumber env.toSessionEnv (some bytes) with
    | none =>
      rw [hnumber] at h'
      exact absurd h' not_trace_refused
    | some number =>
      rw [hnumber] at h'
      rw [receiveNumber, Option.bind_some] at hnumber
      split at hnumber
      · cases hnumber
      · exact ⟨bytes, number, ins', rfl, hnumber, h'⟩

theorem trace_receiveReplies
    (h : Trace (serverDialogue.receiveReplies env conn out enterpriseField) ins outs
      (.ended b (true, conn'))) :
    outs = [] ∧ ∃ reply key, ins = [some reply, key] ∧ repliesTo env.toSessionEnv reply ∧
      receiveSessionKey { env.toSessionEnv with propositionC5 := key } conn out enterpriseField =
        (true, conn') := by
  obtain ⟨received, ins', rfl, h'⟩ := h.of_receive
  split at h'
  · rename_i hreply
    obtain ⟨key, ins', rfl, h''⟩ := h'.of_receive
    obtain ⟨rfl, rfl, hresult⟩ := trace_sauthReply h''
    cases received with
    | none => cases hreply
    | some reply => exact ⟨rfl, reply, key, rfl, hreply, hresult⟩
  · exact absurd h' not_trace_refused

/-- The key of the server, if the client does not have it. -/
def DialogueEnv.ownKey (env : DialogueEnv) (iscrypt : Char) : List (List Char) :=
  if iscrypt ≠ 'y' then [env.bn2mpi env.publicKey.n, env.bn2mpi env.publicKey.e] else []

theorem trace_sendChallenge {nonce : List Char} {key : PublicKey}
    (h : Trace (serverDialogue.sendChallenge env conn nonce key iscrypt enterpriseField) ins outs
      (.ended b (true, conn'))) :
    ∃ out reply sessionKey, outs = env.hashString nonce :: out :: env.ownKey iscrypt ∧
      ins = [some reply, sessionKey] ∧ repliesTo env.toSessionEnv reply ∧
      env.rsaPublicEncrypt env.counterChallenge key = some out ∧
      receiveSessionKey { env.toSessionEnv with propositionC5 := sessionKey } conn out
        enterpriseField =
        (true, conn') := by
  obtain ⟨outs₁, rfl, h₁⟩ := h.of_send
  split at h₁
  · exact absurd h₁ not_trace_refused
  · rename_i out hencrypt
    obtain ⟨outs₂, rfl, h₂⟩ := h₁.of_send
    rw [DialogueEnv.ownKey]
    split at h₂
    · rename_i hcrypt
      obtain ⟨outs₃, rfl, h₃⟩ := h₂.of_send
      obtain ⟨outs₄, rfl, h₄⟩ := h₃.of_send
      obtain ⟨rfl, reply, sessionKey, rfl, hreply, hresult⟩ := trace_receiveReplies h₄
      rw [if_pos hcrypt]
      exact ⟨out, reply, sessionKey, rfl, rfl, hreply, hencrypt, hresult⟩
    · rename_i hcrypt
      obtain ⟨rfl, reply, sessionKey, rfl, hreply, hresult⟩ := trace_receiveReplies h₂
      rw [if_neg hcrypt]
      exact ⟨out, reply, sessionKey, rfl, rfl, hreply, hencrypt, hresult⟩

/-- What has been said when the server has authenticated the client. -/
theorem trace_sauthConnection
    (h : Trace (sauthConnection env conn) ins outs (.ended b (true, conn'))) :
    ∃ challenge n e reply sessionKey iscrypt cryptLen nonceLen enterpriseField key out,
      ins = [some challenge, some n, some e, some reply, sessionKey] ∧
      scanSauth (cstr challenge) = some (iscrypt, cryptLen, nonceLen, enterpriseField) ∧
      env.mpi2bn n = some key.n ∧ env.mpi2bn e = some key.e ∧
      (checkStoreKey env.toSessionEnv conn key ∨ env.trust) ∧
      outs = checkStoreKeyReply env conn key ::
        env.hashString (challengeNonce env challenge iscrypt cryptLen nonceLen) :: out ::
          env.ownKey iscrypt ∧
      env.rsaPublicEncrypt env.counterChallenge key = some out ∧ repliesTo env.toSessionEnv reply ∧
      receiveSessionKey { env.toSessionEnv with propositionC5 := sessionKey } conn out
        enterpriseField =
        (true, conn') := by
  obtain ⟨received, ins', rfl, h'⟩ := h.of_receive
  cases received with
  | none => cases h'
  | some challenge =>
    dsimp only at h'
    rw [serverDialogue] at h'
    split at h'
    · exact absurd h' not_trace_refused
    split at h'
    · exact absurd h' not_trace_refused
    rename_i iscrypt cryptLen nonceLen enterpriseField hscan
    split at h'
    · exact absurd h' not_trace_refused
    obtain ⟨bytes, n, ins₁, rfl, hn, h₁⟩ := trace_serverReceiveKey h'
    obtain ⟨bytes', e, ins₂, rfl, he, h₂⟩ := trace_serverReceiveKey h₁
    obtain ⟨outs₃, rfl, h₃⟩ := h₂.of_send
    split at h₃
    · exact absurd h₃ not_trace_refused
    · rename_i hstore
      obtain ⟨out, reply, sessionKey, rfl, rfl, hreply, hencrypt, hresult⟩ := trace_sendChallenge h₃
      have hstore' : checkStoreKey env.toSessionEnv conn ⟨n, e⟩ ∨ env.trust := by
        cases hkey : checkStoreKey env.toSessionEnv conn ⟨n, e⟩ with
        | true => exact .inl rfl
        | false => exact .inr (by simpa [hkey] using hstore)
      exact ⟨challenge, bytes, bytes', reply, sessionKey, iscrypt, cryptLen, nonceLen,
        enterpriseField, ⟨n, e⟩, out, rfl, hscan, hn, he, hstore', rfl, hencrypt, hreply, hresult⟩

end

/-! ## Agreement -/

/-- The keys and the numbers of the agent fit those of the server. `RSA_public_encrypt` needs 11
bytes for its padding and fills a buffer of `RSA_size` bytes. -/
structure SharedKeys (agent : AgentEnv) (env : DialogueEnv) : Prop where
  known : ∀ key, agent.havePublicKeyByIP = some key → key = env.publicKey
  mpi2bn : ∀ n, agent.mpi2bn (env.bn2mpi n) = some n
  decrypts : ∀ plain out, agent.rsaPublicEncrypt plain env.publicKey = some out →
    env.rsaPrivateDecrypt out = some plain
  padding : ∀ plain key out, agent.rsaPublicEncrypt plain key = some out →
    plain.length + 11 ≤ agent.rsaSize key ∧ out.length = agent.rsaSize key
  rsaSize : ∀ key, agent.rsaSize key < 2 ^ 31
  nonce : agent.nonceChallenge.length < 100
  sessionKey : ∀ key, agent.sessionKey = some key → key.length = cfBlowfishSize

section
variable {agent : AgentEnv} {env : DialogueEnv} {conn conn' : ServerConnectionState}
  {ins : List (Option (List Char))}
  {c : Config (List Char) AgentSession (Bool × ServerConnectionState)} {n : Nat} {b : Bool}
    {key : PublicKey}
  {challenge : List Char}

/-- The server reads what the agent has written in front of the nonce. -/
theorem SharedKeys.scanSauth_eq (h : SharedKeys agent env)
    (hchallenge : authenticateAgent.propositionC1 agent = some challenge) :
    ∃ iscrypt encryptedLen,
      scanSauth (cstr challenge) = some (iscrypt, encryptedLen, agent.nonceChallenge.length, 'c') ∧
      (iscrypt = 'y' ↔ agent.havePublicKeyByIP.isSome) := by
  have hnonce : agent.nonceChallenge.length < 2 ^ 32 := h.nonce.trans (by decide)
  rw [authenticateAgent.propositionC1] at hchallenge
  split at hchallenge
  · rename_i key hknown
    obtain ⟨out, -, rfl⟩ := Option.map_eq_some_iff.mp hchallenge
    refine ⟨'y', agent.rsaSize key, ?_, by simp [hknown]⟩
    rw [cstr_challenge (by decide) (h.rsaSize key) h.nonce]
    exact scanSauth_sauthHeader rfl ((h.rsaSize key).trans (by decide)) hnonce
  · rename_i hunknown
    cases hchallenge
    refine ⟨'n', agent.nonceChallenge.length, ?_, by simp [hunknown]⟩
    rw [cstr_challenge (by decide) (h.nonce.trans (by decide)) h.nonce]
    exact scanSauth_sauthHeader rfl hnonce hnonce

/-- The agent has the key of the server, if it has received what the server sends. -/
theorem SharedKeys.collectedKey_eq (h : SharedKeys agent env) (hkey : CollectedKey agent ins key)
    (hins : ∀ n e, ins = [some n, some e] → n = env.bn2mpi env.publicKey.n ∧
      e = env.bn2mpi env.publicKey.e) :
    key = env.publicKey := by
  cases hkey with
  | known hknown => exact h.known key hknown
  | received _ hn he =>
    obtain ⟨rfl, rfl⟩ := hins _ _ rfl
    rw [h.mpi2bn] at hn he
    have hkey : (⟨key.n, key.e⟩ : PublicKey) = ⟨env.publicKey.n, env.publicKey.e⟩ := by
      rw [Option.some.inj hn, Option.some.inj he]
    exact hkey

/-- The session key that arrives at the server is the one of the agent. -/
theorem SharedKeys.receiveSessionKey_eq (h : SharedKeys agent env) {sessionKey out out' : List Char}
    {enterpriseField : Char} (hsession : agent.sessionKey = some sessionKey)
    (hencrypt : agent.rsaPublicEncrypt (sessionKey.take cfBlowfishSize) env.publicKey = some out)
    (hresult : receiveSessionKey { env.toSessionEnv with propositionC5 := some out } conn out'
      enterpriseField =
      (true, conn')) :
    conn' = { conn with
      sessionKey := some sessionKey, encryptionType := enterpriseField, rsaAuth := true } := by
  have hlen := h.sessionKey sessionKey hsession
  rw [List.take_of_length_le hlen.le] at hencrypt
  obtain ⟨hpadding, hsize⟩ := h.padding _ _ _ hencrypt
  have hne : out.length ≠ cfBlowfishSize := by omega
  rw [receiveSessionKey] at hresult
  dsimp only at hresult
  split at hresult
  · cases hresult
  · rw [h.decrypts _ _ hencrypt] at hresult
    cases hresult
    rw [overwrite, List.take_append_of_le_length hlen.ge, List.take_of_length_le hlen.le]

/-- In whatever order the two sides take their steps: when the server has authenticated the client,
the client has authenticated the server and both have the same session key. -/
theorem authentication_agrees (h : SharedKeys agent env)
    (hrun : Reaches n (Config.start (authenticateAgent agent) (sauthConnection env conn)) c)
    (hserver : c.right = .ended b (true, conn')) :
    ∃ sessionKey, c.left = .ended false ⟨true, some sessionKey, some env.publicKey⟩ ∧
      conn' = { conn with
        sessionKey := some sessionKey, encryptionType := 'c', rsaAuth := true } := by
  obtain ⟨t⟩ := hrun.transcripts
  have hright := t.right
  rw [hserver] at hright
  obtain ⟨challenge, n, e, reply, sessionKey, iscrypt, cryptLen, nonceLen, enterpriseField, key,
    out, hins, hscan, -, -, -, houts, -, -, hresult⟩ := trace_sauthConnection hright
  -- the server has received a session key, since it could not go on without one
  obtain ⟨received, rfl⟩ : ∃ received, sessionKey = some received := by
    cases sessionKey with
    | none => cases hresult
    | some received => exact ⟨received, rfl⟩
  have htoRight := t.toRight
  rw [hins] at htoRight
  have hleft := t.left
  rw [← htoRight] at hleft
  obtain ⟨s₁, s₂, s₃, rest, serverKey, sessionKey, hleftIns, hcollected, hsession, hencrypt,
      hend⟩ :=
    trace_sessionKey hleft
  obtain ⟨hchallenge, -, -, -⟩ := trace_authenticateAgent hleft
  obtain ⟨iscrypt', encryptedLen, hscan', hcrypt⟩ := h.scanSauth_eq hchallenge
  rw [hscan] at hscan'
  cases hscan'
  have htoLeft := t.toLeft
  rw [hleftIns, houts] at htoLeft
  have hkey : serverKey = env.publicKey := by
    refine h.collectedKey_eq hcollected fun n e hrest => ?_
    subst hrest
    have hunknown : iscrypt ≠ 'y' := fun hy => by
      cases hcollected with
      | received hnone =>
        rw [hnone] at hcrypt
        exact Bool.noConfusion (hcrypt.mp hy)
    rw [DialogueEnv.ownKey, if_pos hunknown] at htoLeft
    simp only [List.reduceOption_cons_of_some, List.reduceOption_nil, List.cons_append,
      List.cons.injEq] at htoLeft
    exact ⟨htoLeft.2.2.2.1, htoLeft.2.2.2.2.1⟩
  subst hkey
  exact ⟨sessionKey, hend, h.receiveSessionKey_eq hsession hencrypt hresult⟩

end

/-! ## Completion -/

/-- Nothing fails: there are keys, encryption and decryption succeed, and each side accepts the key
of the other one. -/
structure HonestDialogue (agent : AgentEnv) (env : DialogueEnv) (conn : ServerConnectionState) :
    Prop
    extends SharedKeys agent env where
  agentKeys : agent.hasKeys
  serverKeys : env.hasKeys
  nonce_pos : 0 < agent.nonceChallenge.length
  encrypts : ∀ plain, plain.length ≤ agent.nonceChallenge.length ∨ plain.length = cfBlowfishSize →
    ∃ out, agent.rsaPublicEncrypt plain env.publicKey = some out
  rsaSize_le : agent.rsaSize env.publicKey ≤ 2 * cfNonceLen
  bn2mpi_agent : ∀ n, agent.bn2mpi n ≠ [] ∧ env.mpi2bn (agent.bn2mpi n) = some n
  bn2mpi_server : ∀ n, env.bn2mpi n ≠ []
  hashString : agent.hashString = env.hashString
  digestLen : ∀ s, cfMd5Len ≤ (env.hashString s).length
  counterLength : env.counterChallenge.length = agent.nonceChallenge.length
  counter : ∃ out, env.rsaPublicEncrypt env.counterChallenge agent.publicKey = some out ∧ out ≠ [] ∧
    agent.rsaPrivateDecrypt out = some env.counterChallenge
  accepted : checkStoreKey env.toSessionEnv conn agent.publicKey
  trusts : agent.Trusts
  hasSessionKey : agent.sessionKey.isSome

section
variable {agent : AgentEnv} {env : DialogueEnv} {conn : ServerConnectionState}
  {challenge nonce : List Char}
  {iscrypt enterpriseField : Char} {cryptLen nonceLen : Nat}

theorem acceptsChallenge_body {body : List Char} (hcrypt : 0 < cryptLen)
    (hcryptLe : cryptLen ≤ 2 * cfNonceLen) (hnonce : 0 < nonceLen) (hnonceLe : nonceLen < 100)
    (hlen : cfRsaProtoOffset + nonceLen ≤ challenge.length)
    (hbody : challenge.drop cfRsaProtoOffset = body)
    (hplain : if iscrypt = 'y' then (env.rsaPrivateDecrypt (body.takeD cryptLen '\x00')).isSome
      else nonceLen ≤ cryptLen) :
    acceptsChallenge env.toSessionEnv challenge iscrypt cryptLen nonceLen = true := by
  have hcrypt' : (decide (cryptLen = 0) || decide (nonceLen = 0)) = false := by
    simp [hcrypt.ne', hnonce.ne']
  have hnonceLe' : ¬ nonceLen > cfNonceLen * 2 := by
    have : cfNonceLen = 256 := rfl
    omega
  rw [acceptsChallenge, if_neg (by simpa using hcrypt'), if_neg hnonceLe',
    if_neg (not_lt.mpr hcryptLe), if_neg (not_lt.mpr hlen), hbody]
  split
  · rename_i hy
    rwa [if_pos hy] at hplain
  · rename_i hy
    rw [if_neg hy] at hplain
    exact decide_eq_true hplain

/-- The server accepts the challenge and answers with the digest of the nonce. -/
theorem HonestDialogue.challenge_accepted (h : HonestDialogue agent env conn) :
    ∃ challenge iscrypt cryptLen, authenticateAgent.propositionC1 agent = some challenge ∧
      scanSauth (cstr challenge) = some (iscrypt, cryptLen, agent.nonceChallenge.length, 'c') ∧
      acceptsChallenge env.toSessionEnv challenge iscrypt cryptLen agent.nonceChallenge.length =
        true ∧
      challengeNonce env challenge iscrypt cryptLen agent.nonceChallenge.length =
        agent.nonceChallenge ∧
      (iscrypt = 'y' ↔ agent.havePublicKeyByIP.isSome) := by
  have hnonce : agent.nonceChallenge.length < 2 ^ 31 := h.nonce.trans (by decide)
  cases hknown : agent.havePublicKeyByIP with
  | none =>
    have hdrop := @drop_challenge _ 'n' agent.nonceChallenge agent hnonce h.nonce
    have hlen := congrArg List.length hdrop
    rw [List.length_drop] at hlen
    refine ⟨_, 'n', agent.nonceChallenge.length, by rw [authenticateAgent.propositionC1, hknown],
      ?_, ?_, ?_, by simp⟩
    · rw [cstr_challenge (by decide) hnonce h.nonce]
      exact scanSauth_sauthHeader rfl (hnonce.trans (by decide)) (hnonce.trans (by decide))
    · have hpos := h.nonce_pos
      have hle : agent.nonceChallenge.length ≤ 2 * cfNonceLen := h.nonce.le.trans (by decide)
      exact acceptsChallenge_body hpos hle hpos h.nonce (by omega) hdrop (by simp)
    · rw [challengeNonce, hdrop]
      exact (if_neg (by decide)).trans (List.take_of_length_le le_rfl)
  | some key =>
    cases h.known key hknown
    obtain ⟨out, hout⟩ := h.encrypts agent.nonceChallenge (.inl le_rfl)
    obtain ⟨hpadding, hsize⟩ := h.padding _ _ _ hout
    have hdrop := @drop_challenge _ 'y' out agent (h.rsaSize env.publicKey) h.nonce
    have hlen := congrArg List.length hdrop
    rw [List.length_drop] at hlen
    have hfits : cfRsaProtoOffset + agent.nonceChallenge.length ≤
        (authenticateAgent.challenge agent 'y' (agent.rsaSize env.publicKey) out).length := by omega
    have htake : out.takeD (agent.rsaSize env.publicKey) '\x00' = out := by
      rw [← hsize, List.takeD_eq_take _ le_rfl, List.take_length]
    refine ⟨_, 'y', agent.rsaSize env.publicKey,
      by rw [authenticateAgent.propositionC1, hknown]; simp only [hout]; rfl, ?_, ?_, ?_, by simp⟩
    · rw [cstr_challenge (by decide) (h.rsaSize env.publicKey) h.nonce]
      exact scanSauth_sauthHeader rfl ((h.rsaSize env.publicKey).trans (by decide))
        (hnonce.trans (by decide))
    · refine acceptsChallenge_body (by omega) h.rsaSize_le h.nonce_pos h.nonce hfits hdrop ?_
      rw [if_pos rfl, htake, h.decrypts _ _ hout]
      rfl
    · rw [challengeNonce, hdrop, htake, h.decrypts _ _ hout]
      exact List.take_left' rfl

theorem HonestDialogue.checkStoreKeyReply_ok (h : HonestDialogue agent env conn) :
    badProtoReply (checkStoreKeyReply env conn agent.publicKey) = false := by
  rw [checkStoreKeyReply]
  split
  · rfl
  · rw [if_pos h.accepted]
    rfl

theorem overwrite_take {bytes buffer : List Char} :
    (overwrite bytes buffer).take bytes.length = bytes := by
  rw [overwrite, List.take_left' rfl]

theorem hashesMatch_overwrite {digest buffer : List Char} {size : Nat} (h : size ≤ digest.length) :
    hashesMatch size (overwrite digest buffer) digest = true := by
  have hlen : size ≤ (overwrite digest buffer).length := by
    rw [overwrite, List.length_append]
    omega
  rw [hashesMatch, List.takeD_eq_take _ hlen, List.takeD_eq_take _ h, overwrite,
    List.take_append_of_le_length h]
  exact decide_eq_true rfl

theorem HonestDialogue.responds (h : HonestDialogue agent env conn) :
    agent.Responds (env.hashString agent.nonceChallenge) := by
  rw [AgentEnv.Responds, h.hashString]
  exact .inr (hashesMatch_overwrite (h.digestLen _))

/-- The session key arrives. -/
theorem HonestDialogue.sessionKey_arrives (h : HonestDialogue agent env conn) (out' : List Char) :
    ∃ sessionKey out, agent.sessionKey = some sessionKey ∧
      agent.rsaPublicEncrypt (sessionKey.take cfBlowfishSize) env.publicKey = some out ∧
      receiveSessionKey { env.toSessionEnv with propositionC5 := some out } conn out' 'c' =
        (true, { conn with
          sessionKey := some sessionKey, encryptionType := 'c', rsaAuth := true }) := by
  obtain ⟨sessionKey, hsession⟩ := Option.isSome_iff_exists.mp h.hasSessionKey
  have hlen := h.sessionKey sessionKey hsession
  have htake : sessionKey.take cfBlowfishSize = sessionKey := List.take_of_length_le hlen.le
  obtain ⟨out, hout⟩ := h.encrypts sessionKey (.inr hlen)
  obtain ⟨hpadding, hsize⟩ := h.padding _ _ _ hout
  have hle := h.rsaSize_le
  have hne : out.length ≠ cfBlowfishSize := by omega
  have hfits : ¬ out.length > cfBufSize / 2 := by
    have : cfNonceLen = 256 := rfl
    have : cfBufSize / 2 = 2048 := rfl
    omega
  refine ⟨sessionKey, out, hsession, htake.symm ▸ hout, ?_⟩
  rw [receiveSessionKey]
  dsimp only
  rw [if_neg hfits, if_neg hne, h.decrypts _ _ hout]
  dsimp only
  rw [← hlen, overwrite_take]

/-- Both sides have the same session key. -/
def agreed (env : DialogueEnv) (conn : ServerConnectionState) (sessionKey : List Char) :
    Config (List Char) AgentSession (Bool × ServerConnectionState) where
  left := .ended false ⟨true, some sessionKey, some env.publicKey⟩
  right := .ended false
    (true, { conn with sessionKey := some sessionKey, encryptionType := 'c', rsaAuth := true })
  toLeft := []
  toRight := []

theorem HonestDialogue.runsTo_sessionKey (h : HonestDialogue agent env conn) (out' : List Char) :
    ∃ sessionKey, agent.sessionKey = some sessionKey ∧
      RunsTo ⟨authenticateAgent.sendSessionKey agent env.publicKey,
        serverDialogue.receiveSession env conn out' 'c', [], []⟩ (agreed env conn sessionKey) := by
  obtain ⟨sessionKey, out, hsession, hencrypt, hresult⟩ := h.sessionKey_arrives out'
  have hsend : authenticateAgent.sendSessionKey agent env.publicKey =
      .send out (.ended false ⟨true, some sessionKey, some env.publicKey⟩) := by
    rw [authenticateAgent.sendSessionKey, hsession]
    simp only [hencrypt]
  have hend : sauthReply
    (receiveSessionKey { env.toSessionEnv with propositionC5 := some out } conn out' 'c') =
      (agreed env conn sessionKey).right := by
    rw [hresult]
    rfl
  refine ⟨sessionKey, hsession, ?_⟩
  rw [hsend]
  refine runsTo_passRight.trans ?_
  rw [hend]
  exact .refl

/-- From the reply to the counter challenge on. -/
theorem HonestDialogue.runsTo_reply (h : HonestDialogue agent env conn) (out' : List Char)
    (hcrypt : iscrypt = 'y' ↔ agent.havePublicKeyByIP.isSome) :
    ∃ sessionKey, agent.sessionKey = some sessionKey ∧
      RunsTo ⟨.send (env.hashString env.counterChallenge) (authenticateAgent.collectKey agent),
        if iscrypt ≠ 'y' then
          .send (env.bn2mpi env.publicKey.n) <| .send (env.bn2mpi env.publicKey.e) <|
            serverDialogue.receiveReplies env conn out' 'c'
        else serverDialogue.receiveReplies env conn out' 'c', [], []⟩
        (agreed env conn sessionKey) := by
  obtain ⟨sessionKey, hsession, hrun⟩ := h.runsTo_sessionKey out'
  refine ⟨sessionKey, hsession, ?_⟩
  have hreply : repliesTo env.toSessionEnv (env.hashString env.counterChallenge) = true := by
    rw [repliesTo, List.takeD_eq_take _ le_rfl, List.take_length]
    exact decide_eq_true rfl
  have hreceive : ∀ reply, repliesTo env.toSessionEnv reply = true →
      (if (some reply).any (repliesTo env.toSessionEnv) then
        serverDialogue.receiveSession env conn out' 'c'
        else sauthReply (false, conn)) = serverDialogue.receiveSession env conn out' 'c' :=
    fun reply hreply => if_pos hreply
  cases hknown : agent.havePublicKeyByIP with
  | some key =>
    cases h.known key hknown
    have hcollect : authenticateAgent.collectKey agent = authenticateAgent.sendSessionKey agent
        env.publicKey := by
      rw [authenticateAgent.collectKey, hknown]
    rw [hknown] at hcrypt
    rw [if_neg (not_not.mpr (hcrypt.mpr rfl)), hcollect]
    refine runsTo_passRight.trans ?_
    rw [hreceive _ hreply]
    exact hrun
  | none =>
    have hcollect : authenticateAgent.collectKey agent = authenticateAgent.receiveKey agent fun n =>
        authenticateAgent.receiveKey agent fun e =>
          authenticateAgent.sendSessionKey agent ⟨n, e⟩ := by
      rw [authenticateAgent.collectKey, hknown]
    have hkey : ∀ (number : Nat) (next : Nat → AgentParty),
        ((some (env.bn2mpi number)).bind fun bytes => if bytes = [] then none
          else agent.mpi2bn bytes).elim
          authenticateAgent.fail next = next number := fun number next => by
      rw [Option.bind_some, if_neg (h.bn2mpi_server number), h.mpi2bn]
      rfl
    rw [hknown] at hcrypt
    rw [if_pos (mt hcrypt.mp (by simp)), hcollect]
    refine RunsTo.trans ⟨1, reaches_sendRight⟩
      (RunsTo.trans ⟨1, reaches_sendRight⟩ (RunsTo.trans ⟨1, reaches_sendLeft⟩
      (RunsTo.trans ⟨1, reaches_receiveRight⟩ (RunsTo.trans ⟨1, reaches_receiveLeft⟩ ?_))))
    rw [hreceive _ hreply, hkey]
    refine RunsTo.trans ⟨1, reaches_receiveLeft⟩ ?_
    rw [hkey]
    exact hrun

theorem HonestDialogue.runsTo_authenticated (h : HonestDialogue agent env conn) :
    ∃ sessionKey, agent.sessionKey = some sessionKey ∧
      RunsTo (Config.start (authenticateAgent agent) (sauthConnection env conn))
        (agreed env conn sessionKey) := by
  obtain ⟨challenge, iscrypt, cryptLen, hchallenge, hscan, haccepts, hnonce, hcrypt⟩ :=
    h.challenge_accepted
  obtain ⟨out, hencrypt, hne, hdecrypt⟩ := h.counter
  obtain ⟨sessionKey, hsession, hrun⟩ := h.runsTo_reply out hcrypt
  refine ⟨sessionKey, hsession, ?_⟩
  have hagent : authenticateAgent agent = .send challenge (.send (agent.bn2mpi agent.publicKey.n)
      (.send (agent.bn2mpi agent.publicKey.e) (authenticateAgent.checkReply agent))) := by
    rw [authenticateAgent, h.agentKeys, hchallenge]
    rfl
  have hserver : serverDialogue env conn challenge = serverDialogue.receiveKey env conn fun n =>
      serverDialogue.receiveKey env conn fun e => .send (checkStoreKeyReply env conn ⟨n, e⟩) <|
        if !checkStoreKey env.toSessionEnv conn ⟨n, e⟩ && !env.trust then sauthReply (false, conn)
        else serverDialogue.sendChallenge env conn agent.nonceChallenge ⟨n, e⟩ iscrypt 'c' := by
    rw [serverDialogue, h.serverKeys, hscan]
    simp only [haccepts, hnonce]
    rfl
  have hkey : ∀ (number : Nat) (next : Nat → ServerParty),
      (receiveNumber env.toSessionEnv (some (agent.bn2mpi number))).elim
        (sauthReply (false, conn)) next =
        next number := fun number next => by
    obtain ⟨hnil, hmpi⟩ := h.bn2mpi_agent number
    rw [receiveNumber, Option.bind_some, if_neg hnil, hmpi]
    rfl
  have hstore : ¬ (!checkStoreKey env.toSessionEnv conn agent.publicKey && !env.trust) = true := by
    rw [h.accepted]
    exact Bool.false_ne_true
  have hresponds : (hashesMatch agent.defaultDigestSize
      (overwrite (agent.hashString agent.nonceChallenge) agent.uninitialised)
      (env.hashString agent.nonceChallenge) ||
      hashesMatch cfMd5Len (overwrite (agent.hashString agent.nonceChallenge) agent.uninitialised)
        (env.hashString agent.nonceChallenge)) = true := Bool.or_eq_true_iff.mpr h.responds
  have htrusts : (agent.havePublicKeyByIP.isSome || agent.trustkey) = true :=
    Bool.or_eq_true_iff.mpr h.trusts
  have hplain : (overwrite env.counterChallenge agent.uninitialised).take
    agent.nonceChallenge.length =
      env.counterChallenge := by
    rw [← h.counterLength, overwrite_take]
  rw [Config.start, hagent]
  refine runsTo_passRight.trans ?_
  change RunsTo ⟨_, serverDialogue env conn challenge, [], []⟩ _
  rw [hserver]
  refine runsTo_passRight.trans ?_
  rw [hkey]
  refine runsTo_passRight.trans ?_
  rw [hkey]
  refine runsTo_passLeft.trans ?_
  rw [if_neg hstore]
  dsimp only
  rw [h.checkStoreKeyReply_ok]
  refine runsTo_passLeft.trans ?_
  dsimp only
  rw [if_pos hresponds, if_pos htrusts]
  simp only [hencrypt]
  refine runsTo_passLeft.trans ?_
  rw [Option.bind_some, if_neg hne, hdecrypt]
  dsimp only
  rw [hplain, h.hashString]
  exact hrun

/-- If nothing fails, the two sides cannot help but come to one session key: in whatever order they
take their steps, no run is longer than this one, and every run can be continued to its end. -/
theorem authentication_completes (h : HonestDialogue agent env conn) :
    ∃ n sessionKey, agent.sessionKey = some sessionKey ∧
      ∀ m c, Reaches m (Config.start (authenticateAgent agent) (sauthConnection env conn)) c →
        ∃ k, n = m + k ∧ Reaches k c (agreed env conn sessionKey) := by
  obtain ⟨sessionKey, hsession, n, hrun⟩ := h.runsTo_authenticated
  exact ⟨n, sessionKey, hsession, fun m c hm => hrun.ends_alike ended_ended hm⟩

end

/-! ## An agent and a server -/

/-- Encryption for keys of 64 bytes that only pads: zeros and a one in front of the text. -/
def withPadding (plain : List Char) : Option (List Char) :=
  if plain.length + 11 ≤ 64 then some (List.replicate (63 - plain.length) '\x00' ++ '\x01' :: plain)
  else none

def withoutPadding (bytes : List Char) : Option (List Char) :=
  some (bytes.dropWhile (· = '\x00')).tail

/-- Numbers as so many characters, behind one more. -/
def unary (n : Nat) : List Char := List.replicate (n + 1) '1'

/-- An agent that does not know the server, and trusts it. -/
def trustingAgent : AgentEnv where
  hasKeys := true
  nonceChallenge := List.replicate 37 'a'
  hashString := fun s => s.takeD 16 '\x00'
  defaultDigestSize := 16
  uninitialised := []
  havePublicKeyByIP := none
  rsaSize := fun _ => 64
  rsaPublicEncrypt := fun plain _ => withPadding plain
  rsaPrivateDecrypt := withoutPadding
  publicKey := ⟨1, 1⟩
  bn2mpi := unary
  mpi2bn := fun bytes => some (bytes.length - 1)
  trustkey := true
  sessionKey := some (List.replicate 16 'k')

/-- A server that knows the key of every client. -/
def knowingServer : DialogueEnv :=
  { newServer with
    rsaPrivateDecrypt := withoutPadding
    rsaPublicEncrypt := fun plain _ => withPadding plain
    mpi2bn := fun bytes => some (bytes.length - 1)
    counterChallenge := List.replicate 37 's'
    hashString := fun s => s.takeD 16 '\x00'
    havePublicKey := fun _ _ _ => some ⟨1, 1⟩
    publicKey := ⟨2, 3⟩
    bn2mpi := unary }

theorem unary_ne_nil (n : Nat) : unary n ≠ [] := List.cons_ne_nil '1' (List.replicate n '1')

theorem some_length_unary (n : Nat) : some ((unary n).length - 1) = some n := by
  rw [unary, List.length_replicate, Nat.add_sub_cancel]

theorem withPadding_eq_some {plain out : List Char} (h : withPadding plain = some out) :
    plain.length + 11 ≤ 64 ∧ out.length = 64 ∧ withoutPadding out = some plain := by
  rw [withPadding] at h
  split at h
  · rename_i hle
    cases h
    have hzeros : ∀ c ∈ List.replicate (63 - plain.length) '\x00', decide (c = '\x00') = true :=
        fun c hc =>
      decide_eq_true (List.eq_of_mem_replicate hc)
    refine ⟨hle, by simp; omega, ?_⟩
    rw [withoutPadding, List.dropWhile_append_of_pos hzeros, List.dropWhile_cons_of_neg (by decide),
      List.tail_cons]
  · cases h

theorem sharedKeys_trusting : SharedKeys trustingAgent knowingServer where
  known := nofun
  mpi2bn := some_length_unary
  decrypts _ _ h := (withPadding_eq_some h).2.2
  padding _ _ _ h := ⟨(withPadding_eq_some h).1, (withPadding_eq_some h).2.1⟩
  rsaSize _ := (by decide : 64 < 2 ^ 31)
  nonce := by decide
  sessionKey := by
    rintro key ⟨⟩
    rfl

theorem honestDialogue_trusting :
    HonestDialogue trustingAgent knowingServer (newConn [] false) where
  toSharedKeys := sharedKeys_trusting
  agentKeys := rfl
  serverKeys := rfl
  nonce_pos := by decide
  encrypts plain h := by
    have hnonce : trustingAgent.nonceChallenge.length = 37 := rfl
    have hsize : cfBlowfishSize = 16 := rfl
    exact ⟨_, if_pos (by omega)⟩
  rsaSize_le := by decide
  bn2mpi_agent n := ⟨unary_ne_nil n, some_length_unary n⟩
  bn2mpi_server := unary_ne_nil
  hashString := rfl
  digestLen s := (List.takeD_length ..).ge
  counterLength := rfl
  counter := ⟨_, rfl, by decide, by decide⟩
  accepted := rfl
  trusts := .inr rfl
  hasSessionKey := rfl

theorem authentication_completes_trusting :
    ∃ n sessionKey, trustingAgent.sessionKey = some sessionKey ∧
      ∀ m c, Reaches m (Config.start (authenticateAgent trustingAgent)
          (sauthConnection knowingServer (newConn [] false))) c →
        ∃ k, n = m + k ∧ Reaches k c (agreed knowingServer (newConn [] false) sessionKey) :=
  authentication_completes honestDialogue_trusting

/-- A run to its end, in which the key of the server is sent. -/
theorem authentication_agrees_trusting :
    ∃ n c conn', Reaches n (Config.start (authenticateAgent trustingAgent)
        (sauthConnection knowingServer (newConn [] false))) c ∧
          c.right = .ended false (true, conn') ∧
      ∃ sessionKey, c.left = .ended false ⟨true, some sessionKey, some knowingServer.publicKey⟩ ∧
        conn' = { newConn [] false with
          sessionKey := some sessionKey, encryptionType := 'c', rsaAuth := true } := by
  obtain ⟨sessionKey, -, n, hrun⟩ := honestDialogue_trusting.runsTo_authenticated
  exact ⟨n, _, _, hrun, rfl, authentication_agrees sharedKeys_trusting hrun rfl⟩

theorem authenticateAgent_sends_trusting :
    ∃ ins outs q, Trace (authenticateAgent trustingAgent) ins outs q ∧ 3 < outs.length ∧
      ∃ reply response ins', ins = some reply :: some response :: ins' ∧
        badProtoReply reply = false ∧
        trustingAgent.Responds response ∧ trustingAgent.Trusts := by
  obtain ⟨sessionKey, -, n, hrun⟩ := honestDialogue_trusting.runsTo_authenticated
  obtain ⟨t⟩ := hrun.transcripts
  obtain ⟨challenge, n, e, reply, key, iscrypt, cryptLen, nonceLen, enterpriseField, publicKey, out,
      hins, -⟩ :=
    trace_sauthConnection t.right
  have hlen : 3 < t.leftOuts.length := by
    rw [← t.toRight, hins]
    simp only [List.reduceOption_cons_of_some, List.cons_append, List.length_cons]
    omega
  exact ⟨t.leftIns, t.leftOuts, _, t.left, hlen, authenticateAgent_sends t.left hlen⟩

end Cfengine
