import Cfengine.DirectoryListing
import Cfengine.Server.Session
import Cfengine.Theory.Dialogue

/-!
# Authentication (`client_protocol.c`, `server.c`)

The propositions C1 to C5 of `AuthenticateAgent` and S1 to S5 of `AuthenticationDialogue`, each as a
party of a dialogue. A message is a transaction, which arrives as a whole. A party that fails closes
the connection; the server sends a refusal in front of it.
-/

namespace Cfengine
open Dialogue
open Numerals (decimal)

/-- `CF_MD5_LEN` -/
def cfMd5Len : Nat := 16

/-! ## The agent -/

/-- What `AuthenticateAgent` reads and calls. -/
structure AgentEnv where
  /-- `PRIVKEY` and `PUBKEY` are there. -/
  hasKeys : Bool
  /-- The random number, as `BN_bn2mpi` writes it. -/
  nonceChallenge : List Char
  /-- `HashString` of the default type, or of `cf_md5` if it is not for FIPS. -/
  hashString : List Char → List Char
  /-- `FileHashSize(CF_DEFAULT_DIGEST)` -/
  defaultDigestSize : Nat
  /-- What is in a buffer that nothing was written to. -/
  uninitialised : List Char
  /-- The key of the server, if it is known. -/
  havePublicKeyByIP : Option PublicKey
  rsaSize : PublicKey → Nat
  rsaPublicEncrypt : List Char → PublicKey → Option (List Char)
  /-- `RSA_private_decrypt` with `PRIVKEY`; `none` if it fails. -/
  rsaPrivateDecrypt : List Char → Option (List Char)
  /-- `PUBKEY` -/
  publicKey : PublicKey
  bn2mpi : Nat → List Char
  mpi2bn : List Char → Option Nat
  /-- `attr.copy.trustkey` -/
  trustkey : Bool
  /-- The number that `SetSessionKey` makes. -/
  sessionKey : Option (List Char)

/-- What `AuthenticateAgent` returns and leaves in the connection, and the key that it saves. -/
structure AgentSession where
  authenticated : Bool
  sessionKey : Option (List Char)
  savedKey : Option PublicKey

abbrev AgentParty := Party (List Char) AgentSession

/-- `return false` -/
def authenticateAgent.fail : AgentParty := .ended true ⟨false, none, none⟩

/-- `BadProtoReply` -/
def badProtoReply (buf : CString) : Bool := "BAD:".toList.isPrefixOf buf

/-- `HashesMatch`, for a type of this size. The buffer of the reply is filled with NUL. -/
def hashesMatch (size : Nat) (digest reply : List Char) : Bool :=
  digest.takeD size '\x00' = reply.takeD size '\x00'

section
variable (env : AgentEnv)

/-- Proposition C5 -/
def authenticateAgent.sendSessionKey (serverPubkey : PublicKey) : AgentParty :=
  match env.sessionKey with
  | none => authenticateAgent.fail
  | some sessionKey =>
    match env.rsaPublicEncrypt (sessionKey.take cfBlowfishSize) serverPubkey with
    | none => .ended true ⟨false, some sessionKey, none⟩
    | some out => .send out (.ended false ⟨true, some sessionKey, some serverPubkey⟩)

/-- A number of the key of the server. -/
def authenticateAgent.receiveKey (next : Nat → AgentParty) : AgentParty :=
  .receive fun message =>
    (message.bind fun bytes => if bytes = [] then none else env.mpi2bn bytes).elim
      authenticateAgent.fail next

/-- Propositions S4 and S5, if the key is not known. -/
def authenticateAgent.collectKey : AgentParty :=
  match env.havePublicKeyByIP with
  | some serverPubkey => authenticateAgent.sendSessionKey env serverPubkey
  | none =>
    authenticateAgent.receiveKey env fun n => authenticateAgent.receiveKey env fun e =>
      authenticateAgent.sendSessionKey env ⟨n, e⟩

/-- Propositions S3 and C4: the counter challenge, and the reply to it. -/
def authenticateAgent.replyToChallenge : AgentParty :=
  .receive fun message =>
    match message.bind fun encrypted => if encrypted = [] then none
        else env.rsaPrivateDecrypt encrypted with
    | none => authenticateAgent.fail
    | some decryptedCchall =>
      .send (env.hashString
        ((overwrite decryptedCchall env.uninitialised).take env.nonceChallenge.length))
        (authenticateAgent.collectKey env)

/-- Proposition S2: the response to the challenge, against the digest of either type. -/
def authenticateAgent.checkResponse : AgentParty :=
  .receive fun message =>
    match message with
    | none => authenticateAgent.fail
    | some response =>
      let digest := overwrite (env.hashString env.nonceChallenge) env.uninitialised
      if hashesMatch env.defaultDigestSize digest response || hashesMatch cfMd5Len digest
          response then
        if env.havePublicKeyByIP.isSome || env.trustkey then authenticateAgent.replyToChallenge env
        else authenticateAgent.fail
      else authenticateAgent.fail

/-- Proposition S1: the reply about the public key. -/
def authenticateAgent.checkReply : AgentParty :=
  .receive fun message =>
    match message with
    | none => authenticateAgent.fail
    | some reply =>
      if badProtoReply reply then authenticateAgent.fail else authenticateAgent.checkResponse env

/-- The format `SAUTH %c %d %d %c` -/
def sauthHeader (iscrypt : Char) (encryptedLen nonceLen : Nat) : CString :=
  "SAUTH ".toList ++ iscrypt :: ' ' :: decimal encryptedLen ++ ' ' :: decimal nonceLen ++ [' ', 'c']

/-- The header up to `CF_RSA_PROTO_OFFSET`, with what is in the buffer behind its NUL, and the
nonce. -/
def authenticateAgent.challenge (iscrypt : Char) (encryptedLen : Nat)
    (body : List Char) : List Char :=
  let header := sauthHeader iscrypt encryptedLen env.nonceChallenge.length
  let rest := ('\x00' :: env.uninitialised).takeD (cfRsaProtoOffset - header.length) '\x00'
  (header ++ rest).take cfRsaProtoOffset ++ body

/-- The message of proposition C1; the nonce is not encrypted if the key is not known. -/
def authenticateAgent.propositionC1 : Option (List Char) :=
  match env.havePublicKeyByIP with
  | some serverPubkey =>
    (env.rsaPublicEncrypt env.nonceChallenge serverPubkey).map fun out =>
      authenticateAgent.challenge env 'y' (env.rsaSize serverPubkey) out
  | none => some (authenticateAgent.challenge env 'n' env.nonceChallenge.length env.nonceChallenge)

/-- `AuthenticateAgent` -/
def authenticateAgent : AgentParty :=
  if !env.hasKeys then authenticateAgent.fail
  else
    match authenticateAgent.propositionC1 env with
    | none => authenticateAgent.fail
    | some challenge =>
      .send challenge <|
      .send (env.bn2mpi env.publicKey.n) <|
      .send (env.bn2mpi env.publicKey.e) <|
      authenticateAgent.checkReply env

end

/-! ## The server -/

/-- What is read to reply to the agent, beside what decides about it. -/
structure DialogueEnv extends SessionEnv where
  /-- `PUBKEY` -/
  publicKey : PublicKey
  bn2mpi : Nat → List Char

abbrev ServerParty := Party (List Char) (Bool × ServerConnectionState)

section
variable (env : DialogueEnv) (conn : ServerConnectionState)

/-- The case `cfd_sauth` of `BusyWithConnection`, behind the dialogue. -/
def sauthReply (result : Bool × ServerConnectionState) : ServerParty :=
  if result.1 then .ended false result else .send cfFailedStr (.ended true result)

/-- Proposition S1, which `CheckStoreKey` sends. -/
def checkStoreKeyReply (key : PublicKey) : CString :=
  if env.havePublicKey conn.username (env.mapAddress conn.ipaddr)
      ((env.hashPubKey key).take (cfMaxVarSize - 2)) = some key then "OK: key accepted".toList
  else if checkStoreKey env.toSessionEnv conn key then
    "OK: unknown key was accepted on trust".toList
  else "BAD: key could not be accepted on trust".toList

/-- The nonce of the client, of which the digest is sent. -/
def challengeNonce (recvbuffer : List Char) (iscrypt : Char)
    (cryptLen nonceLen : Nat) : List Char :=
  let body := recvbuffer.drop cfRsaProtoOffset
  if iscrypt = 'y' then
    (overwrite ((env.rsaPrivateDecrypt (body.takeD cryptLen '\x00')).getD [])
      env.uninitialised).take nonceLen
  else body.take nonceLen

/-- Proposition C5 -/
def serverDialogue.receiveSession (out : List Char) (enterpriseField : Char) : ServerParty :=
  .receive fun key =>
    sauthReply
      (receiveSessionKey { env.toSessionEnv with propositionC5 := key } conn out enterpriseField)

/-- Proposition C4, and what follows. -/
def serverDialogue.receiveReplies (out : List Char) (enterpriseField : Char) : ServerParty :=
  .receive fun reply =>
    if reply.any (repliesTo env.toSessionEnv) then
      serverDialogue.receiveSession env conn out enterpriseField
    else sauthReply (false, conn)

/-- Propositions S2 to S5 -/
def serverDialogue.sendChallenge (nonce : List Char) (key : PublicKey)
    (iscrypt enterpriseField : Char) :
    ServerParty :=
  .send (env.hashString nonce) <|
  match env.rsaPublicEncrypt env.counterChallenge key with
  | none => sauthReply (false, conn)
  | some out =>
    .send out <|
    if iscrypt ≠ 'y' then
      .send (env.bn2mpi env.publicKey.n) <|
      .send (env.bn2mpi env.publicKey.e) <|
      serverDialogue.receiveReplies env conn out enterpriseField
    else serverDialogue.receiveReplies env conn out enterpriseField

/-- A number of the key of the client. -/
def serverDialogue.receiveKey (next : Nat → ServerParty) : ServerParty :=
  .receive fun message =>
    (receiveNumber env.toSessionEnv message).elim (sauthReply (false, conn)) next

/-- `AuthenticationDialogue`, with what it sends. -/
def serverDialogue (recvbuffer : List Char) : ServerParty :=
  if !env.hasKeys then sauthReply (false, conn)
  else
    match scanSauth (cstr recvbuffer) with
    | none => sauthReply (false, conn)
    | some (iscrypt, cryptLen, nonceLen, enterpriseField) =>
      if !acceptsChallenge env.toSessionEnv recvbuffer iscrypt cryptLen nonceLen then
        sauthReply (false, conn)
      else
        serverDialogue.receiveKey env conn fun n => serverDialogue.receiveKey env conn fun e =>
          .send (checkStoreKeyReply env conn ⟨n, e⟩) <|
          if !checkStoreKey env.toSessionEnv conn ⟨n, e⟩ && !env.trust then sauthReply (false, conn)
          else
            serverDialogue.sendChallenge env conn
              (challengeNonce env recvbuffer iscrypt cryptLen nonceLen) ⟨n, e⟩
              iscrypt enterpriseField

/-- `BusyWithConnection`, for a connection whose next request is for the dialogue. -/
def sauthConnection : ServerParty :=
  .receive fun message =>
    match message with
    | none => .ended true (false, conn)
    | some recvbuffer => serverDialogue env conn recvbuffer

end

end Cfengine
