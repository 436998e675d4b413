import Cfengine.Server

/-!
# The session of a connection (`server.c`)

`VerifyConnection` takes a name for the client, `AuthenticationDialogue` establishes its key and
the key of the session. Each request may find another environment, and in it are the messages that
the dialogue receives.
-/

namespace Cfengine

/-- `CF_RSA_PROTO_OFFSET` -/
def cfRsaProtoOffset : Nat := 24

/-- `CF_NONCELEN` -/
def cfNonceLen : Nat := cfBufSize / 16

/-- `CF_BLOWFISHSIZE`, which is also `CfSessionKeySize` of every type -/
def cfBlowfishSize : Nat := 16

/-- What is read of an `RSA` key. -/
structure PublicKey where
  n : Nat
  e : Nat
deriving DecidableEq

/-- `Auth` with what only a rule for literals and variables has. -/
structure LiteralAuth extends Auth where
  literal : Bool
  «variable» : Bool

/-- What the dialogue and the checks of a client read and call. -/
structure SessionEnv extends ServerEnv where
  /-- `conn->trust` -/
  trust : Bool
  skipverify : List CString
  trustkeylist : List CString
  /-- The addresses that `getaddrinfo` finds. -/
  getaddrinfo : CString → List CString
  varadmit : List LiteralAuth
  vardeny : List LiteralAuth
  /-- `PRIVKEY` and `PUBKEY` are there. -/
  hasKeys : Bool
  /-- `RSA_private_decrypt` with `PRIVKEY`; `none` if it fails. -/
  rsaPrivateDecrypt : List Char → Option (List Char)
  rsaPublicEncrypt : List Char → PublicKey → Option (List Char)
  /-- `BN_mpi2bn` -/
  mpi2bn : List Char → Option Nat
  /-- The random number, as `BN_bn2mpi` writes it. -/
  counterChallenge : List Char
  hashString : List Char → List Char
  /-- `HashPubKey` and `HashPrint` -/
  hashPubKey : PublicKey → CString
  havePublicKey : CString → CString → CString → Option PublicKey
  /-- What `ReceiveTransaction` receives for each of the propositions C2 to C5. -/
  propositionC2 : Option (List Char)
  propositionC3 : Option (List Char)
  propositionC4 : Option (List Char)
  propositionC5 : Option (List Char)

/-- `NewConn`, with the address set behind it. The field `maproot` is not initialised. -/
def newConn (ipaddr : CString) (maproot : Bool) : ServerConnectionState where
  idVerified := false
  rsaAuth := false
  maproot := maproot
  sessionKey := none
  hostname := []
  username := []
  encryptionType := 'c'
  ipaddr := ipaddr

section
variable (env : SessionEnv) (conn : ServerConnectionState)

/-! ## `VerifyConnection` -/

/-- The conversion `%255s`: the word, and what is behind it. -/
def scanWord255 (s : CString) : CString × CString :=
  let s := s.dropWhile isspace
  let word := (s.take 255).takeWhile (!isspace ·)
  (word, s.drop word.length)

/-- `VerifyConnection` -/
def verifyConnection (buf : CString) : Bool × ServerConnectionState :=
  let (ipAssert, buf) := scanWord255 buf
  let (fqname, buf) := scanWord255 buf
  let dnsAssert := fqname.map Char.toLower
  let named := { conn with hostname := dnsAssert, username := (scanWord255 buf).1 }
  if !env.trust || env.isMatchItemIn env.skipverify (env.mapAddress conn.ipaddr) then (true, named)
  else if ipAssert ≠ env.mapAddress conn.ipaddr then (false, conn)
  else if dnsAssert = [] then (false, conn)
  else if dnsAssert = "skipident".toList then (false, conn)
  else if (env.getaddrinfo dnsAssert).any (· = env.mapAddress conn.ipaddr) then (true, named)
  else (false, conn)

/-! ## `AuthenticationDialogue` -/

/-- `CheckStoreKey` -/
def checkStoreKey (key : PublicKey) : Bool :=
  env.havePublicKey conn.username (env.mapAddress conn.ipaddr)
      ((env.hashPubKey key).take (cfMaxVarSize - 2)) = some key ||
    env.trustkeylist ≠ [] && env.isMatchItemIn env.trustkeylist (env.mapAddress conn.ipaddr)

/-- The conversion `%c` behind a blank. -/
def scanChar (s : CString) : Option (Char × CString) :=
  match s.dropWhile isspace with
  | [] => none
  | c :: rest => some (c, rest)

/-- The format `%s %c %u %u %c` of a request whose command was read: `iscrypt`, `crypt_len`,
`nonce_len`, and `enterprise_field`, which is 'c' if it is not there. -/
def scanSauth (s : CString) : Option (Char × Nat × Nat × Char) := do
  let (iscrypt, s) ← scanChar ((s.dropWhile isspace).dropWhile (!isspace ·))
  let (cryptLen, s) ← scanUnsigned s
  let (nonceLen, s) ← scanUnsigned s
  return (iscrypt, cryptLen, nonceLen, (scanChar s).elim 'c' Prod.fst)

/-- Proposition C1, the challenge from the client: whether it is acceptable. -/
def acceptsChallenge (recvbuffer : List Char) (iscrypt : Char) (cryptLen nonceLen : Nat) : Bool :=
  if cryptLen = 0 || nonceLen = 0 then false
  else if nonceLen > cfNonceLen * 2 then false
  else if cryptLen > 2 * cfNonceLen then false
  else if cfRsaProtoOffset + nonceLen > recvbuffer.length then false
  else if iscrypt = 'y' then
    (env.rsaPrivateDecrypt ((recvbuffer.drop cfRsaProtoOffset).takeD cryptLen '\x00')).isSome
  else nonceLen ≤ cryptLen

/-- A message of the dialogue that has a number, which must not be empty. -/
def receiveNumber (message : Option (List Char)) : Option Nat :=
  message.bind fun bytes => if bytes = [] then none else env.mpi2bn bytes

/-- `HashesMatch` of the digest of the counter challenge and the reply. -/
def repliesTo (reply : List Char) : Bool :=
  let digest := env.hashString env.counterChallenge
  reply.takeD digest.length '\x00' = digest

/-- Proposition C5: the session key, with what `RSA_public_encrypt` left in the buffer `out`. -/
def receiveSessionKey (out : List Char) (enterpriseField : Char) : Bool × ServerConnectionState :=
  match env.propositionC5 with
  | none => (false, conn)
  | some key =>
    if key.length > cfBufSize / 2 then (false, conn)
    else
      let conn := { conn with
        sessionKey := some (env.uninitialised.take cfBlowfishSize)
        encryptionType := enterpriseField }
      if key.length = cfBlowfishSize then
        (true, { conn with sessionKey := some key, rsaAuth := true })
      else
        match env.rsaPrivateDecrypt key with
        | none => (false, conn)
        | some plain =>
          (true, { conn with
            sessionKey := some ((overwrite plain out).take cfBlowfishSize), rsaAuth := true })

/-- `AuthenticationDialogue`, without what it sends. -/
def authenticationDialogue (recvbuffer : List Char) : Bool × ServerConnectionState :=
  if !env.hasKeys then (false, conn)
  else
    match scanSauth (cstr recvbuffer) with
    | none => (false, conn)
    | some (iscrypt, cryptLen, nonceLen, enterpriseField) =>
      if !acceptsChallenge env recvbuffer iscrypt cryptLen nonceLen then (false, conn)
      else
        match receiveNumber env env.propositionC2, receiveNumber env env.propositionC3 with
        | some n, some e =>
          if !checkStoreKey env conn ⟨n, e⟩ && !env.trust then (false, conn)
          else
            match env.rsaPublicEncrypt env.counterChallenge ⟨n, e⟩ with
            | none => (false, conn)
            | some out =>
              if env.propositionC4.any (repliesTo env) then
                receiveSessionKey env conn out enterpriseField
              else (false, conn)
        | _, _ => (false, conn)

/-! ## `LiteralAccessControl` -/

/-- The name in a request for a variable, a query or a call. -/
def literalName (input : CString) : CString :=
  if "VAR".toList.isPrefixOf input then
    (((scanLiteral "VAR".toList input).bind scanLine).getD []).take 255
  else if "CALL_ME_BACK".toList.isPrefixOf input then
    (((scanLiteral "CALL_ME_BACK".toList input).bind scanLine).getD []).take 255
  else
    ((scanLiteral "QUERY".toList input).map fun s =>
      ((s.dropWhile isspace).takeWhile (!isspace ·)).take 128).getD []

/-- The loop over the rules that admit. -/
def literalAccessControl.admits (name : CString) (encrypt : Bool) :
    List LiteralAuth → Bool → ServerConnectionState → Bool × ServerConnectionState
  | [], access, conn => (access, conn)
  | ap :: rest, access, conn =>
    if ap.path ≠ name then admits name encrypt rest access conn
    else if !ap.literal && !ap.variable then (false, conn)
    else if !encrypt && ap.encrypt.toInt = 1 then (false, conn)
    else
      admits name encrypt rest (access || env.isHostIn ap.accesslist conn)
        { conn with maproot := conn.maproot || env.isHostIn ap.maproot conn }

/-- `LiteralAccessControl` -/
def literalAccessControl (input : CString) (encrypt : Bool) : Bool × ServerConnectionState :=
  let name := literalName input
  let (access, conn) :=
    literalAccessControl.admits env name encrypt env.varadmit false { conn with maproot := false }
  let denied := env.vardeny.any fun ap => ap.path = name && env.isHostIn ap.accesslist conn
  (access && !denied, if conn.rsaAuth then conn else { conn with maproot := false })

end

/-- The environment of a request, with the functions above. -/
def SessionEnv.serverEnv (env : SessionEnv) : ServerEnv :=
  { env.toServerEnv with
    verifyConnection := verifyConnection env
    authenticationDialogue := authenticationDialogue env
    literalAccessControl := fun input conn encrypt => literalAccessControl env conn input encrypt }

/-- A message, and the environment that it is handled in. -/
structure SessionRequest where
  env : SessionEnv
  message : Option (List Char)

def SessionRequest.request (r : SessionRequest) : Request := ⟨r.env.serverEnv, r.message⟩

/-! ## Calls of `DecryptString` -/

/-- The length in an encrypted request is that of the message. -/
def requestFits (name : String) (recvbuffer : List Char) : Bool :=
  let len := ((scanLiteral name.toList (cstr recvbuffer)).bind scanUnsigned).elim 0 Prod.fst
  len < cfBufSize && recvbuffer.length = (len + cfProtoOffset) % 2 ^ 32

/-- The length is accepted in front of the decryption. -/
def Command.lengthFits : Command → List Char → Bool
  | .sget, recvbuffer =>
    recvbuffer.length = ((scanSget (cstr recvbuffer)).1 + cfProtoOffset) % 2 ^ 32
  | .sopendir, recvbuffer => requestFits "SOPENDIR" recvbuffer
  | .ssynch, recvbuffer => requestFits "SSYNCH" recvbuffer
  | .smd5, recvbuffer => requestFits "SMD5" recvbuffer
  | .svar, recvbuffer => requestFits "SVAR" recvbuffer
  | .scontext, recvbuffer => requestFits "SCONTEXT" recvbuffer
  | .squery, recvbuffer => requestFits "SQUERY" recvbuffer
  | .callMeBack, recvbuffer => requestFits "SCALLBACK" recvbuffer
  | _, _ => false

/-- `BusyWithConnection` calls `DecryptString`. Only `SOPENDIR` and `SSYNCH` look for a session key
in front of the call. -/
def reachesDecryptString (conn : ServerConnectionState) (recvbuffer : List Char) : Bool :=
  match getCommand (cstr recvbuffer) with
  | none => false
  | some command =>
    command.lengthFits recvbuffer &&
      (conn.sessionKey.isSome || command ≠ .sopendir && command ≠ .ssynch)

end Cfengine
