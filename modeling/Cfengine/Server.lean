import Cfengine.AddrLib

/-!
# The server's side of a connection (`server.c`)

`BusyWithConnection` handles one message of a connection. What the system, the network and the
cryptography do is in an environment, which may be another one for each message. A buffer is the
list of its bytes, and what is behind the list is NUL.
-/

namespace Cfengine

/-- `CF_PROTO_OFFSET` -/
def cfProtoOffset : Nat := 16

/-- `CF_SMALL_OFFSET` -/
def cfSmallOffset : Nat := 2

/-- `PROTOCOL` and `enum PROTOS` -/
inductive Command where
  | exec | auth | get | opendir | synch | classes | md5 | smd5 | cauth | sauth | ssynch | sget
  | version | sopendir | var | svar | context | scontext | squery | callMeBack
deriving DecidableEq

def protocol : List (String × Command) :=
  [("EXEC", .exec), ("AUTH", .auth), ("GET", .get), ("OPENDIR", .opendir), ("SYNCH", .synch),
    ("CLASSES", .classes), ("MD5", .md5), ("SMD5", .smd5), ("CAUTH", .cauth), ("SAUTH", .sauth),
    ("SSYNCH", .ssynch), ("SGET", .sget), ("VERSION", .version), ("SOPENDIR", .sopendir),
    ("VAR", .var), ("SVAR", .svar), ("CONTEXT", .context), ("SCONTEXT", .scontext),
    ("SQUERY", .squery), ("SCALLBACK", .callMeBack)]

/-- `ServerConnectionState` -/
structure ServerConnectionState where
  idVerified : Bool
  rsaAuth : Bool
  maproot : Bool
  sessionKey : Option (List Char)
  hostname : CString
  username : CString
  encryptionType : Char
  ipaddr : CString

/-- `Auth`, a rule. The permissions are signed bit-fields of one bit, whose values are 0 and -1. -/
structure Auth where
  path : CString
  accesslist : List CString
  maproot : List CString
  encrypt : BitVec 1
  read : BitVec 1
  write : BitVec 1
  execute : BitVec 1

/-- What `BusyWithConnection` reads and calls. -/
structure ServerEnv where
  vadmit : List Auth
  vdeny : List Auth
  cfruncommand : CString
  version : CString
  /-- `none` if there is no clock. -/
  time : Option Int
  denyBadClocks : Bool
  clockDrift : Int
  /-- What is in a buffer that nothing was written to. -/
  uninitialised : CString
  translatePath : CString → CString
  /-- The buffer that `ResolveFilename` writes the path to. -/
  resolveFilename : CString → CString
  lstat : CString → Bool
  cfstat : CString → Bool
  mapName : CString → CString
  mapAddress : CString → CString
  isMatchItemIn : List CString → CString → Bool
  isRegexItemIn : List CString → CString → Bool
  /-- The bytes that `DecryptString` writes. -/
  decryptString : Char → List Char → Option (List Char) → List Char
  /-- Whether the digest of a file is the one that was sent. -/
  hashesMatch : CString → List Char → Bool
  verifyConnection : ServerConnectionState → CString → Bool × ServerConnectionState
  authenticationDialogue : ServerConnectionState → List Char → Bool × ServerConnectionState
  allowedUser : CString → Bool
  matchClasses : ServerConnectionState → Bool
  literalAccessControl : CString → ServerConnectionState → Bool → Bool × ServerConnectionState
  contextAccessControl : CString → ServerConnectionState → Bool → Option (List CString)
  getServerQuery : ServerConnectionState → CString → Bool
  receiveCollectCall : ServerConnectionState → Bool

/-- What is sent of a file. -/
inductive FileReply where
  /-- `CfGetFile` and `CfEncryptGetFile` -/
  | content (encrypt : Bool)
  /-- `CfOpenDirectory` and `CfSecOpenDirectory` -/
  | listing (encrypt : Bool)
  /-- `StatFile` -/
  | stat
  /-- `CompareLocalHash` -/
  | digest (mismatch : Bool)
deriving DecidableEq

/-- What happens during a request. -/
inductive ServerEvent where
  /-- `AccessControl` returned true. -/
  | granted (path : CString) (encrypt : Bool) (permType : Char)
  /-- `RefuseAccess` -/
  | refused
  | sent (text : CString)
  | file (reply : FileReply) (path : CString)
  /-- `DoExec` -/
  | executed (args : CString)
  /-- `GetServerLiteral`, `GetServerQuery` and `ReceiveCollectCall` -/
  | literal (recvbuffer : CString)
  /-- `ReplyServerContext` -/
  | context (classes : List CString)
deriving DecidableEq

/-- The end of a request; `goOn` is the value of `BusyWithConnection`. -/
structure Served where
  events : List ServerEvent
  conn : ServerConnectionState
  goOn : Bool

/-! ## Access control -/

section
variable (env : ServerEnv)

/-- A rule's path is the path, a directory above it, or the root. -/
def pathMatches (transpath transrequest : CString) : Bool :=
  (transrequest.length > transpath.length && transpath.isPrefixOf transrequest &&
      transrequest[transpath.length]? = some '/') ||
    transpath = transrequest || transpath = ['/']

def Auth.permits (ap : Auth) (permType : Char) : Bool :=
  !(permType = 'r' && ap.read = 0) && !(permType = 'w' && ap.write = 0) &&
    !(permType = 'x' && ap.execute = 0)

def ServerEnv.isHostIn (list : List CString) (conn : ServerConnectionState) : Bool :=
  env.isMatchItemIn list (env.mapAddress conn.ipaddr) || env.isRegexItemIn list conn.hostname

/-- The loop over the rules: whether access is given, and the path of the last rule that was
looked at. -/
def accessControl.loop (transrequest : CString) (encrypt : Bool) (permType : Char) :
    List Auth → Option CString → ServerConnectionState →
      Bool × Option CString × ServerConnectionState
  | [], transpath, conn => (false, transpath, conn)
  | ap :: rest, transpath, conn =>
    if !ap.permits permType then loop transrequest encrypt permType rest transpath conn
    else
      let transpath := env.mapName (ap.path.take (cfBufSize - 1))
      if pathMatches transpath transrequest && env.cfstat transpath then
        if !encrypt && ap.encrypt.toInt = 1 then (false, some transpath, conn)
        else
          (env.isHostIn ap.accesslist conn, some transpath,
            { conn with maproot := env.isHostIn ap.maproot conn })
      else loop transrequest encrypt permType rest (some transpath) conn

/-- `AccessControl`. The rules that deny look at the host only. -/
def accessControl (reqPath : CString) (conn : ServerConnectionState) (encrypt : Bool)
    (permType : Char) : Bool × ServerConnectionState :=
  let transrequest := env.resolveFilename (env.translatePath reqPath)
  if !env.lstat transrequest then (false, conn)
  else if env.vadmit = [] then (false, conn)
  else
    let (access, transpath, conn) :=
      accessControl.loop env transrequest encrypt permType env.vadmit none
        { conn with maproot := false }
    let denied := transpath.any (·.isPrefixOf transrequest) &&
      env.vdeny.any fun ap => env.isRegexItemIn ap.accesslist conn.hostname
    (access && !denied, if conn.rsaAuth then conn else { conn with maproot := false })

end

/-! ## Messages -/

/-- The string at the start of a buffer. -/
def cstr (buffer : List Char) : CString := buffer.takeWhile (· ≠ '\x00')

/-- Bytes written to the start of a buffer. -/
def overwrite (bytes buffer : List Char) : List Char := bytes ++ buffer.drop bytes.length

/-- `GetCommand` -/
def getCommand (str : CString) : Option Command :=
  let op := (str.dropWhile isspace).takeWhile (!isspace ·)
  (protocol.find? fun (name, _) => name.toList = op).map Prod.snd

/-- The characters of a format that have to be there. -/
def scanLiteral (literal s : CString) : Option CString :=
  if literal.isPrefixOf s then some (s.drop literal.length) else none

/-- The conversion `%d`. -/
def scanInt (s : CString) : Option (Int × CString) :=
  (scanLong s).map fun (n, rest) => (n.bmod (2 ^ 32), rest)

/-- The conversion `%u`. -/
def scanUnsigned (s : CString) : Option (Nat × CString) :=
  (scanInteger 10 s).map fun (n, rest) =>
    (if n.natAbs < 2 ^ 64 then (n.emod (2 ^ 32)).toNat else 2 ^ 32 - 1, rest)

/-- The conversion `%[^\n]` behind a blank; it fails if there is nothing. -/
def scanLine (s : CString) : Option CString :=
  let line := (s.dropWhile isspace).takeWhile (· ≠ '\n')
  if line = [] then none else some line

/-- The format `GET %d %[^\n]`, into variables that are 0 and empty. -/
def scanGet (s : CString) : Int × CString :=
  match (scanLiteral "GET".toList s).bind scanInt with
  | none => (0, [])
  | some (bufSize, s) => (bufSize, (scanLine s).getD [])

/-- The format `SGET %u %d` -/
def scanSget (s : CString) : Nat × Int :=
  match (scanLiteral "SGET".toList s).bind scanUnsigned with
  | none => (0, 0)
  | some (len, s) => (len, (scanInt s).elim 0 Prod.fst)

/-- The format `SYNCH %ld STAT %[^\n]` -/
def scanSynch (s : CString) : Int × CString :=
  match (scanLiteral "SYNCH".toList s).bind scanLong with
  | none => (0, [])
  | some (timeNoSee, s) =>
    (timeNoSee, ((scanLiteral "STAT".toList (s.dropWhile isspace)).bind scanLine).getD [])

section
variable (env : ServerEnv) (conn : ServerConnectionState)

/-- An encrypted request: `name` and the length of what follows behind `CF_PROTO_OFFSET` bytes.
The buffer with the request decrypted, if the length is that of the message. -/
def decryptRequest (name : String) (recvbuffer : List Char) : Option (List Char) :=
  let len := ((scanLiteral name.toList (cstr recvbuffer)).bind scanUnsigned).elim 0 Prod.fst
  if len ≥ cfBufSize || recvbuffer.length ≠ (len + cfProtoOffset) % 2 ^ 32 then none
  else
    some (overwrite (env.decryptString conn.encryptionType
      ((recvbuffer.drop cfProtoOffset).take len) conn.sessionKey) recvbuffer)

def refuse (goOn : Bool) : Served := ⟨[.refused], conn, goOn⟩

/-- The end of `BusyWithConnection` behind the `switch`. -/
def badRequest : Served := ⟨[.sent "BAD: Request denied\n".toList], conn, false⟩

/-- A file is sent if `AccessControl` grants it. -/
def serveFile (reply : FileReply) (filename : CString) (encrypt : Bool) (permType : Char)
    (goOn : Bool) : Served :=
  match accessControl env filename conn encrypt permType with
  | (false, conn) => refuse conn goOn
  | (true, conn) => ⟨[.granted filename encrypt permType, .file reply filename], conn, true⟩

namespace busyWithConnection

def exec (recvbuffer : List Char) : Served :=
  let args := ((scanLiteral "EXEC".toList (cstr recvbuffer)).bind scanLine).getD []
  if !conn.idVerified || !env.allowedUser conn.username || !conn.rsaAuth then refuse conn false
  else
    match accessControl env env.cfruncommand conn false 'x' with
    | (false, conn) => refuse conn false
    | (true, conn) =>
      let granted := .granted env.cfruncommand false 'x'
      if !env.matchClasses conn then ⟨[granted], conn, false⟩
      else ⟨[granted, .executed (args.take 255)], conn, false⟩

def version : Served :=
  let refused := if conn.idVerified then [] else [.refused]
  ⟨refused ++ [.sent ("OK: ".toList ++ env.version)], conn, conn.idVerified⟩

def cauth (recvbuffer : List Char) : Served :=
  let (verified, conn) := env.verifyConnection conn (cstr (recvbuffer.drop "CAUTH ".length))
  let conn := { conn with idVerified := verified }
  ⟨if verified then [] else [.refused], conn, verified⟩

def sauth (recvbuffer : List Char) : Served :=
  if !conn.idVerified then refuse conn false
  else
    match env.authenticationDialogue conn recvbuffer with
    | (false, conn) => refuse conn false
    | (true, conn) => ⟨[], conn, true⟩

def get (recvbuffer : List Char) : Served :=
  let (bufSize, filename) := scanGet (cstr recvbuffer)
  if bufSize < 0 || bufSize > cfBufSize then refuse conn false
  else if !conn.idVerified then refuse conn false
  else serveFile env conn (.content false) filename false 'r' true

/-- `cfscanf` takes the words `GET` and `dummykey` by their lengths. -/
def sget (recvbuffer : List Char) : Served :=
  let (len, bufSize) := scanSget (cstr recvbuffer)
  if recvbuffer.length ≠ (len + cfProtoOffset) % 2 ^ 32 then refuse conn false
  else
    let buffer := env.decryptString conn.encryptionType ((recvbuffer.drop cfProtoOffset).take len)
      conn.sessionKey
    let check := cstr (buffer.take 3)
    let filename := cstr (buffer.drop 13)
    if check ≠ "GET".toList then refuse conn true
    else if bufSize < 0 || bufSize > 8192 then refuse conn false
    else if !conn.idVerified then refuse conn false
    else serveFile env conn (.content true) filename true 'r' false

def opendir (encrypt : Bool) (recvbuffer : List Char) : Served :=
  let filename := ((scanLiteral "OPENDIR".toList (cstr recvbuffer)).bind scanLine).getD []
  if !conn.idVerified then refuse conn false
  else serveFile env conn (.listing encrypt) filename true 'r' false

def sopendir (recvbuffer : List Char) : Served :=
  match decryptRequest env conn "SOPENDIR" recvbuffer with
  | none => refuse conn false
  | some recvbuffer =>
    if conn.sessionKey = none then refuse conn false
    else if !"OPENDIR".toList.isPrefixOf recvbuffer then refuse conn true
    else opendir env conn true recvbuffer

/-- `drift * drift` is the product of two `int`s. -/
def synch (recvbuffer : List Char) : Served :=
  if !conn.idVerified then refuse conn false
  else
    let (timeNoSee, filename) := scanSynch (cstr recvbuffer)
    if timeNoSee = 0 || filename = [] then badRequest conn
    else
      match env.time with
      | none => ⟨[.sent "BAD: clocks out of synch".toList], conn, true⟩
      | some tloc =>
        let drift := (tloc - timeNoSee).bmod (2 ^ 32)
        match accessControl env filename conn true 'w' with
        | (false, conn) => refuse conn true
        | (true, conn) =>
          let granted := .granted filename true 'w'
          if env.denyBadClocks &&
              (drift * drift).bmod (2 ^ 32) > env.clockDrift * env.clockDrift then
            ⟨[granted, .sent "BAD: Clocks are too far unsynchronized".toList], conn, true⟩
          else ⟨[granted, .file .stat filename], conn, true⟩

def ssynch (recvbuffer : List Char) : Served :=
  match decryptRequest env conn "SSYNCH" recvbuffer with
  | none => refuse conn false
  | some recvbuffer =>
    if conn.sessionKey = none then refuse conn false
    else if !"SYNCH".toList.isPrefixOf recvbuffer then refuse conn true
    else synch env conn recvbuffer

/-- `CompareLocalHash`, for a digest that is behind the string. -/
def compareLocalHash (recvbuffer : List Char) : ServerEvent :=
  let rfilename := ((scanLiteral "MD5".toList (cstr recvbuffer)).bind scanLine).getD
    env.uninitialised
  let digest1 := recvbuffer.drop ((cstr recvbuffer).length + cfSmallOffset)
  .file (.digest !env.hashesMatch (env.translatePath rfilename) digest1) rfilename

def md5 (recvbuffer : List Char) : Served :=
  if !conn.idVerified then refuse conn true
  else ⟨[compareLocalHash env recvbuffer], conn, true⟩

def smd5 (recvbuffer : List Char) : Served :=
  match decryptRequest env conn "SMD5" recvbuffer with
  | none => refuse conn true
  | some recvbuffer =>
    if !"MD5".toList.isPrefixOf recvbuffer then refuse conn false else md5 env conn recvbuffer

def var (encrypted : Bool) (recvbuffer : List Char) : Served :=
  if !conn.idVerified then refuse conn true
  else
    match env.literalAccessControl (cstr recvbuffer) conn encrypted with
    | (false, conn) => refuse conn false
    | (true, conn) => ⟨[.literal (cstr recvbuffer)], conn, true⟩

def svar (recvbuffer : List Char) : Served :=
  match decryptRequest env conn "SVAR" recvbuffer with
  | none => refuse conn true
  | some recvbuffer =>
    if !"VAR".toList.isPrefixOf recvbuffer then refuse conn false else var env conn true recvbuffer

def context (encrypted : Bool) (recvbuffer : List Char) : Served :=
  if !conn.idVerified then refuse conn true
  else
    match env.contextAccessControl (cstr recvbuffer) conn encrypted with
    | none => refuse conn false
    | some classes => ⟨[.context classes], conn, true⟩

def scontext (recvbuffer : List Char) : Served :=
  match decryptRequest env conn "SCONTEXT" recvbuffer with
  | none => refuse conn true
  | some recvbuffer =>
    if !"CONTEXT".toList.isPrefixOf recvbuffer then refuse conn false
    else context env conn true recvbuffer

/-- The rest of `SQUERY` and `SCALLBACK` behind their decryption. -/
def query (reply : ServerConnectionState → Bool) (recvbuffer : List Char) : Served :=
  if !conn.idVerified then refuse conn true
  else
    match env.literalAccessControl (cstr recvbuffer) conn true with
    | (false, conn) => refuse conn false
    | (true, conn) =>
      if reply conn then ⟨[.literal (cstr recvbuffer)], conn, true⟩ else badRequest conn

def squery (recvbuffer : List Char) : Served :=
  match decryptRequest env conn "SQUERY" recvbuffer with
  | none => refuse conn true
  | some recvbuffer =>
    if !"QUERY".toList.isPrefixOf recvbuffer then refuse conn false
    else query env conn (fun conn => env.getServerQuery conn (cstr recvbuffer)) recvbuffer

def callMeBack (recvbuffer : List Char) : Served :=
  match decryptRequest env conn "SCALLBACK" recvbuffer with
  | none => refuse conn true
  | some recvbuffer =>
    if !"CALL_ME_BACK collect_calls".toList.isPrefixOf recvbuffer then refuse conn false
    else query env conn env.receiveCollectCall recvbuffer

end busyWithConnection

/-- `BusyWithConnection`, for the message that `ReceiveTransaction` received; `none` if it
failed. -/
def busyWithConnection (message : Option (List Char)) : Served :=
  match message with
  | none => ⟨[], conn, false⟩
  | some recvbuffer =>
    if cstr recvbuffer = [] then ⟨[], conn, false⟩
    else
      match getCommand (cstr recvbuffer) with
      | some .exec => busyWithConnection.exec env conn recvbuffer
      | some .version => busyWithConnection.version env conn
      | some .cauth => busyWithConnection.cauth env conn recvbuffer
      | some .sauth => busyWithConnection.sauth env conn recvbuffer
      | some .get => busyWithConnection.get env conn recvbuffer
      | some .sget => busyWithConnection.sget env conn recvbuffer
      | some .sopendir => busyWithConnection.sopendir env conn recvbuffer
      | some .opendir => busyWithConnection.opendir env conn false recvbuffer
      | some .ssynch => busyWithConnection.ssynch env conn recvbuffer
      | some .synch => busyWithConnection.synch env conn recvbuffer
      | some .smd5 => busyWithConnection.smd5 env conn recvbuffer
      | some .md5 => busyWithConnection.md5 env conn recvbuffer
      | some .svar => busyWithConnection.svar env conn recvbuffer
      | some .var => busyWithConnection.var env conn false recvbuffer
      | some .scontext => busyWithConnection.scontext env conn recvbuffer
      | some .context => busyWithConnection.context env conn false recvbuffer
      | some .squery => busyWithConnection.squery env conn recvbuffer
      | some .callMeBack => busyWithConnection.callMeBack env conn recvbuffer
      | some .auth | some .classes | none => badRequest conn

end

/-- A message, and the environment that it is handled in. -/
structure Request where
  env : ServerEnv
  message : Option (List Char)

/-- `while (BusyWithConnection(conn))`: the requests that are handled, each with the connection
before it. -/
def handleConnection : ServerConnectionState → List Request → List (ServerConnectionState × Request)
  | _, [] => []
  | conn, r :: requests =>
    let served := busyWithConnection r.env conn r.message
    (conn, r) :: if served.goOn then handleConnection served.conn requests else []

end Cfengine
