import Cfengine.Server.Session
import Cfengine.Theory.Histories
import Cfengine.Verify.Server

/-!
# What a connection does before its client is authenticated

`DecryptString` should be called with a session key only, and a connection that is not verified
should be refused and ended. `handleConnection_authenticated_iff` says for which sequences of
requests that is so.
-/

namespace Cfengine

variable {env : ServerEnv} {senv : SessionEnv} {conn conn' : ServerConnectionState}
  {recvbuffer : List Char}

/-! ## Requests by their command -/

/-- What the `switch` of `BusyWithConnection` does for each command. -/
def busyWithConnection.handler (env : ServerEnv) (conn : ServerConnectionState)
    (recvbuffer : List Char) : Command → Served
  | .exec => exec env conn recvbuffer
  | .version => version env conn
  | .cauth => cauth env conn recvbuffer
  | .sauth => sauth env conn recvbuffer
  | .get => get env conn recvbuffer
  | .sget => sget env conn recvbuffer
  | .sopendir => sopendir env conn recvbuffer
  | .opendir => opendir env conn false recvbuffer
  | .ssynch => ssynch env conn recvbuffer
  | .synch => synch env conn recvbuffer
  | .smd5 => smd5 env conn recvbuffer
  | .md5 => md5 env conn recvbuffer
  | .svar => svar env conn recvbuffer
  | .var => var env conn false recvbuffer
  | .scontext => scontext env conn recvbuffer
  | .context => context env conn false recvbuffer
  | .squery => squery env conn recvbuffer
  | .callMeBack => callMeBack env conn recvbuffer
  | .auth | .classes => badRequest conn

attribute [grind =] busyWithConnection.handler

theorem busyWithConnection_of_command {command : Command}
    (hcommand : getCommand (cstr recvbuffer) = some command) :
    busyWithConnection env conn (some recvbuffer) =
      busyWithConnection.handler env conn recvbuffer command := by
  have hne : cstr recvbuffer ≠ [] := by
    intro hnil
    rw [hnil, getCommand_nil] at hcommand
    cases hcommand
  rw [busyWithConnection.eq_def]
  simp only [if_neg hne, hcommand]
  cases command <;> rfl

/-- A message that is no command ends the connection, and what is answered is a refusal. -/
theorem busyWithConnection_of_none (hcommand : getCommand (cstr recvbuffer) = none) :
    busyWithConnection env conn (some recvbuffer) =
      if cstr recvbuffer = [] then ⟨[], conn, false⟩ else badRequest conn := by
  rw [busyWithConnection.eq_def]
  simp only [hcommand]

/-! ## What a request does to the session -/

/-- The fields that belong to the session are the same. -/
structure SameSession (conn conn' : ServerConnectionState) : Prop where
  idVerified : conn'.idVerified = conn.idVerified
  sessionKey : conn'.sessionKey = conn.sessionKey

theorem SameSession.refl : SameSession conn conn := ⟨rfl, rfl⟩

theorem SameSession.trans {conn'' : ServerConnectionState} (h : SameSession conn conn')
    (h' : SameSession conn' conn'') : SameSession conn conn'' :=
  ⟨h'.idVerified.trans h.idVerified, h'.sessionKey.trans h.sessionKey⟩

theorem SameSession.maproot {maproot : Bool} : SameSession conn { conn with maproot := maproot } :=
  ⟨rfl, rfl⟩

theorem SameSession.rsaAuth_maproot :
    SameSession conn (if conn.rsaAuth then conn else { conn with maproot := false }) := by
  split
  · exact .refl
  · exact .maproot

theorem accessControl.loop_sameSession {transrequest : CString} {encrypt : Bool} {permType : Char}
    {rules : List Auth} {transpath : Option CString} :
    SameSession conn
      (accessControl.loop env transrequest encrypt permType rules transpath conn).2.2 := by
  induction rules generalizing transpath conn with
  | nil => exact .refl
  | cons ap rest ih =>
    rw [accessControl.loop]
    split
    · exact ih
    simp only
    split
    · split
      · exact .refl
      · exact .maproot
    · exact ih

theorem accessControl_sameSession {reqPath : CString} {encrypt : Bool} {permType : Char} :
    SameSession conn (accessControl env reqPath conn encrypt permType).2 := by
  rw [accessControl]
  simp only
  split
  · exact .refl
  split
  · exact .refl
  · exact (SameSession.maproot.trans accessControl.loop_sameSession).trans .rsaAuth_maproot

theorem literalAccessControl.admits_sameSession {name : CString} {encrypt access : Bool}
    {rules : List LiteralAuth} :
    SameSession conn (literalAccessControl.admits senv name encrypt rules access conn).2 := by
  induction rules generalizing access conn with
  | nil => exact .refl
  | cons ap rest ih =>
    rw [literalAccessControl.admits]
    split
    · exact ih
    split
    · exact .refl
    split
    · exact .refl
    · exact SameSession.maproot.trans ih

theorem literalAccessControl_sameSession {input : CString} {encrypt : Bool} :
    SameSession conn (literalAccessControl senv conn input encrypt).2 := by
  rw [literalAccessControl]
  exact (SameSession.maproot.trans literalAccessControl.admits_sameSession).trans .rsaAuth_maproot

namespace busyWithConnection

theorem serveFile_sameSession {reply : FileReply} {filename : CString} {encrypt goOn : Bool}
    {permType : Char} :
    SameSession conn (serveFile env conn reply filename encrypt permType goOn).conn := by
  have haccess : SameSession conn (accessControl env filename conn encrypt permType).2 :=
    accessControl_sameSession
  rw [serveFile]
  split <;> rename_i heq <;> rw [heq] at haccess <;> exact haccess

theorem exec_sameSession : SameSession conn (exec env conn recvbuffer).conn := by
  have haccess : SameSession conn (accessControl env env.cfruncommand conn false 'x').2 :=
    accessControl_sameSession
  rw [exec]
  simp only
  split
  · exact .refl
  split
  · rename_i heq
    rw [heq] at haccess
    exact haccess
  · rename_i heq
    rw [heq] at haccess
    split
    · exact haccess
    · exact haccess

theorem get_sameSession : SameSession conn (get env conn recvbuffer).conn := by
  rw [get]
  simp only
  split
  · exact .refl
  split
  · exact .refl
  · exact serveFile_sameSession

theorem sget_sameSession : SameSession conn (sget env conn recvbuffer).conn := by
  rw [sget]
  simp only
  split
  · exact .refl
  split
  · exact .refl
  split
  · exact .refl
  split
  · exact .refl
  · exact serveFile_sameSession

theorem opendir_sameSession {encrypt : Bool} :
    SameSession conn (opendir env conn encrypt recvbuffer).conn := by
  rw [opendir]
  split
  · exact .refl
  · exact serveFile_sameSession

theorem sopendir_sameSession : SameSession conn (sopendir env conn recvbuffer).conn := by
  rw [sopendir]
  split
  · exact .refl
  split
  · exact .refl
  split
  · exact .refl
  · exact opendir_sameSession

theorem synch_sameSession : SameSession conn (synch env conn recvbuffer).conn := by
  rw [synch]
  split
  · exact .refl
  simp only
  split
  · exact .refl
  split
  · exact .refl
  have haccess : SameSession conn
      (accessControl env (scanSynch (cstr recvbuffer)).2 conn true 'w').2 :=
    accessControl_sameSession
  split <;> rename_i heq <;> rw [heq] at haccess
  · exact haccess
  split
  · exact haccess
  · exact haccess

theorem ssynch_sameSession : SameSession conn (ssynch env conn recvbuffer).conn := by
  rw [ssynch]
  split
  · exact .refl
  split
  · exact .refl
  split
  · exact .refl
  · exact synch_sameSession

theorem md5_sameSession : SameSession conn (md5 env conn recvbuffer).conn := by
  rw [md5]
  split
  · exact .refl
  · exact .refl

theorem smd5_sameSession : SameSession conn (smd5 env conn recvbuffer).conn := by
  rw [smd5]
  split
  · exact .refl
  split
  · exact .refl
  · exact md5_sameSession

theorem var_sameSession {encrypted : Bool} :
    SameSession conn (var senv.serverEnv conn encrypted recvbuffer).conn := by
  have haccess : SameSession conn
      (senv.serverEnv.literalAccessControl (cstr recvbuffer) conn encrypted).2 :=
    literalAccessControl_sameSession
  rw [var]
  split
  · exact .refl
  split <;> rename_i heq <;> rw [heq] at haccess <;> exact haccess

theorem svar_sameSession : SameSession conn (svar senv.serverEnv conn recvbuffer).conn := by
  rw [svar]
  split
  · exact .refl
  split
  · exact .refl
  · exact var_sameSession

theorem context_sameSession {encrypted : Bool} :
    SameSession conn (context env conn encrypted recvbuffer).conn := by
  rw [context]
  split
  · exact .refl
  split
  · exact .refl
  · exact .refl

theorem scontext_sameSession : SameSession conn (scontext env conn recvbuffer).conn := by
  rw [scontext]
  split
  · exact .refl
  split
  · exact .refl
  · exact context_sameSession

theorem query_sameSession {reply : ServerConnectionState → Bool} :
    SameSession conn (query senv.serverEnv conn reply recvbuffer).conn := by
  have haccess : SameSession conn
      (senv.serverEnv.literalAccessControl (cstr recvbuffer) conn true).2 :=
    literalAccessControl_sameSession
  rw [query]
  split
  · exact .refl
  split <;> rename_i heq <;> rw [heq] at haccess
  · exact haccess
  split
  · exact haccess
  · exact haccess

theorem squery_sameSession : SameSession conn (squery senv.serverEnv conn recvbuffer).conn := by
  rw [squery]
  split
  · exact .refl
  split
  · exact .refl
  · exact query_sameSession

theorem callMeBack_sameSession :
    SameSession conn (callMeBack senv.serverEnv conn recvbuffer).conn := by
  rw [callMeBack]
  split
  · exact .refl
  split
  · exact .refl
  · exact query_sameSession

end busyWithConnection

open busyWithConnection in
/-- Only `CAUTH` and `SAUTH` change the session. -/
theorem handler_sameSession {command : Command} (hcauth : command ≠ .cauth)
    (hsauth : command ≠ .sauth) :
    SameSession conn (handler senv.serverEnv conn recvbuffer command).conn := by
  cases command with
  | cauth => exact absurd rfl hcauth
  | sauth => exact absurd rfl hsauth
  | exec => exact exec_sameSession
  | get => exact get_sameSession
  | sget => exact sget_sameSession
  | sopendir => exact sopendir_sameSession
  | opendir => exact opendir_sameSession
  | ssynch => exact ssynch_sameSession
  | synch => exact synch_sameSession
  | smd5 => exact smd5_sameSession
  | md5 => exact md5_sameSession
  | svar => exact svar_sameSession
  | var => exact var_sameSession
  | scontext => exact scontext_sameSession
  | context => exact context_sameSession
  | squery => exact squery_sameSession
  | callMeBack => exact callMeBack_sameSession
  | version | auth | classes => exact .refl

theorem verifyConnection_sessionKey {buf : CString} :
    (verifyConnection senv conn buf).2.sessionKey = conn.sessionKey := by
  rw [verifyConnection]
  simp only
  split
  · rfl
  split
  · rfl
  split
  · rfl
  split
  · rfl
  split
  · rfl
  · rfl

theorem receiveSessionKey_idVerified {out : List Char} {enterpriseField : Char} :
    (receiveSessionKey senv conn out enterpriseField).2.idVerified = conn.idVerified := by
  rw [receiveSessionKey]
  split
  · rfl
  simp only
  split
  · rfl
  split
  · rfl
  split
  · rfl
  · rfl

/-- A client that is authenticated has given a session key. -/
theorem receiveSessionKey_sessionKey {out : List Char} {enterpriseField : Char}
    (h : (receiveSessionKey senv conn out enterpriseField).1 = true) :
    (receiveSessionKey senv conn out enterpriseField).2.sessionKey ≠ none := by
  rw [receiveSessionKey] at h ⊢
  split at h
  · cases h
  simp only at h ⊢
  split
  · rename_i hlong
    rw [if_pos hlong] at h
    cases h
  split
  · exact Option.some_ne_none _
  split
  · exact Option.some_ne_none _
  · exact Option.some_ne_none _

variable (senv conn recvbuffer) in
/-- `AuthenticationDialogue` fails, with the connection as it was, or it comes to the session
key. -/
theorem authenticationDialogue_cases :
    authenticationDialogue senv conn recvbuffer = (false, conn) ∨
      ∃ out enterpriseField, authenticationDialogue senv conn recvbuffer =
        receiveSessionKey senv conn out enterpriseField := by
  rw [authenticationDialogue]
  split
  · exact .inl rfl
  split
  · exact .inl rfl
  split
  · exact .inl rfl
  split
  · split
    · exact .inl rfl
    split
    · exact .inl rfl
    split
    · exact .inr ⟨_, _, rfl⟩
    · exact .inl rfl
  · exact .inl rfl

theorem authenticationDialogue_idVerified :
    (authenticationDialogue senv conn recvbuffer).2.idVerified = conn.idVerified := by
  obtain heq | ⟨out, enterpriseField, heq⟩ :=
    authenticationDialogue_cases senv conn recvbuffer
  · rw [heq]
  · rw [heq, receiveSessionKey_idVerified]

theorem authenticationDialogue_sessionKey
    (h : (authenticationDialogue senv conn recvbuffer).1 = true) :
    (authenticationDialogue senv conn recvbuffer).2.sessionKey ≠ none := by
  obtain heq | ⟨out, enterpriseField, heq⟩ :=
    authenticationDialogue_cases senv conn recvbuffer
  · rw [heq] at h
    cases h
  · rw [heq] at h ⊢
    exact receiveSessionKey_sessionKey h

/-! ## Requests that are not decrypted -/

theorem decryptRequest_of_not_fits {name : String} (h : requestFits name recvbuffer = false) :
    decryptRequest env conn name recvbuffer = none := by
  rw [requestFits] at h
  rw [decryptRequest]
  generalize ((scanLiteral name.toList (cstr recvbuffer)).bind scanUnsigned).elim 0 Prod.fst = len
    at h ⊢
  apply if_pos
  simp only [Bool.and_eq_false_iff, decide_eq_false_iff_not, Nat.not_lt] at h
  simp only [ge_iff_le, ne_eq, Bool.or_eq_true, decide_eq_true_eq]
  exact h

variable (env conn) in
theorem decryptRequest_of_fits {name : String} (h : requestFits name recvbuffer = true) :
    ∃ len, decryptRequest env conn name recvbuffer =
      some (overwrite (env.decryptString conn.encryptionType
        ((recvbuffer.drop cfProtoOffset).take len) conn.sessionKey) recvbuffer) := by
  rw [requestFits] at h
  rw [decryptRequest]
  generalize ((scanLiteral name.toList (cstr recvbuffer)).bind scanUnsigned).elim 0 Prod.fst = len
    at h ⊢
  refine ⟨len, if_neg ?_⟩
  simp only [Bool.and_eq_true, decide_eq_true_eq] at h
  simp only [ge_iff_le, ne_eq, Bool.or_eq_true, decide_eq_true_eq, not_or, not_le, not_not]
  exact h

namespace busyWithConnection

theorem sget_of_not_fits (h : Command.sget.lengthFits recvbuffer = false) :
    sget env conn recvbuffer = refuse conn false := by
  rw [sget]
  apply if_pos
  exact of_decide_eq_false h

theorem sopendir_of_guard (h : requestFits "SOPENDIR" recvbuffer = false ∨ conn.sessionKey = none) :
    sopendir env conn recvbuffer = refuse conn false := by
  rw [sopendir]
  cases h with
  | inl h => rw [decryptRequest_of_not_fits h]
  | inr h =>
    split
    · rfl
    · rw [if_pos h]

theorem ssynch_of_guard (h : requestFits "SSYNCH" recvbuffer = false ∨ conn.sessionKey = none) :
    ssynch env conn recvbuffer = refuse conn false := by
  rw [ssynch]
  cases h with
  | inl h => rw [decryptRequest_of_not_fits h]
  | inr h =>
    split
    · rfl
    · rw [if_pos h]

theorem smd5_of_not_fits (h : requestFits "SMD5" recvbuffer = false) :
    smd5 env conn recvbuffer = refuse conn true := by
  rw [smd5, decryptRequest_of_not_fits h]

theorem svar_of_not_fits (h : requestFits "SVAR" recvbuffer = false) :
    svar env conn recvbuffer = refuse conn true := by
  rw [svar, decryptRequest_of_not_fits h]

theorem scontext_of_not_fits (h : requestFits "SCONTEXT" recvbuffer = false) :
    scontext env conn recvbuffer = refuse conn true := by
  rw [scontext, decryptRequest_of_not_fits h]

theorem squery_of_not_fits (h : requestFits "SQUERY" recvbuffer = false) :
    squery env conn recvbuffer = refuse conn true := by
  rw [squery, decryptRequest_of_not_fits h]

theorem callMeBack_of_not_fits (h : requestFits "SCALLBACK" recvbuffer = false) :
    callMeBack env conn recvbuffer = refuse conn true := by
  rw [callMeBack, decryptRequest_of_not_fits h]

end busyWithConnection

/-- The same server with another cipher. -/
def withDecryptString (env : ServerEnv)
    (decrypt : Char → List Char → Option (List Char) → List Char) : ServerEnv :=
  { env with decryptString := decrypt }

variable {decrypt : Char → List Char → Option (List Char) → List Char}

theorem accessControl.loop_decryptString {transrequest : CString} {encrypt : Bool}
    {permType : Char} {rules : List Auth} {transpath : Option CString} :
    accessControl.loop (withDecryptString env decrypt) transrequest encrypt permType rules transpath
        conn =
      accessControl.loop env transrequest encrypt permType rules transpath conn := by
  induction rules generalizing transpath conn with
  | nil => rfl
  | cons ap rest ih =>
    rw [accessControl.loop, accessControl.loop]
    simp only [ih]
    rfl

theorem accessControl_decryptString {reqPath : CString} {encrypt : Bool} {permType : Char} :
    accessControl (withDecryptString env decrypt) reqPath conn encrypt permType =
      accessControl env reqPath conn encrypt permType := by
  rw [accessControl, accessControl]
  simp only [accessControl.loop_decryptString]
  rfl

namespace busyWithConnection

theorem serveFile_decryptString {reply : FileReply} {filename : CString} {encrypt goOn : Bool}
    {permType : Char} :
    serveFile (withDecryptString env decrypt) conn reply filename encrypt permType goOn =
      serveFile env conn reply filename encrypt permType goOn := by
  rw [serveFile, serveFile, accessControl_decryptString]

theorem exec_decryptString :
    exec (withDecryptString env decrypt) conn recvbuffer = exec env conn recvbuffer := by
  rw [exec, exec]
  simp only [accessControl_decryptString]
  rfl

theorem get_decryptString :
    get (withDecryptString env decrypt) conn recvbuffer = get env conn recvbuffer := by
  rw [get, get]
  simp only [serveFile_decryptString]

theorem opendir_decryptString {encrypt : Bool} :
    opendir (withDecryptString env decrypt) conn encrypt recvbuffer =
      opendir env conn encrypt recvbuffer := by
  rw [opendir, opendir]
  simp only [serveFile_decryptString]

theorem synch_decryptString :
    synch (withDecryptString env decrypt) conn recvbuffer = synch env conn recvbuffer := by
  rw [synch, synch]
  simp only [accessControl_decryptString]
  rfl

end busyWithConnection

theorem reachesDecryptString_of_command {command : Command}
    (hcommand : getCommand (cstr recvbuffer) = some command) :
    reachesDecryptString conn recvbuffer = true ↔ command.lengthFits recvbuffer = true ∧
      (conn.sessionKey = none → command ≠ .sopendir ∧ command ≠ .ssynch) := by
  rw [reachesDecryptString, hcommand]
  cases conn.sessionKey with
  | none => simp
  | some key => simp

open busyWithConnection in
/-- If `DecryptString` is not called, it does not matter what it does. -/
theorem busyWithConnection_decryptString (h : ¬ reachesDecryptString conn recvbuffer = true) :
    busyWithConnection (withDecryptString env decrypt) conn (some recvbuffer) =
      busyWithConnection env conn (some recvbuffer) := by
  cases hcommand : getCommand (cstr recvbuffer) with
  | none =>
    rw [busyWithConnection_of_none hcommand, busyWithConnection_of_none hcommand]
  | some command =>
    rw [busyWithConnection_of_command hcommand, busyWithConnection_of_command hcommand]
    rw [reachesDecryptString_of_command hcommand] at h
    have hfits (hsopendir : command ≠ .sopendir) (hssynch : command ≠ .ssynch) :
        command.lengthFits recvbuffer = false := by
      rw [← Bool.not_eq_true]
      exact fun hfits => h ⟨hfits, fun _ => ⟨hsopendir, hssynch⟩⟩
    have hguard : command.lengthFits recvbuffer = false ∨ conn.sessionKey = none := by
      cases hfits : command.lengthFits recvbuffer with
      | false => exact .inl rfl
      | true =>
        apply Or.inr
        apply Classical.byContradiction
        intro hkey
        exact h ⟨hfits, fun hnone => absurd hnone hkey⟩
    cases command with
    | exec => exact exec_decryptString
    | get => exact get_decryptString
    | opendir => exact opendir_decryptString
    | synch => exact synch_decryptString
    | sopendir =>
      exact (sopendir_of_guard hguard).trans (sopendir_of_guard hguard).symm
    | ssynch =>
      exact (ssynch_of_guard hguard).trans (ssynch_of_guard hguard).symm
    | sget =>
      have hfits := hfits (by simp) (by simp)
      exact (sget_of_not_fits hfits).trans (sget_of_not_fits hfits).symm
    | smd5 =>
      have hfits := hfits (by simp) (by simp)
      exact (smd5_of_not_fits hfits).trans (smd5_of_not_fits hfits).symm
    | svar =>
      have hfits := hfits (by simp) (by simp)
      exact (svar_of_not_fits hfits).trans (svar_of_not_fits hfits).symm
    | scontext =>
      have hfits := hfits (by simp) (by simp)
      exact (scontext_of_not_fits hfits).trans (scontext_of_not_fits hfits).symm
    | squery =>
      have hfits := hfits (by simp) (by simp)
      exact (squery_of_not_fits hfits).trans (squery_of_not_fits hfits).symm
    | callMeBack =>
      have hfits := hfits (by simp) (by simp)
      exact (callMeBack_of_not_fits hfits).trans (callMeBack_of_not_fits hfits).symm
    | _ => rfl

/-- A server that answers whoever is verified. -/
def openServer : ServerEnv :=
  { closedServer with
    literalAccessControl := fun _ conn _ => (true, conn)
    contextAccessControl := fun _ _ _ => some []
    getServerQuery := fun _ _ => true
    receiveCollectCall := fun _ => true }

/-- A cipher that writes the same text always. -/
def decryptsTo (text : List Char) : Char → List Char → Option (List Char) → List Char :=
  fun _ _ _ => text ++ ['\x00']

variable (env conn) in
theorem decryptRequest_decryptsTo (text : List Char) {name : String}
    (h : requestFits name recvbuffer = true) :
    ∃ rest, decryptRequest (withDecryptString env (decryptsTo text)) conn name recvbuffer =
      some (text ++ '\x00' :: rest) := by
  obtain ⟨len, heq⟩ := decryptRequest_of_fits (withDecryptString env (decryptsTo text)) conn h
  refine ⟨recvbuffer.drop (text.length + 1), ?_⟩
  rw [heq]
  simp only [withDecryptString, decryptsTo, overwrite, List.length_append, List.length_singleton,
    List.append_assoc, List.singleton_append]

/-- The server whose cipher writes `text`. -/
abbrev serverOf (text : List Char) : ServerEnv := withDecryptString openServer (decryptsTo text)

theorem openServer_denies {path : CString} {encrypt : Bool} {permType : Char} {text : List Char} :
    (accessControl (serverOf text) path conn encrypt permType).1 = false := by
  rw [accessControl]
  simp only
  split
  · rfl
  · rfl

theorem isPrefixOf_append_self {name rest : List Char} : name.isPrefixOf (name ++ rest) = true :=
  List.isPrefixOf_iff_prefix.mpr (List.prefix_append name rest)

namespace busyWithConnection

theorem serveFile_denied {reply : FileReply} {filename : CString} {encrypt goOn : Bool}
    {permType : Char} (h : (accessControl env filename conn encrypt permType).1 = false) :
    (serveFile env conn reply filename encrypt permType goOn).goOn = goOn := by
  rw [serveFile]
  split <;> rename_i heq
  · rfl
  · rw [heq] at h
    cases h

theorem opendir_denied {encrypt : Bool} {text : List Char} :
    (opendir (serverOf text) conn encrypt recvbuffer).goOn = false := by
  rw [opendir]
  split
  · rfl
  · exact serveFile_denied openServer_denies

theorem sget_depends (h : Command.sget.lengthFits recvbuffer = true) :
    (sget (serverOf []) conn recvbuffer).goOn = true ∧
      (sget (serverOf "GET".toList) conn recvbuffer).goOn = false := by
  have hlength : ¬ recvbuffer.length ≠ ((scanSget (cstr recvbuffer)).1 + cfProtoOffset) % 2 ^ 32 :=
    not_not.mpr (of_decide_eq_true h)
  rw [sget, sget]
  simp only [if_neg hlength]
  refine ⟨rfl, ?_⟩
  have hcheck : ¬ cstr (((serverOf "GET".toList).decryptString conn.encryptionType
      ((recvbuffer.drop cfProtoOffset).take (scanSget (cstr recvbuffer)).1) conn.sessionKey).take
        3) ≠
      "GET".toList := not_not.mpr rfl
  rw [if_neg hcheck]
  split
  · rfl
  split
  · rfl
  · exact serveFile_denied openServer_denies

theorem sopendir_depends (h : requestFits "SOPENDIR" recvbuffer = true)
    (hkey : conn.sessionKey ≠ none) :
    (sopendir (serverOf []) conn recvbuffer).goOn = true ∧
      (sopendir (serverOf "OPENDIR".toList) conn recvbuffer).goOn = false := by
  obtain ⟨rest, heq⟩ := decryptRequest_decryptsTo openServer conn [] h
  obtain ⟨rest', heq'⟩ := decryptRequest_decryptsTo openServer conn "OPENDIR".toList h
  rw [sopendir, sopendir, heq, heq']
  simp only [if_neg hkey]
  exact ⟨rfl, opendir_denied⟩

theorem ssynch_depends (h : requestFits "SSYNCH" recvbuffer = true)
    (hkey : conn.sessionKey ≠ none) :
    (ssynch (serverOf []) conn recvbuffer).goOn = true ∧
      (ssynch (serverOf "SYNCH".toList) conn recvbuffer).goOn = false := by
  obtain ⟨rest, heq⟩ := decryptRequest_decryptsTo openServer conn [] h
  obtain ⟨rest', heq'⟩ := decryptRequest_decryptsTo openServer conn "SYNCH".toList h
  rw [ssynch, ssynch, heq, heq']
  simp only [if_neg hkey]
  refine ⟨rfl, ?_⟩
  have hcstr : cstr ("SYNCH".toList ++ '\x00' :: rest') = "SYNCH".toList := rfl
  have hscan : scanSynch "SYNCH".toList = (0, []) := by decide
  rw [isPrefixOf_append_self, synch, hcstr, hscan]
  cases conn.idVerified with
  | false => rfl
  | true => rfl

theorem smd5_depends (h : requestFits "SMD5" recvbuffer = true) :
    (smd5 (serverOf []) conn recvbuffer).goOn = false ∧
      (smd5 (serverOf "MD5".toList) conn recvbuffer).goOn = true := by
  obtain ⟨rest, heq⟩ := decryptRequest_decryptsTo openServer conn [] h
  obtain ⟨rest', heq'⟩ := decryptRequest_decryptsTo openServer conn "MD5".toList h
  rw [smd5, smd5, heq, heq']
  refine ⟨rfl, ?_⟩
  simp only [isPrefixOf_append_self, Bool.not_true, Bool.false_eq_true, if_false]
  rw [md5]
  split
  · rfl
  · rfl

theorem svar_depends (h : requestFits "SVAR" recvbuffer = true) :
    (svar (serverOf []) conn recvbuffer).goOn = false ∧
      (svar (serverOf "VAR".toList) conn recvbuffer).goOn = true := by
  obtain ⟨rest, heq⟩ := decryptRequest_decryptsTo openServer conn [] h
  obtain ⟨rest', heq'⟩ := decryptRequest_decryptsTo openServer conn "VAR".toList h
  rw [svar, svar, heq, heq']
  refine ⟨rfl, ?_⟩
  simp only [isPrefixOf_append_self, Bool.not_true, Bool.false_eq_true, if_false]
  rw [var]
  split
  · rfl
  · rfl

theorem scontext_depends (h : requestFits "SCONTEXT" recvbuffer = true) :
    (scontext (serverOf []) conn recvbuffer).goOn = false ∧
      (scontext (serverOf "CONTEXT".toList) conn recvbuffer).goOn = true := by
  obtain ⟨rest, heq⟩ := decryptRequest_decryptsTo openServer conn [] h
  obtain ⟨rest', heq'⟩ := decryptRequest_decryptsTo openServer conn "CONTEXT".toList h
  rw [scontext, scontext, heq, heq']
  refine ⟨rfl, ?_⟩
  simp only [isPrefixOf_append_self, Bool.not_true, Bool.false_eq_true, if_false]
  rw [context]
  split
  · rfl
  · rfl

theorem squery_depends (h : requestFits "SQUERY" recvbuffer = true) :
    (squery (serverOf []) conn recvbuffer).goOn = false ∧
      (squery (serverOf "QUERY".toList) conn recvbuffer).goOn = true := by
  obtain ⟨rest, heq⟩ := decryptRequest_decryptsTo openServer conn [] h
  obtain ⟨rest', heq'⟩ := decryptRequest_decryptsTo openServer conn "QUERY".toList h
  rw [squery, squery, heq, heq']
  refine ⟨rfl, ?_⟩
  simp only [isPrefixOf_append_self, Bool.not_true, Bool.false_eq_true, if_false]
  rw [query]
  split
  · rfl
  · rfl

theorem callMeBack_depends (h : requestFits "SCALLBACK" recvbuffer = true) :
    (callMeBack (serverOf []) conn recvbuffer).goOn = false ∧
      (callMeBack (serverOf "CALL_ME_BACK collect_calls".toList) conn recvbuffer).goOn = true := by
  obtain ⟨rest, heq⟩ := decryptRequest_decryptsTo openServer conn [] h
  obtain ⟨rest', heq'⟩ :=
    decryptRequest_decryptsTo openServer conn "CALL_ME_BACK collect_calls".toList h
  rw [callMeBack, callMeBack, heq, heq']
  refine ⟨rfl, ?_⟩
  simp only [isPrefixOf_append_self, Bool.not_true, Bool.false_eq_true, if_false]
  rw [query]
  split
  · rfl
  · rfl

end busyWithConnection

open busyWithConnection in
/-- `DecryptString` is called exactly if what it writes makes a difference to some server. -/
theorem reachesDecryptString_iff :
    reachesDecryptString conn recvbuffer = true ↔ ∃ env decrypt,
      busyWithConnection (withDecryptString env decrypt) conn (some recvbuffer) ≠
        busyWithConnection env conn (some recvbuffer) := by
  constructor
  · intro h
    cases hcommand : getCommand (cstr recvbuffer) with
    | none =>
      rw [reachesDecryptString, hcommand] at h
      cases h
    | some command =>
      obtain ⟨hfits, hkey⟩ := (reachesDecryptString_of_command hcommand).mp h
      have hdiffer {text : List Char} {b : Bool}
          (hgoOn : (handler (serverOf []) conn recvbuffer command).goOn = b ∧
            (handler (serverOf text) conn recvbuffer command).goOn = !b) : ∃ env decrypt,
            busyWithConnection (withDecryptString env decrypt) conn (some recvbuffer) ≠
              busyWithConnection env conn (some recvbuffer) := by
        refine ⟨serverOf [], decryptsTo text, ?_⟩
        intro heq
        rw [busyWithConnection_of_command hcommand, busyWithConnection_of_command hcommand] at heq
        have hnot := hgoOn.2.symm.trans ((congrArg Served.goOn heq).trans hgoOn.1)
        exact Bool.not_ne_self b hnot
      cases command with
      | sget => exact hdiffer (sget_depends hfits)
      | sopendir => exact hdiffer (sopendir_depends hfits fun hnone => (hkey hnone).1 rfl)
      | ssynch => exact hdiffer (ssynch_depends hfits fun hnone => (hkey hnone).2 rfl)
      | smd5 => exact hdiffer (smd5_depends hfits)
      | svar => exact hdiffer (svar_depends hfits)
      | scontext => exact hdiffer (scontext_depends hfits)
      | squery => exact hdiffer (squery_depends hfits)
      | callMeBack => exact hdiffer (callMeBack_depends hfits)
      | _ => cases hfits
  · intro ⟨env, decrypt, hne⟩
    apply Classical.byContradiction
    intro h
    exact hne (busyWithConnection_decryptString h)

/-! ## Clients that are not verified -/

/-- Nothing but a refusal is answered, and the connection ends. -/
structure TurnsAway (served : Served) : Prop where
  events : ∀ e ∈ served.events, e = .refused ∨ e = .sent "BAD: Request denied\n".toList
  ends : served.goOn = false

theorem turnsAway_refuse : TurnsAway (refuse conn false) where
  events _ he := .inl (List.mem_singleton.mp he)
  ends := rfl

theorem turnsAway_badRequest : TurnsAway (badRequest conn) where
  events _ he := .inr (List.mem_singleton.mp he)
  ends := rfl

/-- The commands that an unverified client gets more than a refusal for. -/
def Command.answersUnverified : Command → Bool
  | .version | .md5 | .smd5 | .var | .svar | .context | .scontext | .squery | .callMeBack => true
  | _ => false

/-- The commands whose request is decrypted with no look at the session key. -/
def Command.decryptsWithoutKey : Command → Bool
  | .sget | .smd5 | .svar | .scontext | .squery | .callMeBack => true
  | _ => false

namespace busyWithConnection

section
variable (hid : conn.idVerified = false)
include hid

theorem exec_unverified : exec env conn recvbuffer = refuse conn false := by
  rw [exec]
  simp [hid]

theorem sauth_unverified : sauth env conn recvbuffer = refuse conn false := by
  rw [sauth, hid]
  rfl

theorem get_unverified : get env conn recvbuffer = refuse conn false := by
  rw [get]
  simp [hid]

theorem opendir_unverified {encrypt : Bool} :
    opendir env conn encrypt recvbuffer = refuse conn false := by
  rw [opendir]
  simp [hid]

theorem synch_unverified : synch env conn recvbuffer = refuse conn false := by
  rw [synch, hid]
  rfl

theorem version_unverified :
    version env conn = ⟨[.refused, .sent ("OK: ".toList ++ env.version)], conn, false⟩ := by
  rw [version, hid]
  rfl

theorem md5_unverified : md5 env conn recvbuffer = refuse conn true := by
  rw [md5, hid]
  rfl

theorem var_unverified {encrypted : Bool} :
    var env conn encrypted recvbuffer = refuse conn true := by
  rw [var, hid]
  rfl

theorem context_unverified {encrypted : Bool} :
    context env conn encrypted recvbuffer = refuse conn true := by
  rw [context, hid]
  rfl

/-- An unverified client without a session key is turned away, unless its command is one of those
that answer it, or is decrypted nevertheless. -/
theorem handler_turnsAway {command : Command} (hkey : conn.sessionKey = none)
    (hanswers : command.answersUnverified = false)
    (hdecrypts : command.decryptsWithoutKey = true → command.lengthFits recvbuffer = false)
    (hcauth : command = .cauth →
      (env.verifyConnection conn (cstr (recvbuffer.drop "CAUTH ".length))).1 = false) :
    TurnsAway (handler env conn recvbuffer command) := by
  cases command with
  | exec =>
    rw [handler, exec_unverified hid]
    exact turnsAway_refuse
  | sauth =>
    rw [handler, sauth_unverified hid]
    exact turnsAway_refuse
  | get =>
    rw [handler, get_unverified hid]
    exact turnsAway_refuse
  | opendir =>
    rw [handler, opendir_unverified hid]
    exact turnsAway_refuse
  | synch =>
    rw [handler, synch_unverified hid]
    exact turnsAway_refuse
  | sopendir =>
    rw [handler, sopendir_of_guard (.inr hkey)]
    exact turnsAway_refuse
  | ssynch =>
    rw [handler, ssynch_of_guard (.inr hkey)]
    exact turnsAway_refuse
  | sget =>
    rw [handler, sget_of_not_fits (hdecrypts rfl)]
    exact turnsAway_refuse
  | cauth =>
    rw [handler, cauth]
    simp only [hcauth rfl]
    exact turnsAway_refuse
  | auth | classes => exact turnsAway_badRequest
  | _ => cases hanswers

/-- An unverified client is not turned away by the commands that answer it. -/
theorem not_turnsAway_handler {command : Command} (hanswers : command.answersUnverified = true)
    (hdecrypts : command.decryptsWithoutKey = true → command.lengthFits recvbuffer = false) :
    ¬ TurnsAway (handler env conn recvbuffer command) := by
  have hgoesOn {served : Served} (hgoOn : served.goOn = true) : ¬ TurnsAway served := by
    intro h
    exact Bool.false_ne_true (h.ends.symm.trans hgoOn)
  cases command with
  | version =>
    rw [handler, version_unverified hid]
    intro h
    have hsent := h.events (.sent ("OK: ".toList ++ env.version))
      (List.mem_cons_of_mem _ List.mem_cons_self)
    cases hsent with
    | inl hsent => cases hsent
    | inr hsent =>
      have hhead : some 'O' = some 'B' := congrArg List.head? (ServerEvent.sent.inj hsent)
      exact absurd hhead (by decide)
  | md5 => exact hgoesOn (by rw [handler, md5_unverified hid]; rfl)
  | var => exact hgoesOn (by rw [handler, var_unverified hid]; rfl)
  | context => exact hgoesOn (by rw [handler, context_unverified hid]; rfl)
  | smd5 => exact hgoesOn (by rw [handler, smd5_of_not_fits (hdecrypts rfl)]; rfl)
  | svar => exact hgoesOn (by rw [handler, svar_of_not_fits (hdecrypts rfl)]; rfl)
  | scontext => exact hgoesOn (by rw [handler, scontext_of_not_fits (hdecrypts rfl)]; rfl)
  | squery => exact hgoesOn (by rw [handler, squery_of_not_fits (hdecrypts rfl)]; rfl)
  | callMeBack => exact hgoesOn (by rw [handler, callMeBack_of_not_fits (hdecrypts rfl)]; rfl)
  | _ => cases hanswers

end

end busyWithConnection

/-! ## Sequences of requests -/

/-- `AuthenticationDialogue` succeeds in the request. -/
def Authenticates (c : ServerConnectionState × Request) : Prop :=
  ∃ recvbuffer, c.2.message = some recvbuffer ∧ getCommand (cstr recvbuffer) = some .sauth ∧
    c.1.idVerified = true ∧ (c.2.env.authenticationDialogue c.1 recvbuffer).1 = true

/-- `VerifyConnection` succeeds in the request. -/
def Identifies (c : ServerConnectionState × Request) : Prop :=
  ∃ recvbuffer, c.2.message = some recvbuffer ∧ getCommand (cstr recvbuffer) = some .cauth ∧
    (c.2.env.verifyConnection c.1 (cstr (recvbuffer.drop "CAUTH ".length))).1 = true

/-- The law for a request, with the requests in front of it: `DecryptString` is called behind an
authentication only, and a client that is not verified and does not become so is turned away. -/
structure Authenticated (before : List (ServerConnectionState × Request))
    (c : ServerConnectionState × Request) : Prop where
  decrypts : ∀ recvbuffer, c.2.message = some recvbuffer →
    reachesDecryptString c.1 recvbuffer = true →
    c.1.sessionKey ≠ none ∧ ∃ c' ∈ before, Authenticates c'
  unverified : c.1.idVerified = false → ¬ Identifies c →
    TurnsAway (busyWithConnection c.2.env c.1 c.2.message)

/-- The request is none of those that the checks have been forgotten for. -/
structure Checked (c : ServerConnectionState × Request) : Prop where
  sessionKey : ∀ recvbuffer command, c.2.message = some recvbuffer →
    getCommand (cstr recvbuffer) = some command → command.decryptsWithoutKey = true →
    command.lengthFits recvbuffer = true → c.1.sessionKey ≠ none
  idVerified : ∀ recvbuffer command, c.2.message = some recvbuffer →
    getCommand (cstr recvbuffer) = some command → command.answersUnverified = true →
    c.1.idVerified = true

/-- What holds between two requests: a session key was established by an authentication, and a
client is verified before. -/
structure SessionInv (before : List (ServerConnectionState × Request))
    (conn : ServerConnectionState) : Prop where
  unverified : conn.idVerified = false → conn.sessionKey = none
  authenticated : conn.sessionKey ≠ none → ∃ c ∈ before, Authenticates c

theorem sessionInv_newConn {ipaddr : CString} {maproot : Bool} :
    SessionInv [] (newConn ipaddr maproot) where
  unverified _ := rfl
  authenticated h := absurd rfl h

variable {before : List (ServerConnectionState × Request)}

theorem SessionInv.of_sameSession (h : SessionInv before conn) (hsame : SameSession conn conn')
    {c : ServerConnectionState × Request} : SessionInv (before ++ [c]) conn' where
  unverified hid := by
    rw [hsame.idVerified] at hid
    rw [hsame.sessionKey]
    exact h.unverified hid
  authenticated hkey := by
    rw [hsame.sessionKey] at hkey
    obtain ⟨c', hmem, hc'⟩ := h.authenticated hkey
    exact ⟨c', List.mem_append_left _ hmem, hc'⟩

open busyWithConnection in
theorem SessionInv.cauth (h : SessionInv before conn) {c : ServerConnectionState × Request}
    (hgoOn : (handler senv.serverEnv conn recvbuffer .cauth).goOn = true) :
    SessionInv (before ++ [c]) (handler senv.serverEnv conn recvbuffer .cauth).conn := by
  have hid : (handler senv.serverEnv conn recvbuffer .cauth).conn.idVerified = true := hgoOn
  have hsame : (handler senv.serverEnv conn recvbuffer .cauth).conn.sessionKey = conn.sessionKey :=
    verifyConnection_sessionKey
  refine ⟨?_, ?_⟩
  · intro hnot
    rw [hid] at hnot
    cases hnot
  · intro hkey
    rw [hsame] at hkey
    obtain ⟨c', hmem, hc'⟩ := h.authenticated hkey
    exact ⟨c', List.mem_append_left _ hmem, hc'⟩

open busyWithConnection in
theorem sessionInv_sauth {message : Option (List Char)} (hmessage : message = some recvbuffer)
    (hcommand : getCommand (cstr recvbuffer) = some .sauth)
    (hgoOn : (handler senv.serverEnv conn recvbuffer .sauth).goOn = true) :
    SessionInv (before ++ [(conn, ⟨senv.serverEnv, message⟩)])
      (handler senv.serverEnv conn recvbuffer .sauth).conn := by
  rw [handler, sauth] at hgoOn ⊢
  cases hid : conn.idVerified with
  | false =>
    rw [hid] at hgoOn
    cases hgoOn
  | true =>
    rw [hid] at hgoOn
    simp only [Bool.not_true, Bool.false_eq_true, if_false] at hgoOn ⊢
    split at hgoOn
    · cases hgoOn
    rename_i conn' heq
    have hdialogue : authenticationDialogue senv conn recvbuffer = (true, conn') := heq
    have hverified : conn'.idVerified = true := by
      have hkeeps : (authenticationDialogue senv conn recvbuffer).2.idVerified = conn.idVerified :=
        authenticationDialogue_idVerified
      rw [hdialogue] at hkeeps
      exact hkeeps.trans hid
    have hkey : conn'.sessionKey ≠ none := by
      have hgiven : (authenticationDialogue senv conn recvbuffer).2.sessionKey ≠ none :=
        authenticationDialogue_sessionKey (congrArg Prod.fst hdialogue)
      rw [hdialogue] at hgiven
      exact hgiven
    refine ⟨?_, ?_⟩
    · intro hnot
      rw [hverified] at hnot
      cases hnot
    · intro _
      refine ⟨_, List.mem_append_right _ List.mem_cons_self, recvbuffer, hmessage, hcommand, hid,
        ?_⟩
      exact congrArg Prod.fst hdialogue

open busyWithConnection in
/-- The invariant is kept by each request that the connection goes on behind. -/
theorem SessionInv.step (h : SessionInv before conn) {r : SessionRequest}
    (hgoOn : (busyWithConnection r.env.serverEnv conn r.message).goOn = true) :
    SessionInv (before ++ [(conn, r.request)])
      (busyWithConnection r.env.serverEnv conn r.message).conn := by
  obtain ⟨senv, message⟩ := r
  cases message with
  | none => cases hgoOn
  | some recvbuffer =>
    cases hcommand : getCommand (cstr recvbuffer) with
    | none =>
      simp only [busyWithConnection_of_none hcommand] at hgoOn ⊢
      split at hgoOn <;> cases hgoOn
    | some command =>
      simp only [busyWithConnection_of_command hcommand] at hgoOn ⊢
      cases hsession : decide (command = .cauth ∨ command = .sauth) with
      | false =>
        have hsession := not_or.mp (of_decide_eq_false hsession)
        exact h.of_sameSession (handler_sameSession hsession.1 hsession.2)
      | true =>
        obtain rfl | rfl := of_decide_eq_true hsession
        · exact h.cauth hgoOn
        · exact sessionInv_sauth rfl hcommand hgoOn

open busyWithConnection in
/-- One request: the law holds exactly if its checks have not been forgotten. -/
theorem SessionInv.authenticated_iff (h : SessionInv before conn) {r : Request} :
    Authenticated before (conn, r) ↔ Checked (conn, r) := by
  obtain ⟨env, message⟩ := r
  constructor
  · intro hlaw
    have hkey (recvbuffer : List Char) (command : Command) (hmessage : message = some recvbuffer)
        (hcommand : getCommand (cstr recvbuffer) = some command)
        (hdecrypts : command.decryptsWithoutKey = true)
        (hfits : command.lengthFits recvbuffer = true) : conn.sessionKey ≠ none := by
      apply (hlaw.decrypts recvbuffer hmessage _).1
      rw [reachesDecryptString_of_command hcommand]
      refine ⟨hfits, ?_⟩
      intro _
      cases command <;> simp_all [Command.decryptsWithoutKey]
    refine ⟨hkey, ?_⟩
    intro recvbuffer command (hmessage : message = some recvbuffer) hcommand hanswers
    rw [← Bool.not_eq_false]
    intro hid
    have hnot : ¬ Identifies (conn, ⟨env, message⟩) := by
      intro ⟨recvbuffer', hmessage', hcauth, _⟩
      cases hmessage.symm.trans hmessage'
      cases hcommand.symm.trans hcauth
      cases hanswers
    have haway : TurnsAway (busyWithConnection env conn message) := hlaw.unverified hid hnot
    rw [hmessage, busyWithConnection_of_command hcommand] at haway
    refine not_turnsAway_handler hid hanswers ?_ haway
    intro hdecrypts
    rw [← Bool.not_eq_true]
    intro hfits
    exact hkey recvbuffer command hmessage hcommand hdecrypts hfits (h.unverified hid)
  · intro hchecked
    refine ⟨?_, ?_⟩
    · intro recvbuffer hmessage hreaches
      have hkey : conn.sessionKey ≠ none := by
        cases hcommand : getCommand (cstr recvbuffer) with
        | none =>
          rw [reachesDecryptString, hcommand] at hreaches
          cases hreaches
        | some command =>
          rw [reachesDecryptString_of_command hcommand] at hreaches
          obtain ⟨hfits, hguarded⟩ := hreaches
          intro hnone
          obtain ⟨hsopendir, hssynch⟩ := hguarded hnone
          refine hchecked.sessionKey recvbuffer command hmessage hcommand ?_ hfits hnone
          cases command with
          | sopendir => exact absurd rfl hsopendir
          | ssynch => exact absurd rfl hssynch
          | sget | smd5 | svar | scontext | squery | callMeBack => rfl
          | _ => cases hfits
      exact ⟨hkey, h.authenticated hkey⟩
    · intro hid hnot
      change TurnsAway (busyWithConnection env conn message)
      cases message with
      | none => exact ⟨fun _ he => absurd he List.not_mem_nil, rfl⟩
      | some recvbuffer =>
        cases hcommand : getCommand (cstr recvbuffer) with
        | none =>
          rw [busyWithConnection_of_none hcommand]
          split
          · exact ⟨fun _ he => absurd he List.not_mem_nil, rfl⟩
          · exact turnsAway_badRequest
        | some command =>
          rw [busyWithConnection_of_command hcommand]
          refine handler_turnsAway hid (h.unverified hid) ?_ ?_ ?_
          · rw [← Bool.not_eq_true]
            intro hanswers
            have hverified : conn.idVerified = true :=
              hchecked.idVerified recvbuffer command rfl hcommand hanswers
            exact Bool.false_ne_true (hid.symm.trans hverified)
          · intro hdecrypts
            rw [← Bool.not_eq_true]
            intro hfits
            exact hchecked.sessionKey recvbuffer command rfl hcommand hdecrypts hfits
              (h.unverified hid)
          · intro hcauth
            subst hcauth
            rw [← Bool.not_eq_true]
            intro hverified
            exact hnot ⟨recvbuffer, rfl, hcommand, hverified⟩

/-- The requests that are handled from a state of the invariant on. -/
theorem SessionInv.each_iff {requests : List SessionRequest} (h : SessionInv before conn) :
    Histories.Each Authenticated before
        (handleConnection conn (requests.map SessionRequest.request)) ↔
      ∀ c ∈ handleConnection conn (requests.map SessionRequest.request), Checked c := by
  induction requests generalizing conn before with
  | nil => exact iff_of_true Histories.each_nil fun _ hc => absurd hc List.not_mem_nil
  | cons r requests ih =>
    rw [List.map_cons, handleConnection]
    simp only [Histories.each_cons, List.forall_mem_cons]
    apply and_congr h.authenticated_iff
    split
    · rename_i hgoOn
      exact ih (h.step hgoOn)
    · exact iff_of_true Histories.each_nil fun _ hc => absurd hc List.not_mem_nil

/-- In every sequence of requests on a new connection, `DecryptString` is called behind an
authentication only and unverified clients are turned away, exactly if no request comes whose checks
have been forgotten. -/
theorem handleConnection_authenticated_iff {ipaddr : CString} {maproot : Bool}
    {requests : List SessionRequest} :
    Histories.Each Authenticated []
        (handleConnection (newConn ipaddr maproot) (requests.map SessionRequest.request)) ↔
      ∀ c ∈ handleConnection (newConn ipaddr maproot) (requests.map SessionRequest.request),
        Checked c :=
  sessionInv_newConn.each_iff

/-- A server that nobody has given a key to yet. -/
def newServer : SessionEnv :=
  { closedServer with
    trust := false
    skipverify := []
    trustkeylist := []
    getaddrinfo := fun _ => []
    varadmit := []
    vardeny := []
    hasKeys := true
    rsaPrivateDecrypt := fun _ => none
    rsaPublicEncrypt := fun bytes _ => some bytes
    mpi2bn := fun bytes => some bytes.length
    counterChallenge := ['\x01']
    hashString := id
    hashPubKey := fun _ => []
    havePublicKey := fun _ _ _ => none
    propositionC2 := none
    propositionC3 := none
    propositionC4 := none
    propositionC5 := none }

/-- On a new connection a request is decrypted without a key and the connection goes on, and then
the version of the server is told. -/
theorem handleConnection_unauthenticated :
    let conn := newConn "10.0.0.2".toList false
    let recvbuffer := "SGET 1 0\x00\x00\x00\x00\x00\x00\x00\x00?".toList
    let requests : List SessionRequest :=
      [⟨newServer, some recvbuffer⟩, ⟨newServer, some "VERSION\x00".toList⟩]
    let handled := handleConnection conn (requests.map SessionRequest.request)
    handled.map (fun c => (busyWithConnection c.2.env c.1 c.2.message).events) =
        [[.refused], [.refused, .sent "OK: 3.3.0".toList]] ∧
      reachesDecryptString conn recvbuffer = true ∧ conn.sessionKey = none ∧
      ¬ Histories.Each Authenticated [] handled := by
  intro conn recvbuffer requests handled
  have hevents : handled.map (fun c => (busyWithConnection c.2.env c.1 c.2.message).events) =
      [[.refused], [.refused, .sent "OK: 3.3.0".toList]] := by decide
  have hreaches : reachesDecryptString conn recvbuffer = true := by decide
  refine ⟨hevents, hreaches, rfl, ?_⟩
  intro h
  have hlaw := h [] (conn, ⟨newServer.serverEnv, some recvbuffer⟩) _ rfl
  exact (hlaw.decrypts recvbuffer rfl hreaches).1 rfl

end Cfengine
