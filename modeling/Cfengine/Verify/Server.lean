import Cfengine.Server

/-!
# Which requests are access controlled

A request is `Backed` if whatever it sends of a file was granted by `AccessControl` before, for a
verified connection. `backed_iff` says that the comparison of a digest is the only request that is
not, and `handleConnection_backed_iff` says so of all requests of a connection.
-/

namespace Cfengine

variable {env : ServerEnv} {conn conn' : ServerConnectionState} {recvbuffer : List Char}

/-- What is sent of a file was granted before. -/
def Backs (env : ServerEnv) (conn : ServerConnectionState) (events : List ServerEvent) : Prop :=
  ∀ before reply path after, events = before ++ .file reply path :: after →
    conn.idVerified = true ∧ ∃ encrypt permType, .granted path encrypt permType ∈ before ∧
      (accessControl env path conn encrypt permType).1 = true

/-- Nothing is sent of a file. -/
def NoFile (events : List ServerEvent) : Prop := ∀ reply path, .file reply path ∉ events

theorem NoFile.backs {events : List ServerEvent} (h : NoFile events) : Backs env conn events := by
  intro before reply path after heq
  exact absurd (heq ▸ List.mem_append_right before List.mem_cons_self) (h reply path)

theorem noFile_nil : NoFile [] := fun _ _ => List.not_mem_nil

theorem noFile_refuse {goOn : Bool} : NoFile (refuse conn goOn).events := by
  intro reply path
  simp [refuse]

theorem noFile_badRequest : NoFile (badRequest conn).events := by
  intro reply path
  simp [badRequest]

/-- The events of a file that was granted. -/
theorem backs_granted {reply : FileReply} {path : CString} {encrypt : Bool} {permType : Char}
    (hid : conn.idVerified = true)
    (haccess : (accessControl env path conn encrypt permType).1 = true) :
    Backs env conn [.granted path encrypt permType, .file reply path] := by
  intro before reply' path' after heq
  cases before with
  | nil => cases heq
  | cons e before =>
    cases before with
    | nil =>
      cases heq
      exact ⟨hid, encrypt, permType, List.mem_singleton_self _, haccess⟩
    | cons e' before =>
      rw [List.cons_append, List.cons_append] at heq
      have hnil := (List.cons.inj (List.cons.inj heq).2).2
      exact absurd hnil.symm (by simp)

theorem backs_serveFile {reply : FileReply} {filename : CString} {encrypt goOn : Bool}
    {permType : Char} (hid : conn.idVerified = true) :
    Backs env conn (serveFile env conn reply filename encrypt permType goOn).events := by
  rw [serveFile]
  split
  · exact noFile_refuse.backs
  · rename_i haccess
    exact backs_granted hid (by rw [haccess])

/-! ## The commands -/

namespace busyWithConnection

theorem noFile_exec : NoFile (exec env conn recvbuffer).events := by
  rw [exec]
  simp only
  split
  · exact noFile_refuse
  split
  · exact noFile_refuse
  split
  · simp [NoFile]
  · simp [NoFile]

theorem noFile_version : NoFile (version env conn).events := by
  rw [version]
  cases conn.idVerified <;> simp [NoFile]

theorem noFile_cauth : NoFile (cauth env conn recvbuffer).events := by
  rw [cauth]
  simp only
  split
  · exact noFile_nil
  · simp [NoFile]

theorem noFile_sauth : NoFile (sauth env conn recvbuffer).events := by
  rw [sauth]
  split
  · exact noFile_refuse
  split
  · exact noFile_refuse
  · exact noFile_nil

theorem backs_get : Backs env conn (get env conn recvbuffer).events := by
  rw [get]
  simp only
  split
  · exact noFile_refuse.backs
  split
  · exact noFile_refuse.backs
  · rename_i hid
    exact backs_serveFile (by simpa using hid)

theorem backs_sget : Backs env conn (sget env conn recvbuffer).events := by
  rw [sget]
  simp only
  split
  · exact noFile_refuse.backs
  split
  · exact noFile_refuse.backs
  split
  · exact noFile_refuse.backs
  split
  · exact noFile_refuse.backs
  · rename_i hid
    exact backs_serveFile (by simpa using hid)

theorem backs_opendir {encrypt : Bool} :
    Backs env conn (opendir env conn encrypt recvbuffer).events := by
  rw [opendir]
  split
  · exact noFile_refuse.backs
  · rename_i hid
    exact backs_serveFile (by simpa using hid)

theorem backs_sopendir : Backs env conn (sopendir env conn recvbuffer).events := by
  rw [sopendir]
  split
  · exact noFile_refuse.backs
  split
  · exact noFile_refuse.backs
  split
  · exact noFile_refuse.backs
  · exact backs_opendir

theorem backs_synch : Backs env conn (synch env conn recvbuffer).events := by
  rw [synch]
  split
  · exact noFile_refuse.backs
  rename_i hid
  simp only
  split
  · exact noFile_badRequest.backs
  split
  · exact NoFile.backs (by simp [NoFile])
  split
  · exact noFile_refuse.backs
  rename_i haccess
  split
  · exact NoFile.backs (by simp [NoFile])
  · exact backs_granted (by simpa using hid) (by rw [haccess])

theorem backs_ssynch : Backs env conn (ssynch env conn recvbuffer).events := by
  rw [ssynch]
  split
  · exact noFile_refuse.backs
  split
  · exact noFile_refuse.backs
  split
  · exact noFile_refuse.backs
  · exact backs_synch

/-- A digest is compared for a verified connection, and then nothing was granted. -/
theorem backs_md5 : Backs env conn (md5 env conn recvbuffer).events ↔ conn.idVerified = false := by
  rw [md5]
  split
  · rename_i hid
    exact iff_of_true noFile_refuse.backs (by simpa using hid)
  · rename_i hid
    refine iff_of_false ?_ (by simpa using hid)
    intro h
    obtain ⟨_, _, _, hmem, _⟩ := h [] _ _ [] rfl
    exact absurd hmem List.not_mem_nil

theorem backs_smd5 : Backs env conn (smd5 env conn recvbuffer).events ↔
    ¬ (conn.idVerified = true ∧ ∃ plain, decryptRequest env conn "SMD5" recvbuffer = some plain ∧
      "MD5".toList.isPrefixOf plain = true) := by
  rw [smd5]
  cases hdecrypt : decryptRequest env conn "SMD5" recvbuffer with
  | none => exact iff_of_true noFile_refuse.backs (by simp)
  | some plain =>
    simp only
    split
    · rename_i hmd5
      apply iff_of_true noFile_refuse.backs
      intro ⟨_, plain', heq, hname⟩
      cases heq
      rw [hname] at hmd5
      cases hmd5
    · rename_i hmd5
      have hname : "MD5".toList.isPrefixOf plain = true := by simpa using hmd5
      rw [backs_md5, ← Bool.not_eq_true]
      apply not_congr
      exact ⟨fun hid => ⟨hid, plain, rfl, hname⟩, And.left⟩

theorem noFile_var {encrypted : Bool} : NoFile (var env conn encrypted recvbuffer).events := by
  rw [var]
  split
  · exact noFile_refuse
  split
  · exact noFile_refuse
  · simp [NoFile]

theorem noFile_svar : NoFile (svar env conn recvbuffer).events := by
  rw [svar]
  split
  · exact noFile_refuse
  split
  · exact noFile_refuse
  · exact noFile_var

theorem noFile_context {encrypted : Bool} :
    NoFile (context env conn encrypted recvbuffer).events := by
  rw [context]
  split
  · exact noFile_refuse
  split
  · exact noFile_refuse
  · simp [NoFile]

theorem noFile_scontext : NoFile (scontext env conn recvbuffer).events := by
  rw [scontext]
  split
  · exact noFile_refuse
  split
  · exact noFile_refuse
  · exact noFile_context

theorem noFile_query {reply : ServerConnectionState → Bool} :
    NoFile (query env conn reply recvbuffer).events := by
  rw [query]
  split
  · exact noFile_refuse
  split
  · exact noFile_refuse
  split
  · simp [NoFile]
  · exact noFile_badRequest

theorem noFile_squery : NoFile (squery env conn recvbuffer).events := by
  rw [squery]
  split
  · exact noFile_refuse
  split
  · exact noFile_refuse
  · exact noFile_query

theorem noFile_callMeBack : NoFile (callMeBack env conn recvbuffer).events := by
  rw [callMeBack]
  split
  · exact noFile_refuse
  split
  · exact noFile_refuse
  · exact noFile_query

end busyWithConnection

/-! ## Requests -/

/-- What a request sends of a file was granted in the same request. -/
def Backed (conn : ServerConnectionState) (r : Request) : Prop :=
  Backs r.env conn (busyWithConnection r.env conn r.message).events

/-- A request to compare a digest, of a verified connection. -/
structure ComparesHash (conn : ServerConnectionState) (r : Request) : Prop where
  idVerified : conn.idVerified = true
  command : ∃ recvbuffer, r.message = some recvbuffer ∧
    (getCommand (cstr recvbuffer) = some .md5 ∨
      getCommand (cstr recvbuffer) = some .smd5 ∧
        ∃ plain, decryptRequest r.env conn "SMD5" recvbuffer = some plain ∧
          "MD5".toList.isPrefixOf plain = true)

theorem getCommand_nil : getCommand [] = none := by decide

theorem comparesHash_iff {message : Option (List Char)} :
    ComparesHash conn ⟨env, message⟩ ↔ conn.idVerified = true ∧
      ∃ recvbuffer, message = some recvbuffer ∧
        (getCommand (cstr recvbuffer) = some .md5 ∨
          getCommand (cstr recvbuffer) = some .smd5 ∧
            ∃ plain, decryptRequest env conn "SMD5" recvbuffer = some plain ∧
              "MD5".toList.isPrefixOf plain = true) :=
  ⟨fun h => ⟨h.idVerified, h.command⟩, fun h => ⟨h.1, h.2⟩⟩

theorem not_comparesHash {command : Option Command}
    (hcommand : getCommand (cstr recvbuffer) = command) (hmd5 : command ≠ some .md5)
    (hsmd5 : command ≠ some .smd5) : ¬ ComparesHash conn ⟨env, some recvbuffer⟩ := by
  rw [comparesHash_iff]
  intro ⟨_, recvbuffer', heq, h⟩
  cases heq
  rw [hcommand] at h
  cases h with
  | inl h => exact hmd5 h
  | inr h => exact hsmd5 h.1

open busyWithConnection in
theorem backed_iff {r : Request} : Backed conn r ↔ ¬ ComparesHash conn r := by
  obtain ⟨env, message⟩ := r
  cases message with
  | none =>
    apply iff_of_true noFile_nil.backs
    simp [comparesHash_iff]
  | some recvbuffer =>
    rw [Backed, busyWithConnection.eq_def]
    simp only
    split
    · rename_i hnil
      apply iff_of_true noFile_nil.backs
      exact not_comparesHash (by rw [hnil, getCommand_nil]) (by simp) (by simp)
    have hother {events : List ServerEvent} {command : Option Command}
        (hcommand : getCommand (cstr recvbuffer) = command) (hmd5 : command ≠ some .md5)
        (hsmd5 : command ≠ some .smd5) (hbacks : Backs env conn events) :
        Backs env conn events ↔ ¬ ComparesHash conn ⟨env, some recvbuffer⟩ :=
      iff_of_true hbacks (not_comparesHash hcommand hmd5 hsmd5)
    split <;> rename_i hcommand
    · exact hother hcommand (by simp) (by simp) noFile_exec.backs
    · exact hother hcommand (by simp) (by simp) noFile_version.backs
    · exact hother hcommand (by simp) (by simp) noFile_cauth.backs
    · exact hother hcommand (by simp) (by simp) noFile_sauth.backs
    · exact hother hcommand (by simp) (by simp) backs_get
    · exact hother hcommand (by simp) (by simp) backs_sget
    · exact hother hcommand (by simp) (by simp) backs_sopendir
    · exact hother hcommand (by simp) (by simp) backs_opendir
    · exact hother hcommand (by simp) (by simp) backs_ssynch
    · exact hother hcommand (by simp) (by simp) backs_synch
    · simp [backs_smd5, comparesHash_iff, hcommand]
    · simp [backs_md5, comparesHash_iff, hcommand]
    · exact hother hcommand (by simp) (by simp) noFile_svar.backs
    · exact hother hcommand (by simp) (by simp) noFile_var.backs
    · exact hother hcommand (by simp) (by simp) noFile_scontext.backs
    · exact hother hcommand (by simp) (by simp) noFile_context.backs
    · exact hother hcommand (by simp) (by simp) noFile_squery.backs
    · exact hother hcommand (by simp) (by simp) noFile_callMeBack.backs
    all_goals exact hother hcommand (by simp) (by simp) (NoFile.backs noFile_badRequest)

/-- The digest of a file is compared without access control, and that is all that is. -/
theorem handleConnection_backed_iff {requests : List Request} :
    (∀ c ∈ handleConnection conn requests, Backed c.1 c.2) ↔
      ∀ c ∈ handleConnection conn requests, ¬ ComparesHash c.1 c.2 := by
  constructor
  · intro h c hc
    exact backed_iff.mp (h c hc)
  · intro h c hc
    exact backed_iff.mpr (h c hc)

/-- A server whose rules admit nothing. -/
def closedServer : ServerEnv where
  vadmit := []
  vdeny := []
  cfruncommand := "/var/cfengine/bin/cf-agent".toList
  version := "3.3.0".toList
  time := some 1000
  denyBadClocks := true
  clockDrift := 3600
  uninitialised := []
  translatePath := id
  resolveFilename := id
  lstat := fun path => path = "/etc/shadow".toList
  cfstat := fun path => path = "/etc/shadow".toList
  mapName := id
  mapAddress := id
  isMatchItemIn := fun list item => list.any (· = item)
  isRegexItemIn := fun list item => list.any (· = item)
  decryptString := fun _ bytes _ => bytes
  hashesMatch := fun path digest => path = "/etc/shadow".toList && digest.take 1 = ['\x7f']
  verifyConnection := fun conn _ => (true, conn)
  authenticationDialogue := fun conn _ => (true, conn)
  allowedUser := fun _ => false
  matchClasses := fun _ => false
  literalAccessControl := fun _ conn _ => (false, conn)
  contextAccessControl := fun _ _ _ => none
  getServerQuery := fun _ _ => false
  receiveCollectCall := fun _ => false

def verifiedConnection : ServerConnectionState where
  idVerified := true
  rsaAuth := true
  maproot := false
  sessionKey := none
  hostname := "host.example.org".toList
  username := "root".toList
  encryptionType := 'c'
  ipaddr := "10.0.0.2".toList

/-- The digest of a file that no rule admits is compared. -/
theorem handleConnection_md5_denied :
    let r : Request := ⟨closedServer, some "MD5 /etc/shadow\x00\x00\x7f".toList⟩
    (accessControl closedServer "/etc/shadow".toList verifiedConnection false 'r').1 = false ∧
      (busyWithConnection r.env verifiedConnection r.message).events =
        [.file (.digest false) "/etc/shadow".toList] ∧
      ¬ ∀ c ∈ handleConnection verifiedConnection [r], Backed c.1 c.2 := by
  intro r
  have hevents : (busyWithConnection r.env verifiedConnection r.message).events =
      [.file (.digest false) "/etc/shadow".toList] := by decide
  have haccess : (accessControl closedServer "/etc/shadow".toList verifiedConnection false 'r').1 =
      false := by decide
  refine ⟨haccess, hevents, ?_⟩
  intro h
  have hbacked := h (verifiedConnection, r) List.mem_cons_self
  obtain ⟨_, _, _, hgranted, _⟩ := hbacked [] (.digest false) "/etc/shadow".toList [] hevents
  exact absurd hgranted List.not_mem_nil

end Cfengine
