import Cfengine.Expand
import Cfengine.FilesNames
import Cfengine.Server

/-!
# Access to contexts and roles, and the paths of requests (`server.c`)

`ContextAccessControl` looks for the persistent classes that a client may see, `AuthorizeRoles` for
the classes that it may define, and `ResolveFilename` finds the path that `AccessControl` compares
with the rules.
-/

namespace Cfengine

/-- `Auth` with what only a rule for contexts has. -/
structure ContextAuth extends Auth where
  classpattern : Bool

/-! ## `ResolveFilename` -/

/-- `ReadLastNode` -/
def readLastNode (str : CString) : CString :=
  match lastFileSeparator str with
  | none => str
  | some sp => str.drop (sp + 1)

/-- `ResolveFilename`; `none` if `realpath` fails. `MapName` does nothing on Unix. -/
def resolveFilename (realpath : CString → Option CString) (reqPath : CString) : Option CString :=
  let reqDir := (chopLastNode (reqPath.take (cfBufSize - 1))).2
  let reqFilename := (readLastNode reqPath).take (cfBufSize - 1)
  (realpath reqDir).map fun resPath => strlcat (addSlash resPath) reqFilename cfBufSize

/-! ## `ContextAccessControl` -/

section
variable (env : ServerEnv) (fullTextMatch : CString → CString → Bool)

/-- The loop over the rules that admit. -/
def contextAccessControl.admits (encrypt : Bool) (name : CString) :
    List ContextAuth → Bool → ServerConnectionState → Bool × ServerConnectionState
  | [], access, conn => (access, conn)
  | ap :: rest, access, conn =>
    if !fullTextMatch ap.path name then admits encrypt name rest access conn
    else if !ap.classpattern then admits encrypt name rest false conn
    else if !encrypt && ap.encrypt.toInt = 1 then (false, conn)
    else
      admits encrypt name rest (access || env.isHostIn ap.accesslist conn)
        { conn with maproot := conn.maproot || env.isHostIn ap.maproot conn }

/-- The loop over the rules that deny finds one. -/
def contextAccessControl.denies (vdenies : List ContextAuth) (name : CString)
    (conn : ServerConnectionState) : Bool :=
  vdenies.any fun ap => ap.path = name && env.isHostIn ap.accesslist conn

/-- The loop over the candidates. The variable `access` is set once, in front of it. -/
def contextAccessControl.loop (encrypt : Bool) (vadmits vdenies : List ContextAuth) :
    List CString → Bool → ServerConnectionState → List CString × ServerConnectionState
  | [], _, conn => ([], conn)
  | name :: candidates, access, conn =>
    let (access, conn) :=
      contextAccessControl.admits env fullTextMatch encrypt name vadmits access conn
    let access := access && !contextAccessControl.denies env vdenies name conn
    let (found, conn) := loop encrypt vadmits vdenies candidates access conn
    (if access then name :: found else found, conn)

/-- `ContextAccessControl`, for the persistent classes that have not expired, in the order of the
database. -/
def contextAccessControl (classes : List CString) (input : CString)
    (conn : ServerConnectionState) (encrypt : Bool) (vadmits vdenies : List ContextAuth) :
    List CString × ServerConnectionState :=
  let clientRegex := (((scanLiteral "CONTEXT".toList input).bind scanLine).getD
    env.uninitialised).take 255
  contextAccessControl.loop env fullTextMatch encrypt vadmits vdenies
    (classes.filter fun key => fullTextMatch clientRegex key) false conn

/-! ## `AuthorizeRoles` -/

/-- `SplitRegexAsRList(sp, "[,:;]", 99, false)`, with room for `room` more elements. What is in
front of a separator is copied to a buffer of `CF_MAXVARSIZE` characters. -/
def splitDefines.loop : Nat → Nat → CString → Except Fault (List CString)
  | 0, _, _ => .ok []
  | fuel + 1, room, sp =>
    if room = 0 then .ok []
    else
      let node := sp.takeWhile (· ∉ [',', ':', ';'])
      match sp.dropWhile (· ∉ [',', ':', ';']) with
      | [] => .ok (if node = [] then [] else [node.take (cfMaxVarSize - 1)])
      | _ :: rest =>
        if node.length ≥ cfMaxVarSize then .error .bufferOverflow
        else if node = [] then loop fuel room rest
        else (loop fuel (room - 1) rest).map (node :: ·)

def splitDefines (sp : CString) : Except Fault (List CString) :=
  splitDefines.loop (sp.length + 1) 99 sp

/-- The text of the classes in an argument `-D` or `--define`. -/
def definesOf (args : CString) : CString :=
  let sp :=
    if "--define".toList.isPrefixOf args then args.drop "--define".length
    else args.drop "-D".length
  sp.dropWhile (· = ' ')

/-- The access list of a role admits the caller. -/
def isCallerIn (accesslist : List CString) (conn : ServerConnectionState) : Bool :=
  env.isMatchItemIn accesslist (env.mapAddress conn.ipaddr) ||
    env.isRegexItemIn accesslist conn.hostname ||
    env.isRegexItemIn accesslist
      ((conn.username ++ '@' :: conn.hostname).take (cfMaxVarSize - 1)) ||
    env.isRegexItemIn accesslist ((conn.username ++ '@' :: conn.ipaddr).take (cfMaxVarSize - 1)) ||
    env.isRegexItemIn accesslist conn.username

/-- The loop over the roles for one class; `none` is the `return false` in it. -/
def authorizeRoles.roles (conn : ServerConnectionState) (item : CString) :
    List Auth → Bool → Option Bool
  | [], permitted => some permitted
  | ap :: rest, permitted =>
    if fullTextMatch ap.path item then
      if isCallerIn env ap.accesslist conn then roles conn item rest true else none
    else roles conn item rest permitted

/-- The loop over the classes. -/
def authorizeRoles.loop (roles : List Auth) (conn : ServerConnectionState) :
    List CString → Bool → Bool
  | [], permitted => permitted
  | item :: defines, permitted =>
    match authorizeRoles.roles env fullTextMatch conn item roles permitted with
    | none => false
    | some permitted => loop roles conn defines permitted

/-- `AuthorizeRoles` -/
def authorizeRoles (roles : List Auth) (conn : ServerConnectionState) (args : CString) :
    Except Fault Bool :=
  (splitDefines (definesOf args)).map fun defines =>
    authorizeRoles.loop env fullTextMatch roles conn defines false

end

end Cfengine
