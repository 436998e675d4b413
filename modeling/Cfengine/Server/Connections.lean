import Cfengine.AddrLib
import Cfengine.EnvContext

/-!
# The connections of the server (`server.c`, `cf-serverd-functions.c`)

`StartServer` accepts connections and calls `ServerEntryPoint` with the global `SV`, which C passes
by value. The locks are always granted.
-/

namespace Cfengine

/-- `MapAddress` -/
def mapAddress (unspecAddress : CString) : CString :=
  if "::ffff:".toList.isPrefixOf unspecAddress then unspecAddress.drop 7 else unspecAddress

/-- `Item`, where `classes` is the text of a time. -/
structure Item where
  name : CString
  classes : Int
deriving DecidableEq

/-- `ServerAccess` -/
structure ServerAccess where
  nonattackerlist : List CString
  attackerlist : List CString
  connectionlist : List Item
  multiconnlist : List CString
deriving DecidableEq

/-- `PurgeOldConnections` -/
def purgeOldConnections (list : List Item) (now : Int) : List Item :=
  list.filter fun ip => ¬ now > (ip.classes + 7200).bmod (2 ^ 32)

section
variable (isMatchItemIn : List CString → CString → Bool) (fullTextMatch : CString → CString → Bool)

/-- `DeleteItemMatching` deletes the first item that the regex matches. -/
def deleteItemMatching (list : List Item) (string : CString) : List Item :=
  list.eraseP fun ip => fullTextMatch string ip.name

/-- `ServerEntryPoint`, with what becomes of its own `sv`. It returns whether `SpawnConnection` is
called. -/
def serverEntryPoint (ipaddr : CString) (time : Option Int) (sv : ServerAccess) :
    Bool × ServerAccess :=
  if sv.nonattackerlist ≠ [] && !isMatchItemIn sv.nonattackerlist (mapAddress ipaddr) then
    (false, sv)
  else if isMatchItemIn sv.attackerlist (mapAddress ipaddr) then (false, sv)
  else
    let now := time.getD 0
    let sv := { sv with connectionlist := purgeOldConnections sv.connectionlist now }
    if !isMatchItemIn sv.multiconnlist (mapAddress ipaddr) &&
        isItemIn (sv.connectionlist.map Item.name) (mapAddress ipaddr) then (false, sv)
    else
      (true, { sv with
        connectionlist := ⟨mapAddress ipaddr, now.bmod (2 ^ 32)⟩ :: sv.connectionlist })

/-- `DeleteConn`, for a connection whose address was copied to `conn->ipaddr`. -/
def deleteConn (ipaddr : CString) (sv : ServerAccess) : ServerAccess :=
  { sv with
    connectionlist := deleteItemMatching fullTextMatch sv.connectionlist
      (mapAddress (ipaddr.take (cfMaxIpLen - 1))) }

/-- The server: `SV`, and the addresses of the connections that have not ended. -/
structure Server where
  sv : ServerAccess
  live : List CString
deriving DecidableEq

/-- A server that has just started. -/
def Server.start (nonattackerlist attackerlist multiconnlist : List CString) : Server :=
  ⟨⟨nonattackerlist, attackerlist, [], multiconnlist⟩, []⟩

/-- What happens to the connections of a server. -/
inductive ServerOp where
  /-- `StartServer` accepts a connection; `newConn` is whether `NewConn` succeeds. -/
  | accept (ipaddr : CString) (time : Option Int) (newConn : Bool)
  /-- `HandleConnection` ends with `DeleteConn`. -/
  | terminate (index : Nat)
  /-- `PurgeOldConnections(&SV.connectionlist, now)` -/
  | purge (now : Int)

/-- `ServerEntryPoint` gets a copy of `SV`. -/
def Server.step (s : Server) : ServerOp → Server
  | .accept ipaddr time newConn =>
    let spawned := (serverEntryPoint isMatchItemIn ipaddr time s.sv).1
    if spawned && newConn then { s with live := ipaddr :: s.live } else s
  | .terminate index =>
    match s.live[index]? with
    | none => s
    | some ipaddr => ⟨deleteConn fullTextMatch ipaddr s.sv, s.live.eraseIdx index⟩
  | .purge now =>
    { s with sv := { s.sv with connectionlist := purgeOldConnections s.sv.connectionlist now } }

end

end Cfengine
