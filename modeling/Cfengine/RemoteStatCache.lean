import Cfengine.RemoteStat

/-!
# The cache of remote `stat` (`client_code.c`)

`cf_remote_stat` keeps in the promise what a server said about a file. What comes back for a
question is given.
-/

namespace Cfengine

/-- `Stat`, in the cache of a promise. -/
structure CachedStat extends CfStat where
  cf_filename : CString
  cf_server : CString
  cf_failed : Bool

/-- What is read and written of the `Promise`. -/
structure StatPromise where
  thisServer : CString
  cache : List CachedStat
  makeholes : Int

/-- What comes back: the reply and the text of the link behind it. `none` is a transmission that
fails, or an encrypted copy for which there is no key. -/
structure StatAnswer where
  reply : Option CString
  link : Option CString

namespace StatPromise
variable (pp : StatPromise)

/-- `CacheStat`, which does not store the device. -/
def cacheStat (file : CString) (statbuf : StatBuf) (stattype : CString) : Int × StatBuf :=
  match pp.cache.find? fun sp => pp.thisServer = sp.cf_server && file = sp.cf_filename with
  | none => (0, statbuf)
  | some sp =>
    if sp.cf_failed then (-1, statbuf)
    else
      (1, { statbuf with
        st_mode := if stattype = "link".toList && sp.cf_lmode ≠ 0 then sp.cf_lmode else sp.cf_mode
        st_uid := sp.cf_uid
        st_gid := sp.cf_gid
        st_size := sp.cf_size
        st_atime := sp.cf_atime
        st_mtime := sp.cf_mtime
        st_ctime := sp.cf_ctime
        st_ino := (sp.cf_ino % 2 ^ 64).toNat
        st_nlink := (sp.cf_nlink % 2 ^ 64).toNat })

/-- `cf_remote_stat` behind the cache. -/
def askServer (answer : StatAnswer) (file : CString) (buf : StatBuf) (stattype : CString) :
    Int × StatBuf × StatPromise :=
  match answer.reply with
  | none => (-1, buf, pp)
  | some reply =>
    match Cfengine.cfRemoteStat (reply, answer.link.getD []) stattype buf with
    | none => (-1, buf, pp)
    | some (cfst, statbuf) =>
      let pp := { pp with makeholes := cfst.cf_makeholes }
      match answer.link with
      | none => (-1, buf, pp)
      | some _ =>
        let entry :=
          { cfst with cf_filename := file, cf_server := pp.thisServer, cf_failed := false }
        (0, statbuf, { pp with cache := entry :: pp.cache })

/-- `cf_remote_stat` -/
def cfRemoteStat (answer : StatAnswer) (file : CString) (buf : StatBuf) (stattype : CString) :
    Int × StatBuf × StatPromise :=
  if file.length > cfBufSize - 30 then (-1, buf, pp)
  else
    match pp.cacheStat file buf stattype with
    | (ret, statbuf) =>
      if ret ≠ 0 then (ret, statbuf, pp) else pp.askServer answer file statbuf stattype

end StatPromise

end Cfengine
