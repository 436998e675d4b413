import Cfengine.Lastseen
import Cfengine.Theory.ReverseIndex

/-!
# Lookups of hosts by their addresses

The keys `k<hostkey>` and `a<address>` of the database are a map with a reverse map beside it. The
lookup of an address is exact behind any updates and lookups (`address2HostkeyInDB_iff`). The
removal of a host deletes the reverse entry of its address without a look at whose it is, and so
takes away the address of another host that was seen there since (`run_removesOnly_iff`).
-/

namespace Cfengine
open Runs ReverseIndex

/-! ## Keys -/

/-- The bytes of a key with a tag. -/
def entryKey (tag : Char) (name : ShortText) : List Char := tag :: name.text ++ ['\x00']

variable {tag tag' : Char} {name name' hostkey address : ShortText}

theorem entryKey_eq_iff : entryKey tag name = entryKey tag' name' ↔ tag = tag' ∧ name = name' := by
  constructor
  · intro h
    obtain ⟨htag, htext⟩ := List.cons.inj (List.append_inj' h rfl).1
    cases name
    cases name'
    cases htext
    exact ⟨htag, rfl⟩
  · intro ⟨htag, hname⟩
    rw [htag, hname]

theorem taggedKey_singleton : taggedKey [tag] name.text ++ ['\x00'] = entryKey tag name := by
  have hfits := name.fits
  rw [taggedKey, List.take_of_length_le (by rw [List.length_append, List.length_singleton]; omega)]
  rfl

theorem entryKey_ne_quality {d : Char} (htag : tag ≠ 'q') :
    entryKey tag name ≠ taggedKey ['q', d] name'.text ++ ['\x00'] := by
  have hfits := name'.fits
  rw [taggedKey, List.take_of_length_le (by rw [List.length_append]; simp; omega)]
  intro h
  exact htag (List.cons.inj h).1

theorem take_entry : (name.text ++ ['\x00']).take cfBufSize = name.text ++ ['\x00'] := by
  have hfits := name.fits
  exact List.take_of_length_le (by rw [List.length_append, List.length_singleton]; omega)

theorem bufferText_entry : bufferText (name.text ++ ['\x00']) = name.text :=
  bufferText_append name.noNul

/-! ## The database as an index -/

/-- The database has the two maps of the index. -/
structure BacksIndex (db : DBHandle) (s : Index ShortText ShortText) : Prop where
  address : ∀ hostkey, db (entryKey 'k' hostkey) = (s.address hostkey).map (·.text ++ ['\x00'])
  host : ∀ address, db (entryKey 'a' address) = (s.host address).map (·.text ++ ['\x00'])

/-- The call, for the index. -/
def LastseenCall.op : LastseenCall → Op ShortText ShortText
  | update hostkey address _ _ => .see hostkey address
  | remove hostkey => .forget hostkey
  | lookup address => .lookup address

section
variable {db : DBHandle} {s : Index ShortText ShortText}

theorem backsIndex_empty : BacksIndex (fun _ => none) Index.empty := ⟨fun _ => rfl, fun _ => rfl⟩

/-- What is written under the other keys does not matter. -/
theorem BacksIndex.update_quality (h : BacksIndex db s) {d : Char} {value : Option (List Char)} :
    BacksIndex (Function.update db (taggedKey ['q', d] name.text ++ ['\x00']) value) s where
  address := by
    intro hostkey
    rw [Function.update_of_ne (entryKey_ne_quality (by decide)), h.address]
  host := by
    intro address
    rw [Function.update_of_ne (entryKey_ne_quality (by decide)), h.host]

theorem BacksIndex.update_address (h : BacksIndex db s) (value : Option ShortText) :
    BacksIndex (Function.update db (entryKey 'k' hostkey) (value.map (·.text ++ ['\x00'])))
      ⟨Function.update s.address hostkey value, s.host⟩ where
  address := by
    intro hostkey'
    simp only [Function.update_apply, entryKey_eq_iff, true_and, h.address]
    split
    · rfl
    · rfl
  host := by
    intro address
    rw [Function.update_of_ne (by simp [entryKey_eq_iff]), h.host]

theorem BacksIndex.update_host (h : BacksIndex db s) (value : Option ShortText) :
    BacksIndex (Function.update db (entryKey 'a' address) (value.map (·.text ++ ['\x00'])))
      ⟨s.address, Function.update s.host address value⟩ where
  address := by
    intro hostkey
    rw [Function.update_of_ne (by simp [entryKey_eq_iff]), h.address]
  host := by
    intro address'
    simp only [Function.update_apply, entryKey_eq_iff, true_and, h.host]
    split
    · rfl
    · rfl

theorem BacksIndex.readDB_address (h : BacksIndex db s) :
    readDB db (taggedKey ['k'] hostkey.text) cfBufSize =
      (s.address hostkey).map (·.text ++ ['\x00']) := by
  rw [readDB, taggedKey_singleton, h.address, Option.map_map]
  exact congrArg (Option.map · _) (funext fun _ => take_entry)

theorem BacksIndex.readDB_host (h : BacksIndex db s) :
    readDB db (taggedKey ['a'] address.text) cfBufSize =
      (s.host address).map (·.text ++ ['\x00']) := by
  rw [readDB, taggedKey_singleton, h.host, Option.map_map]
  exact congrArg (Option.map · _) (funext fun _ => take_entry)

theorem text_eq_iff : name.text = name'.text ↔ name = name' := by
  cases name
  cases name'
  simp

variable {qAverage : QPoint → BitVec 64 → QPoint}

theorem BacksIndex.update (h : BacksIndex db s) {incoming : Bool} {timestamp : BitVec 64} :
    BacksIndex (updateLastSawHost qAverage db hostkey.text address.text incoming timestamp)
      (s.see hostkey address) := by
  rw [updateLastSawHost, writeDB, writeDB, writeDB, taggedKey_singleton, taggedKey_singleton]
  exact (h.update_quality.update_address (some address)).update_host (some hostkey)

theorem BacksIndex.remove (h : BacksIndex db s) :
    BacksIndex (removeHostFromLastSeen db hostkey.text) (s.forget hostkey) := by
  rw [removeHostFromLastSeen, h.readDB_address]
  simp only [deleteDB, taggedKey_singleton]
  cases haddress : s.address hostkey with
  | none =>
    have hforget : s.forget hostkey = ⟨Function.update s.address hostkey none, s.host⟩ := by
      simp [Index.forget, haddress]
    rw [hforget]
    exact h.update_quality.update_quality.update_address none
  | some address =>
    have hforget : s.forget hostkey =
        ⟨Function.update s.address hostkey none, Function.update s.host address none⟩ := by
      simp only [Index.forget, haddress, Option.some.injEq, Index.mk.injEq, true_and]
      funext address'
      rw [Function.update_apply]
      exact if_congr eq_comm rfl rfl
    rw [hforget]
    simp only [Option.map_some, bufferText_entry, taggedKey_singleton]
    exact (h.update_host none).update_quality.update_quality.update_address none

theorem BacksIndex.lookup_none (h : BacksIndex db s) (hnone : s.resolve address = none) :
    BacksIndex (deleteDB db (taggedKey ['a'] address.text)) (s.lookup address) := by
  rw [deleteDB, taggedKey_singleton, Index.lookup, if_pos hnone]
  exact h.update_host none

/-- The lookup finds the host by both maps. -/
theorem BacksIndex.lookup (h : BacksIndex db s) :
    (address2HostkeyInDB db address.text).1 = (s.resolve address).map ShortText.text ∧
      BacksIndex (address2HostkeyInDB db address.text).2 (s.lookup address) := by
  rw [address2HostkeyInDB, h.readDB_host]
  cases hhost : s.host address with
  | none =>
    have hnone : s.resolve address = none := by rw [Index.resolve, hhost, Option.filter_none]
    refine ⟨by rw [hnone]; rfl, ?_⟩
    rw [Index.lookup, if_pos hnone]
    have hsame : Function.update s.host address none = s.host := by
      rw [← hhost, Function.update_eq_self]
    rw [hsame]
    exact h
  | some hostkey =>
    simp only [Option.map_some, bufferText_entry, h.readDB_address]
    cases haddress : s.address hostkey with
    | none =>
      have hnone : s.resolve address = none := by simp [Index.resolve, hhost, haddress]
      exact ⟨by rw [hnone]; rfl, h.lookup_none hnone⟩
    | some backAddress =>
      simp only [Option.map_some, bufferText_entry, ne_eq, text_eq_iff]
      by_cases hback : address = backAddress
      · have hsome : s.resolve address = some hostkey :=
          Index.resolve_eq_some.mpr ⟨hhost, by rw [haddress, hback]⟩
        rw [if_neg (not_not_intro hback), hsome, Index.lookup,
          if_neg (hsome ▸ Option.some_ne_none _)]
        exact ⟨rfl, h⟩
      · have hnone : s.resolve address = none := by
          simp [Index.resolve, hhost, haddress, Ne.symm hback]
        rw [if_pos hback, hnone]
        exact ⟨rfl, h.lookup_none hnone⟩

theorem BacksIndex.step (h : BacksIndex db s) {call : LastseenCall} :
    BacksIndex (call.step qAverage db) (s.step call.op) := by
  cases call with
  | update hostkey address incoming timestamp => exact h.update
  | remove hostkey => exact h.remove
  | lookup address => exact h.lookup.2

end

/-! ## Runs -/

section
variable (qAverage : QPoint → BitVec 64 → QPoint) {calls : List LastseenCall}

/-- The database behind the calls, which is empty at first. -/
abbrev lastseenAfter (calls : List LastseenCall) : DBHandle :=
  run (LastseenCall.step qAverage) (fun _ => none) calls

/-- The index behind the calls. -/
abbrev indexAfter (calls : List LastseenCall) : Index ShortText ShortText :=
  run Index.step Index.empty (calls.map LastseenCall.op)

theorem backsIndex_run : BacksIndex (lastseenAfter qAverage calls) (indexAfter calls) := by
  induction calls using List.reverseRecOn with
  | nil => exact backsIndex_empty
  | append_singleton calls call ih =>
    rw [lastseenAfter, indexAfter, run_concat, List.map_append, List.map_singleton, run_concat]
    exact ih.step

end

/-! ## Exactness -/

/-- The host and the address of an update. -/
def LastseenCall.updated : LastseenCall → Option (ShortText × ShortText)
  | update hostkey address _ _ => some (hostkey, address)
  | remove _ | lookup _ => none

/-- The host that the last update of the address is by. -/
def lastHostAt (calls : List LastseenCall) (address : ShortText) : Option ShortText :=
  (((calls.filterMap LastseenCall.updated).filter (·.2 = address)).getLast?).map Prod.fst

/-- The address that the last update of the host names. -/
def lastAddressOf (calls : List LastseenCall) (hostkey : ShortText) : Option ShortText :=
  (((calls.filterMap LastseenCall.updated).filter (·.1 = hostkey)).getLast?).map Prod.snd

section
variable {calls : List LastseenCall}

theorem filterMap_updated_concat {call : LastseenCall} :
    (calls ++ [call]).filterMap LastseenCall.updated =
      calls.filterMap LastseenCall.updated ++ call.updated.toList := by
  rw [List.filterMap_append]
  cases call with
  | update hostkey address incoming timestamp => rfl
  | remove hostkey => rfl
  | lookup address => rfl

theorem lastHostAt_update {hostkey' address' : ShortText} {incoming : Bool}
    {timestamp : BitVec 64} :
    lastHostAt (calls ++ [.update hostkey' address' incoming timestamp]) address =
      if address' = address then some hostkey' else lastHostAt calls address := by
  rw [lastHostAt, filterMap_updated_concat, List.filter_append]
  by_cases heq : address' = address
  · simp [LastseenCall.updated, heq]
  · simp [LastseenCall.updated, heq, lastHostAt]

theorem lastHostAt_other {call : LastseenCall} (hcall : call.updated = none) :
    lastHostAt (calls ++ [call]) address = lastHostAt calls address := by
  rw [lastHostAt, filterMap_updated_concat, hcall, Option.toList_none, List.append_nil, lastHostAt]

theorem lastAddressOf_update {hostkey' address' : ShortText} {incoming : Bool}
    {timestamp : BitVec 64} :
    lastAddressOf (calls ++ [.update hostkey' address' incoming timestamp]) hostkey =
      if hostkey' = hostkey then some address' else lastAddressOf calls hostkey := by
  rw [lastAddressOf, filterMap_updated_concat, List.filter_append]
  by_cases heq : hostkey' = hostkey
  · simp [LastseenCall.updated, heq]
  · simp [LastseenCall.updated, heq, lastAddressOf]

theorem lastAddressOf_other {call : LastseenCall} (hcall : call.updated = none) :
    lastAddressOf (calls ++ [call]) hostkey = lastAddressOf calls hostkey := by
  rw [lastAddressOf, filterMap_updated_concat, hcall, Option.toList_none, List.append_nil,
    lastAddressOf]

theorem lastAt_iff : LastAt (calls.map LastseenCall.op) address hostkey ↔
    lastHostAt calls address = some hostkey := by
  induction calls using List.reverseRecOn with
  | nil => exact iff_of_false Histories.not_last_nil nofun
  | append_singleton calls call ih =>
    rw [List.map_append, List.map_singleton]
    cases call with
    | update hostkey' address' incoming timestamp =>
      rw [LastseenCall.op, lastAt_see, lastHostAt_update, ih]
      by_cases heq : address' = address
      · simp [heq]
      · simp [heq]
    | remove hostkey' => rw [LastseenCall.op, lastAt_forget, ih, lastHostAt_other rfl]
    | lookup address' => rw [LastseenCall.op, lastAt_lookup, ih, lastHostAt_other rfl]

theorem lastOf_iff (hremove : ∀ hostkey, LastseenCall.remove hostkey ∉ calls) :
    LastOf (calls.map LastseenCall.op) hostkey address ↔
      lastAddressOf calls hostkey = some address := by
  induction calls using List.reverseRecOn with
  | nil => exact iff_of_false Histories.not_last_nil nofun
  | append_singleton calls call ih =>
    have ih := ih fun hostkey hmem => hremove hostkey (List.mem_append_left _ hmem)
    rw [List.map_append, List.map_singleton]
    cases call with
    | update hostkey' address' incoming timestamp =>
      rw [LastseenCall.op, lastOf_see, lastAddressOf_update, ih]
      by_cases heq : hostkey' = hostkey
      · simp [heq]
      · simp [heq]
    | remove hostkey' => exact absurd List.mem_concat_self (hremove hostkey')
    | lookup address' => rw [LastseenCall.op, lastOf_lookup, ih, lastAddressOf_other rfl]

theorem exact_indexAfter (hremove : ∀ hostkey, LastseenCall.remove hostkey ∉ calls) :
    Exact (calls.map LastseenCall.op) (indexAfter calls) := by
  refine Exact.of_run fun before op hbefore => ?_
  cases op with
  | see hostkey address => trivial
  | lookup address => trivial
  | forget hostkey =>
    have hmem := hbefore.subset List.mem_concat_self
    obtain ⟨call, hcall, hop⟩ := List.mem_map.mp hmem
    cases call with
    | remove hostkey' => exact absurd hcall (hremove hostkey')
    | update hostkey address incoming timestamp => cases hop
    | lookup address => cases hop

variable (qAverage : QPoint → BitVec 64 → QPoint)

theorem lookup_eq_some_iff (hremove : ∀ hostkey, LastseenCall.remove hostkey ∉ calls)
    {found : CString} :
    (address2HostkeyInDB (lastseenAfter qAverage calls) address.text).1 = some found ↔
      ∃ hostkey : ShortText, hostkey.text = found ∧ lastHostAt calls address = some hostkey ∧
        lastAddressOf calls hostkey = some address := by
  rw [(backsIndex_run qAverage).lookup.1, Option.map_eq_some_iff]
  refine exists_congr fun hostkey => ?_
  rw [(exact_indexAfter hremove).resolve_eq_some, lastAt_iff, lastOf_iff hremove, and_comm]

/-- **The lookup of an address finds a host** if and only if the last update of the address is by
the host and the last update of the host is with the address. No other lookup makes a difference. -/
theorem address2HostkeyInDB_iff (address : ShortText)
    (hremove : ∀ hostkey, LastseenCall.remove hostkey ∉ calls) :
    (∀ found, (address2HostkeyInDB (lastseenAfter qAverage calls) address.text).1 = some found ↔
      ∃ hostkey : ShortText, hostkey.text = found ∧ lastHostAt calls address = some hostkey ∧
        lastAddressOf calls hostkey = some address) ∧
    ∀ before other after, calls = before ++ .lookup other :: after →
      (address2HostkeyInDB (lastseenAfter qAverage calls) address.text).1 =
        (address2HostkeyInDB (lastseenAfter qAverage (before ++ after)) address.text).1 := by
  refine ⟨fun found => lookup_eq_some_iff qAverage hremove, ?_⟩
  intro before other after hcalls
  have hremove' : ∀ hostkey, LastseenCall.remove hostkey ∉ before ++ after := by
    intro hostkey hmem
    apply hremove hostkey
    rw [hcalls]
    rw [List.mem_append] at hmem ⊢
    exact hmem.imp_right (List.mem_cons_of_mem _)
  have hupdated : (before ++ .lookup other :: after).filterMap LastseenCall.updated =
      (before ++ after).filterMap LastseenCall.updated := by
    rw [List.filterMap_append, List.filterMap_append, List.filterMap_cons_none rfl]
  refine Option.ext fun found => ?_
  rw [lookup_eq_some_iff qAverage hremove, lookup_eq_some_iff qAverage hremove', hcalls]
  simp only [lastHostAt, lastAddressOf, hupdated]

/-- The address of a host that moved is that of the host that came after it. -/
theorem address2HostkeyInDB_moved :
    let first : ShortText := ⟨"SHA-1".toList, by decide, by decide⟩
    let second : ShortText := ⟨"SHA-2".toList, by decide, by decide⟩
    let left : ShortText := ⟨"10.0.0.1".toList, by decide, by decide⟩
    let right : ShortText := ⟨"10.0.0.2".toList, by decide, by decide⟩
    let calls : List LastseenCall :=
      [.update first left true 1, .update first right true 2, .lookup left,
        .update second left false 3]
    (address2HostkeyInDB (lastseenAfter (fun q _ => q) calls) left.text).1 = some second.text ∧
      (address2HostkeyInDB (lastseenAfter (fun q _ => q) calls) left.text).1 =
        (address2HostkeyInDB (lastseenAfter (fun q _ => q)
          [.update first left true 1, .update first right true 2, .update second left false 3])
          left.text).1 := by
  intro first second left right calls
  have hremove : ∀ hostkey, LastseenCall.remove hostkey ∉ calls := by
    intro hostkey h
    simp [calls] at h
  have hexact := address2HostkeyInDB_iff (fun q _ => q) left hremove
  exact ⟨(hexact.1 second.text).mpr ⟨second, rfl, by decide, by decide⟩,
    hexact.2 [.update first left true 1, .update first right true 2] left
      [.update second left false 3] rfl⟩

/-! ## Removal -/

/-- Behind the removal of a host no address leads to it, and the lookups that found another host
still do. -/
structure RemovesOnly (db : DBHandle) (hostkey : ShortText) : Prop where
  removed : ∀ address : ShortText,
    (address2HostkeyInDB (removeHostFromLastSeen db hostkey.text) address.text).1 ≠
      some hostkey.text
  others : ∀ address other : ShortText, other ≠ hostkey →
    (address2HostkeyInDB db address.text).1 = some other.text →
    (address2HostkeyInDB (removeHostFromLastSeen db hostkey.text) address.text).1 =
      some other.text

/-- No host is removed whose address leads to another host by now. -/
def NotTakenOver (db : DBHandle) : LastseenCall → Prop
  | .remove hostkey => ∀ address : ShortText,
    db (entryKey 'k' hostkey) = some (address.text ++ ['\x00']) →
    ∀ other : ShortText,
      (address2HostkeyInDB db address.text).1 = some other.text → other = hostkey
  | _ => True

theorem BacksIndex.lookup_eq_some {db : DBHandle} {s : Index ShortText ShortText}
    (h : BacksIndex db s) :
    (address2HostkeyInDB db address.text).1 = some hostkey.text ↔
      s.resolve address = some hostkey := by
  rw [h.lookup.1, Option.map_eq_some_iff]
  constructor
  · intro ⟨found, hfound, htext⟩
    rwa [text_eq_iff.mp htext] at hfound
  · exact fun hfound => ⟨hostkey, hfound, rfl⟩

theorem BacksIndex.entry_eq_some {db : DBHandle} {s : Index ShortText ShortText}
    (h : BacksIndex db s) :
    db (entryKey 'k' hostkey) = some (address.text ++ ['\x00']) ↔
      s.address hostkey = some address := by
  rw [h.address, Option.map_eq_some_iff]
  constructor
  · intro ⟨found, hfound, htext⟩
    rwa [text_eq_iff.mp (List.append_inj' htext rfl).1] at hfound
  · exact fun hfound => ⟨address, hfound, rfl⟩

theorem BacksIndex.notTakenOver_iff {db : DBHandle} {s : Index ShortText ShortText}
    (h : BacksIndex db s) :
    NotTakenOver db (.remove hostkey) ↔ Separate s (.forget hostkey) := by
  refine forall_congr' fun address => imp_congr h.entry_eq_some ?_
  exact forall_congr' fun other => imp_congr_left h.lookup_eq_some

theorem BacksIndex.removesOnly_iff {db : DBHandle} {s : Index ShortText ShortText}
    (h : BacksIndex db s) :
    RemovesOnly db hostkey ↔ NotTakenOver db (.remove hostkey) := by
  rw [h.notTakenOver_iff, ← Index.resolve_forget_iff]
  have hremove : BacksIndex (removeHostFromLastSeen db hostkey.text) (s.forget hostkey) := h.remove
  constructor
  · intro hr address other hne hfound
    rw [← hremove.lookup_eq_some]
    exact hr.others address other hne (h.lookup_eq_some.mpr hfound)
  · intro hkeeps
    refine ⟨?_, ?_⟩
    · intro address
      rw [Ne, hremove.lookup_eq_some]
      exact Index.resolve_forget_ne
    · intro address other hne hfound
      rw [hremove.lookup_eq_some]
      exact hkeeps address other hne (h.lookup_eq_some.mp hfound)

/-- **Every removal in a run removes the one host only** if and only if no host is removed whose
address leads to another host by now. -/
theorem run_removesOnly_iff :
    (∀ before hostkey, before ++ [.remove hostkey] <+: calls →
        RemovesOnly (lastseenAfter qAverage before) hostkey) ↔
      Along (LastseenCall.step qAverage) NotTakenOver (fun _ => none) calls := by
  constructor
  · intro h before call hbefore
    cases call with
    | update hostkey address incoming timestamp => trivial
    | lookup address => trivial
    | remove hostkey =>
      exact (backsIndex_run qAverage).removesOnly_iff.mp (h before hostkey hbefore)
  · intro h before hostkey hbefore
    exact (backsIndex_run qAverage).removesOnly_iff.mpr (h before _ hbefore)

end

/-- A host that was seen at the address of another is lost with the other. -/
theorem removesOnly_taken_over :
    let first : ShortText := ⟨"SHA-1".toList, by decide, by decide⟩
    let second : ShortText := ⟨"SHA-2".toList, by decide, by decide⟩
    let address : ShortText := ⟨"10.0.0.1".toList, by decide, by decide⟩
    let calls : List LastseenCall :=
      [.update first address true 1000, .update second address true 2000]
    let db := lastseenAfter (fun q _ => q) calls
    (address2HostkeyInDB db address.text).1 = some second.text ∧
      (address2HostkeyInDB (removeHostFromLastSeen db first.text) address.text).1 = none ∧
      ¬ RemovesOnly db first := by
  intro first second address calls db
  have hbefore : (address2HostkeyInDB db address.text).1 = some second.text := by decide
  have hbehind : (address2HostkeyInDB (removeHostFromLastSeen db first.text) address.text).1 =
      none := by decide
  refine ⟨hbefore, hbehind, fun h => ?_⟩
  have hkept := h.others address second (by decide) hbefore
  rw [hbehind] at hkept
  cases hkept

end Cfengine
