import Cfengine.DirectoryListing

/-!
# Directory listings cross the wire intact

The buffer of the server holds the names that are not sent yet, one after another, and NULs
(`packed`), and so the client unpacks from every transaction the names that were packed into it
(`unpackNames_packed`). One induction over the names of the directory follows both ends.
-/

namespace Cfengine

/-! ## The two buffers -/

section
variable {names : List CString} {name : CString} {buffer rest : List Char} {offset n : Nat}

/-- The names, each with the NUL at its end. -/
def packed (names : List CString) : List Char := names.flatMap fun name => name ++ ['\x00']

/-- The buffer of the server with these names in it. -/
def packedBuffer (names : List CString) : List Char :=
  packed names ++ List.replicate (cfBufSize - (packed names).length) '\x00'

theorem packed_concat : packed (names ++ [name]) = packed names ++ (name ++ ['\x00']) := by
  simp [packed]

theorem length_packed_concat :
    (packed (names ++ [name])).length = (packed names).length + name.length + 1 := by
  rw [packed_concat]
  simp
  omega

theorem length_packedBuffer (h : (packed names).length ≤ cfBufSize) :
    (packedBuffer names).length = cfBufSize := by
  rw [packedBuffer, List.length_append, List.length_replicate]
  omega

theorem take_packedBuffer (h : (packed names).length + n ≤ cfBufSize) :
    (packedBuffer names).take ((packed names).length + n) = packed names ++ List.replicate n
      '\x00' := by
  rw [packedBuffer, List.take_append, List.take_of_length_le (Nat.le_add_right _ _),
    List.take_replicate, Nat.add_sub_cancel_left, Nat.min_eq_left (by omega)]

/-- Bytes are written over the NULs behind a text. -/
theorem writeAt_append (text : List Char) {bytes : List Char} {k : Nat} (h : bytes.length ≤ k) :
    writeAt (text ++ List.replicate k '\x00') text.length bytes =
      .ok (text ++ bytes ++ List.replicate (k - bytes.length) '\x00') := by
  rw [writeAt, List.length_append, List.length_replicate, if_pos (Nat.add_le_add_left h _),
    List.take_left, List.drop_append, List.drop_of_length_le (Nat.le_add_right _ _),
    List.nil_append, List.drop_replicate, Nat.add_sub_cancel_left]

/-- A string is copied behind a text, and the NULs behind it are not touched. -/
theorem strncpyAt_append {text : List Char} {k : Nat} (hname : name.length < n) (hroom : n ≤ k) :
    strncpyAt (text ++ List.replicate k '\x00') text.length name n =
      .ok (text ++ (name ++ ['\x00']) ++ List.replicate (k - (name.length + 1)) '\x00') := by
  have hbytes : (name ++ List.replicate (n - name.length) '\x00').length = n := by
    rw [List.length_append, List.length_replicate]
    omega
  have hpad : n - name.length + (k - n) = 1 + (k - (name.length + 1)) := by omega
  rw [strncpyAt, List.take_of_length_le (Nat.le_of_lt hname),
    writeAt_append _ (Nat.le_trans (Nat.le_of_eq hbytes) hroom), hbytes]
  congr 1
  simp only [List.append_assoc, List.append_cancel_left_eq]
  rw [← List.replicate_add, hpad, List.replicate_add, List.replicate_one]

variable (names) in
/-- The next name is copied behind the others. -/
theorem strncpyAt_packedBuffer (hname : name.length < cfMaxLinkSize)
    (hroom : (packed names).length + cfMaxLinkSize ≤ cfBufSize) :
    strncpyAt (packedBuffer names) (packed names).length name cfMaxLinkSize =
      .ok (packedBuffer (names ++ [name])) := by
  have hrest : cfBufSize - (packed (names ++ [name])).length =
      cfBufSize - (packed names).length - (name.length + 1) := by
    rw [length_packed_concat]
    omega
  rw [packedBuffer, strncpyAt_append hname (by omega), packedBuffer, hrest, packed_concat]

variable (names) in
/-- The terminator is copied behind the names, and two NULs are behind it. -/
theorem strcpyAt_packedBuffer
    (hroom : (packed names).length + (cfdTerminator.length + 2) ≤ cfBufSize) :
    ∃ buffer, strcpyAt (packedBuffer names) (packed names).length cfdTerminator = .ok buffer ∧
      buffer.length = cfBufSize ∧
      buffer.take ((packed names).length + 2 + cfdTerminator.length) =
        packed names ++ (cfdTerminator ++ ['\x00', '\x00']) := by
  generalize cfdTerminator = text at *
  have hbytes : (text ++ ['\x00']).length = text.length + 1 := by
    rw [List.length_append, List.length_singleton]
  obtain ⟨k, hk⟩ : ∃ k, cfBufSize - (packed names).length - (text.length + 1) = k + 1 :=
    ⟨cfBufSize - (packed names).length - (text.length + 1) - 1, by omega⟩
  refine ⟨packed names ++ (text ++ ['\x00', '\x00']) ++ List.replicate k '\x00', ?_, ?_, ?_⟩
  · rw [strcpyAt, packedBuffer, writeAt_append _ (by omega), hbytes, hk, List.replicate_succ]
    simp only [List.append_assoc, List.cons_append, List.nil_append]
  · simp only [List.length_append, List.length_replicate, List.length_cons, List.length_nil]
    omega
  · refine List.take_left' ?_
    simp only [List.length_append, List.length_cons, List.length_nil]
    omega

/-! ## The names in a transaction -/

/-- A name as a directory has them. -/
structure EntryName (name : CString) : Prop where
  pos : 0 < name.length
  length : name.length ≤ 255
  nul : '\x00' ∉ name
  slash : '/' ∉ name
  bad : ¬ "BAD:".toList <+: name

/-- A text without NULs is at the start of a buffer only if it is at the start of the string
there. -/
theorem prefix_of_prefix_string {text : CString} (htext : '\x00' ∉ text)
    (h : text <+: name ++ '\x00' :: rest) : text <+: name := by
  induction text generalizing name with
  | nil => exact List.nil_prefix
  | cons c text ih =>
    cases name with
    | nil =>
      rw [List.nil_append, List.cons_prefix_cons] at h
      exact absurd (h.1 ▸ List.mem_cons_self) htext
    | cons d name =>
      rw [List.cons_append, List.cons_prefix_cons] at h
      exact List.cons_prefix_cons.2 ⟨h.1, ih (List.not_mem_of_not_mem_cons htext) h.2⟩

theorem nul_not_mem_terminator : '\x00' ∉ cfdTerminator := by decide

variable (rest) in
/-- No name is the terminator, which has a `/` in it. -/
theorem EntryName.terminator (hname : EntryName name) :
    cfdTerminator.isPrefixOf (name ++ '\x00' :: rest) = false := by
  have hslash : '/' ∈ cfdTerminator := by decide
  rw [Bool.eq_false_iff, Ne, List.isPrefixOf_iff_prefix]
  intro h
  exact hname.slash ((prefix_of_prefix_string nul_not_mem_terminator h).subset hslash)

variable (rest) in
/-- No name makes a reply a refusal. -/
theorem not_bad_packed (hnames : ∀ name ∈ names, EntryName name)
    (hrest : ¬ "BAD:".toList <+: rest) :
    ¬ "BAD:".toList <+: packed names ++ rest := by
  cases names with
  | nil => exact hrest
  | cons name names =>
    intro h
    have hcons : packed (name :: names) ++ rest = name ++ '\x00' :: (packed names ++ rest) := by
      simp [packed]
    rw [hcons] at h
    exact (hnames name List.mem_cons_self).bad (prefix_of_prefix_string (by decide) h)

/-- A name in front of others is unpacked first. -/
theorem unpackNames_cons (hname : EntryName name) (fuel : Nat) :
    unpackNames (fuel + 1) (name ++ '\x00' :: rest) =
      (unpackNames fuel rest).map fun names => (name :: names.1, names.2) := by
  have hall : ∀ c ∈ name, (decide (c ≠ '\x00')) = true := fun c hc =>
    decide_eq_true fun h => hname.nul (h ▸ hc)
  have hstart : name ++ '\x00' :: rest ≠ [] := by simp
  have hterm := hname.terminator rest
  have htake : (name ++ '\x00' :: rest).takeWhile (· ≠ '\x00') = name := by
    rw [List.takeWhile_append_of_pos hall]
    simp
  have hdrop : (name ++ '\x00' :: rest).dropWhile (· ≠ '\x00') = '\x00' :: rest := by
    rw [List.dropWhile_append_of_pos hall]
    simp
  cases name with
  | nil => exact absurd hname.pos (by simp)
  | cons c name =>
    have hc : c ≠ '\x00' := fun h => hname.nul (h ▸ List.mem_cons_self)
    rw [List.cons_append] at hterm htake hdrop ⊢
    rw [unpackNames, if_neg hc, hterm, if_neg Bool.false_ne_true, htake]
    simp only [hdrop]
    cases unpackNames fuel rest <;> rfl

/-- What is packed is unpacked, up to what is behind the names. -/
theorem unpackNames_packed (hnames : ∀ name ∈ names, EntryName name) {terminated : Bool}
    {fuel : Nat} (hrest : unpackNames fuel rest = .ok ([], terminated)) :
    unpackNames (fuel + names.length) (packed names ++ rest) = .ok (names, terminated) := by
  induction names with
  | nil => exact hrest
  | cons name names ih =>
    have hcons : packed (name :: names) ++ rest = name ++ '\x00' :: (packed names ++ rest) := by
      simp [packed]
    rw [hcons, List.length_cons, ← Nat.add_assoc, unpackNames_cons (hnames name List.mem_cons_self),
      ih fun name hn => hnames name (List.mem_cons_of_mem _ hn)]
    rfl

variable (names) in
theorem length_names_le_packed : names.length ≤ (packed names).length := by
  induction names with
  | nil => exact Nat.le_refl _
  | cons name names ih => simp [packed] at ih ⊢; omega

/-- A chunk without the terminator. -/
theorem unpackNames_chunk (hnames : ∀ name ∈ names, EntryName name) (rest : List Char) :
    unpackNames (packed names ++ '\x00' :: rest).length (packed names ++ '\x00' :: rest) =
      .ok (names, false) := by
  obtain ⟨k, hk⟩ := Nat.exists_eq_add_of_le (length_names_le_packed names)
  have hfuel : (packed names ++ '\x00' :: rest).length = k + rest.length + 1 + names.length := by
    rw [List.length_append, List.length_cons]
    omega
  rw [hfuel]
  exact unpackNames_packed hnames (by rw [unpackNames, if_pos rfl])

/-- The last chunk. -/
theorem unpackNames_last (hnames : ∀ name ∈ names, EntryName name) (rest : List Char) :
    unpackNames (packed names ++ (cfdTerminator ++ rest)).length
      (packed names ++ (cfdTerminator ++ rest)) = .ok (names, true) := by
  obtain ⟨k, hk⟩ := Nat.exists_eq_add_of_le (length_names_le_packed names)
  obtain ⟨c, text, htext, hc⟩ : ∃ c text, cfdTerminator = c :: text ∧ c ≠ '\x00' :=
    ⟨'-', _, rfl, by decide⟩
  have hfuel : (packed names ++ (cfdTerminator ++ rest)).length =
      k + text.length + rest.length + 1 + names.length := by
    rw [List.length_append, List.length_append, htext, List.length_cons]
    omega
  have hterm : cfdTerminator.isPrefixOf (cfdTerminator ++ rest) = true :=
    List.isPrefixOf_iff_prefix.2 (List.prefix_append _ _)
  rw [hfuel]
  refine unpackNames_packed hnames ?_
  rw [htext, List.cons_append] at hterm ⊢
  rw [unpackNames, if_neg hc, htext, if_pos hterm]

/-! ## A transaction -/

/-- What is in the buffer of the client when a transaction has arrived and is decrypted. -/
def arrived (decryptString : Option (List Char → List Char)) (transaction recvbuffer : List Char) :
    List Char :=
  let recvbuffer := transaction ++ '\x00' :: recvbuffer.drop (transaction.length + 1)
  match decryptString with
  | none => recvbuffer
  | some decrypt => overwrite (decrypt transaction) recvbuffer

/-- What is sent from a buffer is within the limit, and arrives at the start of the other buffer. -/
def Delivers (send : List Char → Nat → Except DirectoryFault (List Char))
    (decryptString : Option (List Char → List Char)) : Prop :=
  ∀ buffer len, 0 < len → len ≤ cfBufSize - cfMaxLinkSize + 32 → buffer.length = cfBufSize →
    ∃ transaction, send buffer len = .ok transaction ∧
      0 < transaction.length ∧ transaction.length ≤ cfBufSize - cfInbandOffset ∧
      ∀ recvbuffer, buffer.take len <+: arrived decryptString transaction recvbuffer

theorem delivers_sendTransaction : Delivers sendTransaction none := by
  intro buffer len hpos hlen hbuffer
  have hlength : (buffer.take len).length = len := by
    rw [List.length_take, hbuffer]
    exact Nat.min_eq_left (Nat.le_trans hlen (by decide))
  refine ⟨buffer.take len, ?_, by omega, ?_, fun recvbuffer => List.prefix_append _ _⟩
  · rw [sendTransaction, if_neg (Nat.ne_of_gt hpos), if_neg]
    exact Nat.not_lt.2 (Nat.le_trans hlen (by decide))
  · rw [hlength]
    exact Nat.le_trans hlen (by decide)

theorem delivers_sendEncrypted {encryptString decryptString : List Char → List Char}
    (hdecrypt : ∀ plain, decryptString (encryptString plain) = plain)
    (hshort : ∀ plain, plain.length ≤ (encryptString plain).length)
    (hlong : ∀ plain, (encryptString plain).length ≤ plain.length + 32) :
    Delivers (sendEncrypted encryptString) (some decryptString) := by
  intro buffer len hpos hlen hbuffer
  have hlength : (buffer.take len).length = len := by
    rw [List.length_take, hbuffer]
    exact Nat.min_eq_left (Nat.le_trans hlen (by decide))
  have hle := hshort (buffer.take len)
  have hge := hlong (buffer.take len)
  rw [hlength] at hle hge
  have hlimit : (encryptString (buffer.take len)).length ≤ cfBufSize - cfInbandOffset :=
    Nat.le_trans hge (Nat.le_trans (Nat.add_le_add_right hlen 32) (by decide))
  refine ⟨encryptString (buffer.take len), ?_, by omega, hlimit, fun recvbuffer => ?_⟩
  · have hwrite : writeAt zeroBuffer 0 (encryptString (buffer.take len)) =
        .ok (encryptString (buffer.take len) ++
          List.replicate (cfBufSize - (encryptString (buffer.take len)).length) '\x00') :=
      writeAt_append [] (Nat.le_trans hlimit (Nat.sub_le _ _))
    rw [sendEncrypted, hwrite]
    show sendTransaction _ _ = _
    have hne : (encryptString (buffer.take len)).length ≠ 0 := by omega
    rw [sendTransaction, if_neg hne, if_neg (Nat.not_lt.2 hlimit), List.take_left]
  · show _ <+: overwrite (decryptString (encryptString (buffer.take len))) _
    rw [hdecrypt]
    exact List.prefix_append _ _

/-- One transaction that is not a refusal. -/
theorem openDirRemote_loop_cons {decryptString : Option (List Char → List Char)}
    {transaction recvbuffer : List Char} {transactions : List (List Char)} {files : List CString}
    {terminated : Bool} (hpos : 0 < transaction.length)
    (hlimit : transaction.length ≤ cfBufSize - cfInbandOffset)
    (hbad : ¬ "BAD:".toList <+: arrived decryptString transaction recvbuffer)
    (hnames : unpackNames (arrived decryptString transaction recvbuffer).length
      (arrived decryptString transaction recvbuffer) = .ok (names, terminated)) :
    openDirRemote.loop decryptString (transaction :: transactions) recvbuffer files =
      if terminated then .ok (some (files ++ names))
      else openDirRemote.loop decryptString transactions
        (arrived decryptString transaction recvbuffer)
        (files ++ names) := by
  have hrefused : ¬ cfFailedStr <+: arrived decryptString transaction recvbuffer := fun h =>
    hbad (List.IsPrefix.trans ⟨_, rfl⟩ h)
  rw [← List.isPrefixOf_iff_prefix] at hbad hrefused
  rw [openDirRemote.loop, receiveTransaction, if_neg (Nat.not_lt.2 hlimit)]
  simp only [if_neg (Nat.ne_of_gt hpos)]
  show (if cfFailedStr.isPrefixOf (arrived decryptString transaction recvbuffer) then _ else _) = _
  rw [if_neg hrefused]
  show (if "BAD:".toList.isPrefixOf (arrived decryptString transaction recvbuffer) then _
    else _) = _
  rw [if_neg hbad]
  show (unpackNames (arrived decryptString transaction recvbuffer).length
    (arrived decryptString transaction recvbuffer) >>= _) = _
  rw [hnames]
  cases terminated <;> rfl

/-! ## The listing -/

/-- With some names in the buffer, the names of the directory arrive behind those. -/
theorem packNames_delivers {send : List Char → Nat → Except DirectoryFault (List Char)}
    {decryptString : Option (List Char → List Char)} (hsend : Delivers send decryptString)
    (pending : List CString) (hpending : ∀ name ∈ pending, EntryName name)
    (hnames : ∀ name ∈ names, EntryName name)
    (hroom : (packed pending).length < cfBufSize - cfMaxLinkSize) :
    ∃ transactions, packNames send names (packedBuffer pending) (packed pending).length =
        .ok transactions ∧
      (∀ transaction ∈ transactions, transaction.length ≤ cfBufSize - cfInbandOffset) ∧
      ∀ recvbuffer files, openDirRemote.loop decryptString transactions recvbuffer files =
        .ok (some (files ++ pending ++ names)) := by
  have hsize : cfBufSize = 4096 := rfl
  have hlink : cfMaxLinkSize = 256 := rfl
  induction names generalizing pending with
  | nil =>
    have hterm : cfdTerminator.length = 27 := rfl
    obtain ⟨buffer, hcopy, hlen, htake⟩ := strcpyAt_packedBuffer pending (by omega)
    obtain ⟨transaction, hsent, hpos, hlimit, harrive⟩ :=
      hsend buffer ((packed pending).length + 2 + cfdTerminator.length) (by omega) (by omega) hlen
    refine ⟨[transaction], ?_, by simpa using hlimit, fun recvbuffer files => ?_⟩
    · rw [packNames, hcopy]
      show (send buffer _ >>= _) = _
      rw [hsent]
      rfl
    · obtain ⟨rest, hrest⟩ := harrive recvbuffer
      rw [htake, List.append_assoc, List.append_assoc] at hrest
      have hbad := not_bad_packed (cfdTerminator ++ (['\x00', '\x00'] ++ rest)) hpending (by
        intro h
        exact absurd (List.cons_prefix_cons.1 h).1 (by decide))
      have hunpack := unpackNames_last hpending (['\x00', '\x00'] ++ rest)
      rw [hrest] at hbad hunpack
      rw [openDirRemote_loop_cons hpos hlimit hbad hunpack, if_pos rfl, List.append_nil]
  | cons name names ih =>
    have hname := hnames name List.mem_cons_self
    have hrest := fun other hn => hnames other (List.mem_cons_of_mem _ hn)
    have hlength := hname.length
    rw [packNames]
    by_cases hfull : name.length + 1 + (packed pending).length ≥ cfBufSize - cfMaxLinkSize
    · -- the names in the buffer are sent, and this one is the first in the next buffer
      have hcopy : strncpyAt zeroBuffer 0 name cfMaxLinkSize = .ok (packedBuffer [name]) :=
        strncpyAt_packedBuffer [] (Nat.lt_succ_of_le hlength) (by decide)
      obtain ⟨transactions, hpack, hlimits, hloop⟩ := ih [name] (by simpa using hname) hrest
        (by simp [packed]; omega)
      obtain ⟨transaction, hsent, hpos, hlimit, harrive⟩ :=
        hsend (packedBuffer pending) ((packed pending).length + 1) (by omega) (by omega)
          (length_packedBuffer (by omega))
      refine ⟨transaction :: transactions, ?_, ?_, fun recvbuffer files => ?_⟩
      · have hone : (packed [name]).length = name.length + 1 := by simp [packed]
        rw [hone] at hpack
        rw [if_pos hfull, hsent, hcopy]
        show (packNames send names (packedBuffer [name]) (name.length + 1) >>= _) = _
        rw [hpack]
        rfl
      · intro other hother
        rcases List.mem_cons.1 hother with rfl | hother
        · exact hlimit
        · exact hlimits other hother
      · obtain ⟨rest, harrived⟩ := harrive recvbuffer
        rw [take_packedBuffer (by omega), List.append_assoc, List.replicate_one,
          List.singleton_append]
          at harrived
        have hbad := not_bad_packed ('\x00' :: rest) hpending (by
          intro h
          exact absurd (List.cons_prefix_cons.1 h).1 (by decide))
        have hunpack := unpackNames_chunk hpending rest
        rw [harrived] at hbad hunpack
        rw [openDirRemote_loop_cons hpos hlimit hbad hunpack, if_neg Bool.false_ne_true, hloop]
        simp only [List.append_assoc, List.singleton_append]
    · -- the name is packed behind the others
      rw [if_neg hfull, strncpyAt_packedBuffer _ (by omega) (by omega)]
      obtain ⟨transactions, hpack, hlimits, hloop⟩ := ih (pending ++ [name])
        (fun other hn => (List.mem_append.1 hn).elim (hpending other) fun h =>
          List.mem_singleton.1 h ▸ hname)
        hrest (by rw [length_packed_concat]; omega)
      rw [length_packed_concat] at hpack
      refine ⟨transactions, hpack, hlimits, fun recvbuffer files => ?_⟩
      rw [hloop]
      simp only [List.append_assoc, List.singleton_append]

/-- Both forms of a listing arrive as they are. `EncryptString` may pad what it encrypts by the
block that it has besides the last one. -/
theorem openDirRemote_openDirectory (names : List CString) (hnames : ∀ name ∈ names, EntryName name)
    (encryptString decryptString : List Char → List Char)
    (hdecrypt : ∀ plain, decryptString (encryptString plain) = plain)
    (hshort : ∀ plain, plain.length ≤ (encryptString plain).length)
    (hlong : ∀ plain, (encryptString plain).length ≤ plain.length + 32) (recvbuffer : List Char) :
    (∃ transactions, cfOpenDirectory names = .ok transactions ∧
      (∀ transaction ∈ transactions, transaction.length ≤ cfBufSize - cfInbandOffset) ∧
      openDirRemote none transactions recvbuffer = .ok (some names)) ∧
    ∃ transactions, cfSecOpenDirectory encryptString names = .ok transactions ∧
      (∀ transaction ∈ transactions, transaction.length ≤ cfBufSize - cfInbandOffset) ∧
      openDirRemote (some decryptString) transactions recvbuffer = .ok (some names) := by
  have hboth {send decrypt} (hsend : Delivers send decrypt) :=
    packNames_delivers hsend [] (by simp) hnames (by decide)
  obtain ⟨plain, hpack, hlimit, hloop⟩ := hboth delivers_sendTransaction
  obtain ⟨cipher, hpack', hlimit', hloop'⟩ := hboth (delivers_sendEncrypted hdecrypt hshort hlong)
  exact ⟨⟨plain, hpack, hlimit, hloop recvbuffer []⟩,
    ⟨cipher, hpack', hlimit', hloop' recvbuffer []⟩⟩

/-- Padding with a block of 16, as the ciphers do it. -/
def padBlock (plain : List Char) : List Char :=
  let pad := 16 - plain.length % 16
  plain ++ List.replicate pad (Char.ofNat pad)

/-- The padding is taken off again. -/
def unpadBlock (cipher : List Char) : List Char :=
  cipher.take (cipher.length - (cipher.getLastD '\x00').toNat)

theorem unpadBlock_padBlock (plain : List Char) : unpadBlock (padBlock plain) = plain := by
  have hpad : ∀ n < 17, (Char.ofNat n).toNat = n := by decide
  have hlast : (padBlock plain).getLastD '\x00' = Char.ofNat (16 - plain.length % 16) := by
    obtain ⟨k, hk⟩ : ∃ k, 16 - plain.length % 16 = k + 1 := ⟨15 - plain.length % 16, by omega⟩
    rw [padBlock, hk, List.replicate_succ', ← List.append_assoc, List.getLastD_concat]
  rw [unpadBlock, hlast, hpad _ (by omega), padBlock, List.length_append, List.length_replicate,
    Nat.add_sub_cancel, List.take_left]

theorem openDirRemote_openDirectory_sample :
    (∃ transactions, cfOpenDirectory [".".toList, "..".toList, "update.cf".toList] =
      .ok transactions ∧
      (∀ transaction ∈ transactions, transaction.length ≤ cfBufSize - cfInbandOffset) ∧
      openDirRemote none transactions zeroBuffer =
        .ok (some [".".toList, "..".toList, "update.cf".toList])) ∧
    ∃ transactions,
      cfSecOpenDirectory padBlock [".".toList, "..".toList, "update.cf".toList] = .ok transactions ∧
      (∀ transaction ∈ transactions, transaction.length ≤ cfBufSize - cfInbandOffset) ∧
      openDirRemote (some unpadBlock) transactions zeroBuffer =
        .ok (some [".".toList, "..".toList, "update.cf".toList]) := by
  refine openDirRemote_openDirectory _ ?_ padBlock unpadBlock unpadBlock_padBlock
    (fun plain => by simp [padBlock]) (fun plain => by simp [padBlock]; omega) zeroBuffer
  intro name hname
  simp only [List.mem_cons, List.not_mem_nil, or_false] at hname
  rcases hname with rfl | rfl | rfl <;> constructor <;> decide

end

end Cfengine
