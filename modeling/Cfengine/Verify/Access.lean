import Cfengine.Server.Access
import Cfengine.Verify.FilesNames
import Cfengine.Verify.Server

/-!
# Access to files

A request is granted by the first rule that is about it (`accessControl_iff`). The rules that deny
are not looked at in the same way: `accessControl_denies_iff` says when they make the difference
that they should. `accessControl_confines_iff` says when what a request names is at or below the
path of a rule.
-/

namespace Cfengine
open PathStack

variable {env : ServerEnv} {reqPath : CString} {conn : ServerConnectionState} {encrypt : Bool}
  {permType : Char} {ap : Auth}

/-! ## Rules that admit -/

/-- The path that the rules are compared with. -/
def ServerEnv.transrequest (env : ServerEnv) (reqPath : CString) : CString :=
  env.resolveFilename (env.translatePath reqPath)

/-- The path of a rule. -/
def ServerEnv.transpath (env : ServerEnv) (ap : Auth) : CString :=
  env.mapName (ap.path.take (cfBufSize - 1))

/-- The rule is about the request. -/
def ServerEnv.decides (env : ServerEnv) (reqPath : CString) (permType : Char) (ap : Auth) : Bool :=
  ap.permits permType && pathMatches (env.transpath ap) (env.transrequest reqPath) &&
    env.cfstat (env.transpath ap)

/-- The first rule about the request admits it. -/
structure AdmittedBy (env : ServerEnv) (reqPath : CString) (conn : ServerConnectionState)
    (encrypt : Bool) (permType : Char) (ap : Auth) : Prop where
  lstat : env.lstat (env.transrequest reqPath) = true
  decides : env.vadmit.find? (env.decides reqPath permType) = some ap
  encrypted : encrypt = true ∨ ap.encrypt.toInt ≠ 1
  host : env.isHostIn ap.accesslist conn = true

/-- The loop over the rules that deny finds one. -/
def FindsDeny (env : ServerEnv) (reqPath : CString) (conn : ServerConnectionState) (ap : Auth) :
    Prop :=
  env.transpath ap <+: env.transrequest reqPath ∧
    ∃ dp ∈ env.vdeny, env.isRegexItemIn dp.accesslist conn.hostname = true

theorem accessControl.loop_eq {rules : List Auth} {transpath : Option CString}
    {conn' : ServerConnectionState} (hhost : conn'.hostname = conn.hostname)
    (hip : conn'.ipaddr = conn.ipaddr) :
    let result := loop env (env.transrequest reqPath) encrypt permType rules transpath conn'
    result.2.2.hostname = conn.hostname ∧
      match rules.find? (env.decides reqPath permType) with
      | none => result.1 = false
      | some ap => result.2.1 = some (env.transpath ap) ∧
          (result.1 = true ↔
            (encrypt = true ∨ ap.encrypt.toInt ≠ 1) ∧ env.isHostIn ap.accesslist conn = true) := by
  induction rules generalizing transpath with
  | nil => exact ⟨hhost, rfl⟩
  | cons ap rules ih =>
    rw [loop, List.find?_cons]
    simp only [ServerEnv.decides, ServerEnv.transpath] at ih ⊢
    cases hpermits : ap.permits permType with
    | false => exact ih
    | true =>
      cases hmatches : pathMatches (env.mapName (ap.path.take (cfBufSize - 1)))
          (env.transrequest reqPath) &&
          env.cfstat (env.mapName (ap.path.take (cfBufSize - 1))) with
      | false =>
        simp only [Bool.not_true, Bool.false_eq_true, if_false, Bool.true_and, hmatches]
        exact ih
      | true =>
        simp only [Bool.not_true, Bool.false_eq_true, if_false, if_true, Bool.true_and, hmatches]
        have hisHost : env.isHostIn ap.accesslist conn' = env.isHostIn ap.accesslist conn := by
          rw [ServerEnv.isHostIn, ServerEnv.isHostIn, hhost, hip]
        split
        · rename_i hrefuse
          simp only [Bool.and_eq_true, Bool.not_eq_true', decide_eq_true_eq] at hrefuse
          simp [hhost, hrefuse]
        · rename_i hencrypt
          have hencrypt : encrypt = true ∨ ap.encrypt.toInt ≠ 1 := by
            simpa [imp_iff_not_or] using hencrypt
          simp only [hisHost, true_and]
          exact ⟨hhost, (and_iff_right hencrypt).symm⟩

/-- A request is granted by the first rule that is about it. -/
theorem accessControl_iff : (accessControl env reqPath conn encrypt permType).1 = true ↔
    ∃ ap, AdmittedBy env reqPath conn encrypt permType ap ∧ ¬ FindsDeny env reqPath conn ap := by
  rw [accessControl, ← ServerEnv.transrequest]
  cases hlstat : env.lstat (env.transrequest reqPath) with
  | false =>
    apply iff_of_false Bool.false_ne_true
    intro ⟨ap, hap, _⟩
    rw [hap.lstat] at hlstat
    cases hlstat
  | true =>
    simp only [Bool.not_true, Bool.false_eq_true, if_false]
    split
    · rename_i hnil
      apply iff_of_false Bool.false_ne_true
      intro ⟨ap, hap, _⟩
      have := hap.decides
      rw [hnil] at this
      cases this
    obtain ⟨hname, hresult⟩ := @accessControl.loop_eq env reqPath conn encrypt permType env.vadmit
      none { conn with maproot := false } rfl rfl
    generalize accessControl.loop env (env.transrequest reqPath) encrypt permType env.vadmit none
      { conn with maproot := false } = result at hname hresult
    obtain ⟨access, transpath, conn'⟩ := result
    simp only at hname hresult ⊢
    cases hfind : env.vadmit.find? (env.decides reqPath permType) with
    | none =>
      rw [hfind] at hresult
      simp only at hresult
      rw [hresult]
      apply iff_of_false Bool.false_ne_true
      intro ⟨ap, hap, _⟩
      rw [hap.decides] at hfind
      cases hfind
    | some ap =>
      rw [hfind] at hresult
      obtain ⟨rfl, haccess⟩ := hresult
      have hdenied : (((some (env.transpath ap)).any (·.isPrefixOf (env.transrequest reqPath)) &&
          env.vdeny.any fun dp => env.isRegexItemIn dp.accesslist conn'.hostname) = true) ↔
          FindsDeny env reqPath conn ap := by
        rw [hname, FindsDeny, Bool.and_eq_true, Option.any_some, List.isPrefixOf_iff_prefix,
          List.any_eq_true]
      rw [Bool.and_eq_true, Bool.not_eq_true', ← Bool.not_eq_true, hdenied, haccess]
      constructor
      · intro ⟨⟨hencrypt, hhost⟩, hno⟩
        exact ⟨ap, ⟨hlstat, hfind, hencrypt, hhost⟩, hno⟩
      · intro ⟨ap', hap, hno⟩
        have heq := hap.decides
        rw [hfind] at heq
        cases heq
        exact ⟨⟨hap.encrypted, hap.host⟩, hno⟩

/-! ## Rules that deny -/

/-- The path of a rule that denies covers the request. -/
def ServerEnv.coversRequest (env : ServerEnv) (reqPath : CString) (dp : Auth) : Bool :=
  pathMatches (env.transpath dp) (env.transrequest reqPath)

/-- A rule that covers the request and whose list has the host denies it, and a rule that does not
cover the request makes no difference. -/
structure DenyRulesDeny (env : ServerEnv) (reqPath : CString) (conn : ServerConnectionState)
    (encrypt : Bool) (permType : Char) : Prop where
  deny : (accessControl env reqPath conn encrypt permType).1 = true →
    ∀ dp ∈ env.vdeny, env.coversRequest reqPath dp = true → env.isHostIn dp.accesslist conn = false
  others : (accessControl { env with vdeny := env.vdeny.filter (env.coversRequest reqPath) } reqPath
      conn encrypt permType).1 = true →
    (accessControl env reqPath conn encrypt permType).1 = true

/-- The first rule about a request does not change with the rules that deny. -/
theorem admittedBy_vdeny {vdeny : List Auth} :
    AdmittedBy { env with vdeny := vdeny } reqPath conn encrypt permType ap ↔
      AdmittedBy env reqPath conn encrypt permType ap :=
  ⟨fun h => ⟨h.lstat, h.decides, h.encrypted, h.host⟩,
    fun h => ⟨h.lstat, h.decides, h.encrypted, h.host⟩⟩

/-- The rules that deny do so for a request that a rule admits exactly if, where one that covers it
has the host, one has the host by its name, whatever its path, and the other way round. -/
theorem accessControl_denies_iff : DenyRulesDeny env reqPath conn encrypt permType ↔
    ∀ ap, AdmittedBy env reqPath conn encrypt permType ap →
      ((∃ dp ∈ env.vdeny, env.coversRequest reqPath dp = true ∧
          env.isHostIn dp.accesslist conn = true) → FindsDeny env reqPath conn ap) ∧
        (FindsDeny env reqPath conn ap → ∃ dp ∈ env.vdeny, env.coversRequest reqPath dp = true ∧
          env.isRegexItemIn dp.accesslist conn.hostname = true) := by
  constructor
  · intro ⟨hdeny, hothers⟩ ap hap
    constructor
    · intro ⟨dp, hdp, hcovers, hhost⟩
      by_contra hno
      have hfalse := hdeny (accessControl_iff.mpr ⟨ap, hap, hno⟩) dp hdp hcovers
      rw [hhost] at hfalse
      cases hfalse
    · intro hfinds
      by_contra hnone
      have hgrant : (accessControl { env with
          vdeny := env.vdeny.filter (env.coversRequest reqPath) } reqPath conn encrypt permType).1 =
          true := by
        refine accessControl_iff.mpr ⟨ap, admittedBy_vdeny.mpr hap, ?_⟩
        intro ⟨_, dp, hdp, hhost⟩
        obtain ⟨hmem, hcovers⟩ := List.mem_filter.mp hdp
        exact hnone ⟨dp, hmem, hcovers, hhost⟩
      obtain ⟨ap', hap', hno⟩ := accessControl_iff.mp (hothers hgrant)
      have heq := hap'.decides.symm.trans hap.decides
      cases heq
      exact hno hfinds
  · intro h
    constructor
    · intro hgrant dp hdp hcovers
      obtain ⟨ap, hap, hno⟩ := accessControl_iff.mp hgrant
      rw [← Bool.not_eq_true]
      intro hhost
      exact hno ((h ap hap).1 ⟨dp, hdp, hcovers, hhost⟩)
    · intro hgrant
      obtain ⟨ap, hap, hno⟩ := accessControl_iff.mp hgrant
      have hap := admittedBy_vdeny.mp hap
      refine accessControl_iff.mpr ⟨ap, hap, ?_⟩
      intro hfinds
      obtain ⟨dp, hdp, hcovers, hhost⟩ := (h ap hap).2 hfinds
      exact hno ⟨hfinds.1, dp, List.mem_filter.mpr ⟨hdp, hcovers⟩, hhost⟩

/-- A rule for a path and a list of hosts, without restrictions. -/
def fileRule (path : String) (accesslist : List String) : Auth where
  path := path.toList
  accesslist := accesslist.map String.toList
  maproot := []
  encrypt := 0
  read := 1
  write := 1
  execute := 1

/-- A server with `/data/f`, which admits one host to `/data`. -/
def dataServer (vdeny : List Auth) : ServerEnv :=
  { closedServer with
    vadmit := [fileRule "/data" ["10.0.0.2"]]
    vdeny := vdeny
    lstat := fun path => ["/data/f".toList, "/data".toList].any (· = path)
    cfstat := fun path => ["/data/f".toList, "/data".toList].any (· = path) }

/-- A host that is denied by its address is granted access, and one that is denied access to
another path by its name is not. -/
theorem accessControl_denied_host :
    let granted vdeny :=
      (accessControl (dataServer vdeny) "/data/f".toList verifiedConnection false 'r').1
    let byAddress := [fileRule "/data" ["10.0.0.2"]]
    let elsewhere := [fileRule "/other" ["host.example.org"]]
    granted byAddress = true ∧ granted [] = true ∧ granted elsewhere = false ∧
      ¬ DenyRulesDeny (dataServer byAddress) "/data/f".toList verifiedConnection false 'r' ∧
      ¬ DenyRulesDeny (dataServer elsewhere) "/data/f".toList verifiedConnection false 'r' := by
  intro granted byAddress elsewhere
  have hbyAddress : granted byAddress = true := by decide
  have helsewhere : granted elsewhere = false := by decide
  refine ⟨hbyAddress, by decide, helsewhere, ?_, ?_⟩
  · intro h
    cases h.deny hbyAddress _ List.mem_cons_self (by decide)
  · intro h
    have hgrant : granted elsewhere = true := h.others (by decide)
    exact Bool.false_ne_true (helsewhere.symm.trans hgrant)

/-! ## What a request names -/

/-- The nodes of a path from the root, without symbolic links. -/
def CanonicalStack (stack : List CString) : Prop :=
  ∀ node ∈ stack, Ordinary NodeSkip NodeUp node ∧ '/' ∉ node

/-- `realpath` of a tree of files. What it finds is canonical. -/
structure FileTree where
  realpath : CString → Option CString
  canonical : ∀ path resolved, realpath path = some resolved →
    ∃ stack, CanonicalStack stack ∧ resolved = pathText stack

/-- The directory of a path: `/` or `.` if there is nothing else. -/
def dirName (path : CString) : CString :=
  if '/' ∉ path then ['.']
  else
    let dir := (path.rdropWhile (· ≠ '/')).dropLast
    if dir = [] then ['/'] else dir

def baseName (path : CString) : CString := path.rtakeWhile (· ≠ '/')

/-- What a path names: its last node in its directory. It is not looked at whether it is a symbolic
link. -/
def FileTree.object (tree : FileTree) (path : CString) : Option (List CString) :=
  if path = [] then none
  else
    (tree.realpath (dirName path)).map fun resolved =>
      push NodeSkip NodeUp (resolvePath (resolved.splitOn '/')) (baseName path)

/-- The object is the one of the path, or below it. -/
def Confines (path : CString) (object : List CString) : Prop :=
  path.head? = some '/' ∧ resolvePath (path.splitOn '/') <+: object

/-- A server on Unix. Nothing is known about the buffer if `realpath` fails. -/
def ServerEnv.onUnix (env : ServerEnv) (tree : FileTree) (failed : CString → CString) : ServerEnv :=
  { env with
    mapName := id
    resolveFilename := fun reqPath =>
      (Cfengine.resolveFilename tree.realpath reqPath).getD (failed reqPath) }

section
variable {stack : List CString} {path last rule : CString}

theorem CanonicalStack.stackWf (h : CanonicalStack stack) : StackWf stack := by
  intro node hnode
  obtain ⟨hord, hslash⟩ := h node hnode
  exact ⟨fun hnil => hord.1 (.inl hnil), hslash⟩

theorem CanonicalStack.resolvePath_cons_nil (h : CanonicalStack stack) :
    resolvePath ([] :: stack) = stack := by
  rw [resolvePath, resolve, List.foldl_cons, push_nil]
  exact resolve_of_ordinary fun node hnode => (h node hnode).1

theorem CanonicalStack.resolvePath_splitOn (h : CanonicalStack stack) :
    resolvePath ((pathText stack).splitOn '/') = stack := by
  rw [splitOn_pathText h.stackWf]
  split
  · rename_i hnil
    rw [hnil]
    rfl
  · exact h.resolvePath_cons_nil

theorem rtakeWhile_append (h : '/' ∉ last) :
    (path ++ '/' :: last).rtakeWhile (· ≠ '/') = last := by
  rw [List.rtakeWhile, List.reverse_append, List.reverse_cons, List.append_assoc,
    List.takeWhile_append_of_pos]
  · simp
  · intro c hc
    exact decide_eq_true fun heq => h (heq ▸ List.mem_reverse.mp hc)

theorem rdropWhile_append (h : '/' ∉ last) :
    (path ++ '/' :: last).rdropWhile (· ≠ '/') = path ++ ['/'] := by
  rw [List.rdropWhile, List.reverse_append, List.reverse_cons, List.append_assoc,
    List.dropWhile_append_of_pos]
  · simp
  · intro c hc
    exact decide_eq_true fun heq => h (heq ▸ List.mem_reverse.mp hc)

theorem baseName_append (h : '/' ∉ last) : baseName (path ++ '/' :: last) = last :=
  rtakeWhile_append h

theorem dirName_append (h : '/' ∉ last) :
    dirName (path ++ '/' :: last) = if path = [] then ['/'] else path := by
  have hslash : '/' ∈ path ++ '/' :: last := List.mem_append_right path List.mem_cons_self
  rw [dirName, if_neg (not_not_intro hslash), rdropWhile_append h, List.dropLast_concat]

/-- A path with a separator has a directory and a last node. -/
theorem exists_last (h : '/' ∈ path) : ∃ dir last, path = dir ++ '/' :: last ∧ '/' ∉ last := by
  induction path with
  | nil => cases h
  | cons c path ih =>
    by_cases hpath : '/' ∈ path
    · obtain ⟨dir, last, rfl, hlast⟩ := ih hpath
      exact ⟨c :: dir, last, rfl, hlast⟩
    · obtain rfl : '/' = c := (List.mem_cons.mp h).resolve_right hpath
      exact ⟨[], path, rfl, hpath⟩

/-- The path that is compared with the rules, if there is room for it. -/
theorem resolveFilename_append {realpath : CString → Option CString} (h : '/' ∉ last)
    (hlen : (path ++ '/' :: last).length < cfBufSize) (hwf : StackWf stack)
    (hreal : realpath (if path = [] then ['/'] else path) = some (pathText stack))
    (hroom : (pathPrefix stack ++ '/' :: last).length < cfBufSize) :
    resolveFilename realpath (path ++ '/' :: last) = some (pathPrefix stack ++ '/' :: last) := by
  have hchop : (chopLastNode (path ++ '/' :: last)).2 = if path = [] then ['/'] else path := by
    rw [chopLastNode, lastFileSeparator_append h]
    simp only [List.take_left']
    split
    · rename_i hnil
      rw [hnil]
      rfl
    · rfl
  have hread : readLastNode (path ++ '/' :: last) = last := by
    rw [readLastNode, lastFileSeparator_append h]
    simp
  have htake : (path ++ '/' :: last).take (cfBufSize - 1) = path ++ '/' :: last :=
    List.take_of_length_le (Nat.le_sub_one_of_lt hlen)
  have htake' : last.take (cfBufSize - 1) = last := by
    apply List.take_of_length_le
    simp only [List.length_append, List.length_cons] at hlen
    omega
  have hcat : last.take (cfBufSize - 1 - (pathPrefix stack ++ ['/']).length) = last := by
    apply List.take_of_length_le
    simp only [List.length_append, List.length_cons, List.length_nil] at hroom ⊢
    omega
  rw [resolveFilename, htake, hchop, hread, htake', hreal, Option.map_some, addSlash_pathText hwf,
    strlcat, hcat, List.append_assoc, List.singleton_append]

theorem splitOn_pathPrefix (h : StackWf stack) (hlast : '/' ∉ last) :
    (pathPrefix stack ++ '/' :: last).splitOn '/' = [] :: (stack ++ [last]) := by
  rw [← pathText_concat, pathText, splitOn_slash, List.splitOn_intercalate]
  · exact List.forall_mem_append.mpr ⟨fun node hnode => (h node hnode).2,
      List.forall_mem_singleton.mpr hlast⟩
  · exact List.append_ne_nil_of_right_ne_nil stack (List.cons_ne_nil last [])

/-- The nodes of what is in front of a separator of the path. -/
theorem splitOn_of_append {rest : CString} (h : StackWf stack) (hlast : '/' ∉ last)
    (hpath : path ++ '/' :: rest = pathPrefix stack ++ '/' :: last) :
    ∃ s init, path.splitOn '/' = [] :: s ∧ stack = s ++ init := by
  have hsplit := List.splitOn_append_cons_self (a := '/') path rest
  obtain ⟨init, node, hrest⟩ :=
    (List.eq_nil_or_concat' (rest.splitOn '/')).resolve_left (List.splitOn_ne_nil '/' rest)
  rw [hpath, splitOn_pathPrefix h hlast, hrest, ← List.append_assoc, ← List.cons_append] at hsplit
  have hnodes := (List.append_inj' hsplit rfl).1
  obtain ⟨first, s, hfirst⟩ := List.exists_cons_of_ne_nil (List.splitOn_ne_nil '/' path)
  rw [hfirst, List.cons_append] at hnodes
  cases hnodes
  exact ⟨s, init, hfirst, rfl⟩

/-- The nodes of a rule that is about a request: those of the request, or some of its
directory. -/
theorem pathMatches_nodes (h : CanonicalStack stack) (hlast : '/' ∉ last) (hrule : rule ≠ [])
    (hmatch : pathMatches rule (pathPrefix stack ++ '/' :: last) = true) :
    rule.head? = some '/' ∧
      (resolvePath (rule.splitOn '/') = push NodeSkip NodeUp stack last ∨
        resolvePath (rule.splitOn '/') <+: stack ∧
          (resolvePath (rule.splitOn '/') = stack → stack ≠ [] → rule = pathText stack)) := by
  have hhead : (pathPrefix stack ++ '/' :: last).head? = some '/' := by
    cases stack with
    | nil => rfl
    | cons node stack => rfl
  simp only [pathMatches, Bool.or_eq_true, Bool.and_eq_true, decide_eq_true_eq] at hmatch
  obtain ((⟨⟨_, hpre⟩, hslash⟩ | heq) | hroot) := hmatch
  · obtain ⟨rest, hrest⟩ := List.isPrefixOf_iff_prefix.mp hpre
    obtain ⟨w, rfl⟩ : ∃ w, rest = '/' :: w := by
      rw [← hrest, List.getElem?_append_right (Nat.le_refl _), Nat.sub_self] at hslash
      exact List.head?_eq_some_iff.mp (by rwa [List.head?_eq_getElem?])
    obtain ⟨s, init, hnodes, rfl⟩ := splitOn_of_append h.stackWf hlast hrest
    have hs : CanonicalStack s := fun node hnode => h node (List.mem_append_left init hnode)
    have hresolve : resolvePath (rule.splitOn '/') = s := by
      rw [hnodes]
      exact hs.resolvePath_cons_nil
    rw [hresolve]
    refine ⟨?_, .inr ⟨List.prefix_append s init, ?_⟩⟩
    · rw [← hrest, List.head?_append_of_ne_nil _ hrule] at hhead
      exact hhead
    · intro heq hne
      rw [← heq] at hne ⊢
      have hrule : List.intercalate ['/'] (rule.splitOn '/') = rule := List.intercalate_splitOn '/'
      rw [hnodes, List.intercalate_cons_of_ne_nil hne] at hrule
      exact hrule.symm
  · rw [heq, splitOn_pathPrefix h.stackWf hlast]
    refine ⟨hhead, .inl ?_⟩
    rw [resolvePath, resolve, List.foldl_cons, push_nil, List.foldl_append]
    rw [foldl_push_of_ordinary fun node hnode => (h node hnode).1]
    rfl
  · rw [hroot]
    refine ⟨rfl, .inr ⟨List.nil_prefix, ?_⟩⟩
    intro hnil hne
    exact absurd hnil.symm hne

/-- A path that does not go up from its directory stays in it. -/
theorem prefix_push {s : List CString} (h : s <+: stack)
    (hup : NodeUp last → s = stack → stack = []) : s <+: push NodeSkip NodeUp stack last := by
  by_cases hskip : NodeSkip last
  · rwa [push_of_skip hskip]
  by_cases hlast : NodeUp last
  · rw [push_of_up hskip hlast]
    obtain ⟨t, rfl⟩ := h
    cases t with
    | nil =>
      rw [List.append_nil] at hup ⊢
      rw [hup hlast rfl]
      exact List.nil_prefix
    | cons node t =>
      rw [List.dropLast_append_cons]
      exact List.prefix_append s _
  · rw [push_of_ordinary ⟨hskip, hlast⟩]
    exact h.trans (List.prefix_append stack [last])

end

/-! ## Rules confine -/

section
variable {tree : FileTree} {failed : CString → CString} {path : CString} {object : List CString}

/-- There is room for the path and what it is resolved to, and the rule has a path of a length that
is compared. -/
structure Regular (tree : FileTree) (path : CString) (ap : Auth) : Prop where
  slash : '/' ∈ path
  length : path.length < cfBufSize
  room : ∀ resolved, tree.realpath (dirName path) = some resolved →
    (addSlash resolved ++ baseName path).length < cfBufSize
  rule : ap.path ≠ []
  ruleLength : ap.path.length < cfBufSize

/-- The rule does not confine what the path names, although it is about the path: it is the rule for
the directory of a path that goes up. Otherwise the path has no separator, or the buffers are too
small, or the rule has no path, and what is compared is not the path of what is named, or not the
path of the rule. -/
inductive Strays (tree : FileTree) (failed : CString → CString) (path : CString)
    (object : List CString) (ap : Auth) : Prop
  | goesUp (hlast : baseName path = ['.', '.']) (hdir : tree.realpath (dirName path) = some ap.path)
    (hroot : ap.path ≠ ['/'])
  | irregular (hregular : ¬ Regular tree path ap)
    (hcompared : (resolveFilename tree.realpath path).getD (failed path) ≠ pathText object ∨
      ap.path = [] ∨ cfBufSize ≤ ap.path.length)

/-- What a path names is canonical. -/
theorem canonicalStack_object (h : tree.object path = some object) : CanonicalStack object := by
  rw [FileTree.object] at h
  split at h
  · cases h
  obtain ⟨resolved, hreal, rfl⟩ := Option.map_eq_some_iff.mp h
  obtain ⟨stack, hstack, rfl⟩ := tree.canonical _ _ hreal
  rw [hstack.resolvePath_splitOn]
  intro node hnode
  by_cases hskip : NodeSkip (baseName path)
  · rw [push_of_skip hskip] at hnode
    exact hstack node hnode
  by_cases hup : NodeUp (baseName path)
  · rw [push_of_up hskip hup] at hnode
    exact hstack node (List.mem_of_mem_dropLast hnode)
  · rw [push_of_ordinary ⟨hskip, hup⟩, List.mem_append, List.mem_singleton] at hnode
    rcases hnode with hnode | rfl
    · exact hstack node hnode
    · exact ⟨⟨hskip, hup⟩, fun hslash => by simpa using List.mem_rtakeWhile_imp hslash⟩

/-- A rule with a path that matches the path of an object confines it. -/
theorem confines_of_pathMatches {rule : CString} (hcanonical : CanonicalStack object)
    (hrule : rule ≠ []) (hmatch : pathMatches rule (pathText object) = true) :
    Confines rule object := by
  rcases List.eq_nil_or_concat' object with rfl | ⟨stack, last, rfl⟩
  · -- nothing but the root itself matches the root
    have hroot : rule = ['/'] := by
      simp only [pathMatches, Bool.or_eq_true, Bool.and_eq_true, decide_eq_true_eq] at hmatch
      obtain ((⟨⟨hlength, _⟩, _⟩ | heq) | hroot) := hmatch
      · exact absurd (List.length_eq_zero_iff.mp (Nat.lt_one_iff.mp hlength)) hrule
      · exact heq
      · exact hroot
    rw [hroot]
    exact ⟨rfl, List.nil_prefix⟩
  · have hstack : CanonicalStack stack := fun node hnode =>
      hcanonical node (List.mem_append_left _ hnode)
    obtain ⟨hlast, hslash⟩ := hcanonical last (List.mem_append_right _ List.mem_cons_self)
    rw [pathText_concat] at hmatch
    obtain ⟨hhead, hsame | ⟨hpre, _⟩⟩ := pathMatches_nodes hstack hslash hrule hmatch
    · rw [push_of_ordinary hlast] at hsame
      exact ⟨hhead, hsame ▸ List.prefix_rfl⟩
    · exact ⟨hhead, hpre.trans (List.prefix_append stack [last])⟩

theorem strays_of_not_confines {env : ServerEnv} {reqPath : CString} {permType : Char}
    (hobject : tree.object (env.translatePath reqPath) = some object)
    (hdecides : (env.onUnix tree failed).decides reqPath permType ap = true)
    (h : ¬ Confines ap.path object) :
    Strays tree failed (env.translatePath reqPath) object ap := by
  have htranspath : ap.path.length < cfBufSize → (env.onUnix tree failed).transpath ap = ap.path :=
    fun hlength => List.take_of_length_le (Nat.le_sub_one_of_lt hlength)
  have htransrequest : (env.onUnix tree failed).transrequest reqPath =
      (resolveFilename tree.realpath (env.translatePath reqPath)).getD
        (failed (env.translatePath reqPath)) := rfl
  rw [ServerEnv.decides, htransrequest, Bool.and_eq_true, Bool.and_eq_true] at hdecides
  by_cases hregular : Regular tree (env.translatePath reqPath) ap
  · obtain ⟨hslash, hlength, hroom, hrule, hruleLength⟩ := hregular
    rw [htranspath hruleLength] at hdecides
    obtain ⟨dir, last, hpath, hlast⟩ := exists_last hslash
    rw [hpath] at hdecides hobject hroom hlength ⊢
    rw [FileTree.object, if_neg (by simp), Option.map_eq_some_iff] at hobject
    obtain ⟨resolved, hreal, rfl⟩ := hobject
    obtain ⟨stack, hstack, rfl⟩ := tree.canonical _ _ hreal
    have hroom := hroom _ hreal
    rw [addSlash_pathText hstack.stackWf, baseName_append hlast, List.append_assoc,
      List.singleton_append] at hroom
    rw [hstack.resolvePath_splitOn, baseName_append hlast] at h
    have hreal' := hreal
    rw [dirName_append hlast] at hreal'
    rw [resolveFilename_append hlast hlength hstack.stackWf hreal' hroom,
      Option.getD_some] at hdecides
    obtain ⟨hhead, hsame | ⟨hpre, hdir⟩⟩ := pathMatches_nodes hstack hlast hrule hdecides.1.2
    · exact absurd ⟨hhead, hsame ▸ List.prefix_rfl⟩ h
    · by_cases hup : NodeUp last → resolvePath (ap.path.splitOn '/') = stack → stack = []
      · exact absurd ⟨hhead, prefix_push hpre hup⟩ h
      · obtain ⟨hup, heq, hne⟩ : NodeUp last ∧ resolvePath (ap.path.splitOn '/') = stack ∧
            stack ≠ [] := by simpa using hup
        have hpathText := hdir heq hne
        apply Strays.goesUp
        · rw [baseName_append hlast, hup]
        · rw [hreal, hpathText]
        · rw [hpathText]
          intro hroot
          rw [hroot] at hpathText
          rw [hpathText] at heq
          exact hne heq.symm
  · apply Strays.irregular hregular
    by_contra hcompared
    obtain ⟨hpath, hrule, hlength⟩ : _ ∧ _ ∧ _ := by
      simpa only [not_or, not_not, Nat.not_le] using hcompared
    rw [hpath, htranspath hlength] at hdecides
    exact h (confines_of_pathMatches (canonicalStack_object hobject) hrule hdecides.1.2)

/-- What a granted request names is at or below the path of a rule exactly if the rule that grants
it is not the one of the directory that a request goes up from, unless there is another one. -/
theorem accessControl_confines_iff :
    (∀ object, tree.object (env.translatePath reqPath) = some object →
        (accessControl (env.onUnix tree failed) reqPath conn encrypt permType).1 = true →
        ∃ ap ∈ env.vadmit, Confines ap.path object) ↔
      ∀ object, tree.object (env.translatePath reqPath) = some object →
        ∀ ap, AdmittedBy (env.onUnix tree failed) reqPath conn encrypt permType ap →
          ¬ FindsDeny (env.onUnix tree failed) reqPath conn ap →
          Strays tree failed (env.translatePath reqPath) object ap →
          ∃ other ∈ env.vadmit, Confines other.path object := by
  constructor
  · intro h object hobject ap hap hno _
    exact h object hobject (accessControl_iff.mpr ⟨ap, hap, hno⟩)
  · intro h object hobject hgrant
    obtain ⟨ap, hap, hno⟩ := accessControl_iff.mp hgrant
    by_cases hconfines : Confines ap.path object
    · exact ⟨ap, List.mem_of_find?_eq_some hap.decides, hconfines⟩
    · have hdecides := List.find?_some hap.decides
      exact h object hobject ap hap hno (strays_of_not_confines hobject hdecides hconfines)

end

/-- A directory `/data/public`. -/
def dataTree : FileTree where
  realpath := fun path => if path = "/data/public".toList then some path else none
  canonical := by
    intro path resolved h
    obtain ⟨rfl, rfl⟩ := (Option.ite_none_right_eq_some.mp h).imp_right Option.some.inj
    refine ⟨["data".toList, "public".toList], ?_, rfl⟩
    simp [CanonicalStack, Ordinary]

/-- A server that admits one host to `/data/public`. -/
def publicServer : ServerEnv :=
  { closedServer with
    vadmit := [fileRule "/data/public" ["10.0.0.2"]]
    lstat := fun path => path = "/data/public/..".toList
    cfstat := fun path => path = "/data/public".toList }

/-- The rule for a directory grants access to the directory above it. -/
theorem accessControl_goes_up :
    (accessControl (publicServer.onUnix dataTree id) "/data/public/..".toList verifiedConnection
        true 'r').1 = true ∧
      dataTree.object "/data/public/..".toList = some ["data".toList] ∧
      ¬ ∃ ap ∈ publicServer.vadmit, Confines ap.path ["data".toList] := by
  refine ⟨by decide, by decide, ?_⟩
  intro ⟨ap, hap, _, hpre⟩
  rw [List.mem_singleton.mp hap] at hpre
  exact absurd hpre (by decide)

end Cfengine
