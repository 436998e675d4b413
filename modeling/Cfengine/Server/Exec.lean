import Cfengine.Getopt
import Cfengine.Server.Access

/-!
# Remote execution (`server.c`)

`DoExec` blanks options out of the arguments that a client gives, asks for the roles of the classes
that they define, and runs the agent with what is left. What the agent makes of the arguments is in
`cf-agent.c`.
-/

namespace Cfengine

/-! ## `DoExec` -/

/-- `OptionFound`, for a place in the arguments: what is in front of it, and what is there. -/
def optionFound (front pos word : CString) : Bool :=
  if word.length = 2 && word.isPrefixOf pos then true
  else if !word.isPrefixOf pos then false
  else if front = [] then true
  else front.getLast? = some ' ' &&
    (pos[word.length]? = some ' ' || pos[word.length]? = none)

/-- The first `n` characters are overwritten with blanks. -/
def blankFirst (n : Nat) (sp : CString) : CString := List.replicate n ' ' ++ sp.drop n

section
variable (authorize : CString → Except Fault Bool)

/-- The loop over the arguments, at most `n` characters: the arguments that are left, and the texts
that `AuthorizeRoles` has permitted; `none` if the client is not authorized. -/
def doExec.loop : Nat → CString → CString → Except Fault (Option (CString × List CString))
  | 0, front, sp => .ok (some (front ++ sp, []))
  | _, front, [] => .ok (some (front, []))
  | n + 1, front, c :: rest =>
    let sp := c :: rest
    let next (sp : CString) := loop n (front ++ sp.take 1) (sp.drop 1)
    if c = ';' || c = '&' || c = '|' then .ok none
    else if optionFound front sp "-K".toList || optionFound front sp "-f".toList then
      next (blankFirst 2 sp)
    else if optionFound front sp "--no-lock".toList then next (blankFirst "--no-lock".length sp)
    else if optionFound front sp "--file".toList then next (blankFirst "--file".length sp)
    else if optionFound front sp "--define".toList || optionFound front sp "-D".toList then
      match authorize sp with
      | .error fault => .error fault
      | .ok false => .ok none
      | .ok true => (next sp).map (Option.map fun (args, roles) => (args, sp :: roles))
    else next sp

/-- The end of `DoExec`. -/
inductive Execution where
  /-- A text is sent, and nothing is run. -/
  | replied (text : CString)
  /-- `cf_popen_sh` is called. Next to the command are the arguments in it, and the texts that
  `AuthorizeRoles` has permitted. -/
  | executed (ebuff args : CString) (roles : List CString)
deriving DecidableEq

/-- `DoExec`, on the host `vfqname`. -/
def doExec (cfruncommand vfqname args : CString) : Except Fault Execution :=
  if cfruncommand = [] then .ok (.replied "Exec request: no cfruncommand defined\n".toList)
  else
    match doExec.loop authorize args.length [] args with
    | .error fault => .error fault
    | .ok none =>
      .ok (.replied ("You are not authorized to activate these classes/roles on host ".toList ++
        vfqname ++ ['\n']))
    | .ok (some (args, roles)) =>
      let ebuff := (cfruncommand ++ " --inform".toList).take (cfBufSize - 1)
      if ebuff.length + args.length + 6 > cfBufSize then
        .ok (.replied (("Command line too long with args: ".toList ++ ebuff ++ ['\n']).take
          (cfBufSize - 1)))
      else .ok (.executed (if args = [] then ebuff else ebuff ++ ' ' :: args) args roles)

end

/-! ## The options of the agent -/

/-- `OPTIONS` of `cf-agent` -/
def agentOptions : List LongOption :=
  [⟨"bootstrap".toList, .no, 'B'⟩, ⟨"bundlesequence".toList, .required, 'b'⟩,
    ⟨"debug".toList, .no, 'd'⟩, ⟨"define".toList, .required, 'D'⟩,
    ⟨"diagnostic".toList, .optional, 'x'⟩, ⟨"dry-run".toList, .no, 'n'⟩,
    ⟨"file".toList, .required, 'f'⟩, ⟨"help".toList, .no, 'h'⟩, ⟨"inform".toList, .no, 'I'⟩,
    ⟨"negate".toList, .required, 'N'⟩, ⟨"no-lock".toList, .no, 'K'⟩,
    ⟨"policy-server".toList, .required, 's'⟩, ⟨"verbose".toList, .no, 'v'⟩,
    ⟨"version".toList, .no, 'V'⟩]

/-- The short options of `cf-agent` -/
def agentShortOptions : List Char := "rdvnKIf:D:N:Vs:x:MBb:h".toList

/-- What `getopt_long` finds for the agent in arguments that the shell has read. A text that the
shell does not accept is not run. -/
def agentFinds (args : CString) : List Found :=
  match Shell.words .plain none args with
  | none => []
  | some argv => getopt agentShortOptions agentOptions none argv

def newClassesFromString.loop : Nat → CString → List CString
  | 0, _ | _, [] => []
  | n + 1, sp =>
    let currentitem := (sp.takeWhile (· ≠ ',')).take 250
    currentitem :: loop n (sp.drop (currentitem.length + 1))

/-- `NewClassesFromString`: the classes that are defined. `NewClass` takes no notice of an empty
name. -/
def newClassesFromString (classlist : CString) : List CString :=
  let «local» := classlist.take (cfMaxVarSize - 1)
  (newClassesFromString.loop «local».length «local»).filter (· ≠ [])

/-- The classes that an option of the agent defines. -/
def definedClasses (o : Found) : List CString :=
  if o.opt = 'D' then o.optarg.elim [] newClassesFromString else []

end Cfengine
