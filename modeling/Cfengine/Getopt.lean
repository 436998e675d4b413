import Cfengine.Defs
import Cfengine.Theory.ShellWords

/-!
# Options of a command line (`getopt.c`)

`getopt_long` in its order `PERMUTE`: elements that are no options are passed over. The elements are
words of a shell.
-/

namespace Cfengine

/-- `no_argument`, `required_argument` and `optional_argument` -/
inductive HasArg where
  | no | required | optional
deriving DecidableEq

/-- `struct option`, with no `flag` -/
structure LongOption where
  name : CString
  hasArg : HasArg
  val : Char

/-- What one call of `getopt_long` returns, with `optarg`. -/
structure Found where
  opt : Char
  optarg : Option CString
deriving DecidableEq

section
variable (optstring : List Char) (longopts : List LongOption)

/-- The long option that a name, or the start of one, stands for. -/
def pfound (name : CString) : Option LongOption :=
  match longopts.find? (·.name = name) with
  | some p => some p
  | none =>
    match longopts.filter fun p => name.isPrefixOf p.name with
    | [p] => some p
    | _ => none

/-- An element that is a long option, from behind `--` on: what is found, and what still waits for
the next element as its argument. -/
def getopt.long (nextchar : CString) : List Found × Option Found :=
  let found : Found := ⟨'?', none⟩
  match pfound longopts (nextchar.takeWhile (· ≠ '=')) with
  | none => ([found], none)
  | some p =>
    match nextchar.dropWhile (· ≠ '='), p.hasArg with
    | _ :: _, .no => ([found], none)
    | _ :: optarg, _ => ([{ found with opt := p.val, optarg := some optarg }], none)
    | [], .required => ([], some { found with opt := p.val })
    | [], _ => ([{ found with opt := p.val }], none)

/-- What `optstring` has for a character, if it has one. -/
def shortOption (c : Char) : Option HasArg :=
  let temp := optstring.dropWhile (· ≠ c)
  if temp = [] || c = ':' then none
  else
    match temp.tail with
    | ':' :: ':' :: _ => some .optional
    | ':' :: _ => some .required
    | _ => some .no

/-- An element that is a group of short options, from behind `-` on. -/
def getopt.short : CString → List Found × Option Found
  | [] => ([], none)
  | c :: nextchar =>
    let found : Found := ⟨c, none⟩
    match shortOption optstring c with
    | none =>
      let (others, waiting) := short nextchar
      ({ found with opt := '?' } :: others, waiting)
    | some .no =>
      let (others, waiting) := short nextchar
      (found :: others, waiting)
    | some .optional =>
      ([{ found with optarg := if nextchar = [] then none else some nextchar }], none)
    | some .required =>
      if nextchar = [] then ([], some found)
      else ([{ found with optarg := some nextchar }], none)

/-- What `getopt_long` finds, called until the end. An option that waits for its argument takes the
next element for it. -/
def getopt : Option Found → List Shell.Word → List Found
  | none, [] => []
  | some waiting, [] => [{ waiting with opt := '?' }]
  | some waiting, element :: argv =>
    { waiting with optarg := some element.word } :: getopt none argv
  | none, element :: argv =>
    match element.word with
    | ['-', '-'] => []
    | '-' :: '-' :: nextchar =>
      let (found, waiting) := getopt.long longopts nextchar
      found ++ getopt waiting argv
    | '-' :: c :: nextchar =>
      let (found, waiting) := getopt.short optstring (c :: nextchar)
      found ++ getopt waiting argv
    | _ => getopt none argv

end

end Cfengine
