import Cegar.Options.Error

/-!
# Arguments

The arguments of a command line as options with values and flags. A value is part of the argument,
after an equals sign, or the next argument, if that does not start like an option.
-/

namespace Cegar

/-- An option with a value. -/
inductive OptionName where
  | blockSize
  | satCheck
  | abstractionType
  | merge
  | thresholdCombination
  | solverRange
deriving DecidableEq

/-- An option without a value. -/
inductive FlagName where
  | symbolicCoverage
  | noLoopHeads
  | functionEntries
  | returnSites
  | callSites
  | noTargets
deriving DecidableEq

namespace OptionName

def all : List OptionName :=
  [.blockSize, .satCheck, .abstractionType, .merge, .thresholdCombination, .solverRange]

def text : OptionName → String
  | .blockSize => "block_size"
  | .satCheck => "sat_check"
  | .abstractionType => "abstraction_type"
  | .merge => "merge"
  | .thresholdCombination => "threshold_combination"
  | .solverRange => "solver_range"

/-- How messages show the option. -/
def usage (o : OptionName) : String := "--" ++ o.text ++ " <" ++ o.text ++ ">"

/-- Whether the option can have this value at all. -/
def admits : OptionName → String → Bool
  | .abstractionType, v => v = "boolean" || v = "cartesian"
  | .merge, v => v = "sep" || v = "join"
  | .thresholdCombination, v => v = "or" || v = "and"
  | _, _ => true

/-- The value that the option has without being given one. -/
def default? : OptionName → Option String
  | .blockSize | .satCheck => some "0"
  | .abstractionType => some "boolean"
  | .merge => some "join"
  | .thresholdCombination => some "or"
  | .solverRange => none

end OptionName

namespace FlagName

def all : List FlagName :=
  [.symbolicCoverage, .noLoopHeads, .functionEntries, .returnSites, .callSites, .noTargets]

def text : FlagName → String
  | .symbolicCoverage => "symbolic_coverage_check"
  | .noLoopHeads => "no_loop_head_abstraction"
  | .functionEntries => "function_entry_abstraction"
  | .returnSites => "function_return_abstraction"
  | .callSites => "call_site_abstraction"
  | .noTargets => "no_target_abstraction"

/-- How messages show the flag. -/
def usage (f : FlagName) : String := "--" ++ f.text

end FlagName

inductive Argument where
  | option (name : OptionName) (value : Option String)
  | flag (name : FlagName)
deriving DecidableEq

namespace Argument

/-- Whether a text starts like an option; a single dash does not. -/
def isDashed (s : String) : Bool :=
  match s.toList with
  | '-' :: _ :: _ => true
  | _ => false

/-- Reads an argument that starts with two dashes, without them. More dashes make no difference,
and neither do more equals signs before the value. -/
def ofLong (cs : List Char) : Except ConfigError Argument :=
  let cs := cs.dropWhile (· = '-')
  let name := String.ofList (cs.takeWhile (· ≠ '='))
  let rest := cs.dropWhile (· ≠ '=')
  let value := if rest.isEmpty then none else some (String.ofList (rest.dropWhile (· = '=')))
  if name = "help" then .error .help
  else if name = "version" then .error .version
  else match OptionName.all.find? (·.text = name), FlagName.all.find? (·.text = name) with
    | some o, _ => .ok (.option o value)
    | none, some f => .ok (.flag f)
    | none, none => .error (.unexpected ("--" ++ name))

/-- Reads one argument; the value of an option may be still to come. -/
def ofText (s : String) : Except ConfigError Argument :=
  match s.toList with
  | '-' :: '-' :: cs => ofLong cs
  | '-' :: c :: _ =>
    if c = 'h' then .error .help
    else if c = 'V' then .error .version
    else .error (.unexpected (String.ofList ['-', c]))
  | _ => .error (.unexpected s)

/-- Reads the arguments of a command line. -/
def readAll : List String → Except ConfigError (List Argument)
  | [] => .ok []
  | [s] => do return [← ofText s]
  | s :: t :: rest => do
    match ← ofText s with
    | .option o none =>
      if isDashed t then return .option o none :: (← readAll (t :: rest))
      else return .option o (some t) :: (← readAll rest)
    | a => return a :: (← readAll (t :: rest))

/-- How often an option is given. -/
def occurrences (args : List Argument) (o : OptionName) : Nat :=
  args.countP fun
    | .option p _ => p = o
    | .flag _ => false

/-- The values that an option is given. -/
def values (args : List Argument) (o : OptionName) : List String :=
  args.filterMap fun
    | .option p v => if p = o then v else none
    | .flag _ => none

/-- The value of an option, which may be its default. -/
def value? (args : List Argument) (o : OptionName) : Option String :=
  (values args o).head?.or o.default?

/-- What is wrong with the way an option is given. -/
def optionFault? (args : List Argument) (o : OptionName) : Option ConfigError :=
  match (values args o).find? fun v => !o.admits v with
  | some v => some (.invalidValue v o.usage)
  | none => if 1 < occurrences args o then some (.repeated o.usage) else none

/-- What is wrong with the way a flag is given. -/
def flagFault? (args : List Argument) (f : FlagName) : Option ConfigError :=
  if 1 < args.count (.flag f) then some (.repeated f.usage) else none

/-- Checks that each option and flag is given at most once, with a value that it can have. The
solver range has no default, so it cannot do without a value. -/
def validate (args : List Argument) : Except ConfigError Unit :=
  let missing := OptionName.all.find? fun o =>
    0 < occurrences args o && (value? args o).isNone
  match missing with
  | some o => .error (.missingValue o.usage)
  | none =>
    match (OptionName.all.findSome? (optionFault? args)).or
        (FlagName.all.findSome? (flagFault? args)) with
    | some e => .error e
    | none => .ok ()

end Argument

end Cegar
