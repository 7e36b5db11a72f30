import Cegar.Options.Arguments
import Cegar.Options.Basic
import Cegar.Options.Words

/-!
# Reading options from a command line

The arguments up to a double dash are read into options that are there already. Flags that are not
given leave them as they are. Options with a default go back to it when they are not given. What is
read before a number turns out to be none stays read.
-/

namespace Cegar

/-- Changes to options that can fail; what was changed before stays changed. -/
abbrev OptionsM := ExceptT ConfigError (StateM Options)

namespace Options

/-- Reads a size, which has to be below the limit. -/
def size? (s : String) : Option Nat :=
  (Decimal.signedNat? s.toList).filter (· < sizeLimit)

/-- Reads a range. -/
def range? (s : String) : Option Int128 := (Decimal.int? s.toList).bind Int128.ofInt?

/-- The number that an option has for its value; none if there is no value. -/
def number {α : Type} (args : List Argument) (o : OptionName) (read : String → Option α) :
    Except ConfigError (Option α) :=
  match Argument.value? args o with
  | none => .ok none
  | some s =>
    match read s with
    | some n => .ok (some n)
    | none => .error (.notInteger o.text)

/-- Sets the options that have one of several values. -/
def setChoices (args : List Argument) (o : Options) : Options :=
  let is (name : OptionName) (v : String) : Bool := Argument.value? args name = some v
  { o with
    abstraction := if is .abstractionType "cartesian" then .cartesian else .boolean
    merge := if is .merge "sep" then .sep else .join
    combination := if is .thresholdCombination "and" then .and else .or }

/-- Sets what the flags stand for. -/
def setFlags (args : List Argument) (o : Options) : Options :=
  let given (f : FlagName) : Bool := .flag f ∈ args
  { o with
    symbolicCoverage := o.symbolicCoverage || given .symbolicCoverage
    atLoopHeads := o.atLoopHeads && !given .noLoopHeads
    atFunctionEntries := o.atFunctionEntries || given .functionEntries
    atReturnSites := o.atReturnSites || given .returnSites
    atCallSites := o.atCallSites || given .callSites
    atTargets := o.atTargets && !given .noTargets }

/-- Sets the options that the arguments give. -/
def setAll (args : List Argument) : OptionsM Unit := do
  let blockSize ← MonadExcept.ofExcept (number args .blockSize size?)
  modify fun o => { o with blockSize := blockSize.getD o.blockSize }
  let satCheck ← MonadExcept.ofExcept (number args .satCheck size?)
  modify fun o => { o with satCheck := satCheck.getD o.satCheck }
  modify (setFlags args ∘ setChoices args)
  let range ← MonadExcept.ofExcept (number args .solverRange range?)
  modify fun o => { o with solverRange := range.getD o.solverRange }

/-- Reads options from arguments. Those after a double dash are returned. -/
def parse (args : List String) : OptionsM (List String) := do
  let own ← MonadExcept.ofExcept (Argument.readAll (args.takeWhile (· ≠ "--")))
  MonadExcept.ofExcept (Argument.validate own)
  setAll own
  return (args.dropWhile (· ≠ "--")).drop 1

/-- Reads options from a command line. -/
def parseLine (line : String) : OptionsM (List String) := do
  parse (← MonadExcept.ofExcept (Words.split line))

end Options

end Cegar
