/-!
# Rejected command lines
-/

namespace Cegar

/-- Why a command line is not accepted. -/
inductive ConfigError where
  /-- A quote is not closed. -/
  | mismatchedQuotes
  /-- The argument is not known, or has no place where it stands. -/
  | unexpected (argument : String)
  /-- An option or flag is given twice. -/
  | repeated (usage : String)
  /-- The value is not one of those that the option can have. -/
  | invalidValue (value usage : String)
  | missingValue (usage : String)
  | notInteger (option : String)
  /-- The user asked for help. -/
  | help
  /-- The user asked for the version. -/
  | version
deriving DecidableEq

def ConfigError.message : ConfigError → String
  | .mismatchedQuotes => "Cannot parse argument string: MismatchedQuotes"
  | .unexpected argument =>
    "error: Found argument '" ++ argument
      ++ "' which wasn't expected, or isn't valid in this context"
  | .repeated usage =>
    "error: The argument '" ++ usage
      ++ "' was provided more than once, but cannot be used multiple times"
  | .invalidValue value usage =>
    "error: '" ++ value ++ "' isn't a valid value for '" ++ usage ++ "'"
  | .missingValue usage =>
    "error: The argument '" ++ usage ++ "' requires a value but none was supplied"
  | .notInteger option => "--" ++ option ++ " expects an integer"
  | .help => "predicate-cpa v0.1.0"
  | .version => ""

end Cegar
