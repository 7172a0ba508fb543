import StochasticSat.Duration

/-!
# Errors

What can go wrong, by cause.  `Error.message` is the text of every cause.  A search that ends
without a model is not an error.
-/

namespace StochasticSat

open Decimal

/-- Why a clause is refused. -/
inductive ClauseFault where
  | empty
  | zeroLiteral
  | outOfRange
deriving DecidableEq

/-- Why a configuration is refused. -/
inductive ConfigFault where
  | noise (threshold : Float)
  | timeLimit (seconds : Float) (fault : DurationFault)
  | noThreads
  | emptyShape (numVars clauseSize : Nat)
  | tooManyVariables (numVars : Nat)
  | clauseRatio (ratio : Float)
  | noInput

/-- Why a file or a directory cannot be used. -/
inductive FileFault where
  | notFound
  | alreadyExists
  | notADirectory
  | isADirectory
  | nameTooLong
  | tooManyLinks
  | nulInPath
  | noInstanceDirectory (path : String)
  | notText
deriving DecidableEq

/-- Everything that can go wrong. -/
inductive Error where
  /-- The clause at a position, counted from 0, is refused. -/
  | malformedClause (position : Nat) (fault : ClauseFault)
  /-- An index is not one of an instance's or an assignment's. -/
  | unknownVariable (index numVars : Nat)
  /-- A solution mentions a variable that is not in the instance. -/
  | unknownLiteral (literal : Int32)
  /-- A solution leaves a variable of the instance without a value. -/
  | missingVariable (name : Nat)
  /-- A token on a line, counted from 1, is not a signed literal. -/
  | badToken (line : Nat) (token : String)
  /-- Some files of a directory are no instances. -/
  | unreadableInstances (failed total : Nat)
  | invalidConfig (fault : ConfigFault)
  | file (fault : FileFault)

/-- What is wrong with a clause, in words. -/
def ClauseFault.message : ClauseFault → String
  | .empty => "clause is empty"
  | .zeroLiteral => "clause contains the literal 0"
  | .outOfRange => "clause contains a literal out of range"

/-- What is wrong with a configuration, in words. -/
def ConfigFault.message : ConfigFault → String
  | .noise threshold => "noise threshold must be within [0, 1], got " ++ floatText threshold
  | .timeLimit seconds fault =>
    "invalid time limit " ++ floatText seconds ++ ": " ++ fault.message
  | .noThreads => "at least one search thread is required"
  | .emptyShape numVars clauseSize =>
    "random instance needs at least one variable and one literal per clause (got " ++
      natText numVars ++ " variables, k = " ++ natText clauseSize ++ ")"
  | .tooManyVariables numVars => natText numVars ++ " variables do not fit signed literals"
  | .clauseRatio ratio => "clause ratio must be a non-negative number, got " ++ floatText ratio
  | .noInput => "no input given; pass a path or use the `file` or `text` subcommand"

/-- What is wrong with a file, in words. -/
def FileFault.message : FileFault → String
  | .notFound => "No such file or directory (os error 2)"
  | .alreadyExists => "File exists (os error 17)"
  | .notADirectory => "Not a directory (os error 20)"
  | .isADirectory => "Is a directory (os error 21)"
  | .nameTooLong => "File name too long (os error 36)"
  | .tooManyLinks => "Too many levels of symbolic links (os error 40)"
  | .nulInPath => "file name contained an unexpected NUL byte"
  | .noInstanceDirectory path => "not a directory: " ++ path
  | .notText => "stream did not contain valid UTF-8"

/-- What went wrong, in words. -/
def Error.message : Error → String
  | .malformedClause position fault =>
    "malformed clause #" ++ natText position ++ ": " ++ fault.message
  | .unknownVariable index numVars =>
    "unknown variable index " ++ natText index ++ " (instance has " ++ natText numVars ++
      " variables)"
  | .unknownLiteral literal =>
    "literal " ++ intText literal.toInt ++ " does not belong to the instance"
  | .missingVariable name => "variable " ++ natText name ++ " has no value in the solution"
  | .badToken line token =>
    "line " ++ natText line ++ ": cannot parse '" ++ token ++ "' as a literal"
  | .unreadableInstances failed total =>
    natText failed ++ " of " ++ natText total ++ " instance files could not be read"
  | .invalidConfig fault => "invalid configuration: " ++ fault.message
  | .file fault => "io error: " ++ fault.message

end StochasticSat
