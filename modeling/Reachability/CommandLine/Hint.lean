import Reachability.Text.Pattern

/-!
# Hints for error messages

Advice to users, selected by phrases that error messages contain.
-/

namespace Reachability.CommandLine

def anyEnd (holds : List Char → Bool) : List Char → Bool
  | [] => holds []
  | char :: rest => holds (char :: rest) || anyEnd holds rest

def after? (phrase : String) (text : List Char) : Option (List Char) :=
  if phrase.toList.isPrefixOf text then some (text.drop phrase.toList.length) else none

def mentions (phrase : String) (text : List Char) : Bool := anyEnd (phrase.toList.isPrefixOf ·) text

def isWordChar (char : Char) : Bool := Text.isLetter char || Text.isDigit char || char = '_'

def mentionsManyFiles (text : List Char) : Bool :=
  anyEnd (fun rest =>
    match after? "expected one Go file, got " rest with
    | some (count :: _) => '2' ≤ count && count ≤ '9'
    | _ => false) text

def mentionsMissingFunction (text : List Char) : Bool :=
  anyEnd (fun rest =>
    match after? "function " rest with
    | some rest =>
      !(rest.takeWhile isWordChar).isEmpty &&
        " not found".toList.isPrefixOf (rest.dropWhile isWordChar)
    | none => false) text

def hint (message : String) : String :=
  let text := message.toList
  if mentions "unsupported construct" text then
    "the function must be written with integer variables, assignments, if, for, break, " ++
      "continue, return and calls"
  else if mentionsManyFiles text then
    "all command line flags should be before the path to the Go file to analyze"
  else if mentionsMissingFunction text then "use -function to select the function to analyze"
  else if mentions "invalid configuration" text then "check the analysis section of the config file"
  else ""

end Reachability.CommandLine
