import Reachability.Config.Setting
import Reachability.Text.Digits
import Reachability.Text.Quoted

/-!
# Flags

Flags stand in front of the other arguments.  They have a value behind an
equality sign or in the next argument; a truth value needs none.
-/

namespace Reachability.CommandLine

structure Flag where
  name : String
  meaning : String
  default : Setting.Value
deriving DecidableEq, Repr

inductive FlagError where
  | helpWanted
  | badSyntax (arg : String)
  | undefined (name : String)
  | noValue (name : String)
  | badFlag (name value : String)
  | badNumber (name value : String)
  | outOfRange (name value : String)
deriving DecidableEq, Repr

def FlagError.message? : FlagError → Option String
  | helpWanted => none
  | badSyntax arg => some ("bad flag syntax: " ++ arg)
  | undefined name => some ("flag provided but not defined: -" ++ name)
  | noValue name => some ("flag needs an argument: -" ++ name)
  | badFlag name value =>
    some ("invalid boolean value " ++ Text.quote value ++ " for -" ++ name ++ ": parse error")
  | badNumber name value =>
    some ("invalid value " ++ Text.quote value ++ " for flag -" ++ name ++ ": parse error")
  | outOfRange name value =>
    some ("invalid value " ++ Text.quote value ++ " for flag -" ++ name ++ ": value out of range")

def valueText : Setting.Value → String
  | .text text => text
  | .texts texts => " ".intercalate texts
  | .number number => toString number
  | .flag flag => toString flag

def flag? (text : String) : Option Bool :=
  if ["1", "t", "T", "TRUE", "true", "True"].contains text then some true
  else if ["0", "f", "F", "FALSE", "false", "False"].contains text then some false
  else none

def Flag.read (flag : Flag) (text : String) : Except FlagError Setting.Value :=
  match flag.default with
  | .flag _ =>
    match flag? text with
    | some value => .ok (.flag value)
    | none => .error (.badFlag flag.name text)
  | .number _ =>
    match Text.Digits.int64? text, Text.Digits.int? text.toList with
    | some value, _ => .ok (.number value.toInt)
    | none, some _ => .error (.outOfRange flag.name text)
    | none, none => .error (.badNumber flag.name text)
  | _ => .ok (.text text)

inductive Argument where
  | other
  | endOfFlags
  | malformed
  | flag (name : String) (value : Option String)

def Argument.ofFlag (chars : List Char) : Argument :=
  match chars with
  | [] | '-' :: _ | '=' :: _ => malformed
  | chars =>
    let name := chars.takeWhile (· ≠ '=')
    match chars.drop name.length with
    | [] => flag (String.ofList name) none
    | _ :: value => flag (String.ofList name) (some (String.ofList value))

def Argument.ofText (arg : String) : Argument :=
  match arg.toList with
  | ['-', '-'] => endOfFlags
  | '-' :: '-' :: rest => ofFlag rest
  | ['-'] => other
  | '-' :: rest => ofFlag rest
  | _ => other

abbrev Parsed := List (String × Setting.Value) × List String

def readFlags (flags : List Flag) (values : List (String × Setting.Value)) :
    List String → Except FlagError Parsed
  | [] => .ok (values, [])
  | arg :: rest =>
    match Argument.ofText arg with
    | .other => .ok (values, arg :: rest)
    | .endOfFlags => .ok (values, rest)
    | .malformed => .error (.badSyntax arg)
    | .flag name value =>
      match flags.find? (·.name = name) with
      | none => .error (if name = "help" || name = "h" then .helpWanted else .undefined name)
      | some flag =>
        match flag.default, value, rest with
        | .flag _, none, rest => readFlags flags ((name, .flag true) :: values) rest
        | _, some text, rest => do readFlags flags ((name, ← flag.read text) :: values) rest
        | _, none, text :: rest => do readFlags flags ((name, ← flag.read text) :: values) rest
        | _, none, [] => .error (.noValue name)

def flagLines (flags : List Flag) : String :=
  let sorted := flags.mergeSort fun first second => first.name ≤ second.name
  String.join (sorted.map fun flag =>
    "  " ++ flag.name ++ ": " ++ flag.meaning ++ " (default: " ++
      Text.quote (valueText flag.default) ++ ")\n")

end Reachability.CommandLine
