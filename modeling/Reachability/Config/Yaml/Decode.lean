import Reachability.Config.Binary
import Reachability.Config.Setting
import Reachability.Config.Yaml.Node

/-!
# Configurations in YAML

The mappings `analysis` and `options` hold the settings.  A plain scalar stands
for what it looks like, unless the setting is a text.
-/

namespace Reachability.Yaml

/-- What a scalar stands for. -/
inductive Meaning where
  | nothing
  | flag (flag : Bool)
  | integer (value : Int)
  /-- An integer that is too large for a signed word. -/
  | large
  /-- A fraction by its integer part, which is missing if it is too large. -/
  | fraction (whole : Option Int)
  | text
deriving DecidableEq, Repr

namespace Meaning

def tag : Meaning → String
  | nothing => "!!null"
  | flag _ => "!!bool"
  | integer _ | large => "!!int"
  | fraction _ => "!!float"
  | text => "!!str"

def fitsWord (value : Int) : Bool := Int64.minValue.toInt ≤ value && value ≤ Int64.maxValue.toInt

def wordLimit : Nat := Nat.pow 2 63

/-- Numbers that are too small, and the first one that is too large, have the least word. -/
def wordOf (negative : Bool) (size : Nat) : Option Int :=
  let value : Int := if negative then -(size : Int) else size
  if value > wordLimit then none else some (if fitsWord value then value else -wordLimit)

def decimal? (chars : List Char) : Option (Bool × Nat × Nat) := do
  let (negative, chars) := match chars with
    | '-' :: rest => (true, rest)
    | '+' :: rest => (false, rest)
    | chars => (false, chars)
  let isDigit := Text.Digits.isDigitOf 10
  let (whole, chars) := chars.span isDigit
  let (part, chars) := match chars with
    | '.' :: rest => rest.span isDigit
    | chars => ([], chars)
  if whole.isEmpty && part.isEmpty then none
  let exponent ← (match chars with
    | [] => some 0
    | mark :: rest =>
      let digits := match rest with
        | '-' :: digits | '+' :: digits => digits
        | digits => digits
      if (mark = 'e' || mark = 'E') && !digits.isEmpty && digits.all isDigit then
        (Text.Digits.value? 10 0 digits).map fun size =>
          if rest.head? = some '-' then -(size : Int) else size
      else none)
  let mantissa ← Text.Digits.value? 10 0 (whole ++ part)
  let exponent := exponent - part.length
  if mantissa = 0 then return (negative, 0, 1)
  else if exponent < -400 - (whole.length + part.length : Nat) then return (negative, 0, 1)
  else if exponent > 400 then none
  else return (negative, mantissa * Nat.pow 10 exponent.toNat, Nat.pow 10 (-exponent).toNat)

def fraction? (chars : List Char) : Option Meaning := do
  let (negative, num, den) ← decimal? chars
  if num = 0 then return .fraction (some 0)
  else
    let size := (Binary.ofQuotient num den).floor
    if size < Nat.pow 2 1024 then return .fraction (wordOf negative size) else none

def ofText (scalar : String) : Meaning :=
  if ["", "~", "null", "Null", "NULL"].contains scalar then nothing
  else if ["true", "True", "TRUE"].contains scalar then flag true
  else if ["false", "False", "FALSE"].contains scalar then flag false
  else if [".nan", ".NaN", ".NAN", ".inf", ".Inf", ".INF", "+.inf", "+.Inf",
      "+.INF"].contains scalar then fraction none
  else if ["-.inf", "-.Inf", "-.INF"].contains scalar then fraction (some (-wordLimit))
  else
    match scalar.toList with
    | [] => nothing
    | first :: rest =>
      if first = '.' then (fraction? (first :: rest)).getD text
      else if Text.isDigit first || first = '-' || first = '+' then
        let digits := (first :: rest).filter (· ≠ '_')
        match Text.Digits.int? digits with
        | some value =>
          if fitsWord value then integer value
          else if Text.isDigit first && value < 2 * wordLimit then large
          else (fraction? digits).getD text
        | none => (fraction? digits).getD text
      else text

/-- A tag has to agree with what the scalar looks like, but every scalar can be a text, and an
integer a fraction. -/
def ofScalar (tag : String) (plain : Bool) (scalar : String) : Option Meaning :=
  if tag = "!!str" || (tag = "" && !plain) then some text
  else
    let meaning := ofText scalar
    if tag = "" || tag = meaning.tag then some meaning
    else
      match tag, meaning with
      | "!!float", integer value => fraction? (toString value).toList
      | _, _ => none

end Meaning

namespace Node

/-- The part that a reference stands for.  There is none inside that part. -/
def resolved : Node → Option Node
  | reference _ target => target
  | node => some node

/-- A scalar as a text, which an empty place does not have. -/
def text? (node : Node) : Option (Option String) := do
  match ← node.resolved with
  | scalar tag plain text =>
    return if (← Meaning.ofScalar tag plain text) = .nothing then none else some text
  | _ => none

def setting? (kind : Setting.Value) (node : Node) : Option (Option Setting.Value) := do
  let node ← node.resolved
  match kind, node with
  | .texts _, sequence items => return some (.texts ((← items.mapM text?).filterMap id))
  | .text _, node => return (← node.text?).map .text
  | kind, scalar tag plain text =>
    match kind, ← Meaning.ofScalar tag plain text with
    | _, .nothing => return none
    | .number _, .integer value => return some (.number value)
    | .number _, .fraction whole => return some (.number (← whole))
    | .flag _, .flag flag => return some (.flag flag)
    | .flag _, .text =>
      if ["y", "Y", "yes", "on"].contains text then return some (.flag true)
      else if ["n", "N", "no", "off"].contains text then return some (.flag false)
      else none
    | _, _ => none
  | _, _ => none

def sameKey : Node → Node → Bool
  | scalar _ _ first, scalar _ _ second => first = second
  | reference first _, reference second _ => first = second
  | sequence _, sequence _ | mapping _, mapping _ => true
  | _, _ => false

def isMerge : Node → Bool
  | scalar tag plain text => text = "<<" && (tag = "!!merge" || (tag = "" && plain))
  | _ => false

def distinctKeys : List (Node × Node) → Bool
  | [] => true
  | (key, _) :: rest => !(rest.any fun entry => key.sameKey entry.1) && distinctKeys rest

/-- The entries by the texts of their keys.  Entries of merged mappings follow if their keys are not
there yet. -/
def entries? : Nat → List String → List (Node × Node) → Option (List (String × Node))
  | 0, _, _ => none
  | depth + 1, seen, entries => do
      if !distinctKeys entries then none
      let own ← (entries.filter fun entry => !entry.1.isMerge).mapM fun (key, value) =>
        (key.text?.map fun name => name.map (·, value))
      let own := own.filterMap id
      let mine := own.filter fun entry => !seen.contains entry.1
      let start := (seen ++ own.map Prod.fst, mine)
      let merged ← (match (entries.filter fun entry => entry.1.isMerge).getLast? with
        | none => some start
        | some (_, source) => do
            let sources ← (match source with
              | sequence items => some items
              | node => some [node])
            sources.foldlM (fun (seen, found) source => do
              match ← source.resolved with
              | mapping entries =>
                let more ← entries? depth seen entries
                return (seen ++ more.map Prod.fst, found ++ more)
              | _ => none) start)
      return merged.2

def mergeDepth : Nat := 100

def applyTo (settings : α → List (String × Setting.Value))
    (put : α → String → Setting.Value → Option α) (start : α) (node : Node) : Option α := do
  match ← node.resolved with
  | mapping entries =>
    (← entries? mergeDepth [] entries).foldlM (fun current (name, node) => do
      match (settings current).lookup name with
      | none => return current
      | some kind =>
        match ← node.setting? kind with
        | some value => put current name value
        | none => return current) start
  | node => if (← node.text?) = none then return start else none

def configure (config : Config) (node : Node) : Option Config := do
  match ← node.resolved with
  | mapping entries =>
    (← entries? mergeDepth [] entries).foldlM (fun (config : Config) (name, node) => do
      match name with
      | "analysis" =>
        let analysis ← node.applyTo AnalysisSpec.settings AnalysisSpec.put config.analysis
        return { config with analysis }
      | "options" =>
        let options ← node.applyTo ReportOptions.settings ReportOptions.put config.options
        return { config with options }
      | _ => return config) config
  | node => if (← node.text?) = none then return config else none

end Node

def decode (text : String) : Option Config := do
  match ← Node.ofText? text with
  | some root => root.configure {}
  | none => return {}

end Reachability.Yaml
