import Reachability.Config.Yaml.Token

/-!
# Documents of YAML

The tokens of the first document form a tree of scalars, sequences and mappings.
To know which token comes next, the two after it have to be readable too.
-/

namespace Reachability.Yaml

/-- A part of a document.  A reference keeps the part it stands for, unless it is inside that
part. -/
inductive Node where
  | scalar (tag : String) (plain : Bool) (text : String)
  | sequence (items : List Node)
  | mapping (entries : List (Node × Node))
  | reference (name : String) (target : Option Node)
deriving Repr

namespace Node

def absent : Node := scalar "" true ""

/-- A part with a name, as soon as it is complete.  Its place tells parts of the same name apart. -/
structure Anchored where
  name : String
  place : Nat
  node : Option Node

structure Reading.State where
  tokens : List Token
  anchors : List Anchored := []

abbrev Reading := StateT Reading.State Option

namespace Reading

def peek : Reading Token := do
  let tokens := (← get).tokens
  if (tokens.take 3).contains .broken then failure else return tokens.head?.getD .streamEnd

def skip : Reading Unit := modify fun state => { state with tokens := state.tokens.drop 1 }

def accept (token : Token) : Reading Bool := do
  if (← peek) = token then
    skip
    return true
  else return false

def expect (token : Token) : Reading Unit := do
  if !(← accept token) then failure

def orAbsent (stops : List Token) (read : Reading Node) : Reading Node := do
  if stops.contains (← peek) then return absent else read

def valueOrAbsent (stops : List Token) (read : Reading Node) : Reading Node := do
  if ← accept .value then orAbsent stops read else return absent

def repeated (step : Reading (Option α)) : Nat → Reading (List α)
  | 0 => failure
  | fuel + 1 => do
      match ← step with
      | some item => return item :: (← repeated step fuel)
      | none => return []

def collect (step : Bool → Reading (Option α)) : Reading (List α) := do
  match ← step true with
  | some item => return item :: (← repeated (step false) ((← get).tokens.length + 1))
  | none => return []

def blockItem (read : Reading Node) : Reading (Option Node) := do
  if ← accept .blockEntry then return some (← orAbsent [.blockEntry, .blockEnd] read)
  else
    expect .blockEnd
    return none

def shallowItem (read : Reading Node) : Reading (Option Node) := do
  if ← accept .blockEntry then
    return some (← orAbsent [.blockEntry, .key, .value, .blockEnd] read)
  else return none

def blockPair (read : Reading Node) : Reading (Option (Node × Node)) := do
  if ← accept .key then
    let stops := [.key, .value, .blockEnd]
    let key ← orAbsent stops read
    return some (key, ← valueOrAbsent stops read)
  else
    expect .blockEnd
    return none

def flowItem (read : Reading Node) (first : Bool) : Reading (Option Node) := do
  if ← accept .flowSequenceEnd then return none
  if !first then expect .flowEntry
  if ← accept .flowSequenceEnd then return none
  if ← accept .key then
    let key ← (do
      if [.value, .flowEntry, .flowSequenceEnd].contains (← peek) then
        skip
        return absent
      else read)
    return some (.mapping [(key, ← valueOrAbsent [.flowEntry, .flowSequenceEnd] read)])
  else return some (← read)

def flowPair (read : Reading Node) (first : Bool) : Reading (Option (Node × Node)) := do
  if ← accept .flowMappingEnd then return none
  if !first then expect .flowEntry
  if ← accept .flowMappingEnd then return none
  if ← accept .key then
    let key ← orAbsent [.value, .flowEntry, .flowMappingEnd] read
    return some (key, ← valueOrAbsent [.flowEntry, .flowMappingEnd] read)
  else return some (← read, absent)

def properties : Reading (String × String) := do
  match ← peek with
  | .anchor name =>
    skip
    match ← peek with
    | .tag tag =>
      skip
      return (name, tag)
    | _ => return (name, "")
  | .tag tag =>
    skip
    match ← peek with
    | .anchor name =>
      skip
      return (name, tag)
    | _ => return ("", tag)
  | _ => return ("", "")

def anchored (name : String) (read : Reading Node) : Reading Node := do
  if name = "" then read
  else
    let place := (← get).tokens.length
    modify fun state => { state with anchors := ⟨name, place, none⟩ :: state.anchors }
    let node ← read
    modify fun state =>
      { state with
        anchors := state.anchors.map fun anchor =>
          if anchor.place = place then { anchor with node := some node } else anchor }
    return node

/-- Parts in brackets hold no block collections, and only the keys and values of block mappings may
be sequences as deep as the mapping. -/
def node : Nat → (block shallow : Bool) → Reading Node
  | 0, _, _ => failure
  | fuel + 1, block, shallow => do
      match ← peek with
      | .reference name =>
        skip
        let some anchor := (← get).anchors.find? (·.name = name) | failure
        return .reference name anchor.node
      | _ =>
        let (name, tag) ← properties
        anchored name do
          match ← peek with
          | .blockEntry =>
            if shallow then .sequence <$> collect fun _ => shallowItem (node fuel true false)
            else bare name tag
          | .scalar plain text =>
            skip
            return .scalar (if tag = "!" then "" else tag) plain text
          | .flowSequenceStart =>
            skip
            .sequence <$> collect (flowItem (node fuel false false))
          | .flowMappingStart =>
            skip
            .mapping <$> collect (flowPair (node fuel false false))
          | .blockSequenceStart =>
            if block then
              skip
              .sequence <$> collect fun _ => blockItem (node fuel true false)
            else bare name tag
          | .blockMappingStart =>
            if block then
              skip
              .mapping <$> collect fun _ => blockPair (node fuel true true)
            else bare name tag
          | _ => bare name tag
where
  /-- A part of which only a name or a tag is written. -/
  bare (name tag : String) : Reading Node :=
    if name = "" && tag = "" then failure
    else return .scalar (if tag = "!" then "" else tag) true ""

def skipDirectives (versioned : Bool) : Nat → Reading Unit
  | 0 => failure
  | fuel + 1 => do
      match ← peek with
      | .versionDirective =>
        if versioned then failure
        skip
        skipDirectives true fuel
      | .tagDirective =>
        skip
        skipDirectives versioned fuel
      | _ => return ()

def document : Reading (Option Node) := do
  let depth := (← get).tokens.length + 1
  let content : Reading Node := do
    expect .documentStart
    orAbsent [.versionDirective, .tagDirective, .documentStart, .documentEnd, .streamEnd]
      (node depth true false)
  match ← peek with
  | .streamEnd => return none
  | .versionDirective | .tagDirective =>
    skipDirectives false depth
    finish content
  | .documentStart => finish content
  | _ => finish (node depth true false)
where
  finish (read : Reading Node) : Reading (Option Node) := do
    let root ← read
    let _ ← peek
    return some root

end Reading

/-- The first document, if there is one.  No result means that the text is not readable up to its
end. -/
def ofText? (text : String) : Option (Option Node) :=
  (Reading.document.run { tokens := tokens text }).map Prod.fst

end Node

end Reachability.Yaml
