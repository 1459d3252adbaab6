import Reachability.Config.Basic
import Reachability.Source.File
import Reachability.Source.Lowering
import Reachability.Source.Place

/-!
# Functions of a source file

A function is looked up in a file and lowered to a statement tree.
-/

namespace Reachability.Source

structure Function where
  name : String
  pos : Nat
  body : Stmt
deriving Repr

inductive SourceError where
  | malformed (file : String)
  | notFound (name file : String)
  | noBody (name : String)
  | refused (place : String) (refusal : Refusal)
deriving DecidableEq, Repr

def SourceError.message : SourceError → String
  | malformed file => "could not parse " ++ file ++ ": malformed source text"
  | notFound name file => "function " ++ name ++ " not found in " ++ file
  | noBody name => "function " ++ name ++ " has no body"
  | refused place refusal => "unsupported construct: " ++ refusal.reason ++ " at " ++ place

def Lowering.ofSpec (spec : AnalysisSpec) (labels : List (Nat × String)) : Lowering :=
  { nondetPrefix := spec.nondetPrefix, assumeFunction := spec.assumeFunction, labels }

namespace SourceFile

def read (name text : String) : Except SourceError SourceFile :=
  match ofText? name text with
  | some file => .ok file
  | none => .error (.malformed name)

def lower (file : SourceFile) (lowering : Lowering) (decl : FunctionDecl) :
    Except SourceError Function :=
  match decl.body with
  | none => .error (.noBody decl.name)
  | some (pos, body) =>
    match lowering.body decl.params pos body with
    | .ok body => .ok { name := decl.name, pos := decl.pos, body }
    | .error error =>
      .error (.refused (file.name ++ ":" ++ placeText file.text error.pos) error.refusal)

def lowerNamed (file : SourceFile) (spec : AnalysisSpec) (name : String) :
    Except SourceError Function :=
  match file.functions.find? fun decl => decl.receiver.isNone && decl.name = name with
  | some decl => file.lower (.ofSpec spec (labels file.lexemes)) decl
  | none => .error (.notFound name file.name)

def lowerAll (file : SourceFile) (spec : AnalysisSpec) :
    List (String × Except SourceError Function) :=
  (file.functions.filter fun decl => decl.body.isSome).map fun decl =>
    (decl.name, file.lower (.ofSpec spec (labels file.lexemes)) decl)

def lowered (file : SourceFile) (spec : AnalysisSpec) : List Function :=
  (file.lowerAll spec).filterMap fun (_, result) => result.toOption

def skipped? (file : SourceFile) (spec : AnalysisSpec) : Option String :=
  let reasons := (file.lowerAll spec).filterMap fun (name, result) =>
    match result with
    | .ok _ => none
    | .error error => some ("function " ++ name ++ ": " ++ error.message)
  if reasons.isEmpty then none else some ("\n".intercalate reasons)

end SourceFile

def readFunction (file text : String) (spec : AnalysisSpec) (name : String) :
    Except SourceError Function := do
  (← SourceFile.read file text).lowerNamed spec name

end Reachability.Source
