import Reachability.CommandLine.Run
import Reachability.Files.Tree

/-!
# Rehearsals

A run of the program on a tree of files, as a pure function.
-/

namespace Reachability.CommandLine

structure Rehearsal where
  tree : FileTree
  outputs : List Output := []

namespace Rehearsal

def onTree (operation : StateM FileTree α) : StateM Rehearsal α := fun state =>
  let (result, tree) := operation state.tree
  (result, { state with tree })

def files : FileAccess (StateM Rehearsal) where
  read path := onTree (FileTree.access.read path)
  write path content := onTree (FileTree.access.write path content)
  makeDirs path := onTree (FileTree.access.makeDirs path)
  makeTempDir parent suffix := onTree (FileTree.access.makeTempDir parent suffix)

/-- A verification takes `fuel` iterations at most, and is interrupted as `interruption` says. -/
def environment (interruption : AnalysisSpec → Option Interruption) (fuel : Nat) :
    Environment (StateM Rehearsal) where
  files := files
  write output := modify fun state => { state with outputs := output :: state.outputs }
  verify spec traced name program :=
    return Verification.run spec traced (interruption spec) fuel name program
  onTerminal := false
  processors := 1

def out (state : Rehearsal) : String :=
  String.join (state.outputs.reverse.map fun output =>
    match output with
    | .out text => text
    | _ => "")

def err (state : Rehearsal) : String :=
  String.join (state.outputs.reverse.map fun output =>
    match output with
    | .err text => text
    | _ => "")

end Rehearsal

def rehearse (interruption : AnalysisSpec → Option Interruption) (fuel : Nat) (tree : FileTree)
    (args : List String) : Nat × Rehearsal :=
  (run (Rehearsal.environment interruption fuel) args).run { tree }

end Reachability.CommandLine
