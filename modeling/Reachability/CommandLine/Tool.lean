import Reachability.CommandLine.Flag

/-!
# Tools

The tools of the program with their flags and their usage.
-/

namespace Reachability.CommandLine

inductive Tool where
  | verify | render | cfa
deriving DecidableEq, Repr

namespace Tool

def name : Tool → String
  | verify => "verify"
  | render => "render"
  | cfa => "cfa"

def ofName? (name : String) : Option Tool := [verify, render, cfa].find? (·.name = name)

def explanation : Tool → String
  | verify =>
    "Check that the target function (reach_error by default) cannot be called.\n" ++
    "Usage:\n" ++
    "  cpacheck verify [options] <Go file>\n" ++
    "Examples:\n" ++
    "Verify the function main of prog.go\n" ++
    "  % cpacheck verify prog.go\n" ++
    "Verify every function of prog.go that calls the target, using 4 goroutines\n" ++
    "  % cpacheck verify -all -routines 4 prog.go\n"
  | render =>
    "Render the control-flow automaton or the abstract reachability graph of a function.\n" ++
    "Usage:\n" ++
    "  cpacheck render [options] <Go file>\n" ++
    "Examples:\n" ++
    "Render the control-flow automaton of main\n" ++
    "  % cpacheck render -cfaout main.dot prog.go\n" ++
    "Render the abstract reachability graph of the function f\n" ++
    "  % cpacheck render -function f -argout f-arg.dot prog.go\n"
  | cfa =>
    "Print the control-flow automaton of a function.\n" ++
    "Usage:\n" ++
    "  cpacheck cfa [options] <Go file>\n"

def flags (processors : Nat) (tool : Tool) : List Flag :=
  let common : List Flag := [
    ⟨"config", "config file path for analysis", .text ""⟩,
    ⟨"verbose", "verbose printing on standard output", .flag false⟩,
    ⟨"function", "function to analyze (overrides the config)", .text ""⟩]
  common ++ match tool with
    | verify => [
        ⟨"all", "verify all the functions of the file that call the target function", .flag false⟩,
        ⟨"routines", "number of goroutines used with -all", .number processors⟩]
    | render => [
        ⟨"cfaout", "output file for the control-flow automaton (no output if not specified)",
          .text ""⟩,
        ⟨"argout", "output file for the abstract reachability graph (no output if not specified)",
          .text ""⟩]
    | cfa => []

def usage (processors : Nat) (tool : Tool) : String :=
  tool.explanation ++ "\nOptions:\n" ++ flagLines (tool.flags processors)

end Tool

def usage : String :=
  "Cpacheck: reachability checking with configurable program analysis\n" ++
  "Usage:\n" ++
  "  cpacheck [tool] [options] <Go file path(s)>\n" ++
  "Tools:\n" ++
  "  - verify: checks whether the calls to the target function (reach_error by default) are " ++
  "reachable\n" ++
  "  - render: writes the control-flow automaton and the abstract reachability graph in DOT " ++
  "format\n" ++
  "  - cfa: prints the control-flow automaton of a function\n" ++
  "Examples:\n" ++
  "  Verify the main function of a file: cpacheck verify main.go\n" ++
  "  Verify all the functions of a file with a config: " ++
  "cpacheck verify -config=config.yaml -all main.go"

end Reachability.CommandLine
