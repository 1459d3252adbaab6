import Reachability.Config.Load
import Reachability.Verification.Functions

/-!
# The surroundings of the program

Files, places to write to, and the time for a verification.
-/

namespace Reachability.CommandLine

/-- Something written: a text for the results, a text for the user, or a message of the log. -/
inductive Output where
  | out (text : String)
  | err (text : String)
  | log (message : LogMessage)
deriving DecidableEq, Repr

structure Environment (m : Type → Type) where
  files : FileAccess m
  write : Output → m Unit
  verify : AnalysisSpec → (traced : Bool) → (name : String) → Stmt → m (Logged Report)
  onTerminal : Bool
  processors : Nat

namespace Environment

variable {m : Type → Type}

def out (env : Environment m) (text : String) : m Unit := env.write (.out text)

def err (env : Environment m) (text : String) : m Unit := env.write (.err text)

variable [Monad m]

def tell (env : Environment m) (options : ReportOptions) (messages : List LogMessage) : m Unit :=
  ((LogFilter.ofSettings options.logLevel options.silenceWarn).select messages).forM
    fun message => env.write (.log message)

def verifyProgram (env : Environment m) (config : Config) (name : String) (program : Stmt) :
    m (Except VerifyError Report) := do
  let filter := LogFilter.ofSettings config.options.logLevel config.options.silenceWarn
  let (result, messages) ← env.verify config.analysis (filter.admits .trace) name program
  env.tell config.options messages
  match result with
  | .ok report =>
    env.tell config.options (← report.save env.files config.options)
    return .ok report
  | .error error => return .error error

end Environment

end Reachability.CommandLine
