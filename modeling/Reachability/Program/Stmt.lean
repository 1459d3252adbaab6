import Reachability.Program.Expr

/-!
# Statements

Statement trees over integer variables.  Like expressions, they may have missing
parts and parts of an unknown kind.
-/

namespace Reachability

/-- The source position, zero if unknown, and the label of the control point before the statement,
empty if there is none. -/
structure Span where
  pos : Nat := 0
  label : String := ""
deriving DecidableEq, Repr, Inhabited

/-- Statement trees.  The second branch of a conditional is `missing` if there is no alternative. -/
inductive Stmt where
  | block (span : Span) (body : List Stmt)
  | assign (span : Span) (var : String) (value : Expr)
  | branch (span : Span) (cond : Expr) (yes no : Stmt)
  | loop (span : Span) (cond : Expr) (body : Stmt)
  | call (span : Span) (result callee : String) (args : List Expr)
  | assume (span : Span) (cond : Expr)
  | ret (span : Span)
  | brk (span : Span)
  | cont (span : Span)
  | skip (span : Span)
  | foreign (span : Span) (kind text : String)
  | missing
deriving Repr, Inhabited

namespace Stmt

def span : Stmt → Span
  | block span _ | assign span _ _ | branch span _ _ _ | loop span _ _ | call span _ _ _
  | assume span _ | ret span | brk span | cont span | skip span | foreign span _ _ => span
  | missing => {}

def withSpan (span : Span) : Stmt → Stmt
  | block _ body => block span body
  | assign _ var value => assign span var value
  | branch _ cond yes no => branch span cond yes no
  | loop _ cond body => loop span cond body
  | call _ result callee args => call span result callee args
  | assume _ cond => assume span cond
  | ret _ => ret span
  | brk _ => brk span
  | cont _ => cont span
  | skip _ => skip span
  | foreign _ kind text => foreign span kind text
  | missing => missing

def isMissing : Stmt → Bool
  | missing => true
  | _ => false

def isBlock : Stmt → Bool
  | block .. => true
  | _ => false

def isLoop : Stmt → Bool
  | loop .. => true
  | _ => false

def callText? (result callee : String) (args : List Expr) : Option String :=
  (args.mapM Expr.text?).map fun texts =>
    let call := callee ++ "(" ++ ", ".intercalate texts ++ ")"
    if result = "" then call else result ++ " = " ++ call

mutual

/-- There is no text if a statement of a block, an assigned value, an argument or an assumption is
missing; other missing parts are noted. -/
def text? : Stmt → Option String
  | block _ body => (texts? body).map fun texts => "\x7b " ++ "; ".intercalate texts ++ " \x7d"
  | assign _ var value => value.text?.map fun text => var ++ " = " ++ text
  | branch _ cond yes no =>
    let first := "if " ++ cond.shown ++ " " ++ noted "s" yes.isMissing yes.text? id
    if no.isMissing then some first
    else some (first ++ " else " ++ noted "s" false no.text? id)
  | loop _ cond body =>
    some ("while " ++ cond.shown ++ " " ++ noted "s" body.isMissing body.text? id)
  | call _ result callee args => callText? result callee args
  | assume _ cond => cond.text?.map fun text => "assume(" ++ text ++ ")"
  | ret _ => some "return"
  | brk _ => some "break"
  | cont _ => some "continue"
  | skip _ => some "skip"
  | foreign _ _ text => some text
  | missing => none

def texts? : List Stmt → Option (List String)
  | [] => some []
  | first :: rest => first.text?.bind fun text => (texts? rest).map (text :: ·)

end

mutual

/-- The statement and those nested in it, outermost first; what is nested in a statement is left out
where `descend` does not hold. -/
def nested (descend : Stmt → Bool) : Stmt → List Stmt
  | block span body =>
    block span body :: if descend (block span body) then nestedAll descend body else []
  | branch span cond yes no =>
    branch span cond yes no ::
      if descend (branch span cond yes no) then nested descend yes ++ nested descend no else []
  | loop span cond body =>
    loop span cond body :: if descend (loop span cond body) then nested descend body else []
  | missing => []
  | other => [other]

def nestedAll (descend : Stmt → Bool) : List Stmt → List Stmt
  | [] => []
  | first :: rest => nested descend first ++ nestedAll descend rest

end

def all (program : Stmt) : List Stmt := program.nested fun _ => true

def vars (program : Stmt) : List String :=
  let read (names : List String) (expr : Expr) := expr.vars.foldl addUnique names
  program.all.foldl (fun names stmt =>
    match stmt with
    | assign _ var value => read (addUnique names var) value
    | branch _ cond _ _ | loop _ cond _ | assume _ cond => read names cond
    | call _ result _ args =>
      let names := args.foldl read names
      if result = "" then names else addUnique names result
    | _ => names) []

def count (program : Stmt) : Nat := (program.all.filter fun stmt => !stmt.isBlock).length

end Stmt

end Reachability
