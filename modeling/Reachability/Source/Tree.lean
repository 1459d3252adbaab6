import Reachability.Source.Token

/-!
# Source trees

Constructs that cannot be lowered are kept as the name of their kind and the
expressions inside them.
-/

namespace Reachability.Source

inductive Direction where
  | both | send | receive
deriving DecidableEq, Repr

/-- Expressions and types, which share one grammar. -/
inductive SourceExpr where
  | name (pos : Nat) (name : String)
  | literal (pos : Nat) (kind : LiteralKind) (text : String)
  | paren (pos : Nat) (inner : SourceExpr)
  | unary (pos : Nat) (op : String) (operand : SourceExpr)
  | binary (op : String) (left right : SourceExpr)
  | call (fn : SourceExpr) (args : List SourceExpr) (spread : Bool)
  | channel (pos : Nat) (direction : Direction) (value : SourceExpr)
  | other (pos : Nat) (kind : String) (parts : List SourceExpr)
deriving Repr, Inhabited

namespace SourceExpr

def pos : SourceExpr → Nat
  | name pos _ | literal pos _ _ | paren pos _ | unary pos _ _ | channel pos _ _
  | other pos _ _ => pos
  | binary _ left _ => left.pos
  | call fn _ _ => fn.pos

def kind : SourceExpr → String
  | name _ _ => "Ident"
  | literal _ _ _ => "BasicLit"
  | paren _ _ => "ParenExpr"
  | unary _ _ _ => "UnaryExpr"
  | binary _ _ _ => "BinaryExpr"
  | call _ _ _ => "CallExpr"
  | channel _ _ _ => "ChanType"
  | other _ kind _ => kind

def unparenthesized : SourceExpr → SourceExpr
  | paren _ inner => inner.unparenthesized
  | expr => expr

def isCall : SourceExpr → Bool
  | call _ _ _ => true
  | _ => false

mutual

def callsOf (target : String) : SourceExpr → Nat
  | name _ _ | literal _ _ _ => 0
  | paren _ inner => inner.callsOf target
  | unary _ _ operand => operand.callsOf target
  | binary _ left right => left.callsOf target + right.callsOf target
  | call fn args _ =>
    (match fn with
      | name _ called => if called = target then 1 else 0
      | _ => 0)
      + fn.callsOf target + callsOfAll target args
  | channel _ _ value => value.callsOf target
  | other _ _ parts => callsOfAll target parts

def callsOfAll (target : String) : List SourceExpr → Nat
  | [] => 0
  | first :: rest => first.callsOf target + callsOfAll target rest

end

end SourceExpr

/-- One line of a declaration of variables: either there are no values, or one for each name. -/
structure VarSpec where
  names : List String
  type : Option SourceExpr
  values : List SourceExpr
deriving Repr, Inhabited

/-- Statements.  The first statement of a conditional or a loop, its alternative and the statement
after each round are lists with at most one element. -/
inductive SourceStmt where
  | block (pos : Nat) (body : List SourceStmt)
  | empty
  | assign (op : String) (left right : List SourceExpr)
  | step (op : String) (operand : SourceExpr)
  | vars (pos : Nat) (specs : List VarSpec)
  | decl (pos : Nat) (parts : List SourceExpr)
  | expr (value : SourceExpr)
  | branch (pos : Nat) (init : List SourceStmt) (cond : SourceExpr) (bodyPos : Nat)
      (body : List SourceStmt) (alternative : List SourceStmt)
  | loop (pos : Nat) (init : List SourceStmt) (cond : Option SourceExpr) (post : List SourceStmt)
      (bodyPos : Nat) (body : List SourceStmt)
  | jump (pos : Nat) (keyword : String) (label : Option String)
  | ret (pos : Nat) (results : List SourceExpr)
  | other (pos : Nat) (kind : String) (parts : List SourceExpr)
deriving Repr, Inhabited

namespace SourceStmt

def pos : SourceStmt → Nat
  | block pos _ | vars pos _ | decl pos _ | branch pos _ _ _ _ _ | loop pos _ _ _ _ _ | jump pos _ _
  | ret pos _ | other pos _ _ => pos
  | assign _ left _ => (left.head?.map SourceExpr.pos).getD 0
  | step _ operand => operand.pos
  | expr value => value.pos
  | empty => 0

mutual

def exprs : SourceStmt → List SourceExpr
  | block _ body => exprsAll body
  | empty | jump _ _ _ => []
  | assign _ left right => left ++ right
  | step _ operand => [operand]
  | vars _ specs => specs.flatMap fun spec => spec.type.toList ++ spec.values
  | decl _ parts | other _ _ parts => parts
  | expr value => [value]
  | branch _ init cond _ body alternative =>
    exprsAll init ++ [cond] ++ exprsAll body ++ exprsAll alternative
  | loop _ init cond post _ body => exprsAll init ++ cond.toList ++ exprsAll post ++ exprsAll body
  | ret _ results => results

def exprsAll : List SourceStmt → List SourceExpr
  | [] => []
  | first :: rest => first.exprs ++ exprsAll rest

end

mutual

/-- Whether a statement continues the loop around it; loops inside it have their own
continuations. -/
def continues : SourceStmt → Bool
  | block _ body => continuesAll body
  | branch _ init _ _ body alternative =>
    continuesAll init || continuesAll body || continuesAll alternative
  | jump _ keyword _ => keyword = "continue"
  | _ => false

def continuesAll : List SourceStmt → Bool
  | [] => false
  | first :: rest => first.continues || continuesAll rest

end

end SourceStmt

/-- A declared function.  A function defined elsewhere has no body. -/
structure FunctionDecl where
  pos : Nat
  name : String
  /-- The names in front of the name of a method; a function has none. -/
  receiver : Option (List String)
  /-- The named parameters and results, in order. -/
  params : List String
  types : List SourceExpr
  body : Option (Nat × List SourceStmt)
deriving Repr, Inhabited

end Reachability.Source
