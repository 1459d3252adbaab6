/-!
# Scopes

The first variable of a name keeps it in the lowered program, and each later one
gets a number.
-/

namespace Reachability.Source

/-- The variables of the blocks around a point, the innermost block first, and the names of all
declarations so far. -/
structure Scopes where
  blocks : List (List (String × String)) := []
  declared : List String := []
deriving Repr, Inhabited

namespace Scopes

def enter (scopes : Scopes) : Scopes := { scopes with blocks := [] :: scopes.blocks }

def leave (scopes : Scopes) : Scopes := { scopes with blocks := scopes.blocks.drop 1 }

def nextName (scopes : Scopes) (name : String) : String :=
  let count := scopes.declared.count name
  if count = 0 then name else name ++ "#" ++ toString count

def declare (scopes : Scopes) (name : String) : Scopes :=
  let entry := (name, scopes.nextName name)
  { blocks :=
      match scopes.blocks with
      | [] => [[entry]]
      | block :: rest => (entry :: block) :: rest
    declared := name :: scopes.declared }

/-- The lowered name of the variable that a name stands for.  A name that is not declared in the
function is kept. -/
def resolve (scopes : Scopes) (name : String) : String :=
  (scopes.blocks.findSome? fun block => block.lookup name).getD name

end Scopes

end Reachability.Source
