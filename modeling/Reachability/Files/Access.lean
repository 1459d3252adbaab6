/-!
# Access to files

The operations on files that the program needs, over any monad that provides
them.
-/

namespace Reachability

inductive FileCause where
  | notFound
  | isDirectory
  | notDirectory
  | alreadyExists
  | other (text : String)
deriving DecidableEq, Repr

def FileCause.text : FileCause → String
  | notFound => "no such file or directory"
  | isDirectory => "is a directory"
  | notDirectory => "not a directory"
  | alreadyExists => "file exists"
  | other text => text

structure FileError where
  operation : String
  path : String
  cause : FileCause
deriving DecidableEq, Repr

def FileError.message (error : FileError) : String :=
  error.operation ++ " " ++ error.path ++ ": " ++ error.cause.text

structure FileAccess (m : Type → Type u) where
  read : String → m (Except FileError String)
  write : (path content : String) → m (Except FileError Unit)
  /-- Create a directory and those above it, unless they exist. -/
  makeDirs : String → m (Except FileError Unit)
  /-- Create a directory with a new name that ends in a suffix. -/
  makeTempDir : (parent suffix : String) → m (Except FileError String)

end Reachability
