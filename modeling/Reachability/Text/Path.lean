/-!
# File paths

A clean path has no empty names, no names that stand for the same directory, and
no step back except at its start.
-/

namespace Reachability.Text.Path

def cleanNames (rooted : Bool) (names : List String) : List String :=
  names.foldl (fun kept name =>
    if name = "" ∨ name = "." then kept
    else if name = ".." then
      match kept with
      | last :: rest => if last = ".." then name :: kept else rest
      | [] => if rooted then [] else [name]
    else name :: kept) []

/-- The shortest path with the same meaning; the empty path is the current directory. -/
def clean (path : String) : String :=
  let rooted := path.startsWith "/"
  let names := (cleanNames rooted (path.splitOn "/")).reverse
  if rooted then "/" ++ "/".intercalate names
  else if names.isEmpty then "."
  else "/".intercalate names

def join (paths : List String) : String :=
  let parts := paths.filter (· ≠ "")
  if parts.isEmpty then "" else clean ("/".intercalate parts)

def dir (path : String) : String :=
  let names := path.splitOn "/"
  clean ("/".intercalate (names.take (names.length - 1)) ++ (if 1 < names.length then "/" else ""))

end Reachability.Text.Path
