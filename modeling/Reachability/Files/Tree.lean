import Reachability.Files.Access

/-!
# Trees of files

A place in a tree is the list of names that leads there; places below the root
directory start with the name `/`, all others are below the working directory.
-/

namespace Reachability

structure FileTree where
  dirs : List (List String) := []
  files : List (List String × String) := []
deriving Repr

namespace FileTree

def systemDirs : List (List String) := [[], ["/"], ["/", "dev"], ["/", "tmp"]]

def nullDevice : List String := ["/", "dev", "null"]

def isDir (tree : FileTree) (place : List String) : Bool :=
  systemDirs.contains place || tree.dirs.contains place

def content? (tree : FileTree) (place : List String) : Option String :=
  if place = nullDevice then some "" else tree.files.lookup place

def walk (tree : FileTree) (place : List String) : List String → Except FileCause (List String)
  | [] => .ok place
  | name :: names =>
    if (tree.content? place).isSome then .error .notDirectory
    else if !tree.isDir place then .error .notFound
    else tree.walk (if name = ".." then place.dropLast else place ++ [name]) names

def pathNames (path : String) : List String :=
  (path.splitOn "/").filter fun name => name ≠ "" && name ≠ "."

def locate (tree : FileTree) (path : String) : Except FileCause (List String) :=
  if path = "" then .error .notFound
  else tree.walk (if path.startsWith "/" then ["/"] else []) (pathNames path)

def contains (tree : FileTree) (path : String) : Bool :=
  match tree.locate path with
  | .error _ => false
  | .ok place => tree.isDir place || (tree.content? place).isSome

def read (tree : FileTree) (path : String) : Except FileError String :=
  match tree.locate path with
  | .error cause => .error ⟨"open", path, cause⟩
  | .ok place =>
    if tree.isDir place then .error ⟨"read", path, .isDirectory⟩
    else match tree.content? place with
      | none => .error ⟨"open", path, .notFound⟩
      | some content =>
        if path.endsWith "/" then .error ⟨"open", path, .notDirectory⟩ else .ok content

def put (tree : FileTree) (place : List String) (content : String) : FileTree :=
  if place = nullDevice then tree
  else { tree with files := tree.files.filter (·.1 ≠ place) ++ [(place, content)] }

def write (tree : FileTree) (path content : String) : Except FileError FileTree :=
  match tree.locate path with
  | .error cause => .error ⟨"open", path, cause⟩
  | .ok place =>
    if tree.isDir place then .error ⟨"open", path, .isDirectory⟩
    else if path.endsWith "/" then
      .error ⟨"open", path, if (tree.content? place).isSome then .notDirectory else .isDirectory⟩
    else .ok (tree.put place content)

def makeEach (tree : FileTree) : List String → Except FileError FileTree
  | [] => .ok tree
  | path :: paths =>
    match tree.locate path with
    | .error cause => .error ⟨"mkdir", path, cause⟩
    | .ok place =>
      if (tree.content? place).isSome then .error ⟨"mkdir", path, .notDirectory⟩
      else if tree.isDir place then tree.makeEach paths
      else { tree with dirs := tree.dirs ++ [place] }.makeEach paths

def makeDirs (tree : FileTree) (path : String) : Except FileError FileTree :=
  let names := (path.splitOn "/").filter (· ≠ "")
  let above := (List.range names.length).drop 1 |>.map fun count =>
    (if path.startsWith "/" then "/" else "") ++ "/".intercalate (names.take count)
  tree.makeEach (above ++ [path])

def makeTempDir (tree : FileTree) (parent suffix : String) : Except FileError (String × FileTree) :=
  match tree.locate parent with
  | .error cause => .error ⟨"stat", parent, cause⟩
  | .ok place =>
    if tree.isDir place then
      let name := "*" ++ suffix
      .ok (parent ++ (if parent.endsWith "/" then "" else "/") ++ name,
        { tree with dirs := tree.dirs ++ [place ++ [name]] })
    else .error ⟨"stat", parent, .notFound⟩

def update (change : FileTree → Except FileError (α × FileTree)) :
    StateM FileTree (Except FileError α) :=
  fun tree =>
    match change tree with
    | .error error => (.error error, tree)
    | .ok (result, changed) => (.ok result, changed)

def access : FileAccess (StateM FileTree) where
  read path := fun tree => (tree.read path, tree)
  write path content := update fun tree => (tree.write path content).map ((), ·)
  makeDirs path := update fun tree => (tree.makeDirs path).map ((), ·)
  makeTempDir parent suffix := update fun tree => tree.makeTempDir parent suffix

def listing (tree : FileTree) : List (String × String) :=
  (tree.files.filter fun (place, _) => place.head? ≠ some "/").map fun (place, content) =>
    ("/".intercalate place, content)

def ofFiles (files : List (String × String)) : FileTree :=
  let places := files.map fun (path, content) => (pathNames path, content)
  { dirs := places.flatMap fun (place, _) =>
      (List.range place.length).map fun count => place.take count
    files := places }

end FileTree

end Reachability
