import TidySpace.FileTree

/-! # Writing files

`write` puts a file at a path text, and makes the folders on the way to it that are missing, from
the outside in. Each folder is made under its own path text, so that `..` leads out of a folder that
has just been made. Folders that have been made stay, also where a later step fails; `made` names
the tree with them.
-/

namespace TidySpace

/-- The path texts of the folders on the way to what a path text names, the innermost first. -/
def Path.foldersAbove (text : String) : List String :=
  let steps := Path.steps text
  let above := (List.range steps.length).map fun n => steps.take (steps.length - 1 - n)
  (above.filter fun p => p.getLast?.any (!·.isEmpty)).map Path.render

namespace FileTree

/-! ### Making folders -/

/-- The folder in which the last step of a path text is taken, and that step. -/
def lastStep (t : FileTree) (text : String) : Except PathFault (Path × String) := do
  if text.isEmpty then throw .missing
  if text.toList.contains (Char.ofNat 0) then throw .holdsNul
  if Path.maxText < text.utf8ByteSize then throw .tooLong
  let steps := Path.steps text
  let here ← t.walk (t.start text) steps.dropLast
  t.enter here
  let last := steps.getLast?.getD ""
  if Path.maxName < last.utf8ByteSize then throw .tooLong
  return (here, last)

def makeFolder (t : FileTree) (text : String) : Except PathFault FileTree := do
  let (here, name) ← t.lastStep text
  if Path.isStay name || name == ".." || (t.get? (here ++ [name])).isSome then throw .taken
  return t.put (here ++ [name]) .folder

def isFolder (t : FileTree) (text : String) : Bool :=
  match t.locate? text with
  | some (_, .folder) => true
  | _ => false

def ensureFolder (t : FileTree) (text : String) : Except PathFault Unit × FileTree :=
  match t.makeFolder text with
  | .ok made => (.ok (), made)
  | .error fault => (if t.isFolder text then .ok () else .error fault, t)

/-- Makes folders, given with the innermost first. The ones further out come first, unless something
is there already. That something has come in the way of one is left for the next to find, and one
whose last step stays where it is needs no making then. -/
def makeFolders (t : FileTree) : List String → Except PathFault Unit × FileTree
  | [] => (.ok (), t)
  | text :: above =>
    if above.head?.all fun outer => (t.locate? outer).isSome then t.ensureFolder text
    else
      let (result, made) := makeFolders t above
      match result with
      | .ok () => inside made text
      | .error .taken => inside made text
      | .error fault => (.error fault, made)
where
  /-- Makes a folder in one that has just been asked for. -/
  inside (made : FileTree) (text : String) : Except PathFault Unit × FileTree :=
    if (Path.steps text).getLast? = some "." then (.ok (), made) else made.ensureFolder text

/-! ### Writing -/

def putFile (t : FileTree) (text : String) (data : List UInt8) : Except PathFault FileTree := do
  let (here, name) ← t.lastStep text
  if Path.isStay name || name == ".." then throw .folderThere
  match t.get? (here ++ [name]) with
  | some .folder => throw .folderThere
  | _ => return t.put (here ++ [name]) (.file data)

def write (t : FileTree) (text : String) (data : List UInt8) : Except PathFault Unit × FileTree :=
  let (result, made) := t.makeFolders (Path.foldersAbove text)
  match result.bind fun _ => made.putFile text data with
  | .ok written => (.ok (), written)
  | .error fault => (.error fault, made)

end FileTree

end TidySpace
