import TidySpace.FileTree.Writing
import TidySpace.Settings
import TidySpace.Logged

/-! # Settings files

A settings file holds an object with fields of the settings. `loadWith` puts them over the standard
settings: severities and options are joined rule by rule, every other field takes the place of the
standard one. `saveWith` writes all fields. `find?` looks for a settings file in a folder and in all
folders above it, up to the root.

How the bytes of a file are read as a document, and how a document is written, is not decided here: the
reader and the writer are arguments.
-/

namespace TidySpace

/-- Reads the bytes of a file as a document. There is no value where the document is broken; reading may
also fail without saying so. -/
abbrev DocumentReader := List UInt8 → Except Failure (Option Value)

namespace Settings

/-- Reads bytes that have to be UTF-8 by reading their text. -/
def textReader (parse : List Char → Option Value) : DocumentReader := fun data =>
  match Utf8.decode? data with
  | none => .error .notUtf8
  | some text => .ok (parse text)

/-! ### Loading -/

/-- Puts one field of the settings file at a path over settings. An unknown key is remarked on. -/
def merge (s : Settings) (file key : String) (v : Value) : Logged Settings :=
  match key with
  | "rule_severities" => Logged.lift <| do
    let own ← s.severities.rows?.mapError .mismatch
    let given ← (v.orElse (.object [])).mapping?.mapError .mismatch
    return { s with severities := .ofRows (Rows.putAll own given) }
  | "rule_configs" => Logged.lift <| do
    let own ← s.ruleOptions.rows?.mapError .mismatch
    let given ← (v.orElse (.object [])).rows?.mapError .mismatch
    return { s with ruleOptions := .ofRows (Rows.putAll own given) }
  | key =>
    match s.set? key v with
    | some t => .done t
    | none => do
      Logged.warn (.unknownSetting key file)
      return s

/-- Puts the fields of a settings file over settings, in order. A key that is no text is unknown. -/
def mergeAll (s : Settings) (file : String) : Rows → Logged Settings
  | [] => .done s
  | (.text key, v) :: rest => do
    let t ← s.merge file key v
    mergeAll t file rest
  | (key, _) :: rest => do
    Logged.warn (.unknownSetting key.plain file)
    mergeAll s file rest

/-- Settings out of the document in the file at a path; what does not count as given is an empty object. -/
def ofDocument (file : String) (v : Value) : Logged Settings := do
  let rows ← Logged.lift ((v.orElse (.object [])).rows?.mapError .mismatch)
  standard.mergeAll file rows

/-- The settings in the file at a path. Without a path, or with nothing there, they are standard;
what is no readable file is remarked on. -/
def loadWith (reader : DocumentReader) (t : FileTree) (path : Option String) : Logged Settings :=
  match path with
  | none => .done standard
  | some path =>
    match t.locate? path with
    | none => .done standard
    | some (_, .folder) => do
      Logged.warn (.unreadableSettings path)
      return standard
    | some (_, .file data) => do
      let document ← Logged.lift (reader data)
      match document with
      | some v => ofDocument path v
      | none =>
        Logged.warn (.unreadableSettings path)
        return standard

/-! ### Saving -/

/-- Writes settings to a file. Folders that were made on the way stay where that fails. -/
def saveWith (write : Value → List UInt8) (s : Settings) (path : String) : Work Unit := fun t =>
  let (result, written) := t.write path (write (.object s.toMembers))
  (Logged.lift (result.mapError .unwritable), written)

/-! ### Finding -/

def fileNames : List String :=
  [".spacelint.yml", ".spacelint.yaml", "spacelint.yml", "spacelint.yaml"]

def findIn? (t : FileTree) (root : String) (folder : Path) : Option String :=
  (fileNames.map fun name => root ++ Path.render (folder ++ [name])).find? fun path =>
    (t.locate? path).isSome

def searchStart (t : FileTree) (start : String) : Path :=
  let p := t.absolute start
  match t.locate? (Path.rootText start ++ Path.render p) with
  | some (_, .file _) => p.dropLast
  | _ => p

/-- The settings file next to a path, or in the nearest folder above it that has one. -/
def find? (t : FileTree) (start : String) : Option String :=
  (searchStart t start).upward.findSome? (findIn? t (Path.rootText start))

end Settings

end TidySpace
