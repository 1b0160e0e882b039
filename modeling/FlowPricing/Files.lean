/-
The little of a file system that reading input needs: folders of named
files and folders, looked up by name.
-/
import FlowPricing.Json.Basic

namespace FlowPricing

open Json (Bytes)

/-- Why a file or folder could not be read. -/
inductive FileFault where
  | notFound
  | notAFolder
  | isAFolder
  | notText
deriving DecidableEq, Repr

/-- The fault by the name it is known under. -/
def FileFault.name : FileFault → String
  | notFound => "NotFound"
  | notAFolder => "NotADirectory"
  | isAFolder => "IsADirectory"
  | notText => "InvalidData"

/-- What a name in a folder stands for. -/
inductive Entry where
  | file (content : Bytes)
  | folder (entries : List (String × Entry))

/-- The named entries of a folder. -/
abbrev Folder := List (String × Entry)

namespace Folder

/-- The entry under a name. -/
def entry (folder : Folder) (name : String) : Except FileFault Entry :=
  match folder.find? (·.1 == name) with
  | some e => .ok e.2
  | none => .error .notFound

/-- The folder under a name. -/
def enter (folder : Folder) (name : String) : Except FileFault Folder := do
  match ← folder.entry name with
  | .folder entries => return entries
  | .file _ => throw .notAFolder

/-- The text in the file under a name. -/
def text (folder : Folder) (name : String) : Except FileFault String := do
  match ← folder.entry name with
  | .file content =>
      match String.fromUTF8? content.toByteArray with
      | some s => return s
      | none => throw .notText
  | .folder _ => throw .isAFolder

/-- Puts an entry into a folder, in place of what was there. -/
def put (folder : Folder) (name : String) (e : Entry) : Folder :=
  folder.filter (·.1 != name) ++ [(name, e)]

end Folder

/-- The extension of a file name: what follows its last point, if anything
stands before that point. -/
def extension? (name : String) : Option String :=
  let after := name.toList.reverse.takeWhile (· ≠ '.')
  let before := name.toList.reverse.dropWhile (· ≠ '.')
  if 1 < before.length then some (String.ofList after.reverse) else none

end FlowPricing
