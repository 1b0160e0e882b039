/-
Reading the network descriptions in a folder: the files whose extension
is `json`, in the order of their names. A description without an
identifier is named after its file, so that its group can be taken from
names like `graph_26.json`.
-/
import FlowPricing.Files
import FlowPricing.Network.DescriptionJson

namespace FlowPricing.Setup

open Json (Bytes Fault)

/-- Why the descriptions could not be read. -/
inductive InputError where
  /-- The folder cannot be read. -/
  | folder (path : String) (fault : FileFault)
  /-- A file in it holds no description. -/
  | description (path : String) (fault : Fault)
deriving DecidableEq, Repr

/-- The files of a folder that are meant to hold descriptions. -/
def descriptionFiles (folder : Folder) : List (String × Bytes) :=
  folder.filterMap fun e =>
    match e.2 with
    | .file content =>
        if extension? e.1 = some "json" then some (e.1, content) else none
    | .folder _ => none

/-- Reads one description. -/
def readDescription (file : String × Bytes) : Except InputError Description :=
  match Description.ofJson file.2 with
  | .error fault => .error (.description file.1 fault)
  | .ok d =>
      .ok (if d.identifier.isEmpty then { d with identifier := file.1 } else d)

/-- Reads all descriptions in a folder, in the order of the file names. -/
def readDescriptions (folder : Folder) : Except InputError (List Description) :=
  ((descriptionFiles folder).mergeSort fun a b => a.1 ≤ b.1).mapM
    readDescription

/-- Reads all descriptions in the folder to which a path of folder names
leads. A folder that cannot be read is reported by the last of them. -/
def readDescriptionsIn (place : Folder) (path : List String) :
    Except InputError (List Description) :=
  match path.foldlM Folder.enter place with
  | .error fault => .error (.folder (path.getLastD ".") fault)
  | .ok folder => readDescriptions folder

end FlowPricing.Setup
