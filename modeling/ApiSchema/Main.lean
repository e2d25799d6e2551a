import ApiSchema.CommandLine

/-!
The program: it runs a command line on the files that it finds, and writes what has changed. Below
the directory of a project only sources and configurations are read; other files are read when they
are missed.
-/

namespace ApiSchema.CommandLine

def diskPath (place : List String) : String := "/" ++ "/".intercalate place

def projectDirectory : Request → Option String
  | .run (.initialise directory) => some directory
  | .run (.check directory) => some directory
  | .run (.build directory) => some directory
  | _ => none

/-- The file for want of which a command has failed. -/
def missingFile : Outcome → Option String
  | .ok ⟨_, some (.error (.build (.unreadableSource _ e)))⟩ => some e.path
  | .ok ⟨_, some (.error (.build (.grammar _ ⟨.unreadableImport _ e, _⟩)))⟩ => some e.path
  | .ok ⟨_, some (.error (.build (.unreadableArtifact _ e)))⟩ => some e.path
  | _ => none

def graft (tree : FileTree) (place : List String) (entry : FileEntry) : FileTree :=
  let above := (List.range place.length).map place.take
  (above.foldl (fun tree spot => tree.set spot .directory) tree).set place entry

def isProjectFile (name : String) : Bool :=
  name.endsWith Project.sourceEnding || name == ProjectConfig.fileName

partial def readBelow (tree : FileTree) (place : List String) : IO FileTree := do
  let directory ← IO.FS.realPath (diskPath place)
  let mut tree := graft tree place .directory
  for entry in ← directory.readDir do
    let spot := place ++ [entry.fileName]
    if ← entry.path.isDir then tree ← readBelow tree spot
    else if isProjectFile entry.fileName then
      tree := tree.set spot (.file (← IO.FS.readBinFile entry.path).data.toList)
  return tree

def readMissing (tree : FileTree) (path : FilePath) : IO FileTree := do
  let place := (tree.resolve path).segments
  try
    return graft tree place (.file (← IO.FS.readBinFile (diskPath place)).data.toList)
  catch _ => return tree

/-- Runs a command line until no more files can be found for it. -/
partial def settle (tree : FileTree) (arguments : List String) (tried : List String) :
    IO (FileTree × FileTree × Outcome) := do
  let (result, outcome) := run tree arguments
  match missingFile outcome with
  | none => return (tree, result, outcome)
  | some path =>
    if tried.contains path then return (tree, result, outcome)
    else settle (← readMissing tree (.ofText path)) arguments (path :: tried)

def writeChanges (before after : FileTree) : IO Unit := do
  for (place, entry) in after.entries.reverse do
    if before.get? place != some entry then
      match entry with
      | .directory => IO.FS.createDirAll (diskPath place)
      | .file content => IO.FS.writeBinFile (diskPath place) ⟨content.toArray⟩

def startingTree (arguments : List String) : IO FileTree := do
  let workingDirectory := (FilePath.ofText (← IO.currentDir).toString).segments
  let tree := graft ⟨workingDirectory, []⟩ workingDirectory .directory
  match projectDirectory (Request.ofArguments arguments) with
  | none => return tree
  | some directory =>
    let place := (tree.resolve (.ofText directory)).segments
    try readBelow tree place catch _ => return tree

def execute (arguments : List String) : IO UInt32 := do
  let (before, after, outcome) ← settle (← startingTree arguments) arguments []
  writeChanges before after
  match outcome with
  | .ok report =>
    IO.print report.output
    IO.eprint report.errorOutput
    return report.exitCode.toUInt32
  | .error failure =>
    IO.eprintln (repr failure)
    return 1

end ApiSchema.CommandLine

def main (arguments : List String) : IO UInt32 := ApiSchema.CommandLine.execute arguments
