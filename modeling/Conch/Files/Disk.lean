import Conch.Files.Tree

/-!
# Disks

A file tree together with the files that are open on it, a working directory and a
console.  `Disk.perform` answers the calls that programs make.
-/

namespace Conch

open Text (Bytes)

structure OpenFile where
  place : Place
  /-- How many bytes were read or written so far. -/
  offset : Nat
  /-- Writing goes to the end. -/
  appends : Bool
  deriving DecidableEq, Repr

structure Console where
  input : Bytes
  /-- What was written, the last chunk first. -/
  output : List Bytes
  errors : List Bytes
  deriving DecidableEq, Repr

structure Disk where
  tree : Tree
  workingDirectory : Place
  opened : Array OpenFile
  console : Console
  deriving Repr

namespace Disk

def new (tree : Tree) (workingDirectory : Place) (input : Bytes) : Disk :=
  ⟨tree, workingDirectory, #[], ⟨input, [], []⟩⟩

/-- The directories that every system has. -/
def systemDirectories : List Place :=
  [["boot"], ["dev"], ["etc"], ["home"], ["media"], ["mnt"], ["opt"], ["proc"], ["root"], ["run"],
    ["srv"], ["sys"], ["tmp"], ["usr", "bin"], ["usr", "lib"], ["usr", "sbin"], ["usr", "share"],
    ["usr", "local", "bin"], ["usr", "local", "lib"], ["usr", "local", "share"], ["var", "lib"],
    ["var", "log"], ["var", "tmp"]]

/-- The links, devices and programs that every system has. -/
def systemEntries : List (Place × Entry) :=
  let program : Entry := .file [] 0o100755
  [(["bin"], .link "usr/bin"), (["lib"], .link "usr/lib"), (["sbin"], .link "usr/sbin"),
    (["dev", "null"], .device .null), (["dev", "zero"], .device .zero),
    (["dev", "full"], .device .full), (["usr", "bin", "cat"], program),
    (["usr", "bin", "true"], program), (["usr", "bin", "sh"], program)]

/-- What every system has. -/
def system : Tree :=
  systemEntries.foldl (fun tree (place, entry) => tree.add place entry)
    (systemDirectories.foldl Tree.makeDirectory .empty)

def lookup (disk : Disk) (goal : Tree.Goal) (path : String) : Except FileError (Place × Entry) :=
  disk.tree.lookup disk.workingDirectory goal path

/-- The number of the first descriptor that is not the console's. -/
def firstDescriptor : Nat := 3

def addOpen (disk : Disk) (file : OpenFile) : Descriptor × Disk :=
  (disk.opened.size + firstDescriptor, { disk with opened := disk.opened.push file })

/-- The mode of a file that is made by opening it. -/
def newFileMode : Nat := 0o100644

def openRead (disk : Disk) (path : String) : Except FileError Descriptor × Disk :=
  match disk.lookup .target path with
  | .error e => (.error e, disk)
  | .ok (place, _) =>
      let (descriptor, disk) := disk.addOpen ⟨place, 0, false⟩
      (.ok descriptor, disk)

def openWrite (disk : Disk) (path : String) (appends : Bool) : Except FileError Descriptor × Disk :=
  match disk.tree.find disk.workingDirectory .file path with
  | .error e => (.error e, disk)
  | .ok (.entry _ .directory) => (.error .isDirectory, disk)
  | .ok (.vacant place) =>
      let (descriptor, disk) := disk.addOpen ⟨place, 0, appends⟩
      (.ok descriptor, { disk with tree := disk.tree.put place (.file [] newFileMode) })
  | .ok (.entry place (.file _ mode)) =>
      let (descriptor, disk) := disk.addOpen ⟨place, 0, appends⟩
      if appends then (.ok descriptor, disk)
      else (.ok descriptor, { disk with tree := disk.tree.put place (.file [] mode) })
  | .ok (.entry place _) =>
      let (descriptor, disk) := disk.addOpen ⟨place, 0, appends⟩
      (.ok descriptor, disk)

def setOffset (disk : Disk) (index : Nat) (file : OpenFile) (offset : Nat) : Disk :=
  { disk with opened := disk.opened.set! index { file with offset := offset } }

def read (disk : Disk) (descriptor : Descriptor) (limit : Nat) : Except FileError Bytes × Disk :=
  if descriptor < firstDescriptor then
    let console := disk.console
    (.ok (console.input.take limit),
      { disk with console := { console with input := console.input.drop limit } })
  else
    let index := descriptor - firstDescriptor
    match disk.opened[index]? with
    | none => (.ok [], disk)
    | some file =>
        match disk.tree.get? file.place with
        | some .directory => (.error .isDirectory, disk)
        | some (.file content _) =>
            let bytes := (content.drop file.offset).take limit
            (.ok bytes, disk.setOffset index file (file.offset + bytes.length))
        | some (.device .zero) | some (.device .full) => (.ok (List.replicate limit 0), disk)
        | _ => (.ok [], disk)

/-- The content with bytes written over it from an offset on. -/
def overwrite (content : Bytes) (offset : Nat) (bytes : Bytes) : Bytes :=
  content.take offset ++ List.replicate (offset - content.length) 0 ++ bytes ++
    content.drop (offset + bytes.length)

def writeFile (disk : Disk) (index : Nat) (file : OpenFile) (bytes : Bytes) :
    Except FileError Unit × Disk :=
  match disk.tree.get? file.place with
  | some (.file content mode) =>
      let offset := if file.appends then content.length else file.offset
      let written := overwrite content offset bytes
      (.ok (), { disk.setOffset index file (offset + bytes.length) with
        tree := disk.tree.put file.place (.file written mode) })
  | some (.device .full) => (.error .noSpace, disk)
  | _ => (.ok (), disk)

def write (disk : Disk) (descriptor : Descriptor) (bytes : Bytes) : Except FileError Unit × Disk :=
  let console := disk.console
  if descriptor = Descriptor.consoleErrors then
    (.ok (), { disk with console := { console with errors := bytes :: console.errors } })
  else if descriptor < firstDescriptor then
    (.ok (), { disk with console := { console with output := bytes :: console.output } })
  else
    let index := descriptor - firstDescriptor
    match disk.opened[index]? with
    | none => (.ok (), disk)
    | some file => disk.writeFile index file bytes

def perform (disk : Disk) : (c : Call) → c.Reply × Disk
  | .describe path =>
      ((disk.lookup .target path).toOption.map (fun found => Tree.metadata found.2), disk)
  | .exists path => ((disk.lookup .itself path).isOk, disk)
  | .list path =>
      match disk.lookup .target path with
      | .error e => (.error e, disk)
      | .ok (place, .directory) => (.ok (disk.tree.names place), disk)
      | .ok _ => (.error .notDirectory, disk)
  | .canonical path => ((disk.lookup .target path).toOption.map (fun found => found.1.path), disk)
  | .openFile path .read => disk.openRead path
  | .openFile path .truncate => disk.openWrite path false
  | .openFile path .append => disk.openWrite path true
  | .read descriptor limit => disk.read descriptor limit
  | .write descriptor bytes => disk.write descriptor bytes

end Disk

end Conch
