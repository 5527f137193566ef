import Std.Time.DateTime.Timestamp
import Winnow.Command.Run

/-!
# The command line

Runs the tool on the tree of files below the working directory and carries out what the run says.
Hidden directories and installed packages are no part of the tree.
-/

namespace Winnow.Command

def bytesOf (s : String) : Bytes := s.toUTF8.toList

def textOf (s : Bytes) : String := String.fromUTF8! (ByteArray.mk s.toArray)

def isSkipped (name : String) : Bool := name.startsWith "." || name == "node_modules"

def addFile (disk : Disk) (path : String) : IO Disk := do
  try
    let content ← IO.FS.readBinFile path
    return { disk with files := (bytesOf path, content.toList) :: disk.files }
  catch _ => return disk

partial def addTree (disk : Disk) (path : String) : IO Disk := do
  let directory ← IO.FS.realPath path
  let entries ← directory.readDir
  let mut disk := disk.addDirectory (bytesOf path)
  for entry in entries do
    let below := path ++ "/" ++ entry.fileName
    if ← entry.path.isDir then
      if isSkipped entry.fileName then disk := disk.addDirectory (bytesOf below)
      else disk ← addTree disk below
    else disk ← addFile disk below
  return disk

def readWorld (arguments : List String) : IO World := do
  let directory := toString (← IO.currentDir)
  let mut disk ← addTree {} directory
  let above := (Config.upwards directory.length (bytesOf directory)).drop 1
  for d in above do
    for name in Config.fileNames do
      disk ← addFile disk (textOf (Disk.child d name))
  for argument in arguments do
    if argument.startsWith "/" then disk ← addFile disk argument
  let environment ← Config.environmentNames.mapM fun name => do
    return (name, (← IO.getEnv (textOf name)).map bytesOf)
  let now ← Std.Time.Timestamp.now
  let seed ← IO.rand 0 (Nat.pow 2 32 - 1)
  return {
    disk, directory := bytesOf directory
    environment := fun name => (environment.lookup name).bind fun v => v
    buildId := Bytes.hex 8 seed
    stamp := Log.timeText now.toSecondsSinceUnixEpoch.val ++ utf8 " " }

def writeFile (path content : Bytes) : IO Unit := do
  IO.FS.createDirAll (textOf (Specifier.directory path))
  IO.FS.writeBinFile (textOf path) (ByteArray.mk content.toArray)

def perform (o : Outcome) : IO UInt32 := do
  for (path, content) in o.written do
    writeFile path content
  let output ← IO.getStdout
  output.write (ByteArray.mk o.output.toArray)
  output.flush
  let errors ← IO.getStderr
  errors.write (ByteArray.mk o.errors.toArray)
  errors.flush
  return UInt32.ofNat o.exit

end Winnow.Command

def main (arguments : List String) : IO UInt32 := do
  let world ← Winnow.Command.readWorld arguments
  Winnow.Command.perform (Winnow.Command.run world (arguments.map Winnow.Command.bytesOf))
