import Nachos.Filesys.Directory
import Nachos.Framework.Run

/-!
# The file system (filesys/filesys.cc)

The free map and the directory are files, whose headers are in sectors 0 and 1.
Every operation works on copies of them in memory, and writes the copies back
when it succeeds.

* `FileSystem.format`, `mount`, `create`, `openFile`, `remove`: the operations;
* `step`: the file system with its clients, call after call.
-/

namespace Nachos.Filesys

open Nachos.Framework

/-- `FreeMapSector`. -/
def freeMapSector : Nat := 0

/-- `DirectorySector`. -/
def directorySector : Nat := 1

/-- What is in the memory that an operation allocates: the `n`-th block it gets. -/
abbrev Junk := Nat → Bytes

/-- `FileSystem`. -/
structure FileSystem where
  freeMapFile : OpenFile
  directoryFile : OpenFile

namespace FileSystem

/-- `new BitMap(NumSectors)`. -/
def newBitMap (junk : Bytes) : BitMap := BitMap.new numSectors fun i => wordAt junk (4 * i)

/-- `FileSystem::FileSystem(FALSE)`. -/
def mount (disk : Disk) : Except Stop FileSystem := do
  let freeMapFile ← OpenFile.new disk freeMapSector
  let directoryFile ← OpenFile.new disk directorySector
  .ok ⟨freeMapFile, directoryFile⟩

/-- `ASSERT(hdr->Allocate(freeMap, fileSize))`. -/
def assertAllocate (hdr : FileHeader) (freeMap : BitMap) (fileSize : Int) :
    Except Stop (FileHeader × BitMap) := do
  match ← hdr.allocate freeMap fileSize with
  | some r => .ok r
  | none => .error .assertion

/-- `FileSystem::FileSystem(TRUE)`. -/
def format (disk : Disk) (junk : Junk) : Except Stop (FileSystem × Disk) := do
  let freeMap := newBitMap (junk 0)
  let directory := Directory.new (junk 1)
  let freeMap ← freeMap.mark freeMapSector
  let freeMap ← freeMap.mark directorySector
  let (mapHdr, freeMap) ← assertAllocate (junk 2) freeMap freeMapFileSize
  let (dirHdr, freeMap) ← assertAllocate (junk 3) freeMap directoryFileSize
  let disk ← mapHdr.writeBack disk freeMapSector
  let disk ← dirHdr.writeBack disk directorySector
  let fs ← mount disk
  let disk ← freeMap.writeBack disk fs.freeMapFile (junk 4)
  let disk ← directory.writeBack disk fs.directoryFile (junk 5)
  .ok (fs, disk)

/-- A new `Directory`, read from its file. -/
def fetchDirectory (fs : FileSystem) (disk : Disk) (junk : Junk) : Except Stop Directory :=
  (Directory.new (junk 0)).fetchFrom disk fs.directoryFile (junk 1)

/-- A new `BitMap`, read from its file. -/
def fetchFreeMap (fs : FileSystem) (disk : Disk) (junk : Junk) : Except Stop BitMap :=
  (newBitMap (junk 2)).fetchFrom disk fs.freeMapFile (junk 3)

/-- `FileSystem::Create`: the result, and the disk afterwards. -/
def create (fs : FileSystem) (disk : Disk) (junk : Junk) (name : CString) (initialSize : Int) :
    Except Stop (Bool × Disk) := do
  let directory ← fs.fetchDirectory disk junk
  if directory.find name ≠ -1 then .ok (false, disk)
  else
    let freeMap ← fs.fetchFreeMap disk junk
    let (sector, freeMap) := freeMap.find
    if sector = -1 then .ok (false, disk)
    else match directory.add name sector with
      | none => .ok (false, disk)
      | some directory =>
        match ← FileHeader.allocate (junk 4) freeMap initialSize with
        | none => .ok (false, disk)
        | some (hdr, freeMap) =>
          let disk ← hdr.writeBack disk sector
          let disk ← directory.writeBack disk fs.directoryFile (junk 5)
          let disk ← freeMap.writeBack disk fs.freeMapFile (junk 6)
          .ok (true, disk)

/-- `FileSystem::Open`; `none` for NULL. -/
def openFile (fs : FileSystem) (disk : Disk) (junk : Junk) (name : CString) :
    Except Stop (Option OpenFile) := do
  let directory ← fs.fetchDirectory disk junk
  let sector := directory.find name
  if sector ≥ 0 then
    let file ← OpenFile.new disk sector
    .ok (some file)
  else .ok none

/-- `FileSystem::Remove`: the result, and the disk afterwards. -/
def remove (fs : FileSystem) (disk : Disk) (junk : Junk) (name : CString) :
    Except Stop (Bool × Disk) := do
  let directory ← fs.fetchDirectory disk junk
  let sector := directory.find name
  if sector = -1 then .ok (false, disk)
  else
    let fileHdr ← FileHeader.fetchFrom disk sector
    let freeMap ← fs.fetchFreeMap disk junk
    let freeMap ← fileHdr.deallocate freeMap
    let freeMap ← freeMap.clear sector
    let directory := (directory.remove name).getD directory
    let disk ← freeMap.writeBack disk fs.freeMapFile (junk 4)
    let disk ← directory.writeBack disk fs.directoryFile (junk 5)
    .ok (true, disk)

end FileSystem

/-! ## The file system and its clients -/

/-- An `OpenFile` that a client holds, with the name it was opened by; `removed`
is set once that file is removed. -/
structure Handle where
  file : OpenFile
  name : CString
  removed : Bool

/-- The disk, the mounted file system and what `Open` has given out. -/
structure State where
  disk : Disk
  fileSystem : FileSystem
  handles : List Handle

/-- A call of a client. Handles are numbered as they are given out. -/
inductive Op
  | create (name : CString) (initialSize : Int)
  | remove (name : CString)
  | openFile (name : CString)
  | readAt (h : Nat) (into : Bytes) (numBytes position : Int)
  | writeAt (h : Nat) (src : Bytes) (numBytes position : Int)
  | seek (h : Nat) (position : Int)
  | read (h : Nat) (into : Bytes) (numBytes : Int)
  | write (h : Nat) (src : Bytes) (numBytes : Int)
  | remount

/-- What a call returns: a flag, whether the pointer is not NULL, a count of bytes
written, a count of bytes read and the buffer they are in. -/
inductive Result
  | flag (success : Bool)
  | handle (found : Bool)
  | written (numBytes : Int)
  | read (numBytes : Int) (into : Bytes)
  | done

/-- `FileSystem(TRUE)` on a disk, with no file open. -/
def start (disk : Disk) (junk : Junk) : Except Stop State := do
  let (fs, disk) ← FileSystem.format disk junk
  .ok ⟨disk, fs, []⟩

/-- The handles after the file `name` is removed. -/
def markRemoved (name : CString) (handles : List Handle) : List Handle :=
  handles.map fun h => if fileName h.name = fileName name then { h with removed := true } else h

/-- One call. -/
def step : Op × Junk → State → Except Stop (Result × State)
  | (.create name initialSize, junk), s => do
    let (success, disk) ← s.fileSystem.create s.disk junk name initialSize
    .ok (.flag success, { s with disk := disk })
  | (.remove name, junk), s => do
    let (success, disk) ← s.fileSystem.remove s.disk junk name
    .ok (.flag success, { s with
      disk := disk
      handles := if success then markRemoved name s.handles else s.handles })
  | (.openFile name, junk), s => do
    match ← s.fileSystem.openFile s.disk junk name with
    | some file => .ok (.handle true, { s with handles := s.handles ++ [⟨file, name, false⟩] })
    | none => .ok (.handle false, s)
  | (.readAt h into numBytes position, junk), s => do
    let handle ← deref s.handles[h]?
    let (result, into) ← handle.file.readAt s.disk (junk 0) into numBytes position
    .ok (.read result into, s)
  | (.writeAt h src numBytes position, junk), s => do
    let handle ← deref s.handles[h]?
    let (result, disk) ← handle.file.writeAt s.disk (junk 0) src numBytes position
    .ok (.written result, { s with disk := disk })
  | (.seek h position, _), s => do
    let handle ← deref s.handles[h]?
    .ok (.done, { s with handles := s.handles.set h { handle with file := handle.file.seek position } })
  | (.read h into numBytes, junk), s => do
    let handle ← deref s.handles[h]?
    let (result, into, file) ← handle.file.read s.disk (junk 0) into numBytes
    .ok (.read result into, { s with handles := s.handles.set h { handle with file := file } })
  | (.write h src numBytes, junk), s => do
    let handle ← deref s.handles[h]?
    let (result, disk, file) ← handle.file.write s.disk (junk 0) src numBytes
    .ok (.written result, { s with
      disk := disk
      handles := s.handles.set h { handle with file := file } })
  | (.remount, _), s => do
    let fs ← FileSystem.mount s.disk
    .ok (.done, { s with fileSystem := fs })

end Nachos.Filesys
