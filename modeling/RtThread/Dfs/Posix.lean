import RtThread.Dfs.File

/-! The descriptor table, the calls of `dfs_posix.c` on it, and the mounting and unmounting of `dfs_fs.c`. -/

namespace RtThread

variable {Dev : Type} [DecidableEq Dev]

structure Dfs (Dev : Type) where
  operationTable : List (Option FsOps)
  filesystemTable : FsTable Dev
  fdTable : List DfsFd
  workingDirectory : List Char
  openCount : Dev → ℕ
  mounts : ℕ

def DfsFd.put (d : DfsFd) : DfsFd := if d.refCount - 1 = 0 then .cleared else { d with refCount := d.refCount - 1 }

inductive Whence
  | seekSet
  | seekCur
  | seekEnd
  | other
  deriving DecidableEq

/-- What `rt_device_open` returns; `-RT_ENOSYS` is that of the driver's `open`. -/
inductive DeviceAnswer
  | eok
  | enosys
  | failed
  deriving DecidableEq

/-- What the devices, the allocator, the directory of the path and the file system answer while `dfs_mount` runs. -/
structure MountAnswer (Dev : Type) where
  find : List Char → Option Dev
  alloc : Bool
  dirOpen : OpenAnswer
  dirClose : DfsResult
  deviceOpen : DeviceAnswer
  mount : DfsResult

def dfsInit (operationTable : List (Option FsOps)) (filesystemsMax fdMax : ℕ) (openCount : Dev → ℕ) :
    Dfs Dev where
  operationTable := operationTable
  filesystemTable := List.replicate filesystemsMax none
  fdTable := List.replicate fdMax .cleared
  workingDirectory := ['/']
  openCount := openCount
  mounts := 0

namespace Dfs

def setFd (s : Dfs Dev) (fd : ℕ) (d : DfsFd) : Dfs Dev := { s with fdTable := s.fdTable.set fd d }

def setFs (s : Dfs Dev) (i : ℕ) (fs : Option (Filesystem Dev)) : Dfs Dev :=
  { s with filesystemTable := s.filesystemTable.set i fs }

def fdNew (s : Dfs Dev) : Option (ℕ × Dfs Dev) :=
  match s.fdTable.findIdx? (fun d => d.refCount ≤ 0) with
  | none => none
  | some fd => s.fdTable[fd]?.map (fun d => (fd, s.setFd fd { d with refCount := 1, magic := true }))

def fdGet (s : Dfs Dev) (fd : ℕ) : Option (DfsFd × Dfs Dev) :=
  match s.fdTable[fd]? with
  | none => none
  | some d =>
    if d.magic then
      let d := { d with refCount := d.refCount + 1 }
      some (d, s.setFd fd d)
    else none

def fdPut (s : Dfs Dev) (fd : ℕ) : Dfs Dev :=
  match s.fdTable[fd]? with
  | none => s
  | some d => s.setFd fd d.put

def opened (s : Dfs Dev) (fd : ℕ) : DfsFd × DfsResult → Dfs Dev × DfsResult
  | (d, .error e) => (((s.setFd fd d).fdPut fd).fdPut fd, .error e)
  | (d, .ok _) => ((s.setFd fd d).fdPut fd, .ok fd)

/-- Here and below, `none` is a failed assertion or a null pointer that is followed. -/
def posixOpen (s : Dfs Dev) (answer : OpenAnswer) (file : List Char) (flags : BitVec 32) :
    Option (Dfs Dev × DfsResult) :=
  match s.fdNew with
  | none => some (s, .error .enomem)
  | some (fd, s) =>
    (s.fdGet fd).map (fun (d, s) =>
      s.opened fd (dfsFileOpen s.filesystemTable s.workingDirectory answer d file flags))

def openedDir (s : Dfs Dev) (dirAlloc : Bool) (closeAnswer : DfsResult) (fd : ℕ) :
    DfsFd × DfsResult → Option (Dfs Dev × DfsResult)
  | (d, .error e) => some (s.opened fd (d, .error e))
  | (d, .ok result) =>
    if dirAlloc then some (s.opened fd (d, .ok result))
    else
      (dfsFileClose s.filesystemTable closeAnswer d).map (fun (d, _) =>
        (((s.setFd fd d).fdPut fd).fdPut fd, .error .minusOne))

def posixOpendir (s : Dfs Dev) (answer : OpenAnswer) (dirAlloc : Bool) (closeAnswer : DfsResult) (name : List Char) :
    Option (Dfs Dev × DfsResult) :=
  match s.fdNew with
  | none => some (s, .error .enomem)
  | some (fd, s) =>
    (s.fdGet fd).bind (fun (d, s) =>
      s.openedDir dirAlloc closeAnswer fd
        (dfsFileOpen s.filesystemTable s.workingDirectory answer d name oDirectory))

def onFd (s : Dfs Dev) (fd : ℕ) (f : DfsFd → Option (DfsFd × DfsResult)) : Option (Dfs Dev × DfsResult) :=
  match s.fdGet fd with
  | none => some (s, .error .ebadf)
  | some (d, s) => (f d).map (fun (d, result) => ((s.setFd fd d).fdPut fd, result))

def posixRead (s : Dfs Dev) (answer : IoAnswer) (fd : ℕ) : Option (Dfs Dev × DfsResult) :=
  s.onFd fd (dfsFileRead s.filesystemTable answer)

def posixWrite (s : Dfs Dev) (answer : IoAnswer) (fd : ℕ) : Option (Dfs Dev × DfsResult) :=
  s.onFd fd (dfsFileWrite s.filesystemTable answer)

def seekOffset (d : DfsFd) (offset : BitVec 32) : Whence → Option (BitVec 32)
  | .seekSet => some offset
  | .seekCur => some (offset + d.pos)
  | .seekEnd => some (offset + d.size)
  | .other => none

def posixLseek (s : Dfs Dev) (answer : IoAnswer) (fd : ℕ) (offset : BitVec 32) (whence : Whence) :
    Option (Dfs Dev × DfsResult) :=
  s.onFd fd (fun d =>
    match seekOffset d offset whence with
    | none => some (d, .error .einval)
    | some offset =>
      if offset.slt 0 then some (d, .error .einval)
      else
        (dfsFileLseek s.filesystemTable answer d).map (fun (d, result) => (d, result.map (fun _ => offset.toNat))))

def posixClose (s : Dfs Dev) (answer : DfsResult) (fd : ℕ) : Option (Dfs Dev × DfsResult) :=
  match s.fdGet fd with
  | none => some (s, .error .ebadf)
  | some (d, s) =>
    (dfsFileClose s.filesystemTable answer d).map (fun (d, result) =>
      let s := (s.setFd fd d).fdPut fd
      match result with
      | .error e => (s, .error e)
      | .ok _ => (s.fdPut fd, .ok 0))

def posixClosedir (s : Dfs Dev) (answer : DfsResult) (fd : ℕ) : Option (Dfs Dev × DfsResult) :=
  match s.fdGet fd with
  | none => some (s, .error .ebadf)
  | some (d, s) =>
    (dfsFileClose s.filesystemTable answer d).map (fun (d, result) =>
      (((s.setFd fd d).fdPut fd).fdPut fd, result.map (fun _ => 0)))

def findOps (type : List Char) : List (Option FsOps) → Option (Option FsOps)
  | [] => some none
  | none :: _ => none
  | some ops :: rest => if ops.name = type then some (some ops) else findOps type rest

def findSlot (path : List Char) : FsTable Dev → ℕ → Option ℕ → Except DfsErr ℕ
  | [], _, none => .error .enospc
  | [], _, some fs => .ok fs
  | none :: rest, i, fs => findSlot path rest (i + 1) (some (fs.getD i))
  | some iter :: rest, i, fs => if iter.path = path then .error .einval else findSlot path rest (i + 1) fs

def isMountPoint (s : Dfs Dev) (answer : MountAnswer Dev) (fullpath : List Char) : Option Bool :=
  if fullpath = ['/'] ∨ fullpath = ['/', 'd', 'e', 'v'] then some true
  else
    match dfsFileOpen s.filesystemTable s.workingDirectory answer.dirOpen .cleared fullpath oDirectory with
    | (_, .error _) => some false
    | (fd, .ok _) => (dfsFileClose s.filesystemTable answer.dirClose fd).map (fun _ => true)

def deviceOpen (s : Dfs Dev) : Option Dev → Dfs Dev
  | none => s
  | some dev => { s with openCount := Function.update s.openCount dev (s.openCount dev + 1) }

def deviceClose (s : Dfs Dev) : Option Dev → Dfs Dev
  | none => s
  | some dev => { s with openCount := Function.update s.openCount dev (s.openCount dev - 1) }

def mountAt (s : Dfs Dev) (answer : MountAnswer Dev) (devId : Option Dev) (fullpath : List Char) (ops : FsOps)
    (i : ℕ) : Dfs Dev × DfsResult :=
  let s := s.setFs i (some { devId, path := fullpath, ops, generation := s.mounts })
  if devId ≠ none ∧ answer.deviceOpen = .failed then (s.setFs i none, .error .minusOne)
  -- the open is counted, and the device is not closed
  else if devId ≠ none ∧ answer.deviceOpen = .enosys then ((s.deviceOpen devId).setFs i none, .error .minusOne)
  else
    let s := s.deviceOpen devId
    match answer.mount with
    | .error _ => ((s.deviceClose devId).setFs i none, .error .minusOne)
    | .ok _ => ({ s with mounts := s.mounts + 1 }, .ok 0)

def dfsMount (s : Dfs Dev) (answer : MountAnswer Dev) (deviceName : Option (List Char)) (path type : List Char) :
    Option (Dfs Dev × DfsResult) :=
  let devId := deviceName.bind answer.find
  if deviceName ≠ none ∧ devId = none then some (s, .error .enodev)
  else
    match findOps type s.operationTable with
    | none => none
    | some none => some (s, .error .enodev)
    | some (some ops) =>
      if ops.mountOp = false then some (s, .error .enosys)
      else
        match dfsNormalizePath answer.alloc s.workingDirectory none path with
        | none => some (s, .error .enotdir)
        | some fullpath =>
          (s.isMountPoint answer fullpath).map (fun isDir =>
            if isDir = false then (s, .error .enotdir)
            else
              match findSlot path s.filesystemTable 0 none with
              | .error e => (s, .error e)
              | .ok i => s.mountAt answer devId fullpath ops i)

def mountedAt (table : FsTable Dev) (fullpath : List Char) : Option (ℕ × Filesystem Dev) :=
  table.zipIdx.findSome? (fun (entry, i) =>
    entry.bind (fun fs => if fs.path = fullpath then some (i, fs) else none))

def dfsUnmount (s : Dfs Dev) (alloc : Bool) (answer : DfsResult) (specialfile : List Char) : Dfs Dev × DfsResult :=
  match dfsNormalizePath alloc s.workingDirectory none specialfile with
  | none => (s, .error .enotdir)
  | some fullpath =>
    match mountedAt s.filesystemTable fullpath with
    | none => (s, .error .minusOne)
    | some (i, fs) =>
      if fs.ops.unmountOp = false then (s, .error .minusOne)
      else
        match answer with
        | .error _ => (s, .error .minusOne)
        | .ok _ => ((s.deviceClose fs.devId).setFs i none, .ok 0)

end Dfs

inductive DfsCall (Dev : Type)
  | mount (answer : MountAnswer Dev) (deviceName : Option (List Char)) (path type : List Char)
  | unmount (alloc : Bool) (answer : DfsResult) (specialfile : List Char)
  | openFile (answer : OpenAnswer) (file : List Char) (flags : BitVec 32)
  | read (answer : IoAnswer) (fd : ℕ)
  | write (answer : IoAnswer) (fd : ℕ)
  | lseek (answer : IoAnswer) (fd : ℕ) (offset : BitVec 32) (whence : Whence)
  | close (answer : DfsResult) (fd : ℕ)
  | opendir (answer : OpenAnswer) (dirAlloc : Bool) (closeAnswer : DfsResult) (name : List Char)
  | closedir (answer : DfsResult) (fd : ℕ)

namespace Dfs

def call (s : Dfs Dev) : DfsCall Dev → Option (Dfs Dev × DfsResult)
  | .mount answer deviceName path type => s.dfsMount answer deviceName path type
  | .unmount alloc answer specialfile => some (s.dfsUnmount alloc answer specialfile)
  | .openFile answer file flags => s.posixOpen answer file flags
  | .read answer fd => s.posixRead answer fd
  | .write answer fd => s.posixWrite answer fd
  | .lseek answer fd offset whence => s.posixLseek answer fd offset whence
  | .close answer fd => s.posixClose answer fd
  | .opendir answer dirAlloc closeAnswer name => s.posixOpendir answer dirAlloc closeAnswer name
  | .closedir answer fd => s.posixClosedir answer fd

def step (s : Dfs Dev) (c : DfsCall Dev) : Option (Dfs Dev) := (s.call c).map Prod.fst

end Dfs

end RtThread
