import RtThread.Dfs.Path

/-!
Mounted file systems and the operations on files of `dfs_fs.c`, `dfs_file.c` and `dfs.c`. What a file system, a device
or the allocator answers is an argument.
-/

namespace RtThread

inductive DfsErr
  | minusOne
  | enoent
  | ebadf
  | enomem
  | enodev
  | enotdir
  | einval
  | enospc
  | enosys
  | callback (code : ℕ)
  deriving DecidableEq

abbrev DfsResult := Except DfsErr ℕ

structure FsOps where
  name : List Char
  fullpath : Bool
  mountOp : Bool
  unmountOp : Bool
  openOp : Bool
  closeOp : Bool
  readOp : Bool
  writeOp : Bool
  lseekOp : Bool
  deriving DecidableEq

/-- An entry of `filesystem_table` that is in use. `generation` numbers the mounts; it is not a field of the source. -/
structure Filesystem (Dev : Type) where
  devId : Option Dev
  path : List Char
  ops : FsOps
  generation : ℕ
  deriving DecidableEq

inductive FileType
  | regular
  | directory
  deriving DecidableEq

/-- `magic` says whether the field holds `DFS_FD_MAGIC`, `fs` is the index of the entry that it points to, and
`generation`, which is not a field of the source, is that of the file's mount. -/
structure DfsFd where
  magic : Bool
  type : FileType
  path : Option (List Char)
  refCount : ℤ
  fs : Option ℕ
  flags : BitVec 32
  size : BitVec 32
  pos : BitVec 32
  generation : ℕ
  deriving DecidableEq

def DfsFd.cleared : DfsFd where
  magic := false
  type := .regular
  path := none
  refCount := 0
  fs := none
  flags := 0
  size := 0
  pos := 0
  generation := 0

def oCreat : BitVec 32 := 0x0000100

def oDirectory : BitVec 32 := 0x0200000

def fOpen : BitVec 32 := 0x01000000

def fDirectory : BitVec 32 := 0x02000000

def fEof : BitVec 32 := 0x04000000

structure IoAnswer where
  result : DfsResult
  size : BitVec 32
  pos : BitVec 32

structure OpenAnswer where
  alloc : Bool
  dup : Bool
  io : IoAnswer

variable {Dev : Type}

abbrev FsTable (Dev : Type) := List (Option (Filesystem Dev))

namespace FsTable

def lookupTurn (path : List Char) (found : Option (ℕ × Filesystem Dev) × ℕ) :
    Option (Filesystem Dev) × ℕ → Option (ℕ × Filesystem Dev) × ℕ
  | (none, _) => found
  | (some iter, i) =>
    let fspath := iter.path.length
    if fspath < found.2 ∨ ¬ iter.path <+: path then found
    -- the next character has to be a separator
    else if 1 < fspath ∧ fspath < path.length ∧ path[fspath]? ≠ some '/' then found
    else (some (i, iter), fspath)

def lookup (table : FsTable Dev) (path : List Char) : Option (ℕ × Filesystem Dev) :=
  (table.zipIdx.foldl (lookupTurn path) (none, 0)).1

def reach (table : FsTable Dev) (fd : DfsFd) : Option (Filesystem Dev) := fd.fs.bind (fun i => (table[i]?).join)

end FsTable

namespace DfsFd

def answered (fd : DfsFd) (io : IoAnswer) : DfsFd := { fd with size := io.size, pos := io.pos }

def prepared (fd : DfsFd) (dup : Bool) (i : ℕ) (fs : Filesystem Dev) (fullpath : List Char) (flags : BitVec 32) :
    DfsFd :=
  { fd with
    fs := some i
    generation := fs.generation
    type := .regular
    flags
    size := 0
    pos := 0
    path :=
      if fs.ops.fullpath then some fullpath
      else if dup then some ((dfsSubdir fs.path fullpath).getD ['/'])
      else none }

end DfsFd

def dfsFileOpen (table : FsTable Dev) (workingDirectory : List Char) (answer : OpenAnswer) (fd : DfsFd)
    (path : List Char) (flags : BitVec 32) : DfsFd × DfsResult :=
  match dfsNormalizePath answer.alloc workingDirectory none path with
  | none => (fd, .error .minusOne)
  | some fullpath =>
    match table.lookup fullpath with
    | none => (fd, .error .enoent)
    | some (i, fs) =>
      let fd := fd.prepared answer.dup i fs fullpath flags
      if fs.ops.openOp = false then ({ fd with path := none }, .error .enosys)
      else
        let fd := fd.answered answer.io
        match answer.io.result with
        | .error e => ({ fd with path := none }, .error e)
        | .ok _ =>
          let fd := { fd with flags := fd.flags ||| fOpen }
          if flags &&& oDirectory = 0 then (fd, .ok 0)
          else ({ fd with type := .directory, flags := fd.flags ||| fDirectory }, .ok 0)

def dfsFileClose (table : FsTable Dev) (answer : DfsResult) (fd : DfsFd) : Option (DfsFd × DfsResult) :=
  (table.reach fd).map (fun fs =>
    match if fs.ops.closeOp then answer else .ok 0 with
    | .error e => (fd, .error e)
    | .ok result => ({ fd with path := none }, .ok result))

def dfsFileRead (table : FsTable Dev) (answer : IoAnswer) (fd : DfsFd) : Option (DfsFd × DfsResult) :=
  (table.reach fd).map (fun fs =>
    if fs.ops.readOp = false then (fd, .error .enosys)
    else
      let fd := fd.answered answer
      match answer.result with
      | .error e => ({ fd with flags := fd.flags ||| fEof }, .error e)
      | .ok result => (fd, .ok result))

def dfsFileWrite (table : FsTable Dev) (answer : IoAnswer) (fd : DfsFd) : Option (DfsFd × DfsResult) :=
  (table.reach fd).map (fun fs =>
    if fs.ops.writeOp = false then (fd, .error .enosys) else (fd.answered answer, answer.result))

def dfsFileLseek (table : FsTable Dev) (answer : IoAnswer) (fd : DfsFd) : Option (DfsFd × DfsResult) :=
  if fd.fs = none then some (fd, .error .einval)
  else
    (table.reach fd).map (fun fs =>
      if fs.ops.lseekOp = false then (fd, .error .enosys)
      else
        let fd := fd.answered answer
        match answer.result with
        | .error e => (fd, .error e)
        | .ok result => ({ fd with pos := BitVec.ofNat 32 result }, .ok result))

end RtThread
