import NexusKernel.Lib.CStrings
import Mathlib.Algebra.Group.Int.Defs
import Mathlib.Algebra.Group.Nat.Defs

/-!
The virtual file system of fs/vfs.c with the directories of fs/ramfs.c. Pointers to nodes are
their numbers in the order of creation. A path or a name is the list of its bytes before the
terminating zero.

The nodes of other file systems have their lookup as a function from names to nodes, no `mkdir`
and no `create`. Allocations succeed. A call need not return: the loop over the mounts of the root
can go in a circle, and a copy can leave its array.
-/

namespace NexusKernel.Vfs

open Lib.CStrings

def fsFile : UInt32 := 1
def fsDirectory : UInt32 := 2
def fsMountpoint : UInt32 := 64

def slash : UInt8 := 47

def ramfsMaxChildren : ℕ := 64

structure RamfsInternal where
  data : UInt64
  capacity : UInt64
  children : List ℕ

/-- The operations of a node. Of other file systems only `finddir` matters, which files and
devices do not have. -/
inductive VfsOps where
  | ramfs
  | other (finddir : Option (List UInt8 → Option ℕ))

structure VfsNode where
  name : List UInt8
  mask : UInt32
  flags : UInt32
  length : UInt64
  impl : Option RamfsInternal
  ops : Option VfsOps
  ptr : Option ℕ

/-- The nodes made so far have the numbers below `nodes`. -/
structure Fs where
  node : ℕ → VfsNode
  nodes : ℕ
  vfsRoot : Option ℕ

@[irreducible] def pathArray : List UInt8 := List.replicate 128 0

inductive Buffer where
  | parentPath
  | lastName
  | nodeName
  deriving DecidableEq, Repr

inductive Stop where
  | endless
  | overflow (buffer : Buffer)
  | nullImpl
  deriving DecidableEq, Repr

def VfsNode.mounted (node : VfsNode) : Option ℕ :=
  if node.flags &&& fsMountpoint = 0 then none else node.ptr

def Fs.cross (fs : Fs) (n : ℕ) : ℕ := (fs.node n).mounted.getD n

def ramfsFinddir (fs : Fs) (n : ℕ) (name : List UInt8) : Option ℕ :=
  if (fs.node n).flags &&& fsDirectory = 0 then none
  else
    match (fs.node n).impl with
    | none => none
    | some priv => priv.children.find? (fun c => (fs.node c).name = name)

def opsFinddir (fs : Fs) (n : ℕ) (name : List UInt8) : Option ℕ :=
  match (fs.node n).ops with
  | none => none
  | some .ramfs => ramfsFinddir fs n name
  | some (.other none) => none
  | some (.other (some finddir)) => finddir name

def vfsFinddir (fs : Fs) (node : Option ℕ) (name : List UInt8) : Option ℕ :=
  match node with
  | none => none
  | some n =>
      let n := fs.cross n
      if (fs.node n).flags &&& fsDirectory = 0 then none
      else (opsFinddir fs n name).map fs.cross

/-- The loop of `vfs_resolve_recursive` that copies a component and moves on to the next slash. -/
def copyComponent : List UInt8 → List UInt8 → List UInt8 × List UInt8
  | [], buffer => (buffer, [])
  | c :: rest, buffer =>
      if c = slash then (buffer, c :: rest)
      else copyComponent rest (if buffer.length < 127 then buffer ++ [c] else buffer)

/-- `vfs_resolve_recursive`. Every call but the last has a shorter path. -/
def vfsResolveRecursive (fs : Fs) : ℕ → Option ℕ → List UInt8 → Option ℕ
  | 0, _, _ => none
  | fuel + 1, current, path =>
      let path := path.dropWhile (· = slash)
      if path = [] then current
      else
        let (buffer, nextPath) := copyComponent path []
        match vfsFinddir fs current buffer with
        | none => none
        | some next => vfsResolveRecursive fs fuel (some next) nextPath

/-- The loop of `vfs_resolve_path` over the mounts of the root. A chain that ends passes every
node at most once. -/
def topMount (fs : Fs) : ℕ → ℕ → Except Stop ℕ
  | 0, _ => .error .endless
  | fuel + 1, n =>
      match (fs.node n).mounted with
      | none => .ok n
      | some m => topMount fs fuel m

def rootMount (fs : Fs) : Except Stop (Option ℕ) :=
  match fs.vfsRoot with
  | none => .ok none
  | some root => (topMount fs (fs.nodes + 1) root).map some

def vfsResolvePath (fs : Fs) (path : List UInt8) : Except Stop (Option ℕ) :=
  if path.head? = some slash then
    (rootMount fs).map (fun node => vfsResolveRecursive fs path.length node path.tail)
  else .ok none

def ramfsCreate (flags : UInt32) (fs : Fs) (parent : ℕ) (name : List UInt8) :
    Except Stop (Fs × Option ℕ) :=
  match (fs.node parent).impl with
  | none => .error .nullImpl
  | some priv =>
      if ramfsMaxChildren ≤ priv.children.length then .ok (fs, none)
      else
        match strcpy pathArray name with
        | none => .error (.overflow .nodeName)
        | some array =>
            let node : VfsNode := {
              name := cString array
              mask := (fs.node parent).mask
              flags := flags
              length := 0
              impl := some ⟨0, 0, []⟩
              ops := some .ramfs
              ptr := none }
            let parentNode : VfsNode :=
              { fs.node parent with
                impl := some { priv with children := priv.children ++ [fs.nodes] } }
            .ok ({ fs with
              node := Function.update (Function.update fs.node fs.nodes node) parent parentNode
              nodes := fs.nodes + 1 }, some fs.nodes)

def ramfsCreateDir : Fs → ℕ → List UInt8 → Except Stop (Fs × Option ℕ) := ramfsCreate fsDirectory
def ramfsCreateFile : Fs → ℕ → List UInt8 → Except Stop (Fs × Option ℕ) := ramfsCreate fsFile

/-- The copy of `parentLen` bytes of a path to `parent_path`. The `int` length becomes the
`size_t` of `strncpy`. -/
def copyParent (path : List UInt8) (parentLen : ℤ) : Option (List UInt8) :=
  if parentLen = 0 then strcpy pathArray [slash]
  else
    (strncpy pathArray path (parentLen % 2 ^ 64).toNat).bind
      (fun a => if parentLen < 0 then none else store a parentLen.toNat 0)

def toInt (n : ℕ) : ℤ := Int.bmod n (2 ^ 32)

/-- The copies of `vfs_mkdir` and `vfs_create`: what is before and behind the last slash. -/
def splitPath (path : List UInt8) (lastSlash : ℕ) (parentLen : ℤ) :
    Except Stop (List UInt8 × List UInt8) :=
  match copyParent path parentLen with
  | none => .error (.overflow .parentPath)
  | some parentPath =>
      match strcpy pathArray (path.drop (lastSlash + 1)) with
      | none => .error (.overflow .lastName)
      | some name => .ok (cString parentPath, cString name)

/-- The end of `vfs_mkdir` and `vfs_create`; `make` is the operation of a ramfs node they call. -/
def createIn (make : Fs → ℕ → List UInt8 → Except Stop (Fs × Option ℕ)) (fs : Fs)
    (parent : Option ℕ) (name : List UInt8) : Except Stop (Fs × Option ℕ) :=
  match parent with
  | none => .ok (fs, none)
  | some parent =>
      match (fs.node parent).ops with
      | some .ramfs => make fs parent name
      | _ => .ok (fs, none)

def createAt (make : Fs → ℕ → List UInt8 → Except Stop (Fs × Option ℕ)) (fs : Fs)
    (path : List UInt8) (lastSlash : ℕ) (parentLen : ℤ) : Except Stop (Fs × Option ℕ) :=
  match splitPath path lastSlash parentLen with
  | .error stop => .error stop
  | .ok (parentPath, name) =>
      (vfsResolvePath fs parentPath).bind (fun parent => createIn make fs parent name)

def createWith (make : Fs → ℕ → List UInt8 → Except Stop (Fs × Option ℕ)) (fs : Fs)
    (path : List UInt8) : Except Stop (Fs × Option ℕ) :=
  if path.head? = some slash then
    match strrchr path slash with
    | none => .ok (fs, none)
    | some lastSlash => createAt make fs path lastSlash (toInt lastSlash)
  else .ok (fs, none)

def vfsCreate : Fs → List UInt8 → Except Stop (Fs × Option ℕ) := createWith ramfsCreateFile

def vfsMkdirNode : Fs → List UInt8 → Except Stop (Fs × Option ℕ) := createWith ramfsCreateDir

def vfsMkdir (fs : Fs) (path : List UInt8) : Except Stop (Fs × Int32) :=
  (vfsMkdirNode fs path).map (fun r => (r.1, if r.2.isSome then 0 else -1))

def vfsMount (fs : Fs) (path : List UInt8) (localRoot : ℕ) : Except Stop (Fs × Int32) :=
  match vfsResolvePath fs path with
  | .error stop => .error stop
  | .ok none => .ok (fs, -1)
  | .ok (some n) =>
      let node : VfsNode :=
        { fs.node n with ptr := some localRoot, flags := (fs.node n).flags ||| fsMountpoint }
      .ok ({ fs with node := Function.update fs.node n node }, 0)

end NexusKernel.Vfs
