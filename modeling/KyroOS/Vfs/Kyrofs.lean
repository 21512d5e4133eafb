import KyroOS.Vfs.Path
import Mathlib.Data.Finset.Basic

/-!
# The in-memory file system

A node of KyroFS is a `kyrofs_dirent_t`. The `ptr` of a regular file holds its content, that of
every other node the list of its children, newest first; `kyrofs_create_node` installs the file
operations in the first case and the directory operations in the second.

## Main definitions

* `FileContent`, `Dirent`, `Kyrofs` — contents, nodes and the tree
* `kyrofsOpen`, `kyrofsRead`, `kyrofsWrite` — the operations of a file
* `kyrofsFinddir`, `kyrofsCreateNode`, `kyrofsRemove`, `kyrofsRmdir` — those of a directory
* `kyrofsAddFile`, `kyrofsInit` — what the kernel calls at boot
* `sysOpen`, `sysMkdir`, `sysUnlink`, `sysRmdir` — the system calls, up to the descriptor table
-/

namespace KyroOS.Vfs

/-! ### Flags -/

def vfsFile : BitVec 32 := 0x01
def vfsDirectory : BitVec 32 := 0x02
def vfsMountpoint : BitVec 32 := 0x04
def vfsChardevice : BitVec 32 := 0x08

def oCreat : BitVec 32 := 0x0040
def oTrunc : BitVec 32 := 0x0200
def oAppend : BitVec 32 := 0x0400

/-! ### Nodes -/

/-- `kyrofs_file_content_t`; `content` is `NULL` or the bytes of the buffer. -/
structure FileContent where
  content : Option (List Byte)
  size : BitVec 32
  capacity : BitVec 32
  deriving DecidableEq

/-- What `ptr` points to: the content of a file, or the first child, with the others linked
behind it by `next`. -/
inductive Ptr
  | content (file : FileContent)
  | dirents (children : List Word)
  deriving DecidableEq

/-- `ptr` is `NULL`. -/
def Ptr.isNull : Ptr → Bool
  | .content _ => false
  | .dirents children => children.isEmpty

/-- `kyrofs_dirent_t` -/
structure Dirent where
  name : CString
  flags : BitVec 32
  length : BitVec 32
  ptr : Ptr
  parent : Word
  deriving DecidableEq

def Dirent.has (node : Dirent) (flag : BitVec 32) : Bool := node.flags &&& flag ≠ 0

/-- The children, of a node that is no file. -/
def Dirent.children (node : Dirent) : List Word :=
  match node.ptr with
  | .content _ => []
  | .dirents children => children

/-- The node has the operations of a directory. -/
def Dirent.hasDirectoryOps (node : Dirent) : Bool :=
  match node.ptr with
  | .content _ => false
  | .dirents _ => true

/-! ### Files -/

/-- `memcpy` out of a buffer. -/
def copyOut (bytes : List Byte) (offset size : ℕ) : Outcome (List Byte) :=
  if offset + size ≤ bytes.length then .ok ((bytes.drop offset).take size) else .error .fault

/-- `memcpy` into a buffer that may be `NULL`. -/
def copyIn (content : Option (List Byte)) (offset : ℕ) (data : List Byte) :
    Outcome (Option (List Byte)) :=
  match content, data with
  | content, [] => .ok content
  | none, _ :: _ => .error .fault
  | some bytes, data =>
    if offset + data.length ≤ bytes.length then
      .ok (some (bytes.take offset ++ data ++ bytes.drop (offset + data.length)))
    else .error .fault

/-- `kyrofs_open` -/
def kyrofsOpen (node : Dirent) (flags : BitVec 32) : Outcome Dirent :=
  if node.has vfsFile ∧ flags &&& oTrunc ≠ 0 then
    match node.ptr with
    | .dirents _ => .error .fault
    | .content file =>
      .ok { node with
        ptr := .content { file with content := none, size := 0 }
        length := 0 }
  else .ok node

/-- `kyrofs_read`: the bytes copied to the caller, as many as the call returns. -/
def kyrofsRead (node : Dirent) (offset : Word) (size : BitVec 32) : Outcome (List Byte) :=
  match node.ptr with
  | .dirents _ => .error .fault
  | .content file =>
    match file.content with
    | none => .ok []
    | some bytes =>
      if file.size.setWidth 64 ≤ offset then .ok []
      else if file.size.setWidth 64 < offset + size.setWidth 64 then
        copyOut bytes offset.toNat ((file.size.setWidth 64 - offset).setWidth 32).toNat
      else copyOut bytes offset.toNat size.toNat

/-- The new buffer of `kyrofs_write`, where `kmalloc` returns a block with the bytes `block`. -/
def FileContent.grow (file : FileContent) (newCap : BitVec 32) (block : Option (ℕ → Byte)) :
    Outcome FileContent :=
  match block with
  | none => .error (.panic "kyrofs_write: kmalloc failed for new content buffer")
  | some junk =>
    let fresh := (List.range newCap.toNat).map junk
    match file.content with
    | none => .ok { file with content := some fresh, capacity := newCap }
    | some bytes => do
      let old ← copyOut bytes 0 file.size.toNat
      let content ← copyIn (some fresh) 0 old
      .ok { file with content, capacity := newCap }

/-- The buffer of a write up to `stop`. -/
def FileContent.reserve (file : FileContent) (stop : Word) (block : Option (ℕ → Byte)) :
    Outcome FileContent :=
  if file.capacity.setWidth 64 < stop then file.grow ((stop * 2).setWidth 32) block else .ok file

/-- `kyrofs_write` of `data`, whose length is the argument `size`. -/
def kyrofsWrite (node : Dirent) (offset : Word) (data : List Byte) (block : Option (ℕ → Byte)) :
    Outcome (Dirent × BitVec 32) :=
  match node.ptr with
  | .dirents _ => .error .fault
  | .content file => do
    let size : BitVec 32 := BitVec.ofNat 32 data.length
    let stop : Word := offset + size.setWidth 64
    let file ← file.reserve stop block
    let content ← copyIn file.content offset.toNat data
    let newSize := if file.size.setWidth 64 < stop then stop.setWidth 32 else file.size
    .ok ({ node with
      ptr := .content { file with content, size := newSize }
      length := newSize }, size)

/-! ### The tree -/

/-- The nodes, by address. -/
structure Kyrofs where
  node : Word → Dirent
  root : Word
  live : Finset Word

namespace Kyrofs

def children (fs : Kyrofs) (n : Word) : List Word := (fs.node n).children

/-- The node is a directory, with the operations of one. -/
def IsDirectory (fs : Kyrofs) (n : Word) : Prop :=
  (fs.node n).has vfsDirectory ∧ (fs.node n).hasDirectoryOps

instance (fs : Kyrofs) (n : Word) : Decidable (fs.IsDirectory n) :=
  inferInstanceAs (Decidable (_ ∧ _))

def setNode (fs : Kyrofs) (n : Word) (d : Dirent) : Kyrofs :=
  { fs with node := Function.update fs.node n d }

/-- `n->ptr = children` -/
def setChildren (fs : Kyrofs) (n : Word) (children : List Word) : Kyrofs :=
  fs.setNode n { fs.node n with ptr := .dirents children }

/-- The names of the children. -/
def names (fs : Kyrofs) (n : Word) : List CString :=
  (fs.children n).map fun c => (fs.node c).name

/-- The first child with the given name. -/
def childNamed (fs : Kyrofs) (n : Word) (name : CString) : Option Word :=
  (fs.children n).find? fun c => (fs.node c).name = name

end Kyrofs

/-- What the calls of `kmalloc` for a new node return: the node, the content and the bytes of its
buffer. -/
structure NewNode where
  dirent : Word
  content : Word
  buffer : Option (ℕ → Byte)

/-- `kyrofs_finddir` -/
def kyrofsFinddir (fs : Kyrofs) (n : Word) (name : CString) : Option Word :=
  if name = cstring ['.'] then some n
  else if name = cstring ['.', '.'] then
    if (fs.node n).parent ≠ 0 then some (fs.node n).parent else some n
  else fs.childNamed n name

/-- `vfs_finddir` -/
def vfsFinddir (fs : Kyrofs) (n : Word) (name : CString) : Option Word :=
  if fs.IsDirectory n then kyrofsFinddir fs n name else none

/-- The `ptr` of a new node. -/
def newPtr (new : NewNode) (flags : BitVec 32) : Outcome Ptr :=
  if flags &&& vfsFile ≠ 0 then
    if new.content = 0 then
      .error (.panic "kyrofs_create_node: kmalloc failed for file_content struct")
    else
      match new.buffer with
      | none => .error (.panic "kyrofs_create_node: kmalloc failed for initial file buffer")
      | some junk => .ok (.content ⟨some ((List.range 128).map junk), 0, 128⟩)
  else .ok (.dirents [])

/-- The new node `c` is put in front of the children of its parent. -/
def Kyrofs.link (fs : Kyrofs) (c : Word) (d : Dirent) : Kyrofs :=
  let fs := fs.setNode c d
  let fs := fs.setChildren d.parent (c :: fs.children d.parent)
  { fs with live := insert c fs.live }

/-- `kyrofs_create_node`. A name that fills its field is left without a NUL, and a parent that is
a file has its content taken for a child. -/
def kyrofsCreateNode (fs : Kyrofs) (new : NewNode) (parent : Word) (name : CString)
    (flags : BitVec 32) : Outcome (Kyrofs × Int) :=
  if new.dirent = 0 then .error (.panic "kyrofs_create_node: kmalloc failed for dirent")
  else if maxFilenameLen ≤ name.length then .error .fault
  else do
    let ptr ← newPtr new flags
    if (fs.node parent).hasDirectoryOps then
      .ok (fs.link new.dirent ⟨name, flags, 0, ptr, parent⟩, 0)
    else .error .fault

/-- `kyrofs_mkdir` -/
def kyrofsMkdir (fs : Kyrofs) (new : NewNode) (n : Word) (name : CString) :
    Outcome (Kyrofs × Int) :=
  kyrofsCreateNode fs new n name vfsDirectory

/-- `kyrofs_create` -/
def kyrofsCreate (fs : Kyrofs) (new : NewNode) (n : Word) (name : CString) :
    Outcome (Kyrofs × Int) :=
  kyrofsCreateNode fs new n name vfsFile

/-- The child `c` is taken out of the list of `n` and freed. -/
def Kyrofs.unlink (fs : Kyrofs) (n c : Word) : Kyrofs :=
  let fs := fs.setChildren n ((fs.children n).erase c)
  { fs with live := fs.live.erase c }

/-- `kyrofs_remove` -/
def kyrofsRemove (fs : Kyrofs) (n : Word) (name : CString) : Kyrofs × Int :=
  match fs.childNamed n name with
  | none => (fs, -1)
  | some c =>
    -- the directory is not empty
    if (fs.node c).has vfsDirectory ∧ ¬ (fs.node c).ptr.isNull then (fs, -1)
    else (fs.unlink n c, 0)

/-- `kyrofs_rmdir` -/
def kyrofsRmdir (fs : Kyrofs) (n : Word) (name : CString) : Kyrofs × Int :=
  match fs.childNamed n name with
  | none => (fs, -1)
  | some c =>
    if ¬ (fs.node c).has vfsDirectory then (fs, -1)
    else if ¬ (fs.node c).ptr.isNull then (fs, -1)
    else (fs.unlink n c, 0)

/-! ### Calls by path -/

/-- `vfs_resolve_path` -/
def Kyrofs.resolve (fs : Kyrofs) (root : Word) (path : CString) : Option Word :=
  vfsResolvePath (vfsFinddir fs) root path

/-- A call of the directory operation `op` with the parent and the name in `path`. -/
def Kyrofs.callInParent (fs : Kyrofs) (root : Word) (path : CString)
    (op : Word → CString → Outcome (Kyrofs × Int)) : Outcome (Kyrofs × Int) :=
  match vfsParent (vfsFinddir fs) (fun n => (fs.node n).has vfsDirectory) root path with
  | none => .ok (fs, -1)
  | some (parent, name) =>
    if (fs.node parent).hasDirectoryOps then op parent name else .ok (fs, -1)

/-- `vfs_mkdir` -/
def vfsMkdir (fs : Kyrofs) (new : NewNode) (root : Word) (path : CString) :
    Outcome (Kyrofs × Int) :=
  fs.callInParent root path fun parent name => kyrofsMkdir fs new parent name

/-- `vfs_create` -/
def vfsCreate (fs : Kyrofs) (new : NewNode) (root : Word) (path : CString) :
    Outcome (Kyrofs × Int) :=
  fs.callInParent root path fun parent name => kyrofsCreate fs new parent name

/-- `vfs_remove` -/
def vfsRemove (fs : Kyrofs) (root : Word) (path : CString) : Outcome (Kyrofs × Int) :=
  fs.callInParent root path fun parent name => .ok (kyrofsRemove fs parent name)

/-- `vfs_rmdir` -/
def vfsRmdir (fs : Kyrofs) (root : Word) (path : CString) : Outcome (Kyrofs × Int) :=
  fs.callInParent root path fun parent name => .ok (kyrofsRmdir fs parent name)

/-- `node->open(node, flags)` -/
def Kyrofs.openNode (fs : Kyrofs) (n : Word) (flags : BitVec 32) : Outcome (Kyrofs × Option Word) :=
  do
    let node ← kyrofsOpen (fs.node n) flags
    .ok (fs.setNode n node, some n)

/-- The copy of a path from user space. -/
def copyPath (userPath : CString) : CString := userPath.take (maxFilenameLen - 1)

/-- `sys_open` up to the choice of a descriptor: the node to be put into it. -/
def sysOpen (fs : Kyrofs) (new : NewNode) (userPath : CString) (flags : BitVec 32) :
    Outcome (Kyrofs × Option Word) :=
  let path := copyPath userPath
  match fs.resolve fs.root path with
  | some n => fs.openNode n flags
  | none =>
    if flags &&& oCreat ≠ 0 then
      let target := match splitLast path with
        | some (dir, name) => (fs.resolve fs.root dir).map fun parent => (parent, name)
        | none => some (fs.root, path)
      match target with
      | none => .ok (fs, none)
      | some (parent, name) =>
        if (fs.node parent).has vfsDirectory then do
          let (fs, res) ← vfsCreate fs new parent name
          if res ≠ 0 then .ok (fs, none)
          else
            match fs.resolve fs.root path with
            | none => .ok (fs, none)
            | some n => fs.openNode n flags
        else .ok (fs, none)
    else .ok (fs, none)

/-- `sys_mkdir` -/
def sysMkdir (fs : Kyrofs) (new : NewNode) (userPath : CString) : Outcome (Kyrofs × Int) :=
  vfsMkdir fs new fs.root (copyPath userPath)

/-- `sys_unlink` -/
def sysUnlink (fs : Kyrofs) (userPath : CString) : Outcome (Kyrofs × Int) :=
  vfsRemove fs fs.root (copyPath userPath)

/-- `sys_rmdir` -/
def sysRmdir (fs : Kyrofs) (userPath : CString) : Outcome (Kyrofs × Int) :=
  vfsRmdir fs fs.root (copyPath userPath)

/-! ### Boot -/

/-- The path without a leading slash. -/
def stripSlash : CString → CString
  | [] => []
  | c :: rest => if c = slash then rest else c :: rest

/-- The parent and the name that `kyrofs_add_file` takes from its path: the part before the last
slash is copied to a field, and looked up as one name. -/
def addFileTarget (fs : Kyrofs) (path : CString) : Outcome (Option (Word × CString)) :=
  match splitLast (stripSlash path) with
  | some (dir, name) =>
    if maxFilenameLen ≤ dir.length then .error .fault
    else .ok ((vfsFinddir fs fs.root dir).map fun parent => (parent, name))
  | none => .ok (some (fs.root, stripSlash path))

/-- `kyrofs_add_file` -/
def kyrofsAddFile (fs : Kyrofs) (new : NewNode) (path : CString) (data : List Byte)
    (block : Option (ℕ → Byte)) : Outcome (Kyrofs × Int) := do
  match ← addFileTarget fs path with
  | none => .ok (fs, -1)
  | some (parent, name) =>
    let (fs, _) ← kyrofsCreate fs new parent name
    match vfsFinddir fs parent name with
    | none => .ok (fs, -1)
    | some n =>
      let (node, _) ← kyrofsWrite (fs.node n) 0 data block
      .ok (fs.setNode n node, 0)

/-- The file system with nothing but its root. -/
def bareRoot (root : Word) : Kyrofs where
  node := fun _ => ⟨[slash], vfsDirectory, 0, .dirents [], root⟩
  root := root
  live := {root}

/-- A node that the caller uses without a check. -/
def nodeOrFault : Option Word → Outcome Word
  | some n => .ok n
  | none => .error .fault

/-- `kyrofs_init` -/
def kyrofsInit (root : Word) (new : Fin 8 → NewNode) : Outcome Kyrofs :=
  if root = 0 then .error (.panic "kyrofs_init: kmalloc failed for root_node")
  else do
    let fs := bareRoot root
    let (fs, _) ← kyrofsMkdir fs (new 0) root (cstring ['b', 'i', 'n'])
    let (fs, _) ← kyrofsMkdir fs (new 1) root (cstring ['e', 't', 'c'])
    let (fs, _) ← kyrofsMkdir fs (new 2) root (cstring ['v', 'a', 'r'])
    let (fs, _) ← kyrofsMkdir fs (new 3) root (cstring ['m', 'n', 't'])
    let (fs, _) ← kyrofsMkdir fs (new 4) root (cstring ['d', 'e', 'v'])
    let varNode ← nodeOrFault (vfsFinddir fs root (cstring ['v', 'a', 'r']))
    let (fs, _) ← kyrofsMkdir fs (new 5) varNode (cstring ['l', 'i', 'b'])
    let libNode ← nodeOrFault (vfsFinddir fs varNode (cstring ['l', 'i', 'b']))
    let (fs, _) ← kyrofsMkdir fs (new 6) libNode (cstring ['k', 'p', 'm'])
    match vfsFinddir fs root (cstring ['d', 'e', 'v']) with
    | none => .ok fs
    | some devDir =>
      let (fs, _) ← kyrofsCreateNode fs (new 7) devDir (cstring ['t', 't', 'y']) vfsChardevice
      .ok fs

end KyroOS.Vfs
