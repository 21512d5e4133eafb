import KyroOS.Strings.Printf
import KyroOS.Vfs.Content
import KyroOS.Vfs.CreateResolve
import Mathlib.Data.List.Forall2

/-!
# The boot modules

The boot loader hands the kernel a list of files. `kmain_x64` puts each of them into `/bin`, under
the last component of its path, and a later file of the same name hides an earlier one.

## Main definitions

* `LimineFile`, `loadModule`, `loadModules` — the loop over the modules
* `ModuleFits`, `Fit` — the file has a name that fits the path, and the heap has room for it
* `Loaded` — the files that are in a directory, newest first

## Main results

* `modulePath_eq` — the path that `ksprintf` writes
* `Loaded.add` — `kyrofs_add_file` puts a file in front of the others
* `kyrofsInit_loaded` — the first tree has a `/bin`, and nothing in it
* `loadModules_spec` — what is found under `/bin` after boot
-/

namespace KyroOS.Vfs

open Splice
open Strings (VaList vksprintf)

/-! ### The loop -/

/-- The fields of `struct limine_file` that are used: `path`, and the `size` bytes at `address`. -/
structure LimineFile where
  path : Option CString
  bytes : List Byte

/-- What `kmalloc` returns for a module: the node, and the larger buffer of its content. -/
structure ModuleRoom where
  new : NewNode
  block : Option (ℕ → Byte)

/-- The loop over `module->path`: `filename` is what follows the last slash. -/
def moduleName (filename : CString) : CString → CString
  | [] => filename
  | c :: rest => if c = slash then moduleName rest rest else moduleName filename rest

/-- `"/bin"` as a name. -/
def binName : CString := cstring ['b', 'i', 'n']

/-- The format `"/bin/%s"`. -/
def binFormat (i : ℕ) : Byte := (cstring ['/', 'b', 'i', 'n', '/', '%', 's']).getD i 0

/-- `ksprintf(path, "/bin/%s", filename)`, into an array of 128. -/
def modulePath (filename : CString) : Outcome CString := do
  -- the address of `filename` is not `NULL`
  let (s, _) ← vksprintf binFormat ⟨fun _ => 1, fun _ => filename⟩ 8
  if 128 < s.written.length then .error .fault else .ok s.written.dropLast

/-- A turn of the loop. `kyrofs_add_file` takes the size as a `uint32_t`. -/
def loadModule (fs : Kyrofs) (module : Option LimineFile) (room : ModuleRoom) : Outcome Kyrofs :=
  match module with
  | none => .ok fs
  | some file =>
    match file.path with
    | none => .ok fs
    | some path => do
      let path ← modulePath (moduleName path path)
      let bytes := file.bytes.take (file.bytes.length % 2 ^ 32)
      let (fs, _) ← kyrofsAddFile fs room.new path bytes room.block
      .ok fs

/-- The loop over `module_request.response->modules`. -/
def loadModules (fs : Kyrofs) : List (Option LimineFile × ModuleRoom) → Outcome Kyrofs
  | [] => .ok fs
  | (module, room) :: rest => do
    let fs ← loadModule fs module room
    loadModules fs rest

/-! ### What it is for -/

/-- The name and the content of a module. -/
def moduleFile (module : Option LimineFile) : Option (CString × List Byte) :=
  module.bind fun file => file.path.map fun path => (moduleName path path, file.bytes)

/-- The files, in the order they are loaded in. -/
def moduleFiles (modules : List (Option LimineFile × ModuleRoom)) : List (CString × List Byte) :=
  modules.filterMap fun m => moduleFile m.1

/-- The file has a name that fits the path, a length that fits the buffer, and room. -/
structure ModuleFits (live : Finset Word) (file : CString × List Byte) (room : ModuleRoom) :
    Prop where
  named : file.1 ≠ [] ∧ file.1 ≠ cstring ['.'] ∧ file.1 ≠ cstring ['.', '.']
  short : file.1.length < 123
  small : file.2.length < 2 ^ 31
  node : room.new.dirent ≠ 0
  fresh : room.new.dirent ∉ live
  content : room.new.content ≠ 0
  buffer : room.new.buffer.isSome
  block : 128 < file.2.length → room.block.isSome

/-- Every file fits, where the nodes of those before are in use. -/
def Fit : Finset Word → List (Option LimineFile × ModuleRoom) → Prop
  | _, [] => True
  | live, (module, room) :: rest =>
    match moduleFile module with
    | none => Fit live rest
    | some file => ModuleFits live file room ∧ Fit (insert room.new.dirent live) rest

/-- The node has the name and the content. -/
def Stores (fs : Kyrofs) (n : Word) (file : CString × List Byte) : Prop :=
  (fs.node n).name = file.1 ∧ ∃ content bytes, Holds (fs.node n) file.2 content bytes

/-- `/bin` is the directory `bin`, with the given files, newest first. -/
structure Loaded (fs : Kyrofs) (bin : Word) (files : List (CString × List Byte)) : Prop where
  tree : fs.Tree
  live : bin ∈ fs.live
  directory : fs.IsDirectory bin
  parent : (fs.node bin).parent = fs.root
  ne_root : bin ≠ fs.root
  found : vfsFinddir fs fs.root binName = some bin
  children : List.Forall₂ (Stores fs) (fs.children bin) files

/-! ### Paths -/

section Paths

variable {fs : Kyrofs} {name dir : CString} {bin : Word}

/-- The rest of a path behind a part without a slash. -/
theorem slash_notMem_loop {front : CString} (hfront : slash ∉ front) (rest : CString) :
    slash ∉ moduleName (front ++ rest) rest := by
  induction rest generalizing front with
  | nil => simpa [moduleName] using hfront
  | cons c rest ih =>
    rw [moduleName]
    split_ifs with hc
    · have hrest : slash ∉ moduleName ([] ++ rest) rest := ih List.not_mem_nil
      exact hrest
    · have hnot : slash ∉ front ++ [c] := by
        simp only [List.mem_append, List.mem_singleton, not_or]
        exact ⟨hfront, Ne.symm hc⟩
      have hrest := ih hnot
      rwa [List.append_assoc, List.singleton_append] at hrest

/-- The last component has no slash. -/
theorem slash_notMem_moduleName (path : CString) : slash ∉ moduleName path path :=
  slash_notMem_loop List.not_mem_nil path

/-- A path is split before a name. -/
theorem splitLast_append (hname : slash ∉ name) :
    splitLast (dir ++ slash :: name) = some (dir, name) := by
  induction dir with
  | nil => rw [List.nil_append, splitLast, splitLast_eq_none.mpr hname, if_pos rfl]
  | cons c dir ih => rw [List.cons_append, splitLast, ih]

/-- What `ksprintf` writes. -/
theorem vksprintf_bin (name : CString) :
    ∃ s n, vksprintf binFormat ⟨fun _ => 1, fun _ => name⟩ 8 = .ok (s, n) ∧
      s.written = slash :: (binName ++ slash :: name) ++ [0] :=
  ⟨_, _, rfl, rfl⟩

/-- The path of a module fits its array unless the name is too long. -/
theorem modulePath_eq (name : CString) : modulePath name =
    if name.length < 123 then .ok (slash :: (binName ++ slash :: name)) else .error .fault := by
  obtain ⟨s, n, hok, hwritten⟩ := vksprintf_bin name
  have hlength : s.written.length = name.length + 6 := by
    rw [hwritten]
    simp [binName, cstring]
  rw [modulePath, hok]
  show (if 128 < s.written.length then (.error .fault : Outcome CString)
    else .ok s.written.dropLast) = _
  rw [hlength, hwritten, List.dropLast_concat]
  by_cases hshort : name.length < 123
  · rw [if_neg (by omega), if_pos hshort]
  · rw [if_pos (by omega), if_neg hshort]

/-- The path of a module names a child of `/bin`. -/
theorem addFileTarget_bin (hfound : vfsFinddir fs fs.root binName = some bin)
    (hname : slash ∉ name) :
    addFileTarget fs (slash :: (binName ++ slash :: name)) = .ok (some (bin, name)) := by
  rw [addFileTarget, stripSlash, if_pos rfl, splitLast_append hname]
  dsimp only
  rw [if_neg (by decide), hfound]
  rfl

/-- The path to a child of `/bin`. -/
theorem resolve_bin (hfound : vfsFinddir fs fs.root binName = some bin)
    (hname : slash ∉ name) (hne : name ≠ []) :
    fs.resolve fs.root (slash :: (binName ++ slash :: name)) = vfsFinddir fs bin name := by
  have hroot : fs.resolve fs.root (slash :: binName) = some bin := by
    have hbin : fs.resolve fs.root ([] ++ slash :: binName) = _ :=
      vfsResolvePath_eq_bind (by decide)
    rw [List.nil_append, vfsResolvePath_nil] at hbin
    rw [hbin]
    exact hfound
  rw [← List.cons_append, Kyrofs.resolve, vfsResolvePath_eq_bind hname, ← Kyrofs.resolve, hroot]
  exact if_neg hne

/-- A change of content changes no look-up. -/
theorem finddir_touch {fs' : Kyrofs} (h : fs.Touch fs') (n : Word) :
    vfsFinddir fs' n name = vfsFinddir fs n name := by
  have hchild : fs'.childNamed n name = fs.childNamed n name := by
    rw [Kyrofs.childNamed, Kyrofs.childNamed, h.children]
    apply List.find?_congr
    intro c hc
    rw [(h.same c).name]
  rw [vfsFinddir, vfsFinddir, if_congr (Kyrofs.isDirectory_congr (h.same n)) rfl rfl,
    kyrofsFinddir, kyrofsFinddir, (h.same n).parent, hchild]

end Paths

/-! ### One file -/

section Add

variable {fs fs' : Kyrofs} {bin n : Word} {name : CString} {bytes : List Byte}
  {files : List (CString × List Byte)} {file : CString × List Byte} {room : ModuleRoom}

/-- A new file is linked in front of the others, and is empty. -/
theorem kyrofsCreate_ok (hdir : fs.IsDirectory bin) (hshort : name.length < maxFilenameLen)
    (hnode : room.new.dirent ≠ 0) (hcontent : room.new.content ≠ 0)
    (hbuffer : room.new.buffer.isSome) : ∃ content buffer,
      kyrofsCreate fs room.new bin name = .ok (fs.link room.new.dirent
        ⟨name, vfsFile, 0, .content content, bin⟩, 0) ∧ content.capacity = 128 ∧
      Holds ⟨name, vfsFile, 0, .content content, bin⟩ [] content buffer := by
  obtain ⟨junk, hjunk⟩ := Option.isSome_iff_exists.mp hbuffer
  obtain ⟨content, hdef⟩ : ∃ content : FileContent,
    content = ⟨some ((List.range 128).map junk), 0, 128⟩ := ⟨_, rfl⟩
  have hptr : newPtr room.new vfsFile = .ok (.content content) := by
    rw [newPtr, if_pos (by decide), if_neg hcontent, hjunk, hdef]
  have hheld : ∃ content' buffer,
      Holds ⟨name, vfsFile, 0, .content content, bin⟩ [] content' buffer :=
    holds_init (show decide (vfsFile &&& vfsFile ≠ 0) = true by decide) rfl hptr
  obtain ⟨content', buffer, hholds⟩ := hheld
  obtain rfl : content = content' := Ptr.content.inj hholds.ptr
  refine ⟨content, buffer, ?_, by rw [hdef], hholds⟩
  rw [kyrofsCreate, kyrofsCreateNode, if_neg hnode, if_neg (Nat.not_le.mpr hshort), hptr]
  show (if _ then _ else _) = _
  rw [if_pos hdir.2]

/-- A write to an empty file stores the bytes. -/
theorem holds_written {node : Dirent} {content : FileContent} {buffer : List Byte}
    {block : Option (ℕ → Byte)} (h : Holds node [] content buffer)
    (hcapacity : content.capacity = 128) (hsmall : bytes.length < 2 ^ 31)
    (hblock : 128 < bytes.length → block.isSome) :
    ∃ node', kyrofsWrite node 0 bytes block = .ok (node', BitVec.ofNat 32 bytes.length) ∧
      ∃ content' buffer', Holds node' bytes content' buffer' := by
  have hsmall' : Small (0 : Word).toNat bytes.length := by
    show 0 + bytes.length < 2 ^ 31
    omega
  obtain ⟨node', content', buffer', hok, hholds⟩ := h.write hsmall' block (by
    rw [hcapacity]
    show 128 < 0 + bytes.length → _
    rwa [Nat.zero_add])
  rw [show (0 : Word).toNat = 0 from rfl, splice_of_le (Nat.zero_le _)] at hholds
  refine ⟨node', hok, content', buffer', ?_⟩
  simpa using hholds

/-- Old children of a directory are left alone by a new one. -/
theorem Loaded.node_child (h : Loaded fs bin files) {d : Dirent} {c m : Word}
    (hc : c ∉ fs.live) (hd : d.parent = bin) (hm : m ∈ fs.children bin) :
    (fs.link c d).node m = fs.node m := by
  obtain ⟨hlive, -, hparent⟩ := h.tree.child bin h.live m hm
  apply Kyrofs.link_node_of_ne
  · exact (Kyrofs.ne_of_notMem hc hlive).symm
  · -- `/bin` is a child of the root, and no child of its own
    rintro rfl
    rw [hd] at hparent
    exact h.ne_root (hparent.symm.trans h.parent)

/-- `kyrofs_add_file` puts the file in front of the others. -/
theorem Loaded.add (h : Loaded fs bin files) (hfits : ModuleFits fs.live file room)
    (hslash : slash ∉ file.1) : ∃ fs',
      kyrofsAddFile fs room.new (slash :: (binName ++ slash :: file.1)) file.2 room.block =
        .ok (fs', 0) ∧
      Loaded fs' bin (file :: files) ∧ fs'.live = insert room.new.dirent fs.live ∧
      ∀ names n, fs.At names n → fs'.At names n := by
  obtain ⟨name, bytes⟩ := file
  have hshort : name.length < maxFilenameLen := lt_trans hfits.short (by decide)
  obtain ⟨content, buffer, hcreate, hcapacity, hholds⟩ :=
    kyrofsCreate_ok h.directory hshort hfits.node hfits.content hfits.buffer
  obtain ⟨node', hwrite, content', buffer', hholds'⟩ :=
    holds_written hholds hcapacity hfits.small hfits.block
  obtain ⟨d, hd⟩ : ∃ d : Dirent, d = ⟨name, vfsFile, 0, .content content, bin⟩ := ⟨_, rfl⟩
  obtain ⟨c, hc⟩ : ∃ c, c = room.new.dirent := ⟨_, rfl⟩
  rw [← hd, ← hc] at hcreate
  rw [← hd] at hwrite
  have hfresh : c ∉ fs.live := hc ▸ hfits.fresh
  have hparent : d.parent = bin := by rw [hd]
  have hlinks : fs.Links c d :=
    ⟨h.tree, hfresh, by rw [hparent]; exact h.live, by rw [hparent]; exact h.directory⟩
  have hedit : fs.Edit (some (d.parent, d.name)) (fs.link c d) :=
    .link hfresh hlinks.parent hlinks.directory.2 (by rw [hd]; rfl)
  have hnew : (fs.link c d).node c = d := Kyrofs.link_node_new hlinks.ne
  have hfind : vfsFinddir (fs.link c d) bin name = some c := by
    have hnamed := hlinks.finddir_new (by
      rw [hd]
      exact ⟨hfits.named.1, hfits.named.2.1, hfits.named.2.2, hslash⟩)
    rwa [hd] at hnamed ⊢
  rw [← hnew] at hwrite
  have htouch : (fs.link c d).Touch ((fs.link c d).setNode c node') := kyrofsWrite_touch hwrite
  have hroot : vfsFinddir (fs.link c d) fs.root binName = some bin := by
    rw [hlinks.finddir_of_ne h.tree.root (.inr (.inr fun hand =>
      h.ne_root (hparent.symm.trans hand.1.symm)))]
    exact h.found
  refine ⟨(fs.link c d).setNode c node', ?_, ?_, ?_, ?_⟩
  · rw [kyrofsAddFile, addFileTarget_bin h.found hslash]
    show (kyrofsCreate fs room.new bin name >>= _) = _
    rw [hcreate]
    simp only [Outcome.ok_bind, hfind, hwrite]
  · refine ⟨(h.tree.edit hedit).touch htouch, ?_, ?_, ?_, h.ne_root, ?_, ?_⟩
    · rw [htouch.live]
      exact Finset.mem_insert_of_mem h.live
    · exact (Kyrofs.isDirectory_congr (htouch.same bin)).mpr
        ((Kyrofs.isDirectory_congr (hlinks.same h.live)).mpr h.directory)
    · exact ((htouch.same bin).parent.trans (hlinks.same h.live).parent).trans h.parent
    · rw [finddir_touch htouch]
      exact hroot
    · rw [htouch.children, Kyrofs.children_link hlinks.ne, if_pos hparent.symm]
      refine .cons ?_ ?_
      · refine ⟨?_, content', buffer', ?_⟩
        · rw [(htouch.same c).name, hnew, hd]
        · rw [Kyrofs.node_setNode, if_pos rfl]
          exact hholds'
      · have hold := (List.forall₂_and_left _ _).mpr ⟨fun m hm => hm, h.children⟩
        refine hold.imp fun m stored hand => ?_
        have hmc : m ≠ c :=
          (Kyrofs.ne_of_notMem hfresh (h.tree.child bin h.live m hand.1).1).symm
        rw [Stores, Kyrofs.node_setNode, if_neg hmc, h.node_child hfresh hparent hand.1]
        exact hand.2
  · rw [htouch.live, hc]
    rfl
  · intro names n hat
    exact (hat.edit h.tree hedit (by rintro ⟨⟩)).touch htouch

/-- The newest file of a name is the one that is found. -/
theorem find?_of_forall₂ {children : List Word} (h : List.Forall₂ (Stores fs) children files)
    (name : CString) :
    (∀ bytes, files.lookup name = some bytes →
      ∃ n, (children.find? fun c => (fs.node c).name = name) = some n ∧
        Stores fs n (name, bytes)) ∧
    (files.lookup name = none → (children.find? fun c => (fs.node c).name = name) = none) := by
  induction h with
  | nil => exact ⟨fun bytes hnone => (by cases hnone), fun _ => rfl⟩
  | @cons c file children files hstores hrest ih =>
    obtain ⟨fileName, fileBytes⟩ := file
    by_cases hname : name = fileName
    · subst hname
      have hc : decide ((fs.node c).name = name) = true := decide_eq_true hstores.1
      rw [List.find?_cons, hc, List.lookup_cons_self]
      exact ⟨fun bytes heq => ⟨c, rfl, Option.some.inj heq ▸ hstores⟩,
        fun hnone => (by cases hnone)⟩
    · have hc : decide ((fs.node c).name = name) = false :=
        decide_eq_false fun heq => hname (heq.symm.trans hstores.1)
      rw [List.find?_cons, hc, List.lookup_cons, beq_eq_false_iff_ne.mpr hname]
      exact ih

/-- What a path below `/bin` leads to. -/
theorem Loaded.resolve (h : Loaded fs bin files) (hproper : ProperName name) :
    (∀ bytes, files.lookup name = some bytes →
      ∃ n, fs.resolve fs.root (slash :: (binName ++ slash :: name)) = some n ∧
        ∀ (offset : Word) (size : BitVec 32), Small offset.toNat size.toNat →
          kyrofsRead (fs.node n) offset size =
            .ok ((bytes.drop offset.toNat).take size.toNat)) ∧
    (files.lookup name = none →
      fs.resolve fs.root (slash :: (binName ++ slash :: name)) = none) := by
  have hfind : fs.resolve fs.root (slash :: (binName ++ slash :: name)) =
      (fs.children bin).find? fun c => (fs.node c).name = name := by
    rw [resolve_bin h.found hproper.2.2.2 hproper.1, vfsFinddir, if_pos h.directory,
      kyrofsFinddir, if_neg hproper.2.1, if_neg hproper.2.2.1]
    rfl
  rw [hfind]
  obtain ⟨hsome, hnone⟩ := find?_of_forall₂ h.children name
  refine ⟨fun bytes hlookup => ?_, hnone⟩
  obtain ⟨n, hn, -, content, buffer, hholds⟩ := hsome bytes hlookup
  exact ⟨n, hn, fun offset size hsmall => hholds.read hsmall⟩

end Add

/-! ### The first tree -/

section Init

variable {fs fs' : Kyrofs} {root bin p : Word} {new : Fin 8 → NewNode} {k : ℕ} {i : Fin 8}
  {used : List CString} {name : CString} {flags : BitVec 32} {r : Int}

/-- A node is found under its name. -/
theorem name_of_finddir {n m : Word} (hfind : vfsFinddir fs n name = some m)
    (hdot : name ≠ cstring ['.']) (hdotdot : name ≠ cstring ['.', '.']) :
    (fs.node m).name = name := by
  rw [vfsFinddir] at hfind
  split_ifs at hfind with hdir
  rw [kyrofsFinddir, if_neg hdot, if_neg hdotdot] at hfind
  exact (Kyrofs.childNamed_eq_some hfind).2

/-- There is an empty `/bin`, under its name. -/
def LoadedBin (fs : Kyrofs) (bin : Word) : Prop :=
  Loaded fs bin [] ∧ (fs.node bin).name = binName

/-- What is found under another name is another node. -/
theorem LoadedBin.ne_of_finddir {n m : Word} (h : LoadedBin fs bin)
    (hfind : vfsFinddir fs n name = some m) (hdot : name ≠ cstring ['.'])
    (hdotdot : name ≠ cstring ['.', '.']) (hname : name ≠ binName) : bin ≠ m := by
  rintro rfl
  exact hname ((name_of_finddir hfind hdot hdotdot).symm.trans h.2)

theorem nodeOrFault_eq_ok {found : Option Word} {m : Word} (h : nodeOrFault found = .ok m) :
    found = some m := by
  cases found with
  | none => cases h
  | some n => exact congrArg some (Except.ok.inj h)

/-- The first node is `/bin`. -/
theorem Building.loadedBin (h : Building root new 0 used fs) (hbare : fs.root = root)
    (hroot : ∀ i, (new i).dirent ≠ root)
    (hok : kyrofsCreateNode fs (new 0) root binName vfsDirectory = .ok (fs', r)) :
    LoadedBin fs' (new 0).dirent := by
  subst hbare
  obtain ⟨ptr, hptr, hops, rfl, -⟩ := createNode_link hok
  have hfresh := h.unused 0 le_rfl
  have hrootdir := h.tree.rootDirectory
  rw [newPtr, if_neg (by decide)] at hptr
  obtain rfl := Except.ok.inj hptr
  obtain ⟨d, hd⟩ : ∃ d : Dirent, d = ⟨binName, vfsDirectory, 0, .dirents [], fs.root⟩ := ⟨_, rfl⟩
  have hparent : d.parent = fs.root := by rw [hd]
  have hlinks : fs.Links (new 0).dirent d :=
    ⟨h.tree, hfresh, hparent ▸ h.tree.root, hparent ▸ hrootdir⟩
  have hedit := (createNode_edit hok hfresh h.tree.root).1
  rw [← hd] at hedit ⊢
  have hnode : (fs.link (new 0).dirent d).node (new 0).dirent = d := Kyrofs.link_node_new hlinks.ne
  refine ⟨⟨h.tree.edit hedit, Finset.mem_insert_self _ _, ?_, ?_, hroot 0, ?_, ?_⟩, ?_⟩
  · rw [Kyrofs.IsDirectory, hnode, hd]
    exact ⟨show decide (vfsDirectory &&& vfsDirectory ≠ 0) = true by decide, rfl⟩
  · rw [hnode, hparent]
    rfl
  · have hproper : ProperName binName := ⟨by decide, by decide, by decide, by decide⟩
    have hfind := hlinks.finddir_new (by rw [hd]; exact hproper)
    rwa [hd] at hfind ⊢
  · rw [Kyrofs.children_link hlinks.ne, hparent, if_neg (hroot 0), if_pos rfl, hd]
    exact .nil
  · rw [hnode, hd]

/-- `/bin` stays as it is while other directories are filled. -/
theorem Building.loaded (h : Building root new k used fs) (hi : (i : ℕ) = k)
    (hbin : LoadedBin fs bin) (hp : fs.Attached p) (hne : bin ≠ p)
    (hname : name ≠ binName) (hok : kyrofsCreateNode fs (new i) p name flags = .ok (fs', r)) :
    LoadedBin fs' bin := by
  obtain ⟨hloaded, hbinName⟩ := hbin
  obtain ⟨ptr, hptr, hops, rfl, -⟩ := createNode_link hok
  have hlive := hp.live h.tree
  have hdir : fs.IsDirectory p :=
    ⟨h.directories (by have := i.isLt; omega) p hlive, hops⟩
  have hfresh := h.unused i hi.ge
  obtain ⟨d, hd⟩ : ∃ d : Dirent, d = ⟨name, flags, 0, ptr, p⟩ := ⟨_, rfl⟩
  have hparent : d.parent = p := by rw [hd]
  have hlinks : fs.Links (new i).dirent d := ⟨h.tree, hfresh, hparent ▸ hlive, hparent ▸ hdir⟩
  rw [← hd]
  have hsame := hlinks.same hloaded.live
  have hedit := (createNode_edit hok hfresh hlive).1
  rw [← hd] at hedit
  refine ⟨⟨h.tree.edit hedit, Finset.mem_insert_of_mem hloaded.live,
    (Kyrofs.isDirectory_congr hsame).mpr hloaded.directory, hsame.parent.trans hloaded.parent,
    hloaded.ne_root, ?_, ?_⟩, hsame.name.trans hbinName⟩
  · show vfsFinddir _ fs.root binName = _
    rw [hlinks.finddir_of_ne h.tree.root (.inr (.inr fun hand => hname (by
      rw [← hand.2, hd])))]
    exact hloaded.found
  · have hempty : fs.children bin = [] := List.forall₂_nil_right_iff.mp hloaded.children
    have hbinne : bin ≠ (new i).dirent := (Kyrofs.ne_of_notMem hfresh hloaded.live).symm
    rw [Kyrofs.children_link hlinks.ne, if_neg (hparent.symm ▸ hne), if_neg hbinne, hempty]
    exact .nil

/-- The first tree has a `/bin`, and nothing in it. -/
theorem kyrofsInit_loaded (hroot : ∀ i, (new i).dirent ≠ root)
    (hinj : Function.Injective fun i => (new i).dirent) (hok : kyrofsInit root new = .ok fs) :
    Loaded fs (new 0).dirent [] := by
  rw [kyrofsInit] at hok
  split_ifs at hok
  have h₀ := building_bareRoot hroot
  obtain ⟨⟨fs₁, r₁⟩, hok₁, hok⟩ := Outcome.bind_eq_ok.mp hok
  have h₁ := h₀.create rfl hinj h₀.attached_root (by decide) (fun _ => rfl) hok₁
  have hbin₁ := h₀.loadedBin rfl hroot hok₁
  obtain ⟨⟨fs₂, r₂⟩, hok₂, hok⟩ := Outcome.bind_eq_ok.mp hok
  have h₂ := h₁.create rfl hinj h₁.attached_root (by decide) (fun _ => rfl) hok₂
  have hbin₂ := h₁.loaded rfl hbin₁ h₁.attached_root (hroot 0) (by decide) hok₂
  obtain ⟨⟨fs₃, r₃⟩, hok₃, hok⟩ := Outcome.bind_eq_ok.mp hok
  have h₃ := h₂.create rfl hinj h₂.attached_root (by decide) (fun _ => rfl) hok₃
  have hbin₃ := h₂.loaded rfl hbin₂ h₂.attached_root (hroot 0) (by decide) hok₃
  obtain ⟨⟨fs₄, r₄⟩, hok₄, hok⟩ := Outcome.bind_eq_ok.mp hok
  have h₄ := h₃.create rfl hinj h₃.attached_root (by decide) (fun _ => rfl) hok₄
  have hbin₄ := h₃.loaded rfl hbin₃ h₃.attached_root (hroot 0) (by decide) hok₄
  obtain ⟨⟨fs₅, r₅⟩, hok₅, hok⟩ := Outcome.bind_eq_ok.mp hok
  have h₅ := h₄.create rfl hinj h₄.attached_root (by decide) (fun _ => rfl) hok₅
  have hbin₅ := h₄.loaded rfl hbin₄ h₄.attached_root (hroot 0) (by decide) hok₅
  -- `/var`, `/var/lib` and `/dev` are found under other names
  obtain ⟨varNode, hvar, hok⟩ := Outcome.bind_eq_ok.mp hok
  obtain ⟨⟨fs₆, r₆⟩, hok₆, hok⟩ := Outcome.bind_eq_ok.mp hok
  have hvar₅ := h₅.find h₅.attached_root hvar
  have h₆ := h₅.create rfl hinj hvar₅ (by decide) (fun _ => rfl) hok₆
  have hbin₆ := h₅.loaded rfl hbin₅ hvar₅
    (hbin₅.ne_of_finddir (nodeOrFault_eq_ok hvar) (by decide) (by decide) (by decide))
    (by decide) hok₆
  obtain ⟨libNode, hlib, hok⟩ := Outcome.bind_eq_ok.mp hok
  obtain ⟨⟨fs₇, r₇⟩, hok₇, hok⟩ := Outcome.bind_eq_ok.mp hok
  have hvar₆ : fs₆.Attached varNode :=
    hvar₅.edit h₅.tree (createNode_edit hok₆ (h₅.unused 5 le_rfl) (hvar₅.live h₅.tree)).1
  have hlib₆ := h₆.find hvar₆ hlib
  have h₇ := h₆.create rfl hinj hlib₆ (by decide) (fun _ => rfl) hok₇
  have hbin₇ := h₆.loaded rfl hbin₆ hlib₆
    (hbin₆.ne_of_finddir (nodeOrFault_eq_ok hlib) (by decide) (by decide) (by decide))
    (by decide) hok₇
  dsimp only at hok
  cases hdev : vfsFinddir fs₇ root (cstring ['d', 'e', 'v']) with
  | none =>
    rw [hdev] at hok
    obtain rfl := Except.ok.inj hok
    exact hbin₇.1
  | some devDir =>
    rw [hdev] at hok
    obtain ⟨⟨fs₈, r₈⟩, hok₈, hok⟩ := Outcome.bind_eq_ok.mp hok
    obtain rfl := Except.ok.inj hok
    have hdev₇ := h₇.attached_root.finddir h₇.tree hdev
    exact (h₇.loaded rfl hbin₇ hdev₇
      (hbin₇.ne_of_finddir hdev (by decide) (by decide) (by decide)) (by decide) hok₈).1

end Init

/-! ### All files -/

section Load

variable {fs fs' : Kyrofs} {bin : Word} {files : List (CString × List Byte)}
  {module : Option LimineFile} {file : CString × List Byte} {room : ModuleRoom}

/-- A module without a path is passed over. -/
theorem loadModule_none (hfile : moduleFile module = none) :
    loadModule fs module room = .ok fs := by
  cases module with
  | none => rfl
  | some m =>
    have hpath : m.path = none := Option.map_eq_none_iff.mp hfile
    rw [loadModule]
    dsimp only
    rw [hpath]

/-- A module is put in front of the files that are there. -/
theorem Loaded.loadModule (h : Loaded fs bin files) (hfile : moduleFile module = some file)
    (hfits : ModuleFits fs.live file room) : ∃ fs', loadModule fs module room = .ok fs' ∧
      Loaded fs' bin (file :: files) ∧ fs'.live = insert room.new.dirent fs.live ∧
      ∀ names n, fs.At names n → fs'.At names n := by
  obtain ⟨m, rfl, hnamed⟩ := Option.bind_eq_some_iff.mp hfile
  obtain ⟨path, hpath, rfl⟩ := Option.map_eq_some_iff.mp hnamed
  obtain ⟨fs', hadd, hloaded, hlive, hkept⟩ := h.add hfits (slash_notMem_moduleName path)
  refine ⟨fs', ?_, hloaded, hlive, hkept⟩
  have hsize : m.bytes.take (m.bytes.length % 2 ^ 32) = m.bytes := by
    have hsmall : m.bytes.length < 2 ^ 31 := hfits.small
    rw [Nat.mod_eq_of_lt (by omega), List.take_length]
  rw [Vfs.loadModule]
  dsimp only
  rw [hpath]
  dsimp only
  rw [modulePath_eq, if_pos hfits.short, hsize]
  show (kyrofsAddFile fs room.new _ m.bytes room.block >>= _) = _
  rw [hadd]
  rfl

/-- The modules are put in front one after the other. -/
theorem Loaded.load (h : Loaded fs bin files) (modules : List (Option LimineFile × ModuleRoom))
    (hfit : Fit fs.live modules) : ∃ fs', loadModules fs modules = .ok fs' ∧
      Loaded fs' bin ((moduleFiles modules).reverse ++ files) ∧
      ∀ names n, fs.At names n → fs'.At names n := by
  induction modules generalizing fs files with
  | nil => exact ⟨fs, rfl, h, fun _ _ hat => hat⟩
  | cons head rest ih =>
    obtain ⟨module, room⟩ := head
    rw [Fit] at hfit
    cases hfile : moduleFile module with
    | none =>
      rw [hfile] at hfit
      obtain ⟨fs', hload, hloaded, hkept⟩ := ih h hfit
      refine ⟨fs', ?_, ?_, hkept⟩
      · rw [loadModules, loadModule_none hfile]
        exact hload
      · simp only [moduleFiles, List.filterMap_cons, hfile]
        exact hloaded
    | some file =>
      rw [hfile] at hfit
      obtain ⟨fs₁, hload₁, hloaded₁, hlive, hkept₁⟩ := h.loadModule hfile hfit.1
      obtain ⟨fs', hload, hloaded, hkept⟩ := ih hloaded₁ (hlive ▸ hfit.2)
      refine ⟨fs', ?_, ?_, fun names n hat => hkept names n (hkept₁ names n hat)⟩
      · rw [loadModules, hload₁]
        exact hload
      · simp only [moduleFiles, List.filterMap_cons, hfile, List.reverse_cons, List.append_assoc]
        exact hloaded

end Load

/-- After boot a name below `/bin` leads to the last module of that name, with its bytes, or to
nothing where there is none, and everything else is where it was. -/
theorem loadModules_spec {root : Word} {new : Fin 8 → NewNode} {fs : Kyrofs}
    (hroot : ∀ i, (new i).dirent ≠ root) (hinj : Function.Injective fun i => (new i).dirent)
    (hinit : kyrofsInit root new = .ok fs) (modules : List (Option LimineFile × ModuleRoom))
    (hfit : Fit fs.live modules) :
    ∃ fs', loadModules fs modules = .ok fs' ∧
      (∀ name, ProperName name →
        (∀ bytes, (moduleFiles modules).reverse.lookup name = some bytes →
          ∃ n, fs'.resolve fs'.root (slash :: (binName ++ slash :: name)) = some n ∧
            ∀ (offset : Word) (size : BitVec 32), Small offset.toNat size.toNat →
              kyrofsRead (fs'.node n) offset size =
                .ok ((bytes.drop offset.toNat).take size.toNat)) ∧
        ((moduleFiles modules).reverse.lookup name = none →
          fs'.resolve fs'.root (slash :: (binName ++ slash :: name)) = none)) ∧
      ∀ names n, fs.At names n → fs'.At names n := by
  obtain ⟨fs', hload, hloaded, hkept⟩ := (kyrofsInit_loaded hroot hinj hinit).load modules hfit
  rw [List.append_nil] at hloaded
  exact ⟨fs', hload, fun name hproper => hloaded.resolve hproper, hkept⟩

/-- Two modules of one name, from different directories, and one that has no path. -/
def bootFiles : List (Option LimineFile × ModuleRoom) :=
  [(some ⟨some (cstring ['/', 'a', '/', 'x']), [1, 2]⟩, ⟨⟨0xB000, 1, some fun _ => 0⟩, none⟩),
    (some ⟨none, [3]⟩, ⟨⟨0, 0, none⟩, none⟩),
    (some ⟨some (cstring ['x']), [4, 5, 6]⟩, ⟨⟨0xC000, 1, some fun _ => 0⟩, none⟩)]

theorem loadModules_spec_bootFiles : ∃ fs', loadModules smallTree bootFiles = .ok fs' ∧
    ∃ n, fs'.resolve fs'.root (cstring ['/', 'b', 'i', 'n', '/', 'x']) = some n ∧
      kyrofsRead (fs'.node n) 1 10 = .ok [5, 6] := by
  have hroot : ∀ i : Fin 8, (smallNode i).dirent ≠ 0x1000 := by decide
  have hinj : Function.Injective fun i : Fin 8 => (smallNode i).dirent := by decide
  have hinit : kyrofsInit 0x1000 (fun i => smallNode i) = .ok smallTree := eq_ok_getD (by decide)
  have hfit : Fit smallTree.live bootFiles :=
    ⟨⟨⟨by decide, by decide, by decide⟩, by decide, by decide, by decide, by decide, by decide,
      rfl, by decide⟩, ⟨⟨by decide, by decide, by decide⟩, by decide, by decide, by decide,
      by decide, by decide, rfl, by decide⟩, trivial⟩
  obtain ⟨fs', hload, hnames, -⟩ := loadModules_spec hroot hinj hinit bootFiles hfit
  obtain ⟨n, hn, hread⟩ := (hnames (cstring ['x'])
    ⟨by decide, by decide, by decide, by decide⟩).1 [4, 5, 6] (by decide)
  exact ⟨fs', hload, n, hn, hread 1 10 (by decide)⟩

end KyroOS.Vfs
