import KyroOS.Coreutils.Opened

/-!
# The bytes that `mv` moves

`move_recursive` truncates its destination before it reads the source, takes a write that stores
less than its block for a success, and removes the source in the end. When it returns 0, the
destination holds what the source held only if it is another regular file and every write has
stored its block.

## Main definitions

* `HoldsData` — a path leads to a regular file with the given bytes
* `KeepsData` — what `mv` needs to keep the bytes of its source

## Main results

* `copyFile_eq_ok` — what a copy that returns 0 has done
* `holdsData_iff` — the bytes are at the destination exactly when `KeepsData` holds
* `not_holdsData` — a file that is moved to itself is gone
-/

namespace KyroOS.Coreutils

open Vfs Packages

/-- The path leads to a regular file with the given bytes. -/
def HoldsData (fs : Kyrofs) (path : CString) (text : List Byte) : Prop :=
  ∃ m, fs.resolve fs.root (copyPath path) = some m ∧ RegularFile fs m ∧ (fs.node m).text = text

/-- The destination leads nowhere or to another regular file, and the writes store their blocks; or
it leads to the source `n`, and the bytes are there as well once the source is truncated and
removed. A source whose path ends with a slash is not removed. -/
def KeepsData (sh : Shell) (src dest : CString) (n : Word) : Prop :=
  let fs := sh.files.fs
  let text := (fs.node n).text
  match fs.resolve fs.root (copyPath dest) with
  | none => WritesAll sh.writes text.length
  | some m =>
    if m = n then
      if (copyPath src).getLast? = some slash then text = []
      else HoldsData (fs.unlink (fs.node n).parent n) dest text
    else RegularFile fs m ∧ WritesAll sh.writes text.length

section Move

variable {t : Word} {turns : ℕ} {sh sh' : Shell} {src dest path : CString} {n m p : Word}
  {fs fs' fs₁ : Kyrofs} {text : List Byte} {res : Int}

/-! ### A copy -/

theorem sIsreg_regular (hfile : RegularFile fs n) : sIsreg (kyrofsStat (fs.node n)).stMode := by
  simp only [kyrofsStat, Dirent.has, hfile.flags]
  decide

/-- What a copy that returns 0 has done: it has opened its files, and the loop has ended. -/
theorem copyFile_eq_ok (htree : sh.files.fs.Tree) (hnew : (sh.nodes 1).dirent ∉ sh.files.fs.live)
    (hsrc : sh.files.fs.resolve sh.files.fs.root (copyPath src) = some n)
    (hok : copyFile (kernel t) t turns sh src dest = .ok (sh', 0)) :
    ∃ (m : Word) (i j : Fin maxFiles) (sh₁ sh₂ : Shell), Opened sh.files.fs sh₁.files.fs dest m ∧ i ≠ j ∧
      sh₁.files.fds t i = some ⟨n, 0, oRdonly⟩ ∧
      sh₁.files.fds t j = some ⟨m, 0, oCreat ||| oTrunc ||| oWronly⟩ ∧
      sh₁.writes = sh.writes ∧
      copyBytes (kernel t) t (BitVec.ofNat 32 (i : ℕ)) (BitVec.ofNat 32 (j : ℕ)) turns sh₁ =
        .ok (sh₂, 0) ∧ sh'.files.fs = sh₂.files.fs := by
  obtain ⟨⟨sh₀, srcFd⟩, hopen, hok₀⟩ := Outcome.bind_eq_ok.mp hok
  dsimp only at hok₀
  obtain ⟨hwrites, res, hsys, hcases⟩ := open_cases hopen
  obtain ⟨hfs, hres⟩ := sysOpen_rdonly hsrc hsys
  rcases hcases with ⟨hneg, -⟩ | ⟨i, n', offset, hres', hfree, rfl, hoffset, hfiles⟩
  · rw [if_pos hneg] at hok₀
    cases Prod.mk.inj (Except.ok.inj hok₀)
    contradiction
  obtain rfl := Option.some.inj (hres.symm.trans hres')
  obtain rfl := hoffset (by decide)
  rw [if_neg (not_fd_neg i)] at hok₀
  obtain ⟨⟨sh₁, destFd⟩, hopen', hok₁⟩ := Outcome.bind_eq_ok.mp hok₀
  dsimp only at hok₁
  obtain ⟨hwrites', res', hsys', hcases'⟩ := open_cases hopen'
  rcases hcases' with ⟨hneg, -⟩ | ⟨j, m, offset', rfl, hfree', rfl, hoffset', hfiles'⟩
  · rw [if_pos hneg] at hok₁
    cases Prod.mk.inj (Except.ok.inj hok₁)
    contradiction
  rw [if_neg (not_fd_neg j)] at hok₁
  obtain ⟨⟨sh₂, res⟩, hcopy, hret⟩ := Outcome.bind_eq_ok.mp hok₁
  obtain ⟨hsh, rfl⟩ := Prod.mk.inj (Except.ok.inj hret)
  obtain rfl := hoffset' (by decide)
  have hfs' : sh₀.files.fs = sh.files.fs := hfs
  have hnodes : sh₀.nodes 0 = sh.nodes 1 := by
    rw [open_nodes hopen]
  rw [hfs', hnodes] at hsys'
  have hne : i ≠ j := by
    rintro rfl
    rw [hfiles, setEntry_self] at hfree'
    cases hfree'
  refine ⟨m, i, j, sh₁, sh₂, opened_of_sysOpen htree hnew (by decide) (by decide) hsys', hne, ?_,
    ?_, hwrites'.trans hwrites, hcopy, ?_⟩
  · rw [hfiles', setEntry_of_ne hne]
    show sh₀.files.fds t i = _
    rw [hfiles]
    exact setEntry_self ..
  · rw [hfiles']
    exact setEntry_self ..
  · rw [← hsh, close_files, FdState.setEntry, close_files]
    rfl

/-- What is at the destination after a copy that returns 0. -/
theorem copyFile_text (htree : sh.files.fs.Tree) (hnew : (sh.nodes 1).dirent ∉ sh.files.fs.live)
    (hsrc : sh.files.fs.resolve sh.files.fs.root (copyPath src) = some n)
    (hfile : RegularFile sh.files.fs n)
    (hok : copyFile (kernel t) t turns sh src dest = .ok (sh', 0)) :
    ∃ (m : Word) (fs₁ : Kyrofs), Opened sh.files.fs fs₁ dest m ∧ fs₁.Touch sh'.files.fs ∧
      (m = n → sh'.files.fs = fs₁) ∧
      (m ≠ n → RegularFile fs₁ m →
        ((sh'.files.fs.node m).text = (sh.files.fs.node n).text ↔
          WritesAll sh.writes (sh.files.fs.node n).text.length)) := by
  obtain ⟨m, i, j, sh₁, sh₂, hopened, hij, hi, hj, hwrites, hcopy, hfs⟩ :=
    copyFile_eq_ok htree hnew hsrc hok
  have hlive := (Kyrofs.attached_of_resolve htree hsrc).live htree
  rw [hfs]
  refine ⟨m, sh₁.files.fs, hopened, (copyBytes_frame hi hj dest_not_append hij hcopy).1, ?_, ?_⟩
  · rintro rfl
    refine copyBytes_of_empty hi rfl (hopened.stores ?_) hcopy
    rcases hopened.found with ⟨-, htouch⟩ | ⟨-, hnot, -⟩
    · exact hfile.same (htouch.same _)
    · exact absurd hlive hnot
  · intro hne hregular
    have hnode := hopened.node n hlive hne.symm hfile.ops
    have hcopying : Copying t i j n m sh₁ [] (sh.files.fs.node n).text := by
      refine ⟨⟨0, oRdonly, hi, Nat.zero_le _, ?_⟩, ⟨0, _, hj, dest_not_append, rfl⟩, ?_,
        hopened.stores hregular, ?_, hij, hne.symm⟩
      · rw [hnode]
        rfl
      · rw [hnode]
        exact hfile.ops
      · rw [List.length_nil, Nat.zero_add]
        exact text_length_lt _
    obtain ⟨more, hstores, -, hall⟩ := copyBytes_text hcopying hcopy
    rw [List.nil_append] at hstores
    rw [hstores.text_eq, hall, hwrites]

/-! ### The removal of the source -/

/-- The removal of the same file from trees that differ in the content of files. -/
theorem touch_unlink (h : fs.Touch fs') (hn : n ∈ fs.children p) :
    (fs.unlink p n).Touch (fs'.unlink p n) where
  root := h.root
  live := by
    show fs'.live.erase n = fs.live.erase n
    rw [h.live]
  same a := by
    have hn' : n ∈ fs'.children p := (h.children p).symm ▸ hn
    have hbefore := Kyrofs.unlink_same (m := a) (c := n) (Kyrofs.hasDirectoryOps_of_mem hn)
    have hafter := Kyrofs.unlink_same (m := a) (c := n) (Kyrofs.hasDirectoryOps_of_mem hn')
    exact ⟨hafter.name.trans ((h.same a).name.trans hbefore.name.symm),
      hafter.flags.trans ((h.same a).flags.trans hbefore.flags.symm),
      hafter.parent.trans ((h.same a).parent.trans hbefore.parent.symm),
      hafter.ops.trans ((h.same a).ops.trans hbefore.ops.symm)⟩
  children a := by
    rw [Kyrofs.children_unlink, Kyrofs.children_unlink, h.children]

/-- The removal of a file leaves the others as they are. -/
theorem regularFile_unlink (hn : n ∈ fs.children p) :
    RegularFile (fs.unlink p n) m ↔ RegularFile fs m := by
  have hsame := Kyrofs.unlink_same (m := m) (c := n) (Kyrofs.hasDirectoryOps_of_mem hn)
  exact ⟨fun h => ⟨hsame.flags ▸ h.flags, hsame.ops ▸ h.ops⟩, fun h => h.same hsame⟩

theorem text_unlink (hn : n ∈ fs.children p) (hops : ¬ (fs.node m).hasDirectoryOps) :
    ((fs.unlink p n).node m).text = (fs.node m).text := by
  have hne : m ≠ p := by
    rintro rfl
    exact hops (Kyrofs.hasDirectoryOps_of_mem hn)
  rw [Kyrofs.unlink_node, if_neg hne]

theorem regularFile_touch (h : fs.Touch fs') : RegularFile fs' m ↔ RegularFile fs m :=
  ⟨fun hfile => ⟨(h.same m).flags ▸ hfile.flags, (h.same m).ops ▸ hfile.ops⟩,
    fun hfile => hfile.same (h.same m)⟩

/-- What a path leads to, where it is known. -/
theorem holdsData_of_resolve (hpath : fs.resolve fs.root (copyPath path) = some m) :
    HoldsData fs path text ↔ RegularFile fs m ∧ (fs.node m).text = text := by
  constructor
  · rintro ⟨m', hm', hholds⟩
    obtain rfl := Option.some.inj (hpath.symm.trans hm')
    exact hholds
  · exact fun hholds => ⟨m, hpath, hholds⟩

/-- Files that are left by a removal hold what they held, and the change of the content of the
file that is removed is not seen. -/
theorem holdsData_touch_unlink (htree : fs.Tree) (hn : n ∈ fs.children p) (hp : p ∈ fs.live)
    (h : fs.Touch fs')
    (hnode : ∀ x ∈ fs.live, x ≠ n → ¬ (fs.node x).hasDirectoryOps → fs'.node x = fs.node x) :
    HoldsData (fs'.unlink p n) path text ↔ HoldsData (fs.unlink p n) path text := by
  have hn' : n ∈ fs'.children p := (h.children p).symm ▸ hn
  have htouch := touch_unlink h hn
  have hpath : (fs'.unlink p n).resolve (fs'.unlink p n).root (copyPath path) =
      (fs.unlink p n).resolve (fs.unlink p n).root (copyPath path) := resolve_touch htouch
  cases hresolve : (fs.unlink p n).resolve (fs.unlink p n).root (copyPath path) with
  | none =>
    rw [hresolve] at hpath
    constructor
    · rintro ⟨m, hm, -⟩
      cases hm.symm.trans hpath
    · rintro ⟨m, hm, -⟩
      cases hm.symm.trans hresolve
  | some x =>
    rw [hresolve] at hpath
    rw [holdsData_of_resolve hpath, holdsData_of_resolve hresolve, regularFile_touch htouch]
    refine and_congr_right fun hregular => ?_
    have hfile := (regularFile_unlink hn).mp hregular
    -- the file that is found is not the one that is removed
    have hlive := (Kyrofs.attached_of_resolve (htree.edit (.unlink hp hn)) hresolve).live
      (htree.edit (.unlink hp hn))
    obtain ⟨hne, hlive'⟩ := Finset.mem_erase.mp hlive
    rw [text_unlink hn hfile.ops, text_unlink hn' (hfile.same (h.same x)).ops,
      hnode x hlive' hne hfile.ops]

/-! ### The whole call -/

/-- A move of a file that returns 0 is a copy that returns 0 and a removal. -/
theorem moveRecursive_eq_ok
    (hsrc : sh.files.fs.resolve sh.files.fs.root (copyPath src) = some n)
    (hfile : RegularFile sh.files.fs n)
    (hok : moveRecursive (kernel t) t turns sh src dest = .ok (sh', 0)) :
    ∃ turns sh₁ res, copyFile (kernel t) t turns sh src dest = .ok (sh₁, 0) ∧
      sysUnlink sh₁.files.fs src = .ok (sh'.files.fs, res) := by
  cases turns with
  | zero => cases hok
  | succ turns =>
    have hstat : stat sh.files.fs src = some (kyrofsStat (sh.files.fs.node n)) := by
      rw [stat, hsrc]
      rfl
    rw [moveRecursive, hstat] at hok
    dsimp only at hok
    rw [if_pos (sIsreg_regular hfile)] at hok
    obtain ⟨⟨sh₁, res⟩, hcopy, hmove⟩ := Outcome.bind_eq_ok.mp hok
    dsimp only at hmove
    split_ifs at hmove with hres
    · cases Prod.mk.inj (Except.ok.inj hmove)
      contradiction
    · obtain rfl := not_not.mp hres
      obtain ⟨⟨sh₂, res'⟩, hunlink, hret⟩ := Outcome.bind_eq_ok.mp hmove
      obtain ⟨rfl, -⟩ := Prod.mk.inj (Except.ok.inj hret)
      obtain ⟨⟨fs, res''⟩, hsys, hret'⟩ := Outcome.bind_eq_ok.mp hunlink
      obtain ⟨rfl, rfl⟩ := Prod.mk.inj (Except.ok.inj hret')
      exact ⟨turns, sh₁, res'', hcopy, hsys⟩

/-- A file that is not the source holds what it held when the source is removed. -/
theorem holdsData_of_other (htree : fs.Tree) (hsrc : fs.resolve fs.root (copyPath src) = some n)
    (hfile : RegularFile fs n) (hdest : fs.resolve fs.root (copyPath dest) = some m) (hne : m ≠ n)
    (hunlink : sysUnlink fs src = .ok (fs', res)) :
    HoldsData fs' dest text ↔ RegularFile fs m ∧ (fs.node m).text = text := by
  rcases sysUnlink_regular htree hsrc hfile with ⟨-, heq⟩ | ⟨-, hmem, heq⟩
  · obtain ⟨rfl, -⟩ := Prod.mk.inj (Except.ok.inj (heq.symm.trans hunlink))
    exact holdsData_of_resolve hdest
  · obtain ⟨rfl, -⟩ := Prod.mk.inj (Except.ok.inj (heq.symm.trans hunlink))
    rw [holdsData_of_resolve (resolve_unlink hmem hfile.ops hdest hne), regularFile_unlink hmem]
    refine and_congr_right fun hregular => ?_
    rw [text_unlink hmem hregular.ops]

/-- What is left at the destination when it is the source, which has been truncated. -/
theorem holdsData_of_source (htree : fs.Tree) (hsrc : fs.resolve fs.root (copyPath src) = some n)
    (hfile : RegularFile fs n) (hdest : fs.resolve fs.root (copyPath dest) = some n)
    (htouch : fs.Touch fs₁)
    (hnode : ∀ x ∈ fs.live, x ≠ n → ¬ (fs.node x).hasDirectoryOps → fs₁.node x = fs.node x)
    (hempty : (fs₁.node n).text = []) (hunlink : sysUnlink fs₁ src = .ok (fs', res)) :
    HoldsData fs' dest text ↔
      if (copyPath src).getLast? = some slash then text = []
      else HoldsData (fs.unlink (fs.node n).parent n) dest text := by
  have hsrc₁ := (resolve_touch htouch).trans hsrc
  have hfile₁ := (regularFile_touch htouch).mpr hfile
  rcases sysUnlink_regular (htree.touch htouch) hsrc₁ hfile₁ with ⟨hend, heq⟩ | ⟨hend, hmem, heq⟩
  · obtain ⟨rfl, -⟩ := Prod.mk.inj (Except.ok.inj (heq.symm.trans hunlink))
    rw [if_pos hend, holdsData_of_resolve ((resolve_touch htouch).trans hdest), hempty]
    exact ⟨fun hholds => hholds.2.symm, fun htext => ⟨hfile₁, htext.symm⟩⟩
  · obtain ⟨rfl, -⟩ := Prod.mk.inj (Except.ok.inj (heq.symm.trans hunlink))
    have hparent := (htouch.same n).parent
    rw [hparent, htouch.children] at hmem
    rw [if_neg hend, hparent]
    have hlive := ((Kyrofs.attached_of_resolve htree hsrc).parent htree).live htree
    exact holdsData_touch_unlink htree hmem hlive htouch hnode

/-- When a move of a file returns 0, its bytes are at the destination exactly when that is another
regular file, or none yet, and every write has stored its block, or when it is the source itself
and its bytes are found there once it is truncated and removed. -/
theorem holdsData_iff (htree : sh.files.fs.Tree)
    (hnew : (sh.nodes 1).dirent ∉ sh.files.fs.live)
    (hsrc : sh.files.fs.resolve sh.files.fs.root (copyPath src) = some n)
    (hfile : RegularFile sh.files.fs n)
    (hok : moveRecursive (kernel t) t turns sh src dest = .ok (sh', 0)) :
    HoldsData sh'.files.fs dest (sh.files.fs.node n).text ↔ KeepsData sh src dest n := by
  obtain ⟨turns, sh₁, res, hcopy, hunlink⟩ := moveRecursive_eq_ok hsrc hfile hok
  obtain ⟨m, fs₁, hopened, htouch, hsame, htext⟩ := copyFile_text htree hnew hsrc hfile hcopy
  have hlive := (Kyrofs.attached_of_resolve htree hsrc).live htree
  have htree₁ := hopened.tree.touch htouch
  have hsrc₁ := (resolve_touch htouch).trans (hopened.keeps _ _ hsrc)
  have hdest₁ := (resolve_touch htouch).trans hopened.resolve
  by_cases hmn : m = n
  · obtain rfl := hmn
    rcases hopened.found with ⟨hdest, hfirst⟩ | ⟨-, hnot, -⟩
    · rw [hsame rfl] at hunlink
      have hempty := (hopened.stores ((regularFile_touch hfirst).mpr hfile)).text_eq
      rw [holdsData_of_source htree hsrc hfile hdest hfirst hopened.node hempty hunlink, KeepsData]
      simp only [hdest, if_true]
    · exact absurd hlive hnot
  · have hfile₁ : RegularFile fs₁ n := by
      have hnode := hopened.node n hlive (Ne.symm hmn) hfile.ops
      exact ⟨hnode ▸ hfile.flags, hnode ▸ hfile.ops⟩
    rw [holdsData_of_other htree₁ hsrc₁ ((regularFile_touch htouch).mpr hfile₁) hdest₁ hmn hunlink,
      regularFile_touch htouch, and_congr_right (htext hmn), KeepsData]
    rcases hopened.found with ⟨hdest, hfirst⟩ | ⟨hdest, -, hregular⟩
    · simp only [hdest, if_neg hmn, regularFile_touch hfirst]
    · simp only [hdest, hregular, true_and]

end Move

/-! ### Moves of a small file -/

section Small

/-- The file `/f` with a text, in the tree of `kyrofs_init`. -/
def fileNode (text : List Byte) : Dirent :=
  ⟨cstring ['f'], vfsFile, BitVec.ofNat 32 text.length,
    .content ⟨some text, BitVec.ofNat 32 text.length, BitVec.ofNat 32 text.length⟩, 0x1000⟩

/-- A shell in that tree whose writes store their blocks. -/
def fileShell (text : List Byte) : Shell where
  files := ⟨smallTree.link 0xA000 (fileNode text), {1}, fun _ _ => none⟩
  nodes := fun k => ⟨BitVec.ofNat 64 (0x1000 * (k + 11)), 1, some fun _ => 0⟩
  writes := fun _ => ⟨some 1024, some fun _ => 0⟩
  keys := fun _ => 0

theorem fileShell_tree (text : List Byte) : (fileShell text).files.fs.Tree := by
  have hnew : (0xA000 : Word) ∉ smallTree.live := by decide
  have hparent : (0x1000 : Word) ∈ smallTree.live := by decide
  have hops : (smallTree.node 0x1000).hasDirectoryOps := by decide
  exact smallTree_tree.edit (.link (d := fileNode text) hnew hparent hops rfl)

/-- A file of 130 bytes is moved to a new name. -/
theorem holdsData_moved : ∃ sh', moveRecursive (kernel 1) 1 3 (fileShell (List.replicate 130 7))
      (cstring ['/', 'f']) (cstring ['/', 'g']) = .ok (sh', 0) ∧
    HoldsData sh'.files.fs (cstring ['/', 'g']) (List.replicate 130 7) := by
  obtain ⟨⟨sh', res⟩, hok, hres⟩ := Option.map_eq_some_iff.mp
    (show ((moveRecursive (kernel 1) 1 3 (fileShell (List.replicate 130 7)) (cstring ['/', 'f'])
      (cstring ['/', 'g'])).toOption.map Prod.snd) = some 0 by decide +kernel)
  obtain rfl : res = 0 := hres
  have hok := Outcome.toOption_eq_some.mp hok
  have hkeeps : KeepsData (fileShell (List.replicate 130 7)) (cstring ['/', 'f'])
      (cstring ['/', 'g']) 0xA000 := by
    have hdest : (fileShell (List.replicate 130 7)).files.fs.resolve
        (fileShell (List.replicate 130 7)).files.fs.root (copyPath (cstring ['/', 'g'])) = none := by
      decide +kernel
    simp only [KeepsData, hdest]
    intro k _
    exact ⟨1024, rfl, Nat.min_le_left _ _⟩
  have hholds := (holdsData_iff (n := 0xA000) (fileShell_tree _) (by decide +kernel)
    (by decide +kernel) ⟨by decide +kernel, by decide +kernel⟩ hok).mpr hkeeps
  have htext : ((fileShell (List.replicate 130 7)).files.fs.node 0xA000).text =
      List.replicate 130 7 := by
    decide +kernel
  rw [htext] at hholds
  exact ⟨sh', hok, hholds⟩

/-- A file that is moved to itself is gone. -/
theorem not_holdsData : ¬ ∀ (t : Word) (turns : ℕ) (sh sh' : Shell) (src dest : CString) (n : Word),
    sh.files.fs.Tree → (sh.nodes 1).dirent ∉ sh.files.fs.live →
    sh.files.fs.resolve sh.files.fs.root (copyPath src) = some n → RegularFile sh.files.fs n →
    moveRecursive (kernel t) t turns sh src dest = .ok (sh', 0) →
    HoldsData sh'.files.fs dest (sh.files.fs.node n).text := by
  intro hall
  obtain ⟨⟨sh', res⟩, hok, hres⟩ := Option.map_eq_some_iff.mp
    (show ((moveRecursive (kernel 1) 1 3 (fileShell [5]) (cstring ['/', 'f'])
      (cstring ['/', 'f'])).toOption.map fun r =>
        (r.2, r.1.files.fs.resolve r.1.files.fs.root (copyPath (cstring ['/', 'f'])))) =
      some (0, none) by decide +kernel)
  obtain ⟨rfl, hgone⟩ := Prod.mk.inj hres
  obtain ⟨m, hm, -⟩ := hall 1 3 (fileShell [5]) sh' (cstring ['/', 'f']) (cstring ['/', 'f']) 0xA000
    (fileShell_tree _) (by decide +kernel) (by decide +kernel)
    ⟨by decide +kernel, by decide +kernel⟩ (Outcome.toOption_eq_some.mp hok)
  cases hm.symm.trans hgone

end Small

end KyroOS.Coreutils
