import KyroOS.Coreutils.FileText

/-!
# Copies that come to an end

`copy_recursive` goes down at most as far as there are descriptors, and copies a file block by
block. Its loop over a directory counts up an index into a list that new entries are put in front
of, so it comes to an end if the directories that are open stay as they are.

## Main definitions

* `Terminates` — the call comes back
* `Keeps` — the directories that a thread has open stay as they are
* `watched` — the calls, stopped where they change such a directory or read from a terminal
* `Calm` — nothing stops the watched calls

## Main results

* `copyRecursive_kept` — what a watched copy leaves
* `ends_copyRecursive` — a watched copy does not go on for ever
* `terminates_of_calm` — a calm copy comes back
-/

namespace KyroOS.Coreutils

open Vfs Packages Fuel

/-- The call comes back. -/
def Terminates (t : Word) (sh : Shell) (src dest : CString) : Prop :=
  ∃ turns res, copyRecursive (kernel t) t turns sh src dest = .ok res

/-- The nodes that a thread has open. -/
def openNodes (t : Word) (s : FdState) : List Word :=
  (List.finRange maxFiles).filterMap fun i => (s.fds t i).map FdEntry.node

/-- The directories that the thread has open stay as they are. -/
def Keeps (t : Word) (s s' : FdState) : Prop :=
  ∀ n ∈ openNodes t s, s'.fs.children n = s.fs.children n

-- over the list, not over every word
instance (t : Word) (s s' : FdState) : Decidable (Keeps t s s') :=
  List.decidableBAll (fun n => s'.fs.children n = s.fs.children n) (openNodes t s)

/-- The descriptor is a terminal. -/
def isTerminal (t : Word) (s : FdState) (fd : BitVec 32) : Bool :=
  ((fdIndex fd).bind (s.fds t)).any fun entry =>
    (s.fs.node entry.node).hasDirectoryOps ∧ (s.fs.node entry.node).has vfsChardevice

/-- A call that is stopped when it changes a directory that is open. -/
def watch {α : Type} (t : Word) (sh : Shell) (call : Outcome (Shell × α)) :
    Outcome (Shell × α) := do
  let (sh', a) ← call
  if Keeps t sh.files sh'.files then .ok (sh', a) else .error (.panic "an open directory changes")

/-- The calls of a thread, stopped where they change a directory that it has open, or read from a
terminal. -/
def watched (t : Word) : Calls where
  mkdir sh path := watch t sh (sh.mkdir path)
  openFile sh path flags := watch t sh (sh.openFile t path flags)
  read sh fd := if isTerminal t sh.files fd then .error (.panic "a terminal is read")
    else sh.read t fd

/-- Nothing stops the watched calls of a copy. -/
def Calm (t : Word) (sh : Shell) (src dest : CString) : Prop :=
  ∀ turns halt, copyRecursive (watched t) t turns sh src dest = .error halt → halt = .outOfFuel

/-! ### No call loops -/

section Calls

variable {fs : Kyrofs} {sh : Shell} {t n p : Word} {new : NewNode} {path name : CString}
  {flags fd : BitVec 32} {node : Dirent} {data : List Byte} {block : Option (ℕ → Byte)}

theorem ok_ne {α : Type} (a : α) : (.ok a : Outcome α) ≠ .error .outOfFuel := nofun

theorem fault_ne {α : Type} : (.error .fault : Outcome α) ≠ .error .outOfFuel := nofun

theorem copyOut_ne (bytes : List Byte) (offset size : ℕ) :
    copyOut bytes offset size ≠ .error .outOfFuel := by
  rw [copyOut]
  split_ifs
  · exact ok_ne _
  · exact fault_ne

theorem copyIn_ne (content : Option (List Byte)) (offset : ℕ) (data : List Byte) :
    copyIn content offset data ≠ .error .outOfFuel := by
  rcases copyIn_cases content offset data with ⟨content', hok, -⟩ | ⟨hfault, -⟩
  · rw [hok]
    exact ok_ne _
  · rw [hfault]
    exact fault_ne

theorem kyrofsOpen_ne : kyrofsOpen node flags ≠ .error .outOfFuel := by
  rw [kyrofsOpen]
  split_ifs
  · cases node.ptr with
    | content file => exact ok_ne _
    | dirents children => exact fault_ne
  · exact ok_ne _

theorem kyrofsRead_ne {offset : Word} {size : BitVec 32} :
    kyrofsRead node offset size ≠ .error .outOfFuel := by
  rw [kyrofsRead]
  cases node.ptr with
  | dirents children => exact fault_ne
  | content file =>
    dsimp only
    cases file.content with
    | none => exact ok_ne _
    | some bytes =>
      dsimp only
      split_ifs
      · exact ok_ne _
      · exact copyOut_ne _ _ _
      · exact copyOut_ne _ _ _

theorem reserve_ne {file : FileContent} {stop : Word} :
    file.reserve stop block ≠ .error .outOfFuel := by
  rw [FileContent.reserve]
  split_ifs
  · cases block with
    | none => rintro ⟨⟩
    | some junk =>
      rw [FileContent.grow]
      cases file.content with
      | none => exact ok_ne _
      | some bytes =>
        exact bind_ne (copyOut_ne _ _ _) fun _ => bind_ne (copyIn_ne _ _ _) fun _ => ok_ne _
  · exact ok_ne _

theorem kyrofsWrite_ne {offset : Word} : kyrofsWrite node offset data block ≠ .error .outOfFuel := by
  rw [kyrofsWrite]
  cases node.ptr with
  | dirents children => exact fault_ne
  | content file => exact bind_ne reserve_ne fun _ => bind_ne (copyIn_ne _ _ _) fun _ => ok_ne _

theorem newPtr_ne : newPtr new flags ≠ .error .outOfFuel := by
  rw [newPtr]
  split_ifs
  · rintro ⟨⟩
  · cases new.buffer with
    | none => rintro ⟨⟩
    | some junk => exact ok_ne _
  · exact ok_ne _

theorem kyrofsCreateNode_ne : kyrofsCreateNode fs new p name flags ≠ .error .outOfFuel := by
  rw [kyrofsCreateNode]
  split_ifs
  · rintro ⟨⟩
  · exact fault_ne
  · refine bind_ne newPtr_ne fun ptr => ?_
    exact ok_ne _
  · refine bind_ne newPtr_ne fun ptr => ?_
    exact fault_ne

theorem callInParent_ne {root : Word} {op : Word → CString → Outcome (Kyrofs × Int)}
    (hop : ∀ p name, op p name ≠ .error .outOfFuel) :
    fs.callInParent root path op ≠ .error .outOfFuel := by
  rw [Kyrofs.callInParent]
  cases vfsParent (vfsFinddir fs) (fun n => (fs.node n).has vfsDirectory) root path with
  | none => exact ok_ne _
  | some res =>
    dsimp only
    split_ifs
    · exact hop _ _
    · exact ok_ne _

theorem openNode_ne : fs.openNode n flags ≠ .error .outOfFuel :=
  bind_ne kyrofsOpen_ne fun _ => ok_ne _

theorem sysOpen_ne : sysOpen fs new path flags ≠ .error .outOfFuel := by
  rw [sysOpen]
  dsimp only
  cases fs.resolve fs.root (copyPath path) with
  | some n => exact openNode_ne
  | none =>
    dsimp only
    split_ifs
    · split
      · exact ok_ne _
      · rename_i p name _
        split_ifs
        · refine bind_ne (callInParent_ne fun _ _ => kyrofsCreateNode_ne) fun res => ?_
          split_ifs
          · exact ok_ne _
          · cases res.1.resolve res.1.root (copyPath path) with
            | none => exact ok_ne _
            | some n => exact openNode_ne
        · exact ok_ne _
    · exact ok_ne _

theorem vfsRead_ne {key : Byte} {offset : Word} {size : BitVec 32} :
    vfsRead fs n key offset size ≠ .error .outOfFuel := by
  rw [vfsRead]
  split_ifs
  · exact ok_ne _
  · exact ok_ne _
  · cases hread : kyrofsRead (fs.node n) offset size with
    | error e =>
      intro hout
      exact kyrofsRead_ne (hread.trans (congrArg Except.error (Except.error.inj hout)))
    | ok bytes => exact ok_ne _

theorem vfsWrite_ne {offset : Word} : vfsWrite fs n offset data block ≠ .error .outOfFuel := by
  rw [vfsWrite]
  split_ifs
  · exact ok_ne _
  · exact ok_ne _
  · exact bind_ne kyrofsWrite_ne fun _ => ok_ne _

theorem openFile_ne : sh.files.openFile t fd ≠ .error .outOfFuel := by
  rw [FdState.openFile]
  cases fdIndex fd with
  | none => exact ok_ne _
  | some i =>
    dsimp only
    cases sh.files.fds t i with
    | none => exact ok_ne _
    | some entry =>
      dsimp only
      split_ifs
      · exact ok_ne _
      · exact fault_ne

theorem Shell.mkdir_ne : sh.mkdir path ≠ .error .outOfFuel :=
  bind_ne (callInParent_ne fun _ _ => kyrofsCreateNode_ne) fun _ => ok_ne _

theorem Shell.openFile_ne : sh.openFile t path flags ≠ .error .outOfFuel := by
  refine bind_ne ?_ fun _ => ok_ne _
  rw [FdState.sysOpen_eq]
  exact bind_ne sysOpen_ne fun _ => ok_ne _

theorem Shell.read_ne : sh.read t fd ≠ .error .outOfFuel := by
  refine bind_ne (bind_ne Coreutils.openFile_ne fun res => ?_) fun _ => ok_ne _
  cases res with
  | none => exact ok_ne _
  | some res => exact bind_ne (bind_ne vfsRead_ne fun _ => ok_ne _) fun _ => ok_ne _

theorem Shell.write_ne : sh.write t fd data ≠ .error .outOfFuel := by
  rw [Shell.write]
  dsimp only
  cases (sh.writes 0).stored with
  | none => exact ok_ne _
  | some k =>
    refine bind_ne (bind_ne Coreutils.openFile_ne fun res => ?_) fun _ => ok_ne _
    cases res with
    | none => exact ok_ne _
    | some res => exact bind_ne vfsWrite_ne fun _ => ok_ne _

theorem Shell.readdir_ne (index : ℕ) : sh.readdir t fd index ≠ .error .outOfFuel := by
  refine bind_ne Coreutils.openFile_ne fun res => ?_
  cases res with
  | none => exact ok_ne _
  | some res => exact ok_ne _

end Calls

/-! ### What the watched calls return, the calls return -/

/-- What the first computation returns, the second returns. -/
def Confirms {α : Type} (x y : Outcome α) : Prop := ∀ a, x = .ok a → y = .ok a

section Confirm

variable {α β : Type} {x y x' y' : Outcome α} {t : Word} {sh : Shell} {src dest : CString}

theorem Confirms.refl (x : Outcome α) : Confirms x x := fun _ hok => hok

theorem Confirms.bind {f g : α → Outcome β} (h : Confirms x y) (hfg : ∀ a, Confirms (f a) (g a)) :
    Confirms (x >>= f) (y >>= g) := by
  intro b hok
  obtain ⟨a, ha, hb⟩ := Outcome.bind_eq_ok.mp hok
  exact Outcome.bind_eq_ok.mpr ⟨a, h a ha, hfg a b hb⟩

theorem Confirms.ite {p : Prop} [Decidable p] (h : Confirms x y) (h' : Confirms x' y') :
    Confirms (if p then x else x') (if p then y else y') := by
  split_ifs
  · exact h
  · exact h'

theorem watch_eq_ok {call : Outcome (Shell × α)} {sh' : Shell} {a : α}
    (hok : watch t sh call = .ok (sh', a)) : call = .ok (sh', a) ∧ Keeps t sh.files sh'.files := by
  obtain ⟨⟨sh₁, b⟩, hcall, hret⟩ := Outcome.bind_eq_ok.mp hok
  dsimp only at hret
  split_ifs at hret with hkeeps
  obtain ⟨rfl, rfl⟩ := Prod.mk.inj (Except.ok.inj hret)
  exact ⟨hcall, hkeeps⟩

theorem confirms_watch (call : Outcome (Shell × α)) : Confirms (watch t sh call) call :=
  fun _ hok => (watch_eq_ok hok).1

theorem confirms_read {fd : BitVec 32} : Confirms ((watched t).read sh fd) (sh.read t fd) := by
  intro a hok
  simp only [watched] at hok
  split_ifs at hok
  exact hok

theorem confirms_copyBytes (srcFd destFd : BitVec 32) (turns : ℕ) (sh : Shell) :
    Confirms (copyBytes (watched t) t srcFd destFd turns sh)
      (copyBytes (kernel t) t srcFd destFd turns sh) := by
  induction turns generalizing sh with
  | zero => exact .refl _
  | succ turns ih =>
    refine .bind confirms_read ?_
    rintro ⟨sh, bytesRead, buffer⟩
    refine .ite (.bind (.refl _) ?_) (.refl _)
    rintro ⟨sh, res⟩
    exact .ite (.refl _) (ih sh)

theorem confirms_copyFile (turns : ℕ) (sh : Shell) (src dest : CString) :
    Confirms (copyFile (watched t) t turns sh src dest)
      (copyFile (kernel t) t turns sh src dest) := by
  refine .bind (confirms_watch _) ?_
  rintro ⟨sh, srcFd⟩
  refine .ite (.refl _) (.bind (confirms_watch _) ?_)
  rintro ⟨sh, destFd⟩
  exact .ite (.refl _) (.bind (confirms_copyBytes srcFd destFd turns sh) fun _ => .refl _)

theorem confirms_forEntries {each each' : Shell → CString → CString → Outcome (Shell × Int)}
    (heach : ∀ sh src dest, Confirms (each sh src dest) (each' sh src dest)) (dirFd : BitVec 32)
    (src dest : CString) (turns index : ℕ) (sh : Shell) :
    Confirms (forEntries t each dirFd src dest turns index sh)
      (forEntries t each' dirFd src dest turns index sh) := by
  induction turns generalizing index sh with
  | zero => exact .refl _
  | succ turns ih =>
    refine .ite (.refl _) (.bind (.refl _) ?_)
    rintro (_ | de)
    · exact .refl _
    · refine .ite (ih _ _) (.ite (.refl _) (.bind (heach _ _ _) ?_))
      rintro ⟨sh, res⟩
      exact .ite (.refl _) (ih _ _)

/-- A watched copy that comes back is a copy that comes back. -/
theorem confirms_copyRecursive (turns : ℕ) (sh : Shell) (src dest : CString) :
    Confirms (copyRecursive (watched t) t turns sh src dest)
      (copyRecursive (kernel t) t turns sh src dest) := by
  induction turns generalizing sh src dest with
  | zero => exact .refl _
  | succ turns ih =>
    rw [copyRecursive, copyRecursive]
    cases stat sh.files.fs src with
    | none => exact .refl _
    | some st =>
      refine .ite (confirms_copyFile turns sh src dest)
        (.ite (.bind (confirms_watch _) ?_) (.refl _))
      rintro ⟨sh, ret⟩
      refine .ite (.refl _) (.bind (confirms_watch _) ?_)
      rintro ⟨sh, dirFd⟩
      exact .ite (.refl _) (confirms_forEntries ih dirFd src dest turns 0 sh)

end Confirm

/-! ### What a watched copy leaves -/

/-- The descriptors of the thread are as they were, and so are the directories it has open. -/
structure Kept (t : Word) (s s' : FdState) : Prop where
  fds : s'.fds t = s.fds t
  children : ∀ i entry, s.fds t i = some entry →
    s'.fs.children entry.node = s.fs.children entry.node

section Frame

variable {t n : Word} {s s' s₁ : FdState} {sh sh' : Shell} {src dest : CString} {turns : ℕ}
  {res : Int} {i : Fin maxFiles} {entry : FdEntry}

theorem Kept.refl (s : FdState) : Kept t s s := ⟨rfl, fun _ _ _ => rfl⟩

theorem Kept.trans (h : Kept t s s₁) (h' : Kept t s₁ s') : Kept t s s' where
  fds := h'.fds.trans h.fds
  children i entry hentry :=
    (h'.children i entry (h.fds.symm ▸ hentry)).trans (h.children i entry hentry)

theorem mem_openNodes : n ∈ openNodes t s ↔ ∃ i entry, s.fds t i = some entry ∧ entry.node = n := by
  simp [openNodes]

theorem Keeps.children (h : Keeps t s s') (hentry : s.fds t i = some entry) :
    s'.fs.children entry.node = s.fs.children entry.node :=
  h _ (mem_openNodes.mpr ⟨i, entry, hentry, rfl⟩)

/-- A call that keeps the descriptors. -/
theorem Keeps.kept (h : Keeps t s s') (hfds : s'.fds t = s.fds t) : Kept t s s' :=
  ⟨hfds, fun _ _ hentry => h.children hentry⟩

/-- A directory that was opened in between is closed in the end. -/
theorem kept_of_close (hfree : s.fds t i = none) (hfds : s₁.fds t = Function.update (s.fds t) i (some entry))
    (hfirst : ∀ k e, s.fds t k = some e → s₁.fs.children e.node = s.fs.children e.node)
    (h : Kept t s₁ s') : Kept t s (s'.setEntry t i none) where
  fds := by
    show Function.update s'.fds t (Function.update (s'.fds t) i none) t = s.fds t
    rw [Function.update_self, h.fds, hfds, Function.update_idem, ← hfree, Function.update_eq_self]
  children k e he := by
    have hne : k ≠ i := by
      rintro rfl
      rw [hfree] at he
      cases he
    have he₁ : s₁.fds t k = some e := by
      rw [hfds, Function.update_of_ne hne]
      exact he
    exact (h.children k e he₁).trans (hfirst k e he)

/-- What a watched open that comes back has done. -/
theorem watched_open {path : CString} {flags fd : BitVec 32}
    (hok : (watched t).openFile sh path flags = .ok (sh', fd)) :
    (fd.toInt < 0 ∧ Kept t sh.files sh'.files) ∨
    ∃ i n offset, sh.files.fds t i = none ∧ fd = BitVec.ofNat 32 (i : ℕ) ∧
      (flags &&& oAppend = 0 → offset = 0) ∧
      sh'.files.fds t = Function.update (sh.files.fds t) i (some ⟨n, offset, flags⟩) ∧
      Keeps t sh.files sh'.files := by
  obtain ⟨hopen, hkeeps⟩ := watch_eq_ok hok
  obtain ⟨-, res, -, ⟨hneg, hfds, -⟩ | ⟨i, n, offset, -, hfree, hfd, hoffset, hfiles⟩⟩ :=
    open_cases hopen
  · exact .inl ⟨hneg, hkeeps.kept (congrFun hfds t)⟩
  · refine .inr ⟨i, n, offset, hfree, hfd, hoffset, ?_, hkeeps⟩
    rw [hfiles]
    exact Function.update_self ..

theorem watched_mkdir {path : CString} {ret : Int}
    (hok : (watched t).mkdir sh path = .ok (sh', ret)) : Kept t sh.files sh'.files := by
  obtain ⟨hmkdir, hkeeps⟩ := watch_eq_ok hok
  exact hkeeps.kept (congrFun (mkdir_eq_ok hmkdir).1 t)

/-- A copy of a file closes what it has opened. -/
theorem copyFile_kept (hok : copyFile (watched t) t turns sh src dest = .ok (sh', res)) :
    Kept t sh.files sh'.files := by
  obtain ⟨⟨sh₀, srcFd⟩, hopen, hok₀⟩ := Outcome.bind_eq_ok.mp hok
  dsimp only at hok₀
  rcases watched_open hopen with ⟨hneg, hkept⟩ | ⟨i, n, offset, hfree, rfl, -, hfds, hkeeps⟩
  · rw [if_pos hneg] at hok₀
    obtain ⟨rfl, -⟩ := Prod.mk.inj (Except.ok.inj hok₀)
    exact hkept
  rw [if_neg (not_fd_neg i)] at hok₀
  obtain ⟨⟨sh₁, destFd⟩, hopen', hok₁⟩ := Outcome.bind_eq_ok.mp hok₀
  dsimp only at hok₁
  have hfirst : ∀ k e, sh.files.fds t k = some e →
      sh₀.files.fs.children e.node = sh.files.fs.children e.node := fun k e he => hkeeps.children he
  rcases watched_open hopen' with ⟨hneg, hkept⟩ | ⟨j, m, offset', hfree', rfl, -, hfds', hkeeps'⟩
  · rw [if_pos hneg] at hok₁
    obtain ⟨rfl, -⟩ := Prod.mk.inj (Except.ok.inj hok₁)
    rw [close_files]
    exact kept_of_close hfree hfds hfirst hkept
  rw [if_neg (not_fd_neg j)] at hok₁
  obtain ⟨⟨sh₂, res⟩, hcopy, hret⟩ := Outcome.bind_eq_ok.mp hok₁
  obtain ⟨rfl, -⟩ := Prod.mk.inj (Except.ok.inj hret)
  have hij : i ≠ j := by
    rintro rfl
    rw [hfds, Function.update_self] at hfree'
    cases hfree'
  have hi : sh₁.files.fds t i = some ⟨n, offset, oRdonly⟩ := by
    rw [hfds', Function.update_of_ne hij, hfds, Function.update_self]
  have hj : sh₁.files.fds t j = some ⟨m, offset', oCreat ||| oTrunc ||| oWronly⟩ := by
    rw [hfds', Function.update_self]
  obtain ⟨htouch, hsame⟩ := copyBytes_frame hi hj dest_not_append hij
    (confirms_copyBytes _ _ _ _ _ hcopy)
  rw [hfds, Function.update_of_ne hij.symm] at hfree'
  rw [close_files, close_files]
  refine ⟨?_, fun k e he => ?_⟩
  · ext1 k
    by_cases hkj : k = j
    · rw [hkj, setEntry_self, hfree']
    · rw [setEntry_of_ne hkj]
      by_cases hki : k = i
      · rw [hki, setEntry_self, hfree]
      · rw [setEntry_of_ne hki, hsame t k (fun hand => hand.2.elim hki hkj), hfds',
          Function.update_of_ne hkj, hfds, Function.update_of_ne hki]
  · have hki : k ≠ i := by
      rintro rfl
      rw [hfree] at he
      cases he
    have he₀ : sh₀.files.fds t k = some e := by
      rw [hfds, Function.update_of_ne hki]
      exact he
    exact (htouch.children _).trans ((hkeeps'.children he₀).trans (hfirst k e he))

/-- The loop over a directory closes it. -/
theorem forEntries_kept {each : Shell → CString → CString → Outcome (Shell × Int)}
    (heach : ∀ {sh src dest sh' res}, each sh src dest = .ok (sh', res) →
      Kept t sh.files sh'.files) {index : ℕ}
    (hok : forEntries t each (BitVec.ofNat 32 (i : ℕ)) src dest turns index sh = .ok (sh', res)) :
    ∃ s', Kept t sh.files s' ∧ sh'.files = s'.setEntry t i none := by
  induction turns generalizing index sh with
  | zero => cases hok
  | succ turns ih =>
    rw [forEntries] at hok
    split_ifs at hok
    obtain ⟨de, -, hturn⟩ := Outcome.bind_eq_ok.mp hok
    cases de with
    | none =>
      obtain ⟨rfl, -⟩ := Prod.mk.inj (Except.ok.inj hturn)
      exact ⟨_, .refl _, close_files sh i⟩
    | some de =>
      dsimp only at hturn
      split_ifs at hturn
      · exact ih hturn
      · obtain ⟨⟨sh₁, res'⟩, hcall, hrest⟩ := Outcome.bind_eq_ok.mp hturn
        dsimp only at hrest
        have hkept := heach hcall
        split_ifs at hrest
        · obtain ⟨rfl, -⟩ := Prod.mk.inj (Except.ok.inj hrest)
          exact ⟨_, hkept, close_files sh₁ i⟩
        · obtain ⟨s', hkept', hfiles⟩ := ih hrest
          exact ⟨s', hkept.trans hkept', hfiles⟩

/-- A watched copy leaves the descriptors and the directories that are open. -/
theorem copyRecursive_kept (hok : copyRecursive (watched t) t turns sh src dest = .ok (sh', res)) :
    Kept t sh.files sh'.files := by
  induction turns generalizing sh src dest sh' res with
  | zero => cases hok
  | succ turns ih =>
    rw [copyRecursive] at hok
    cases hstat : stat sh.files.fs src with
    | none =>
      rw [hstat] at hok
      obtain ⟨rfl, -⟩ := Prod.mk.inj (Except.ok.inj hok)
      exact .refl _
    | some st =>
      rw [hstat] at hok
      dsimp only at hok
      split_ifs at hok
      · exact copyFile_kept hok
      · obtain ⟨⟨sh₀, ret⟩, hmkdir, hok₀⟩ := Outcome.bind_eq_ok.mp hok
        have hkept := watched_mkdir hmkdir
        dsimp only at hok₀
        split_ifs at hok₀
        · obtain ⟨rfl, -⟩ := Prod.mk.inj (Except.ok.inj hok₀)
          exact hkept
        · obtain ⟨⟨sh₁, dirFd⟩, hopen, hok₁⟩ := Outcome.bind_eq_ok.mp hok₀
          dsimp only at hok₁
          rcases watched_open hopen with
            ⟨hneg, hkept'⟩ | ⟨i, n, offset, hfree, rfl, -, hfds, hkeeps⟩
          · rw [if_pos hneg] at hok₁
            obtain ⟨rfl, -⟩ := Prod.mk.inj (Except.ok.inj hok₁)
            exact hkept.trans hkept'
          · rw [if_neg (not_fd_neg i)] at hok₁
            obtain ⟨s', hkept', hfiles⟩ := forEntries_kept ih hok₁
            rw [hfiles]
            exact hkept.trans (kept_of_close hfree hfds (fun k e he => hkeeps.children he) hkept')
      · obtain ⟨rfl, -⟩ := Prod.mk.inj (Except.ok.inj hok)
        exact .refl _

end Frame

/-! ### A watched copy comes to an end -/

section Sizes

variable {node node' : Dirent} {offset : Word} {size r : BitVec 32} {data bytes : List Byte}
  {block : Option (ℕ → Byte)}

/-- A read stops at the end of the file. -/
theorem kyrofsRead_le (hoffset : offset.toNat ≤ fileSize node)
    (hok : kyrofsRead node offset size = .ok bytes) :
    offset.toNat + bytes.length ≤ fileSize node := by
  have hlt := fileSize_lt node
  have hle := text_length_le node
  have hsize := size.isLt
  rw [kyrofsRead_text (by omega) hok, List.length_take, List.length_drop]
  omega

/-- A write inside of a file leaves its size. -/
theorem kyrofsWrite_size (hok : kyrofsWrite node offset data block = .ok (node', r))
    (hinside : offset.toNat + data.length ≤ fileSize node) : fileSize node' = fileSize node := by
  have hlt := fileSize_lt node
  rw [kyrofsWrite] at hok
  rw [fileSize] at hinside ⊢
  rw [fileSize] at hlt ⊢
  cases hptr : node.ptr with
  | dirents children =>
    rw [hptr] at hok
    cases hok
  | content file =>
    rw [hptr] at hok hinside hlt
    dsimp only at hok hinside hlt
    obtain ⟨file', hreserve, hok'⟩ := Outcome.bind_eq_ok.mp hok
    obtain ⟨content, -, hret⟩ := Outcome.bind_eq_ok.mp hok'
    obtain ⟨rfl, -⟩ := Prod.mk.inj (Except.ok.inj hret)
    obtain ⟨hsize, -⟩ := reserve_eq_ok hreserve
    dsimp only
    rw [if_neg, hsize]
    rw [BitVec.lt_def, toNat_stop offset (by omega), BitVec.toNat_setWidth, hsize]
    omega

theorem kyrofsWrite_res (hok : kyrofsWrite node offset data block = .ok (node', r)) :
    r = BitVec.ofNat 32 data.length := by
  rw [kyrofsWrite] at hok
  cases hptr : node.ptr with
  | dirents children =>
    rw [hptr] at hok
    cases hok
  | content file =>
    rw [hptr] at hok
    obtain ⟨file', -, hok'⟩ := Outcome.bind_eq_ok.mp hok
    obtain ⟨content, -, hret⟩ := Outcome.bind_eq_ok.mp hok'
    exact (Prod.mk.inj (Except.ok.inj hret)).2.symm

end Sizes

section Ends

variable {t n m : Word} {sh sh' : Shell} {src dest path : CString} {i j : Fin maxFiles}
  {o o' : Word} {flags flags' fd : BitVec 32}

theorem watch_ne {α : Type} {call : Outcome (Shell × α)} (h : call ≠ .error .outOfFuel) :
    watch t sh call ≠ .error .outOfFuel := by
  refine bind_ne h fun res => ?_
  obtain ⟨sh', a⟩ := res
  dsimp only
  split_ifs
  · exact ok_ne _
  · exact nofun

theorem watched_read_ne : (watched t).read sh fd ≠ .error .outOfFuel := by
  simp only [watched]
  split_ifs
  · exact nofun
  · exact Shell.read_ne

/-- A watched read that returns some bytes returns them from a file. -/
theorem watched_read {r : BitVec 32} {bytes : List Byte} (hi : sh.files.fds t i = some ⟨n, o, flags⟩)
    (ho : o.toNat ≤ fileSize (sh.files.fs.node n))
    (hok : (watched t).read sh (BitVec.ofNat 32 (i : ℕ)) = .ok (sh', r, bytes)) (hr : 0 < r.toInt) :
    0 < bytes.length ∧ r.toNat = bytes.length ∧
      o.toNat + bytes.length ≤ fileSize (sh.files.fs.node n) := by
  obtain ⟨-, hvfs, -⟩ := read_eq_ok hi (confirms_read _ hok)
  rw [vfsRead] at hvfs
  split_ifs at hvfs with hops hchar
  · -- a terminal, which is not read
    have hterminal : isTerminal t sh.files (BitVec.ofNat 32 (i : ℕ)) = true := by
      rw [isTerminal, fdIndex_fd, Option.bind_some, hi, Option.any_some]
      exact decide_eq_true ⟨hops, hchar.1⟩
    simp only [watched] at hok
    rw [if_pos hterminal] at hok
    cases hok
  · obtain ⟨rfl, -⟩ := Prod.mk.inj (Except.ok.inj hvfs)
    exact absurd hr (by decide)
  · obtain ⟨bytes', hread, hret⟩ := map_eq_ok hvfs
    obtain ⟨rfl, rfl⟩ := Prod.mk.inj hret
    have hle := kyrofsRead_le ho hread
    have hlt := fileSize_lt (sh.files.fs.node n)
    have hcount : (BitVec.ofNat 32 bytes'.length).toNat = bytes'.length := by
      rw [BitVec.toNat_ofNat]
      omega
    refine ⟨?_, hcount, hle⟩
    by_contra hzero
    obtain rfl := List.length_eq_zero_iff.mp (Nat.eq_zero_of_not_pos hzero)
    exact absurd hr (by decide)

/-- A write of what was read leaves the size of the file that was read. -/
theorem write_fileSize {r : BitVec 32} {bytes : List Byte} {size : ℕ}
    (hj : sh.files.fds t j = some ⟨m, o', flags'⟩) (happend : flags' &&& oAppend = 0)
    (hsize : fileSize (sh.files.fs.node n) = size) (hinside : o'.toNat + bytes.length ≤ size)
    (hok : sh.write t (BitVec.ofNat 32 (j : ℕ)) bytes = .ok (sh', r)) (hr : ¬ r.toInt < 0) :
    fileSize (sh'.files.fs.node n) = size ∧ r.toNat ≤ bytes.length ∧
      sh'.files = { sh.files with fs := sh'.files.fs }.setEntry t j
        (some ⟨m, o' + r.setWidth 64, flags'⟩) := by
  obtain ⟨-, ⟨-, hneg, -⟩ | ⟨k, -, hvfs, hfiles⟩⟩ := write_cases hj happend hok
  · exact absurd hneg hr
  have hlen := List.length_take_le' k bytes
  rw [vfsWrite] at hvfs
  split_ifs at hvfs
  · obtain ⟨hfs, rfl⟩ := Prod.mk.inj (Except.ok.inj hvfs)
    rw [← hfs]
    refine ⟨hsize, ?_, hfs ▸ hfiles⟩
    rw [BitVec.toNat_ofNat]
    exact (Nat.mod_le _ _).trans hlen
  · obtain ⟨hfs, rfl⟩ := Prod.mk.inj (Except.ok.inj hvfs)
    rw [← hfs]
    exact ⟨hsize, Nat.zero_le _, hfs ▸ hfiles⟩
  · obtain ⟨⟨node, r'⟩, hwrite, hret⟩ := Outcome.bind_eq_ok.mp hvfs
    obtain ⟨hfs, rfl⟩ := Prod.mk.inj (Except.ok.inj hret)
    have hres := kyrofsWrite_res hwrite
    refine ⟨?_, ?_, hfiles⟩
    · rw [← hfs, Kyrofs.node_setNode]
      split_ifs with hnm
      · rw [← hnm] at hwrite
        exact (kyrofsWrite_size hwrite (by dsimp only; omega)).trans hsize
      · exact hsize
    · rw [hres, BitVec.toNat_ofNat]
      exact (Nat.mod_le _ _).trans hlen

/-- The loop comes to the end of its source, which no write moves. -/
theorem ends_copyBytes (hi : sh.files.fds t i = some ⟨n, o, flags⟩)
    (hj : sh.files.fds t j = some ⟨m, o', flags'⟩) (happend : flags' &&& oAppend = 0) (hij : i ≠ j)
    (ho : o.toNat ≤ fileSize (sh.files.fs.node n)) (ho' : o'.toNat ≤ o.toNat) :
    Ends Halt.outOfFuel fun turns => copyBytes (watched t) t (BitVec.ofNat 32 (i : ℕ))
      (BitVec.ofNat 32 (j : ℕ)) turns sh := by
  induction hk : fileSize (sh.files.fs.node n) - o.toNat using Nat.strong_induction_on
    generalizing sh o o' with
  | _ k ih =>
    refine .succ (.after watched_read_ne ?_) fun _ => rfl
    rintro ⟨sh₁, r, bytes⟩ hread
    refine .ite (fun hsome => .after Shell.write_ne ?_) fun _ => .const (ok_ne _)
    rintro ⟨sh₂, r'⟩ hwrite
    refine .ite (fun _ => .const (ok_ne _)) fun hr' => ?_
    obtain ⟨hsome', hcount, hle⟩ := watched_read hi ho hread hsome
    obtain ⟨-, -, hfiles⟩ := read_eq_ok hi (confirms_read _ hread)
    have hfs : sh₁.files.fs = sh.files.fs := by
      rw [hfiles]
      rfl
    have hj₁ : sh₁.files.fds t j = some ⟨m, o', flags'⟩ := by
      rw [hfiles, setEntry_of_ne hij.symm]
      exact hj
    have hsame : fileSize (sh₁.files.fs.node n) = fileSize (sh.files.fs.node n) := by
      rw [hfs]
    obtain ⟨hsize, hcount', hfiles'⟩ := write_fileSize hj₁ happend hsame (by omega) hwrite hr'
    have hlt := fileSize_lt (sh.files.fs.node n)
    have hnext : (o + (r.setWidth 64 : Word)).toNat = o.toNat + bytes.length := by
      rw [BitVec.toNat_add, BitVec.toNat_setWidth, hcount]
      omega
    have hnext' : (o' + (r'.setWidth 64 : Word)).toNat = o'.toNat + r'.toNat := by
      rw [BitVec.toNat_add, BitVec.toNat_setWidth]
      omega
    have hi₂ : sh₂.files.fds t i = some ⟨n, o + r.setWidth 64, flags⟩ := by
      rw [hfiles', setEntry_of_ne hij]
      show sh₁.files.fds t i = _
      rw [hfiles]
      exact setEntry_self ..
    have hj₂ : sh₂.files.fds t j = some ⟨m, o' + r'.setWidth 64, flags'⟩ := by
      rw [hfiles']
      exact setEntry_self ..
    exact ih _ (by rw [hsize, hnext]; omega) hi₂ hj₂ (by omega) (by omega) rfl

/-- A watched copy of a file comes to an end. -/
theorem ends_copyFile : Ends Halt.outOfFuel fun turns => copyFile (watched t) t turns sh src dest := by
  refine .after (watch_ne Shell.openFile_ne) ?_
  rintro ⟨sh₀, srcFd⟩ hopen
  refine .ite (fun _ => .const (ok_ne _)) fun hfd => .after (watch_ne Shell.openFile_ne) ?_
  rintro ⟨sh₁, destFd⟩ hopen'
  refine .ite (fun _ => .const (ok_ne _)) fun hfd' => ?_
  have hends : Ends Halt.outOfFuel fun turns => copyBytes (watched t) t srcFd destFd turns sh₁ := by
    rcases watched_open hopen with ⟨hneg, -⟩ | ⟨i, n, offset, -, rfl, hoffset, hfds, -⟩
    · exact absurd hneg hfd
    rcases watched_open hopen' with ⟨hneg, -⟩ | ⟨j, m, offset', hfree', rfl, hoffset', hfds', -⟩
    · exact absurd hneg hfd'
    have hij : i ≠ j := by
      rintro rfl
      rw [hfds, Function.update_self] at hfree'
      cases hfree'
    have hi : sh₁.files.fds t i = some ⟨n, offset, oRdonly⟩ := by
      rw [hfds', Function.update_of_ne hij, hfds, Function.update_self]
    have hj : sh₁.files.fds t j = some ⟨m, offset', oCreat ||| oTrunc ||| oWronly⟩ := by
      rw [hfds', Function.update_self]
    obtain rfl := hoffset (by decide)
    obtain rfl := hoffset' (by decide)
    exact ends_copyBytes hi hj dest_not_append hij (Nat.zero_le _) le_rfl
  exact .bind (rising_copyBytes _ t srcFd destFd sh₁) hends (fun _ _ _ _ => .refl _)
    fun _ _ _ => .const (ok_ne _)

/-- The number of free descriptors. -/
def freeFds (table : FdTable) : ℕ := (Finset.univ.filter fun i => table i = none).card

theorem freeFds_update {table : FdTable} {entry : FdEntry} (hfree : table i = none) :
    freeFds (Function.update table i (some entry)) < freeFds table := by
  apply Finset.card_lt_card
  refine Finset.ssubset_iff_of_subset ?_ |>.mpr ⟨i, ?_, ?_⟩
  · intro k hk
    have hk := (Finset.mem_filter.mp hk).2
    refine Finset.mem_filter.mpr ⟨Finset.mem_univ k, ?_⟩
    by_cases hki : k = i
    · rw [hki, Function.update_self] at hk
      cases hk
    · rwa [Function.update_of_ne hki] at hk
  · exact Finset.mem_filter.mpr ⟨Finset.mem_univ i, hfree⟩
  · intro hmem
    have hnone := (Finset.mem_filter.mp hmem).2
    rw [Function.update_self] at hnone
    cases hnone

/-- An entry is found below the number of the children. -/
theorem readdir_lt {entry : FdEntry} {index : ℕ} {de : DirEntry}
    (hi : sh.files.fds t i = some entry) (hindex : index < intMax)
    (hok : sh.readdir t (BitVec.ofNat 32 (i : ℕ)) index = .ok (some de)) :
    index < (sh.files.fs.children entry.node).length := by
  obtain ⟨res, hopen, hread⟩ := Outcome.bind_eq_ok.mp hok
  rw [openFile_fd hi] at hopen
  split_ifs at hopen
  obtain rfl := Except.ok.inj hopen
  have hread := Except.ok.inj hread
  rw [vfsReaddir] at hread
  split_ifs at hread
  rw [kyrofsReaddir] at hread
  obtain ⟨c, hc, -⟩ := Option.map_eq_some_iff.mp hread
  have hlt := (List.getElem?_eq_some_iff.mp hc).1
  have hmax : intMax < 2 ^ 32 := by decide
  rw [BitVec.toNat_ofNat, Nat.mod_eq_of_lt (hindex.trans hmax)] at hlt
  exact hlt

/-- The loop over the entries of a directory that is open, when the copies in it come to an end:
they leave the directory as it is, and the index goes up. -/
theorem ends_forEntries {entry : FdEntry} {free : ℕ}
    (hcopy : ∀ sh src dest, freeFds (sh.files.fds t) < free →
      Ends Halt.outOfFuel fun turns => copyRecursive (watched t) t turns sh src dest)
    (hi : sh.files.fds t i = some entry) (hfree : freeFds (sh.files.fds t) < free) (index : ℕ) :
    Ends Halt.outOfFuel fun turns => forEntries t (copyRecursive (watched t) t turns)
      (BitVec.ofNat 32 (i : ℕ)) src dest turns index sh := by
  induction hk : (sh.files.fs.children entry.node).length - index using Nat.strong_induction_on
    generalizing sh index with
  | _ k ih =>
    have hrising := rising_copyRecursive (watched t) t
    -- the same loop, where the copies have some more fuel
    have hlater : ∀ {sh : Shell} {index : ℕ}, (Ends Halt.outOfFuel fun turns =>
        forEntries t (copyRecursive (watched t) t turns) (BitVec.ofNat 32 (i : ℕ)) src dest turns
          index sh) → Ends Halt.outOfFuel fun turns =>
        forEntries t (copyRecursive (watched t) t (turns + 1)) (BitVec.ofNat 32 (i : ℕ)) src dest
          turns index sh := by
      rintro sh index ⟨turns, hne⟩
      refine ⟨turns, ?_⟩
      dsimp only at hne ⊢
      rw [(refines_forEntries t (fun sh src dest => hrising sh src dest (Nat.le_succ turns))
        (BitVec.ofNat 32 (i : ℕ)) src dest le_rfl index sh).eq hne]
      exact hne
    refine .succ (.ite (fun _ => .const fault_ne) fun hindex =>
      .after (Shell.readdir_ne index) ?_) fun _ => rfl
    rintro (_ | de) hread
    · exact .const (ok_ne _)
    have hlt := readdir_lt hi (Nat.lt_of_not_le hindex) hread
    refine .ite (fun _ => ?_) fun _ => .ite (fun _ => .const fault_ne) fun _ => ?_
    · exact hlater (ih _ (by omega) hi hfree (index + 1) rfl)
    · refine .bind (hrising _ _ _).later (Ends.later (hrising _ _ _) (hcopy _ _ _ hfree)) ?_ ?_
      · rintro ⟨sh', res⟩ n m hle
        refine .ite (.refl _) (refines_forEntries t (fun sh src dest => ?_) _ _ _ hle _ _)
        exact hrising sh src dest (Nat.succ_le_succ hle)
      · rintro n ⟨sh', res⟩ hrun
        have hkept := copyRecursive_kept hrun
        refine .ite (fun _ => .const (ok_ne _)) fun _ => hlater ?_
        have hi' : sh'.files.fds t i = some entry := by
          rw [hkept.fds]
          exact hi
        have hchildren := hkept.children i entry hi
        exact ih _ (by rw [hchildren]; omega) hi' (by rw [hkept.fds]; exact hfree) (index + 1) rfl

/-- A copy of a file. -/
theorem copyRecursive_file {calls : Calls} {st : Stat} (hstat : stat sh.files.fs src = some st)
    (hreg : sIsreg st.stMode) (turns : ℕ) :
    copyRecursive calls t (turns + 1) sh src dest = copyFile calls t turns sh src dest := by
  rw [copyRecursive, hstat]
  exact if_pos hreg

/-- A copy of a directory. -/
theorem copyRecursive_directory {calls : Calls} {st : Stat}
    (hstat : stat sh.files.fs src = some st) (hreg : ¬ sIsreg st.stMode) (hdir : sIsdir st.stMode)
    (turns : ℕ) :
    copyRecursive calls t (turns + 1) sh src dest = (do
      let (sh, ret) ← calls.mkdir sh dest
      if ret < 0 ∧ ret ≠ -eexist then .ok (sh, -1)
      else do
        let (sh, dirFd) ← calls.openFile sh src oRdonly
        if dirFd.toInt < 0 then .ok (sh, -1)
        else forEntries t (copyRecursive calls t turns) dirFd src dest turns 0 sh) := by
  rw [copyRecursive, hstat]
  exact (if_neg hreg).trans (if_pos hdir)

/-- A watched copy comes to an end: each directory that it goes down to takes a descriptor. -/
theorem ends_copyRecursive (sh : Shell) (src dest : CString) :
    Ends Halt.outOfFuel fun turns => copyRecursive (watched t) t turns sh src dest := by
  induction hfree : freeFds (sh.files.fds t) using Nat.strong_induction_on
    generalizing sh src dest with
  | _ free ih =>
    cases hstat : stat sh.files.fs src with
    | none =>
      refine .succ (.const (ok_ne (sh, -1))) fun turns => ?_
      rw [copyRecursive, hstat]
    | some st =>
      by_cases hreg : sIsreg st.stMode
      · exact .succ ends_copyFile (copyRecursive_file hstat hreg)
      by_cases hdir : sIsdir st.stMode
      · refine .succ (.after (watch_ne Shell.mkdir_ne) ?_)
          (copyRecursive_directory hstat hreg hdir)
        rintro ⟨sh₀, ret⟩ hmkdir
        have hkept := watched_mkdir hmkdir
        refine .ite (fun _ => .const (ok_ne _)) fun _ => .after (watch_ne Shell.openFile_ne) ?_
        rintro ⟨sh₁, dirFd⟩ hopen
        refine .ite (fun _ => .const (ok_ne _)) fun hfd => ?_
        rcases watched_open hopen with ⟨hneg, -⟩ | ⟨i, n, offset, hnone, rfl, -, hfds, -⟩
        · exact absurd hneg hfd
        · have hi : sh₁.files.fds t i = some ⟨n, offset, oRdonly⟩ := by
            rw [hfds, Function.update_self]
          have hless : freeFds (sh₁.files.fds t) < free := by
            rw [hfds, ← hfree, ← hkept.fds]
            exact freeFds_update hnone
          exact ends_forEntries (fun sh src dest hlt => ih _ hlt sh src dest rfl) hi hless 0
      · refine .succ (.const (ok_ne (sh, -1))) fun turns => ?_
        rw [copyRecursive, hstat]
        exact (if_neg hreg).trans (if_neg hdir)

/-- A copy comes back when none of its calls changes a directory that is open, reads from a
terminal or stops the kernel. -/
theorem terminates_of_calm (h : Calm t sh src dest) : Terminates t sh src dest := by
  obtain ⟨turns, hne⟩ := ends_copyRecursive (t := t) sh src dest
  cases hrun : copyRecursive (watched t) t turns sh src dest with
  | error halt =>
    rw [h turns halt hrun] at hrun
    exact absurd hrun hne
  | ok res => exact ⟨turns, res, confirms_copyRecursive turns sh src dest res hrun⟩

/-- A watched copy that comes back is calm. -/
theorem calm_of_ok {turns : ℕ} {res : Shell × Int}
    (hok : copyRecursive (watched t) t turns sh src dest = .ok res) : Calm t sh src dest := by
  intro turns' halt hhalt
  have hrising := rising_copyRecursive (watched t) t sh src dest
  by_contra hne
  -- with the fuel of either run, both come to one result
  have hsame : ∀ {x : Outcome (Shell × Int)}, x = .ok res → x ≠ .error halt := by
    rintro x rfl
    exact nofun
  rcases Nat.le_total turns turns' with hle | hle
  · have heq := hrising.eq_of_le hle (hok ▸ ok_ne _)
    exact hsame (heq.trans hok) hhalt
  · have heq := hrising.eq_of_le hle (fun hout => hne (Except.error.inj (hhalt.symm.trans hout)))
    exact hsame hok (heq.trans hhalt)

end Ends

/-! ### A small directory -/

section Small

/-- A shell in the tree of `kyrofs_init`, whose calls get the blocks they ask for. -/
def smallShell : Shell where
  files := ⟨smallTree, {1}, fun _ _ => none⟩
  nodes := fun k => ⟨BitVec.ofNat 64 (0xB000 + 0x1000 * (k % 2 ^ 40)), 1, some fun _ => 0⟩
  writes := fun _ => ⟨some 1024, some fun _ => 0⟩
  keys := fun _ => 0

/-- `/var` is copied to `/x`. -/
theorem terminates_var :
    Terminates 1 smallShell (cstring ['/', 'v', 'a', 'r']) (cstring ['/', 'x']) := by
  have hok : ((copyRecursive (watched 1) 1 6 smallShell (cstring ['/', 'v', 'a', 'r'])
      (cstring ['/', 'x'])).toOption.map Prod.snd) = some 0 := by
    decide +kernel
  obtain ⟨res, hres, -⟩ := Option.map_eq_some_iff.mp hok
  exact terminates_of_calm (calm_of_ok (Outcome.toOption_eq_some.mp hres))

end Small

end KyroOS.Coreutils
