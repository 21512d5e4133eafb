import KyroOS.Vfs.Content
import KyroOS.Vfs.Stat

/-!
# Appending to a file

A write through a descriptor with `O_APPEND` starts at the `length` of the node, which
`kyrofs_write`, `kyrofs_open` and `kyrofs_create_node` keep beside the size of the content.

## Main definitions

* `Dirent.text` — the string in a file
* `FileCall`, `fileCallSystem` — the calls of the kernel and of threads
* `NeverTruncated` — the calls that neither truncate a file nor write to it far behind its end
* `appendSystem` — the appending writes of any number of threads to one file

## Main results

* `fileHolds_of_reachable` — a file that is not truncated has its buffer and its length
* `append_step` — one appending write
* `text_appended` — appending writes append their buffers in order
-/

namespace KyroOS.Vfs

open Splice Transition

/-- The string in a file. -/
def Dirent.text (node : Dirent) : List Byte :=
  match node.ptr with
  | .content file => (file.content.getD []).take file.size.toNat
  | .dirents _ => []

/-! ### The calls before -/

/-- A call of the kernel, or of a thread. -/
inductive FileCall
  | kernel (e : FsEvent)
  | thread (e : FdEvent)

inductive FileCallStep : FdState → FileCall → FdState → Prop
  | kernel {s : FdState} {e : FsEvent} {fs : Kyrofs} (h : kyrofsSystem.step s.fs e fs) :
    FileCallStep s (.kernel e) { s with fs }
  | thread {s s' : FdState} {e : FdEvent} (h : fdSystem.step s e s') :
    FileCallStep s (.thread e) s'

/-- The runs of all calls from `kyrofs_init` on. -/
def fileCallSystem : System FdState FileCall where
  init := fdSystem.init
  step := FileCallStep

/-- The changes that a call may make. -/
def FileCall.Makes (s : FdState) : FileCall → Change → Prop
  | .kernel e, c => e.Makes s.fs c
  | .thread e, c => e.Makes s c

/-- The change does not truncate the node, and does not write to it from `2^31` on. -/
def Change.Spares (n : Word) : Change → Prop
  | .open m flags => m = n → flags &&& oTrunc = 0
  | .write m offset data _ => m = n → Small offset.toNat data.length
  | .create _ _ _ _ | .unlink _ _ => True

/-- The call does not truncate the node, and does not write to it from `2^31` on. -/
def NeverTruncated (n : Word) (s : FdState) (e : FileCall) : Prop := ∀ c, e.Makes s c → c.Spares n

/-- The node is no file, or one that holds some string. -/
def FileHolds (n : Word) (fs : Kyrofs) : Prop :=
  n ∈ fs.live → (fs.node n).has vfsFile → ∃ text file bytes, Holds (fs.node n) text file bytes

section Before

variable {fs fs' : Kyrofs} {s : FdState} {n : Word} {c : Change}

theorem Holds.text_node {node : Dirent} {text bytes : List Byte} {file : FileContent}
    (h : Holds node text file bytes) : node.text = text := by
  rw [Dirent.text, h.ptr, h.text_eq]
  dsimp only
  rw [h.content]
  rfl

/-- A node that keeps its flags and gets children is no file. -/
theorem fileHolds_of_children (fs : Kyrofs) {l : List Word} (hfile : ¬ (fs.node n).has vfsFile)
    (hnode : fs'.node n = { fs.node n with ptr := .dirents l }) : FileHolds n fs' := by
  intro _ hfile'
  rw [hnode] at hfile'
  exact absurd hfile' hfile

/-- The step lemma. -/
theorem FileHolds.change (hops : OpsByFlags fs) (h : FileHolds n fs) (hspares : c.Spares n)
    (hstep : changeSystem.step fs c fs') : FileHolds n fs' := by
  have hdirectory : ∀ {m}, (fs.node m).hasDirectoryOps → ¬ (fs.node m).has vfsFile := by
    intro m hm hfile
    rw [hops m, hfile] at hm
    cases hm
  cases hstep with
  | create hnew hp hok =>
    rename_i new p name flags r
    obtain ⟨ptr, hptr, hparent, rfl, -⟩ := createNode_link hok
    have hne : new.dirent ≠ p := Kyrofs.ne_of_notMem hnew hp
    by_cases hn : n = new.dirent
    · -- the new node itself
      intro _ hfile
      rw [hn, Kyrofs.link_node_new hne] at hfile ⊢
      exact ⟨[], holds_init hfile rfl hptr⟩
    · by_cases hnp : n = p
      · refine fileHolds_of_children fs (l := new.dirent :: fs.children p) ?_ ?_
        · exact hnp ▸ hdirectory hparent
        · rw [hnp]
          exact Kyrofs.link_node_parent hne
      · intro hlive hfile
        have hnode : (fs.link new.dirent ⟨name, flags, 0, ptr, p⟩).node n = fs.node n :=
          Kyrofs.link_node_of_ne hn hnp
        rw [hnode] at hfile ⊢
        exact h ((Finset.mem_insert.mp hlive).resolve_left hn) hfile
  | unlink hp hc =>
    rename_i p c
    by_cases hnp : n = p
    · refine fileHolds_of_children fs (l := (fs.children p).erase c) ?_ ?_
      · exact hnp ▸ hdirectory (Kyrofs.hasDirectoryOps_of_mem hc)
      · rw [hnp, Kyrofs.unlink_node, if_pos rfl]
    · intro hlive hfile
      rw [Kyrofs.unlink_node, if_neg hnp] at hfile ⊢
      exact h (Finset.mem_of_mem_erase hlive) hfile
  | «open» hm hok =>
    rename_i m flags res
    obtain ⟨d, hopen, hok⟩ := Outcome.bind_eq_ok.mp hok
    obtain ⟨rfl, -⟩ := Prod.mk.inj (Except.ok.inj hok)
    intro hlive hfile
    by_cases hnm : n = m
    · have hkeep : flags &&& oTrunc = 0 := hspares hnm.symm
      rw [kyrofsOpen, if_neg fun hand => hand.2 hkeep] at hopen
      obtain rfl := Except.ok.inj hopen
      rw [Kyrofs.node_setNode, if_pos hnm, ← hnm] at hfile ⊢
      exact h hlive hfile
    · rw [Kyrofs.node_setNode, if_neg hnm] at hfile ⊢
      exact h hlive hfile
  | write hm hok =>
    rename_i m offset data block res
    rw [vfsWrite] at hok
    split_ifs at hok
    · obtain ⟨rfl, -⟩ := Prod.mk.inj (Except.ok.inj hok)
      exact h
    · obtain ⟨rfl, -⟩ := Prod.mk.inj (Except.ok.inj hok)
      exact h
    · obtain ⟨⟨d, r⟩, hwrite, hok⟩ := Outcome.bind_eq_ok.mp hok
      obtain ⟨rfl, -⟩ := Prod.mk.inj (Except.ok.inj hok)
      intro hlive hfile
      by_cases hnm : n = m
      · have hsmall : Small offset.toNat data.length := hspares hnm.symm
        have hlive' : n ∈ fs.live := hlive
        have hflags : (fs.node n).has vfsFile := by
          have hsame := (kyrofsWrite_touch hwrite).same n
          rw [has_congr hsame] at hfile
          exact hfile
        obtain ⟨text, file, bytes, hholds⟩ := h hlive' hflags
        rw [← hnm] at hwrite
        obtain ⟨d', file', bytes', hwrite', hholds'⟩ :=
          hholds.write hsmall block (hholds.block_of_write hsmall hwrite)
        obtain rfl : d' = d := (Prod.mk.inj (Except.ok.inj (hwrite'.symm.trans hwrite))).1
        rw [Kyrofs.node_setNode, if_pos hnm]
        exact ⟨_, file', bytes', hholds'⟩
      · rw [Kyrofs.node_setNode, if_neg hnm] at hfile ⊢
        exact h hlive hfile

/-- A file that is not truncated has its buffer and its length, and keeps the operations of a
file. -/
theorem fileHolds_of_reachable (h : fileCallSystem.ReachableUnder (NeverTruncated n) s) :
    s.fs.Tree ∧ OpsByFlags s.fs ∧ FileHolds n s.fs := by
  -- the parts of the invariant are kept by every change of a call
  have hrun : ∀ {fs fs' : Kyrofs} {M : Kyrofs → Change → Prop}, (∀ fs c, M fs c → c.Spares n) →
      changeSystem.RunsTo M fs fs' → fs.Tree ∧ OpsByFlags fs ∧ FileHolds n fs →
        fs'.Tree ∧ OpsByFlags fs' ∧ FileHolds n fs' := by
    intro fs fs' M hM hrun hfs
    refine hrun.preserves (I := fun fs => fs.Tree ∧ OpsByFlags fs ∧ FileHolds n fs) ?_ hfs
    rintro fs c fs' ⟨htree, hops, hholds⟩ hc hstep
    exact ⟨Change.tree htree hstep, hops.change hstep, hholds.change hops (hM fs c hc) hstep⟩
  refine h.invariant (I := fun s => s.fs.Tree ∧ OpsByFlags s.fs ∧ FileHolds n s.fs) ?_ ?_
  · rintro s ⟨hinit, -⟩
    refine ⟨tree_of_reachable (C := fun _ _ => True) (.init hinit), ?_⟩
    refine kyrofsInit_changes (I := fun fs => OpsByFlags fs ∧ FileHolds n fs) ?_ ?_ hinit
    · intro root _
      have hdirectory : ¬ decide (vfsDirectory &&& vfsFile ≠ 0) = true := by decide
      exact ⟨opsByFlags_bareRoot, fun _ hfile => absurd hfile hdirectory⟩
    · rintro fs new p name flags fs' - ⟨hops, hholds⟩ - - hstep
      exact ⟨hops.change hstep, hholds.change hops (c := .create new p name flags) trivial hstep⟩
  · rintro s e s' hs hspares hstep
    cases hstep with
    | kernel hcall => exact hrun (fun _ c hc => hspares c hc) (FsEvent.runsTo hs.1 hcall) hs
    | thread hcall => exact hrun (fun _ c hc => hspares c hc) (FdEvent.runsTo hs.1 hcall) hs

end Before

/-! ### Appending writes -/

/-- `SYS_WRITE` of a thread through a descriptor, with the block `kmalloc` returns in it. -/
structure AppendCall where
  thread : Word
  fd : BitVec 32
  data : List Byte
  block : Option (ℕ → Byte)

inductive AppendStep (n : Word) : FdState → AppendCall → FdState → Prop
  | write {s s' : FdState} {call : AppendCall} {i : Fin maxFiles} {entry : FdEntry} {rax : Word}
    (hthread : call.thread ∈ s.threads)
    (hfile : s.openFile call.thread call.fd = .ok (some (i, entry))) (hnode : entry.node = n)
    (happend : entry.flags &&& oAppend ≠ 0)
    (hok : s.sysWrite call.thread call.fd call.data call.block = .ok (s', rax)) :
    AppendStep n s call s'

/-- The appending writes of threads to the file `n`, after any run that has not truncated it. -/
def appendSystem (n : Word) : System FdState AppendCall where
  init := fun s => fileCallSystem.ReachableUnder (NeverTruncated n) s ∧
    n ∈ s.fs.live ∧ (s.fs.node n).has vfsFile
  step := AppendStep n

section Append

variable {s s' u : FdState} {n : Word} {call : AppendCall} {text bytes : List Byte}
  {file : FileContent} {bufs : List (List Byte)}

/-- One appending write: the buffer is at the end of the file, and the offset of the descriptor
behind it. -/
theorem append_step (h : Holds (s.fs.node n) text file bytes)
    (hsize : text.length + call.data.length < 2 ^ 31) (hstep : (appendSystem n).step s call s') :
    (∃ file' bytes', Holds (s'.fs.node n) (text ++ call.data) file' bytes') ∧
      ∃ i entry, fdIndex call.fd = some i ∧ s'.fds call.thread i = some entry ∧
        entry.offset.toNat = (text ++ call.data).length := by
  cases hstep with
  | write hthread hfile hnode happend hok =>
  rename_i i entry rax
  obtain ⟨hfds, hlive⟩ := FdState.openFile_eq_some hfile
  have hindex : fdIndex call.fd = some i := by
    rw [FdState.openFile] at hfile
    cases hindex : fdIndex call.fd with
    | none =>
      rw [hindex] at hfile
      cases hfile
    | some j =>
      rw [hindex] at hfile
      dsimp only at hfile
      cases hentry : s.fds call.thread j with
      | none =>
        rw [hentry] at hfile
        cases hfile
      | some e =>
        rw [hentry] at hfile
        dsimp only at hfile
        split_ifs at hfile
        exact congrArg some (Prod.mk.inj (Option.some.inj (Except.ok.inj hfile))).1
  -- the position is the length of the node, which is that of its text
  have hlength : (((s.fs.node n).length.setWidth 64 : Word)).toNat = text.length := by
    rw [h.length_eq, h.length_text, BitVec.toNat_setWidth]
    exact Nat.mod_eq_of_lt (by have := file.size.isLt; omega)
  have hsmall : Small ((s.fs.node n).length.setWidth 64 : Word).toNat call.data.length :=
    hlength.symm ▸ hsize
  have hops : ¬ (s.fs.node n).hasDirectoryOps := by
    rw [Dirent.hasDirectoryOps, h.ptr]
    exact Bool.false_ne_true
  obtain ⟨res, hfile', hok⟩ := Outcome.bind_eq_ok.mp hok
  obtain rfl := Except.ok.inj (hfile.symm.trans hfile')
  dsimp only at hok
  rw [if_pos happend, hnode, vfsWrite, if_neg hops] at hok
  obtain ⟨⟨fs, r⟩, hwrite, hok⟩ := Outcome.bind_eq_ok.mp hok
  obtain ⟨⟨d, r'⟩, hkyrofs, hwrite⟩ := Outcome.bind_eq_ok.mp hwrite
  obtain ⟨rfl, rfl⟩ := Prod.mk.inj (Except.ok.inj hwrite)
  obtain ⟨rfl, -⟩ := Prod.mk.inj (Except.ok.inj hok)
  obtain ⟨d', file', bytes', hkyrofs', hholds⟩ :=
    h.write hsmall call.block (h.block_of_write hsmall hkyrofs)
  obtain ⟨rfl, rfl⟩ := Prod.mk.inj (Except.ok.inj (hkyrofs'.symm.trans hkyrofs))
  have htext : splice (gapByte file (((s.fs.node n).length.setWidth 64 : Word).toNat +
      call.data.length) call.block) text ((s.fs.node n).length.setWidth 64 : Word).toNat
        call.data = text ++ call.data := by
    rw [hlength, splice_of_le le_rfl, List.take_length, List.drop_eq_nil_of_le (by omega),
      List.append_nil]
  constructor
  · refine ⟨file', bytes', ?_⟩
    show Holds ((s.fs.setNode n d').node n) (text ++ call.data) file' bytes'
    rw [Kyrofs.node_setNode, if_pos rfl, ← htext]
    exact hholds
  · have hrax : ((BitVec.ofNat 32 call.data.length).setWidth 64 : Word).toNat =
        call.data.length := by
      rw [BitVec.toNat_setWidth, BitVec.toNat_ofNat]
      omega
    have hne : ((BitVec.ofNat 32 call.data.length).setWidth 64 : Word) ≠ minusOne := by
      intro heq
      rw [heq] at hrax
      have hone : minusOne.toNat = 2 ^ 64 - 1 := rfl
      omega
    refine ⟨i, ⟨n, (s.fs.node n).length.setWidth 64 +
      (BitVec.ofNat 32 call.data.length).setWidth 64, entry.flags⟩, hindex, ?_, ?_⟩
    · show Function.update s.fds call.thread _ call.thread i = _
      rw [Function.update_self, Function.update_self]
      dsimp only
      rw [if_pos hne]
    · dsimp only
      rw [BitVec.toNat_add, hlength, hrax, List.length_append]
      exact Nat.mod_eq_of_lt (by omega)

/-- The run lemma. -/
theorem holds_of_appends (h : Holds (s.fs.node n) text file bytes)
    (hrun : (appendSystem n).Outputs (fun _ call => some call.data) s bufs u)
    (hsize : text.length + bufs.flatten.length < 2 ^ 31) :
    ∃ file' bytes', Holds (u.fs.node n) (text ++ bufs.flatten) file' bytes' := by
  refine hrun.preserves (I := fun bufs u => text.length + bufs.flatten.length < 2 ^ 31 →
    ∃ file' bytes', Holds (u.fs.node n) (text ++ bufs.flatten) file' bytes') ?_ ?_ hsize
  · intro _
    rw [List.flatten_nil, List.append_nil]
    exact ⟨file, bytes, h⟩
  · intro bufs v call w ih hstep hsize
    have hflatten : (bufs ++ (some call.data).toList).flatten = bufs.flatten ++ call.data := by
      rw [List.flatten_append]
      exact congrArg _ (List.append_nil _)
    rw [hflatten] at hsize ⊢
    rw [List.length_append] at hsize
    obtain ⟨file', bytes', hholds⟩ := ih (by omega)
    rw [← List.append_assoc]
    exact (append_step hholds (by rw [List.length_append]; omega) hstep).1

/-- Appending writes of any threads to a file that was not truncated append their buffers in the
order of the writes, and each leaves the offset of its descriptor at the end of what it wrote. -/
theorem text_appended (hs : (appendSystem n).init s)
    (hrun : (appendSystem n).Outputs (fun _ call => some call.data) s bufs u)
    (hsize : (s.fs.node n).text.length + bufs.flatten.length < 2 ^ 31) :
    (u.fs.node n).text = (s.fs.node n).text ++ bufs.flatten ∧
    ∀ call v, (appendSystem n).step u call v →
      (u.fs.node n).text.length + call.data.length < 2 ^ 31 →
      ∃ i entry, fdIndex call.fd = some i ∧ v.fds call.thread i = some entry ∧
        entry.offset.toNat = (u.fs.node n).text.length + call.data.length := by
  obtain ⟨hreach, hlive, hfile⟩ := hs
  obtain ⟨-, -, hfileHolds⟩ := fileHolds_of_reachable hreach
  obtain ⟨text, file, bytes, hholds⟩ := hfileHolds hlive hfile
  rw [hholds.text_node] at hsize ⊢
  obtain ⟨file', bytes', hholds'⟩ := holds_of_appends hholds hrun hsize
  rw [hholds'.text_node]
  refine ⟨rfl, fun call v hstep hnext => ?_⟩
  have hoffset := (append_step hholds' hnext hstep).2
  rwa [List.length_append] at hoffset

end Append

/-! ### Two writes to a new file -/

section Small

/-- What `kmalloc` returns for a new file. -/
def appendNode : NewNode := ⟨(smallNode 8).dirent, 0x9000, some fun _ => 0xFF⟩

/-- A thread has created `/a` and opened it for appending. -/
def appendState : FdState :=
  (execAll fdNext smallFds [.create 1,
    .open 1 (cstring ['/', 'a']) (oCreat ||| oAppend) appendNode]).getD smallFds

/-- The state after a write through its descriptor. -/
def appendWrite (s : FdState) (data : List Byte) : FdState :=
  ((s.sysWrite 1 0 data none).map Prod.fst).toOption.getD s

theorem appendState_init : (appendSystem appendNode.dirent).init appendState := by
  refine ⟨?_, by decide, by decide⟩
  obtain ⟨s, hs⟩ : ∃ s, fdNext smallFds (.create 1) = some s := ⟨_, rfl⟩
  obtain ⟨s', hs'⟩ : ∃ s', fdNext s (.open 1 (cstring ['/', 'a']) (oCreat ||| oAppend) appendNode) =
      some s' := by
    obtain rfl := Option.some.inj hs
    exact Option.isSome_iff_exists.mp (by decide)
  have hstate : appendState = s' := by
    rw [appendState, execAll, hs, Option.bind_some, execAll, hs', Option.bind_some]
    rfl
  have hinit : fileCallSystem.ReachableUnder (NeverTruncated appendNode.dirent) smallFds :=
    .init smallFds_init
  have hquiet : NeverTruncated appendNode.dirent smallFds (.thread (.create 1)) :=
    fun _ hc => absurd hc not_false
  have hcreate := hinit.step hquiet (.thread (step_of_fdNext hs))
  rw [hstate]
  refine hcreate.step (a := .thread (.open 1 (cstring ['/', 'a']) (oCreat ||| oAppend) appendNode))
    ?_ (.thread (step_of_fdNext hs'))
  rintro c (⟨p, name, rfl⟩ | ⟨m, fs, -, rfl⟩)
  · trivial
  · exact fun _ => by decide

/-- A write through the descriptor is a step. -/
theorem appendWrite_step {s : FdState} {data : List Byte} (offset : Word)
    (hthread : 1 ∈ s.threads)
    (hfile : (s.openFile 1 0).toOption =
      some (some (0, ⟨appendNode.dirent, offset, oCreat ||| oAppend⟩)))
    (hok : ((s.sysWrite 1 0 data none).map Prod.fst).toOption.isSome = true) :
    (appendSystem appendNode.dirent).step s ⟨1, 0, data, none⟩ (appendWrite s data) := by
  obtain ⟨rax, hwrite⟩ := map_fst_eq_ok (eq_ok_getD hok)
  have happend : (oCreat ||| oAppend) &&& oAppend ≠ 0 := by decide
  exact .write hthread (Outcome.toOption_eq_some.mp hfile) rfl happend hwrite

/-- Two writes to the new file. -/
theorem text_appended_twice : ∃ s u, (appendSystem appendNode.dirent).init s ∧
    (appendSystem appendNode.dirent).Outputs (fun _ call => some call.data) s [[1, 2], [3]] u ∧
      (u.fs.node appendNode.dirent).text =
        (s.fs.node appendNode.dirent).text ++ [[1, 2], [3]].flatten := by
  have hfirst : (appendSystem appendNode.dirent).step appendState ⟨1, 0, [1, 2], none⟩
      (appendWrite appendState [1, 2]) :=
    appendWrite_step 0 (by decide) (by decide) (by decide +kernel)
  have hsecond : (appendSystem appendNode.dirent).step (appendWrite appendState [1, 2])
      ⟨1, 0, [3], none⟩ (appendWrite (appendWrite appendState [1, 2]) [3]) :=
    appendWrite_step 2 (by decide +kernel) (by decide +kernel) (by decide +kernel)
  have hrun : (appendSystem appendNode.dirent).Outputs (fun _ call => some call.data) appendState
      [[1, 2], [3]] (appendWrite (appendWrite appendState [1, 2]) [3]) :=
    System.Outputs.refl.tail hfirst |>.tail hsecond
  exact ⟨_, _, appendState_init, hrun, (text_appended appendState_init hrun (by decide)).1⟩

end Small

end KyroOS.Vfs
