import KyroOS.Disk.Exits
import KyroOS.Disk.WriteThrough

/-!
# The names of the files

A new file keeps the first 59 characters of its path, and is looked up by the whole of it; an entry
whose name is empty is free.

## Main definitions

* `stringOf` — the characters in front of the NUL
* `DistinctNames` — no two used entries hold the same name
* `NameCall`, `Identified`, `NamesIdentify` — the calls, and what their names should tell
* `NamesFit` — every file that is created has a name that its entry can hold

## Main results

* `strcmpFilename_eq` — the comparison of a stored name with a path
* `createdAt_iff` — a file is found under its path just when the path has 1 to 59 characters
* `namesIdentify_iff` — names identify files along the calls just when the names fit
* `not_namesIdentify` — a file with a path of 60 characters is not found under it
-/

namespace KyroOS.Disk

open Vfs (CString)

/-! ### Strings in a field -/

/-- The characters in front of the first NUL. -/
def stringOf (l : List Byte) : List Byte := l.takeWhile (· ≠ 0)

/-- The stored name of an entry. -/
def FileEntry.name (e : FileEntry) : List Byte := stringOf (List.ofFn e.filename)

/-- The string from an index on. -/
theorem stringOf_drop (l : List Byte) (i : ℕ) : stringOf (l.drop i) =
    if l.getD i 0 = 0 then [] else l.getD i 0 :: stringOf (l.drop (i + 1)) := by
  by_cases hi : i < l.length
  · have hget : l.getD i 0 = l[i] := by
      rw [List.getD_eq_getElem?_getD, List.getElem?_eq_getElem hi, Option.getD_some]
    rw [List.drop_eq_getElem_cons hi, hget]
    by_cases hzero : l[i] = 0
    · rw [if_pos hzero, stringOf, List.takeWhile_cons_of_neg (by simpa using hzero)]
    · rw [if_neg hzero, stringOf, List.takeWhile_cons_of_pos (by simpa using hzero)]
      rfl
  · have hget : l.getD i 0 = 0 := by
      rw [List.getD_eq_getElem?_getD, List.getElem?_eq_none (not_lt.mp hi), Option.getD_none]
    rw [List.drop_eq_nil_of_le (not_lt.mp hi), if_pos hget]
    rfl

/-- A character of the field. -/
theorem getD_ofFn {filename : Fin 60 → Byte} {i : ℕ} (hi : i < 60) :
    (List.ofFn filename).getD i 0 = filename ⟨i, hi⟩ := by
  rw [List.getD_eq_getElem?_getD, List.getElem?_eq_getElem (by rwa [List.length_ofFn]),
    Option.getD_some, List.getElem_ofFn]

/-- From each index on, the comparison is one of strings. -/
theorem strcmpFrom_eq {filename : Fin 60 → Byte} (path : CString) (hend : filename 59 = 0) (n : ℕ)
    (hpos : 0 < n) (hn : n ≤ 60) : strcmpFrom filename path n =
      .ok (decide (stringOf ((List.ofFn filename).drop (60 - n)) =
        stringOf (path.drop (60 - n)))) := by
  induction n with
  | zero => exact absurd hpos (lt_irrefl 0)
  | succ n ih =>
    have hi : 59 - n < 60 := by omega
    have hchar : path.getD (59 - n) 0 = charAt path (59 - n) := rfl
    rw [strcmpFrom, dif_pos hi, show 60 - (n + 1) = 59 - n by omega,
      stringOf_drop (List.ofFn filename), getD_ofFn hi, stringOf_drop path, hchar]
    generalize hc : filename ⟨59 - n, hi⟩ = c
    generalize charAt path (59 - n) = d
    by_cases hzero : c = 0
    · -- the name ends here, and so does the comparison
      rw [if_neg fun h => h.1 hzero, if_pos hzero, hzero]
      by_cases hd : d = 0
      · rw [if_pos hd, hd, decide_eq_true rfl, decide_eq_true rfl]
      · rw [if_neg hd, decide_eq_false (Ne.symm hd), decide_eq_false (List.cons_ne_nil _ _).symm]
    · rw [if_neg hzero]
      by_cases hcd : c = d
      · have hpos' : 0 < n := by
          by_contra hn0
          have hi' : (⟨59 - n, hi⟩ : Fin 60) = 59 := Fin.ext (by show 59 - n = 59; omega)
          exact hzero (hc.symm.trans ((congrArg filename hi').trans hend))
        rw [if_pos ⟨hzero, hcd⟩, if_neg fun hd => hzero (hcd.trans hd), ih hpos' (by omega),
          show 59 - n + 1 = 60 - n by omega, hcd]
        exact congrArg _ (decide_eq_decide.mpr (List.cons_inj_right d).symm)
      · rw [if_neg fun h => hcd h.2, decide_eq_false hcd]
        refine congrArg _ (decide_eq_false fun heq => ?_).symm
        by_cases hd : d = 0
        · rw [if_pos hd] at heq
          exact List.cons_ne_nil _ _ heq
        · rw [if_neg hd] at heq
          exact hcd (List.cons.inj heq).1

/-- `strcmp` compares the strings in front of the NULs. -/
theorem strcmpFilename_eq {filename : Fin 60 → Byte} (path : CString) (hend : filename 59 = 0) :
    strcmpFilename filename path =
      .ok (decide (stringOf (List.ofFn filename) = stringOf path)) :=
  strcmpFrom_eq path hend 60 (by omega) le_rfl

/-- `strncpy` stores the first 59 characters. -/
theorem stringOf_copyFilename (path : CString) :
    stringOf (List.ofFn (copyFilename path)) = (stringOf path).take 59 := by
  have hfrom : ∀ n ≤ 59, stringOf ((List.ofFn (copyFilename path)).drop (59 - n)) =
      (stringOf (path.drop (59 - n))).take n := by
    intro n
    induction n with
    | zero =>
      intro _
      rw [List.take_zero, stringOf_drop, getD_ofFn (by omega)]
      rfl
    | succ n ih =>
      intro hn
      have hi : 59 - (n + 1) < 59 := by omega
      have hchar : copyFilename path ⟨59 - (n + 1), by omega⟩ = path.getD (59 - (n + 1)) 0 :=
        if_pos hi
      rw [stringOf_drop, getD_ofFn (by omega), hchar, stringOf_drop path]
      by_cases hzero : path.getD (59 - (n + 1)) 0 = 0
      · rw [if_pos hzero, if_pos hzero, List.take_nil]
      · rw [if_neg hzero, if_neg hzero, List.take_succ_cons,
          show 59 - (n + 1) + 1 = 59 - n by omega, ih (by omega)]
  exact hfrom 59 le_rfl

/-- A free entry is one without a name. -/
theorem isFree_iff {e : FileEntry} : e.isFree = true ↔ e.name = [] := by
  have hname : e.name = _ := stringOf_drop (List.ofFn e.filename) 0
  rw [getD_ofFn (by omega)] at hname
  rw [hname, FileEntry.isFree, decide_eq_true_iff]
  constructor
  · exact fun hzero => if_pos hzero
  · intro h
    by_contra hzero
    rw [show (⟨0, by omega⟩ : Fin 60) = 0 from rfl, if_neg hzero] at h
    cases h

/-- The entry that is found under a path is the one with its name. -/
theorem isNamed_iff {e : FileEntry} (path : CString) (hend : e.filename 59 = 0) :
    e.isNamed path = .ok true ↔ e.isFree = false ∧ e.name = stringOf path := by
  rw [FileEntry.isNamed]
  by_cases hfree : e.isFree = true
  · rw [if_pos hfree, hfree]
    constructor
    · intro h
      cases h
    · intro h
      cases h.1
  · rw [if_neg hfree, strcmpFilename_eq path hend]
    constructor
    · intro h
      exact ⟨Bool.eq_false_iff.mpr hfree, of_decide_eq_true (Except.ok.inj h)⟩
    · intro h
      exact congrArg _ (decide_eq_true h.2)

/-! ### What the names should tell -/

/-- A call that creates or deletes a file. -/
inductive NameCall
  | create (path : CString) (flags : BitVec 32)
  | delete (path : CString)

section Names

variable {ν σ : Type}

/-- The state and the result of a call. -/
def NameCall.run (D : Devices ν σ) (s : FsState ν σ) : NameCall → Outcome (FsState ν σ × Int)
  | .create path flags => fsCreateFile D s path flags
  | .delete path => fsDeleteFile D s path

/-- No two used entries hold the same name. -/
def DistinctNames (s : FsState ν σ) : Prop :=
  ∀ i j e e', i ≠ j → s.entry i = .ok e → s.entry j = .ok e' → e.isFree = false →
    e'.isFree = false → e.name ≠ e'.name

/-- The entry that was free is found under the path, and the path is not created again. -/
def CreatedAt (D : Devices ν σ) (s : FsState ν σ) (path : CString) (t : FsState ν σ) : Prop :=
  (∃ idx, findFreeFileEntry s.fs.fileTableCache = .ok (some idx) ∧
    findFileEntry path t.fs.fileTableCache = .ok (some idx)) ∧
  ∀ flags, fsCreateFile D t path flags = .ok (t, -1)

/-- A call that created a file made an entry that its path leads to. -/
def Identified (D : Devices ν σ) (s : FsState ν σ) (t : FsState ν σ) (r : Int) : NameCall → Prop
  | .create path _ => r = 0 → CreatedAt D s path t
  | .delete _ => True

/-- Names identify files in every state along the calls. -/
def NamesIdentify (D : Devices ν σ) : FsState ν σ → List NameCall → Prop
  | s, [] => DistinctNames s
  | s, call :: calls => DistinctNames s ∧ ∃ t r, call.run D s = .ok (t, r) ∧
      Identified D s t r call ∧ NamesIdentify D t calls

/-- `fs_create_file` is refused, or an entry can hold the path and is used with it. -/
def NameCall.Fits (s : FsState ν σ) : NameCall → Prop
  | .create path _ => findFileEntry path s.fs.fileTableCache ≠ .ok none ∨
      findFreeFileEntry s.fs.fileTableCache = .ok none ∨
      0 < (stringOf path).length ∧ (stringOf path).length < 60
  | .delete _ => True

/-- Every file that is created along the calls has a name that fits. -/
def NamesFit (D : Devices ν σ) : FsState ν σ → List NameCall → Prop
  | _, [] => True
  | s, call :: calls => call.Fits s ∧ ∀ t r, call.run D s = .ok (t, r) → NamesFit D t calls

variable {D : Devices ν σ} {node : ν} {s t : FsState ν σ} {c : Cache} {path : CString}

/-! ### Searches -/

/-- A search that ends without an entry has passed all of them. -/
theorem of_findEntry_none {p : FileEntry → Outcome Bool} {j : ℕ} {e : FileEntry} (n i : ℕ)
    (h : findEntry c p n i = .ok none) (hle : i ≤ j) (hlt : j < i + n) (hget : c.get j = .ok e) :
    p e = .ok false := by
  induction n generalizing i with
  | zero => omega
  | succ n ih =>
    rw [findEntry] at h
    obtain ⟨e', hget', hrest⟩ := Outcome.bind_eq_ok.mp h
    obtain ⟨r, hr, hrest⟩ := Outcome.bind_eq_ok.mp hrest
    cases r with
    | true => cases Except.ok.inj hrest
    | false =>
      by_cases hij : i = j
      · obtain rfl : e' = e := Except.ok.inj (hget'.symm.trans (hij ▸ hget))
        exact hr
      · exact ih (i + 1) hrest (by omega) (by omega)

/-- A path is not found just when no used entry has its name. -/
theorem Table.find_eq_none_iff (h : Table node s c) (path : CString) :
    findFileEntry path s.fs.fileTableCache = .ok none ↔
      ∀ e ∈ c.entries, e.isFree = false → e.name ≠ stringOf path := by
  constructor
  · intro hnone e he hused hname
    obtain ⟨⟨j, hj⟩, rfl⟩ := List.get_of_mem he
    have hj' : j < 32 := h.length ▸ hj
    rw [h.cache] at hnone
    have hno := of_findEntry_none fsMaxFiles 0 hnone (Nat.zero_le j)
      (by rw [Nat.zero_add]; exact hj') (h.get hj')
    have hyes := (isNamed_iff path (h.names _ he)).mpr ⟨hused, hname⟩
    cases Except.ok.inj (hno.symm.trans hyes)
  · intro hall
    rcases findFileEntry_spec h path with hnone | ⟨j, hj, -, hnamed⟩
    · exact hnone
    · have hmem := List.get_mem c.entries ⟨j, h.length ▸ hj⟩
      obtain ⟨hused, hname⟩ := (isNamed_iff path (h.names _ hmem)).mp hnamed
      exact absurd hname (hall _ hmem hused)

/-! ### Files that are created -/

theorem createdEntry_name (path : CString) (flags : BitVec 32) :
    (createdEntry path flags).name = (stringOf path).take 59 :=
  stringOf_copyFilename path

/-- The names are distinct after an entry is set that is free, or has a name of its own. -/
theorem DistinctNames.set {idx : ℕ} {e : FileEntry} (hdistinct : DistinctNames s)
    (h : Table node s c) (ht : Table node t (c.set idx e))
    (hnew : e.isFree = false → ∀ e' ∈ c.entries, e'.isFree = false → e'.name ≠ e.name) :
    DistinctNames t := by
  intro i j eᵢ eⱼ hij heᵢ heⱼ hused hused'
  obtain ⟨hi, rfl⟩ := ht.of_entry heᵢ
  obtain ⟨hj, rfl⟩ := ht.of_entry heⱼ
  obtain ⟨hi', heqᵢ⟩ := Cache.entries_set hi
  obtain ⟨hj', heqⱼ⟩ := Cache.entries_set hj
  rw [heqᵢ] at hused ⊢
  rw [heqⱼ] at hused' ⊢
  have hlen := h.length
  split_ifs at hused hused' ⊢ with hidx hjdx hjdx
  · exact absurd (hidx.trans hjdx.symm) hij
  · exact (hnew hused _ (List.get_mem ..) hused').symm
  · exact hnew hused' _ (List.get_mem ..) hused
  · exact hdistinct i j _ _ hij (h.entry (hlen ▸ hi')) (h.entry (hlen ▸ hj')) hused hused'

/-- A file is found under its path just when its entry could hold the path. -/
theorem createdAt_iff {idx : ℕ} {flags : BitVec 32} (h : Table node s c) (hidx : idx < 32)
    (hnone : findFileEntry path s.fs.fileTableCache = .ok none)
    (hfree : findFreeFileEntry s.fs.fileTableCache = .ok (some idx))
    (ht : Table node t (c.set idx (createdEntry path flags))) :
    CreatedAt D s path t ↔ 0 < (stringOf path).length ∧ (stringOf path).length < 60 := by
  have hidx' : idx < (c.set idx (createdEntry path flags)).entries.length := ht.length ▸ hidx
  have hget : (c.set idx (createdEntry path flags)).entries.get ⟨idx, hidx'⟩ =
      createdEntry path flags := by
    obtain ⟨_, heq⟩ := Cache.entries_set hidx'
    rw [heq, if_pos rfl]
  constructor
  · rintro ⟨⟨idx', hfree', hfind⟩, -⟩
    obtain rfl : idx' = idx := Option.some.inj (Except.ok.inj (hfree'.symm.trans hfree))
    rcases findFileEntry_spec ht path with hno | ⟨j, hj, hsome, hnamed⟩
    · cases Except.ok.inj (hno.symm.trans hfind)
    · obtain rfl : j = idx' := Option.some.inj (Except.ok.inj (hsome.symm.trans hfind))
      rw [hget, isNamed_iff path rfl] at hnamed
      obtain ⟨hused, hname⟩ := hnamed
      have hne : (createdEntry path flags).name ≠ [] := fun hnil => by
        rw [isFree_iff.mpr hnil] at hused
        cases hused
      rw [hname] at hne
      have htake := (createdEntry_name path flags).symm.trans hname
      have hle := congrArg List.length htake
      rw [List.length_take] at hle
      exact ⟨List.length_pos_iff.mpr hne, by omega⟩
  · rintro ⟨hpos, hlt⟩
    have hname : (createdEntry path flags).name = stringOf path :=
      (createdEntry_name path flags).trans (List.take_of_length_le (by omega))
    have hused : (createdEntry path flags).isFree = false := by
      rw [← Bool.not_eq_true, isFree_iff, hname]
      exact List.length_pos_iff.mp hpos
    have hyes : findFileEntry path t.fs.fileTableCache ≠ .ok none := fun hno =>
      (ht.find_eq_none_iff path).mp hno _ (List.get_mem _ ⟨idx, hidx'⟩)
        (hget.symm ▸ hused) (hget.symm ▸ hname)
    constructor
    · refine ⟨idx, hfree, ?_⟩
      rcases findFileEntry_spec ht path with hno | ⟨j, hj, hsome, hnamed⟩
      · exact absurd hno hyes
      · obtain ⟨hj', heq⟩ := Cache.entries_set (ht.length ▸ hj)
        rw [heq] at hnamed
        split_ifs at hnamed with hjdx
        · rw [hsome, hjdx]
        · -- the other entries did not have the name before
          have hmem := List.get_mem c.entries ⟨j, hj'⟩
          obtain ⟨hused', hname'⟩ := (isNamed_iff path (h.names _ hmem)).mp hnamed
          exact absurd hname' ((h.find_eq_none_iff path).mp hnone _ hmem hused')
    · intro flags'
      rcases fsCreateFile_exits (D := D) ht path flags' with ⟨hrefused, -⟩ | ⟨_, _, -, -, hno, -⟩
      · exact hrefused
      · exact absurd hno hyes

/-! ### Sequences of calls -/

/-- What one call does to a table with distinct names. -/
theorem nameCall_step (h : Table node s c) (hdistinct : DistinctNames s) (call : NameCall) :
    ∃ t r c', call.run D s = .ok (t, r) ∧ Table node t c' ∧
      (Identified D s t r call ↔ call.Fits s) ∧ (call.Fits s → DistinctNames t) := by
  cases call with
  | create path flags =>
    rcases fsCreateFile_exits (D := D) h path flags with
      ⟨hrun, hwhy⟩ | ⟨t, idx, hrun, hidx, hnone, hfree, hfs⟩
    · have hfits : (NameCall.create path flags).Fits s := by
        rcases hwhy with ⟨idx, hfind⟩ | hfull
        · exact .inl fun hno => by cases Except.ok.inj (hno.symm.trans hfind)
        · exact .inr (.inl hfull)
      exact ⟨s, -1, c, hrun, h, iff_of_true (fun hr => absurd hr (by decide)) hfits,
        fun _ => hdistinct⟩
    · have ht : Table node t (c.set idx (createdEntry path flags)) :=
        h.of_set hfs rfl h.start h.num
      have hiff := createdAt_iff (D := D) h hidx hnone hfree ht
      have hfits : (NameCall.create path flags).Fits s ↔
          0 < (stringOf path).length ∧ (stringOf path).length < 60 := by
        constructor
        · rintro (hsome | hfull | hlen)
          · exact absurd hnone hsome
          · cases Except.ok.inj (hfull.symm.trans hfree)
          · exact hlen
        · exact fun hlen => .inr (.inr hlen)
      refine ⟨t, 0, _, hrun, ht, ?_, fun hfit => hdistinct.set h ht fun _ e he hused => ?_⟩
      · rw [hfits, ← hiff]
        exact ⟨fun hid => hid rfl, fun hat _ => hat⟩
      · rw [createdEntry_name, List.take_of_length_le (by have hlen := hfits.mp hfit; omega)]
        exact (h.find_eq_none_iff path).mp hnone e he hused
  | delete path =>
    rcases fsDeleteFile_exits (D := D) h path with hrun | ⟨t, idx, hrun, hfs⟩
    · exact ⟨s, -1, c, hrun, h, iff_of_true trivial trivial, fun _ => hdistinct⟩
    · have ht : Table node t (c.set idx FileEntry.zero) := h.of_set hfs rfl h.start h.num
      refine ⟨t, 0, _, hrun, ht, iff_of_true trivial trivial, fun _ => ?_⟩
      exact hdistinct.set h ht fun hused => by cases hused

/-- From a table with distinct names, the names identify the files along any calls just when every
file that is created has a path of 1 to 59 characters. -/
theorem namesIdentify_iff (h : Table node s c) (hdistinct : DistinctNames s)
    (calls : List NameCall) : NamesIdentify D s calls ↔ NamesFit D s calls := by
  induction calls generalizing s c with
  | nil => exact iff_of_true hdistinct trivial
  | cons call calls ih =>
    obtain ⟨t, r, c', hrun, ht, hid, hkeep⟩ := nameCall_step (D := D) h hdistinct call
    have honly : ∀ {t' r'}, call.run D s = .ok (t', r') → t' = t ∧ r' = r := fun hrun' =>
      Prod.mk.inj (Except.ok.inj (hrun'.symm.trans hrun))
    constructor
    · rintro ⟨-, t', r', hrun', hident, hrest⟩
      obtain ⟨rfl, rfl⟩ := honly hrun'
      have hfits := hid.mp hident
      refine ⟨hfits, fun t'' r'' hrun'' => ?_⟩
      obtain ⟨rfl, rfl⟩ := honly hrun''
      exact (ih ht (hkeep hfits)).mp hrest
    · rintro ⟨hfits, hrest⟩
      exact ⟨hdistinct, t, r, hrun, hid.mpr hfits, (ih ht (hkeep hfits)).mpr (hrest t r hrun)⟩

/-- A new file system has a table with distinct names. -/
theorem distinctNames_init {view : σ → BitVec 32 → Block} {lba size : BitVec 32}
    (hD : Backs D node view) (h : FreshlyMounted D node lba size s) :
    ∃ block, Table node s (emptyCache block) ∧ DistinctNames s := by
  obtain ⟨block, htable, -⟩ := table_init hD.stores h
  refine ⟨block, htable, fun i j e e' _ he _ hused _ => ?_⟩
  obtain ⟨hi, rfl⟩ := htable.of_entry he
  rw [List.eq_of_mem_replicate (List.get_mem (emptyCache block).entries ⟨i, hi⟩)] at hused
  cases hused

end Names

/-! ### A path that is too long -/

/-- A file with a short name is found, and deleted. -/
theorem namesIdentify_short : NamesIdentify imageDevices imageMounted
    [.create [0x61] fsFileFlagFile, .delete [0x61]] := by
  obtain ⟨block, htable, hdistinct⟩ := distinctNames_init imageDevices_backs imageMounted_fresh
  apply (namesIdentify_iff htable hdistinct _).mpr
  exact ⟨.inr (.inr (by decide)), fun _ _ _ => ⟨trivial, fun _ _ _ => trivial⟩⟩

/-- A path of 60 characters. -/
def longPath : CString := List.replicate 60 0x61

/-- A file with a path of 60 characters is created, and not found under it. -/
theorem not_namesIdentify :
    ¬ ∀ calls, NamesIdentify imageDevices imageMounted calls := by
  intro hall
  obtain ⟨block, htable, hdistinct⟩ := distinctNames_init imageDevices_backs imageMounted_fresh
  obtain ⟨t, r, c', hrun, -, hid, -⟩ := nameCall_step (D := imageDevices) htable hdistinct
    (.create longPath fsFileFlagFile)
  obtain ⟨-, t', r', hrun', hident, -⟩ := hall [.create longPath fsFileFlagFile]
  obtain ⟨rfl, rfl⟩ := Prod.mk.inj (Except.ok.inj (hrun'.symm.trans hrun))
  rcases hid.mp hident with hsome | hfull | ⟨-, hlt⟩
  · refine hsome ((htable.find_eq_none_iff longPath).mpr fun e he hused => ?_)
    rw [List.eq_of_mem_replicate he] at hused
    cases hused
  · rw [htable.cache] at hfull
    cases hfull
  · revert hlt
    decide

end KyroOS.Disk
