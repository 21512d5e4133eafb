import KyroOS.Packages.Install

/-!
# Stores of an installation

The sizes and the names of an archive are not checked. Both loops come to their end all the same,
but the stores are inside the arrays for some archives only.

## Main definitions

* `InfoFits` — values that are shorter than their arrays
* `Filled` — an array that has a string when the file was read
* `Ready` — what the second loop and the registration need
* `Installable` — what the function needs of an archive

## Main results

* `pkgInstallFile_ne_outOfFuel` — both loops come to their end
* `pkgInstallFile_completes_iff` — the function comes to its end, with each store inside its array,
  if and only if the archive is installable
-/

namespace KyroOS.Packages

open Vfs BoundedArray

/-! ### What an archive needs -/

/-- The name of an entry has an end. -/
def KpkgEntry.Named (e : KpkgEntry) : Prop := 0 ∈ e.filename.toList

/-- The entry of `info.txt`. -/
def KpkgEntry.isInfo (e : KpkgEntry) : Bool := e.isMeta ≠ 0 ∧ str e.filename = some infoName

/-- The names of the other files that are compared with that of `info.txt` have an end. -/
def NamesEnd (es : List (KpkgEntry × List Byte)) : Prop :=
  ∀ x ∈ es.takeWhile fun x => !x.1.isInfo, x.1.isMeta ≠ 0 → x.1.Named

/-- The text of `info.txt`, up to the first zero. -/
def infoText (e : KpkgEntry) (data : List Byte) : CString :=
  (data.take e.size.toNat).takeWhile (· ≠ 0)

/-- The values are shorter than their arrays. -/
structure InfoFits (info : CString) : Prop where
  name : ∀ v ∈ lookup info nameKey, v.length < 128
  version : ∀ v ∈ lookup info versionKey, v.length < 32
  installPath : ∀ v ∈ lookup info installPathKey, v.length < 256

/-- The array has a string when the file was read: the value of the key, or what it had before. -/
def Filled {n : ℕ} (info key : CString) (a : Vector Byte n) : Prop :=
  lookup info key = none → 0 ∈ a.toList

/-- What the second loop and the registration need, with conditions on the arrays that they read. -/
structure Ready {σ : Type} (calls : InstallCalls σ) (again : List Byte)
    (name version installPath : Prop) : Prop where
  extract : ∀ x ∈ entries again, x.1.isMeta = 0 → x.1.Named ∧ installPath
  register : 0 < calls.dbFd → name ∧ version ∧ installPath

/-- The names up to `info.txt` have an end, and the file fits into its array, its values into theirs,
and the rest of the archive is ready. A file that is cut off is only read. -/
structure Installable {σ : Type} (calls : InstallCalls σ) (l : Locals) (data again : List Byte) :
    Prop where
  named : NamesEnd (entries data)
  info : ∀ e rest, (entries data).find? (fun x => x.1.isInfo) = some (e, rest) →
    if e.size.toNat ≤ rest.length then
      e.size.toNat < 512 ∧ InfoFits (infoText e rest) ∧
        Ready calls again (Filled (infoText e rest) nameKey l.name)
          (Filled (infoText e rest) versionKey l.version)
          (Filled (infoText e rest) installPathKey l.installPath)
    else rest.length ≤ 512

section InBounds

variable {σ : Type} {calls : InstallCalls σ} {l : Locals} {e : KpkgEntry} {n turns : ℕ}
  {data again rest : List Byte} {info key : CString} {s : σ}

/-! ### Strings -/

theorem str_ne_none_iff {a : Vector Byte n} : str a ≠ none ↔ 0 ∈ a.toList := by
  rw [Ne, str_eq_none_iff, not_not]

theorem exists_str {a : Vector Byte n} (h : 0 ∈ a.toList) : ∃ t, str a = some t :=
  Option.ne_none_iff_exists'.mp (str_ne_none_iff.mpr h)

/-- After the file was read an array has a string when it is filled. -/
theorem mem_toList_parseInfo {a b : Vector Byte n}
    (hkey : ∀ c ∈ key ++ [equalsSign], inInfoLine c = true) (hinfo : 0 ∉ info)
    (h : parseInfo info key a = .ok b) : 0 ∈ b.toList ↔ Filled info key a := by
  rw [← str_ne_none_iff, str_of_parseInfo hkey hinfo h, Filled, ← str_ne_none_iff]
  cases lookup info key with
  | none => exact ⟨fun h _ => h, fun h => h rfl⟩
  | some v => exact iff_of_true (by rintro ⟨⟩) (by rintro ⟨⟩)

/-! ### The second loop -/

theorem fullPathOf_completesIf :
    CompletesIf (fullPathOf l e) (e.Named ∧ 0 ∈ l.installPath.toList) where
  completes := by
    rintro ⟨hname, hpath⟩
    obtain ⟨name, hname⟩ := exists_str hname
    obtain ⟨path, hpath⟩ := exists_str hpath
    obtain ⟨b, hb, -⟩ := fullPathOf_of_str hpath hname
    exact ⟨b, hb⟩
  fault h := by
    rw [fullPathOf]
    cases hpath : str l.installPath with
    | none => rfl
    | some path =>
      have hname : str e.filename = none := by
        by_contra hnot
        have hpath' : str l.installPath ≠ none := by
          rw [hpath]
          rintro ⟨⟩
        exact h ⟨str_ne_none_iff.mp hnot, str_ne_none_iff.mp hpath'⟩
      rw [hname]
      rfl

/-- An entry with a name is extracted, and the next header is behind its data. -/
theorem extractEntry_of_named (hname : e.Named) (hpath : 0 ∈ l.installPath.toList) :
    ∃ s', extractEntry calls l e data s = .ok (s', data.drop e.size.toInt.toNat) := by
  obtain ⟨name, hname⟩ := exists_str hname
  obtain ⟨path, hpath⟩ := exists_str hpath
  exact extractEntry_of_str calls hpath hname s

theorem extractEntry_completesIf :
    CompletesIf (extractEntry calls l e data s) (e.Named ∧ 0 ∈ l.installPath.toList) where
  completes := fun ⟨hname, hpath⟩ =>
    let ⟨_, hs'⟩ := extractEntry_of_named hname hpath
    ⟨_, hs'⟩
  fault h := by
    -- the path is put together first
    rw [extractEntry, fullPathOf_completesIf.fault h]
    rfl

/-- Each file and each directory needs a name and the path that it is put below. -/
theorem secondPass_completesIf (hturns : data.length < turns) :
    CompletesIf (secondPass calls l turns data s)
      (∀ x ∈ entries data, x.1.isMeta = 0 → x.1.Named ∧ 0 ∈ l.installPath.toList) := by
  induction turns generalizing data s with
  | zero => exact absurd hturns (Nat.not_lt_zero _)
  | succ turns ih =>
    rw [secondPass]
    cases hread : readEntry data with
    | none =>
      rw [entries_of_none hread]
      exact (CompletesIf.ok s).congr ⟨fun _ _ hx => absurd hx List.not_mem_nil, fun _ => trivial⟩
    | some entry =>
      obtain ⟨e, rest⟩ := entry
      have hlength := length_of_readEntry hread
      have hsize : 0 < kpkgEntrySize := by decide
      have hless : (rest.drop e.size.toInt.toNat).length < turns := by
        rw [List.length_drop]
        omega
      rw [entries_of_some hread]
      simp only [List.forall_mem_cons]
      by_cases hmeta : e.isMeta = 0
      · rw [if_pos hmeta]
        refine (extractEntry_completesIf.bind fun r hr => ?_).congr
          (and_congr_left fun _ => ⟨fun h _ => h, fun h => h hmeta⟩)
        -- an entry that was extracted had a name, so that the next header is behind its data
        obtain ⟨hname, hpath⟩ := extractEntry_completesIf.completes_iff.mp ⟨r, hr⟩
        obtain ⟨s', hs'⟩ := extractEntry_of_named hname hpath
        obtain rfl := Except.ok.inj (hr.symm.trans hs')
        exact ih hless
      · obtain ⟨s', hs'⟩ := readData_eq (fun (s : σ) _ => s)
          (Nat.lt_succ_self rest.length) l.fileBuf e.size.toInt s
        rw [if_neg hmeta, hs', ok_bind]
        exact (ih hless).congr ⟨fun h => ⟨fun hzero => absurd hzero hmeta, h⟩, fun h => h.2⟩

/-- With three strings the line is put together, and it has an end. -/
theorem entryLineOf_of_mem (hname : 0 ∈ l.name.toList) (hversion : 0 ∈ l.version.toList)
    (hpath : 0 ∈ l.installPath.toList) : ∃ b line, entryLineOf l = .ok b ∧ str b = some line := by
  obtain ⟨name, hname⟩ := exists_str hname
  obtain ⟨version, hversion⟩ := exists_str hversion
  obtain ⟨path, hpath⟩ := exists_str hpath
  obtain ⟨b, hb, hstr⟩ := entryLineOf_of_str hname hversion hpath
  exact ⟨b, _, hb, hstr⟩

theorem entryLineOf_completesIf :
    CompletesIf (entryLineOf l)
      (0 ∈ l.name.toList ∧ 0 ∈ l.version.toList ∧ 0 ∈ l.installPath.toList) where
  completes := by
    rintro ⟨hname, hversion, hpath⟩
    obtain ⟨b, -, hb, -⟩ := entryLineOf_of_mem hname hversion hpath
    exact ⟨b, hb⟩
  fault h := by
    -- the strings are read one after the other, and the first without an end stops the code
    rw [entryLineOf]
    cases hname : str l.name with
    | none => rfl
    | some name =>
      cases hversion : str l.version with
      | none => rfl
      | some version =>
        have hpath : str l.installPath = none := by
          by_contra hnot
          have hname' : str l.name ≠ none := by
            rw [hname]
            rintro ⟨⟩
          have hversion' : str l.version ≠ none := by
            rw [hversion]
            rintro ⟨⟩
          exact h ⟨str_ne_none_iff.mp hname', str_ne_none_iff.mp hversion',
            str_ne_none_iff.mp hnot⟩
        rw [hpath]
        rfl

/-- With arrays that have strings, the second loop and the registration come to their end. -/
theorem installFiles_completesIf :
    CompletesIf (installFiles calls l again s)
      (Ready calls again (0 ∈ l.name.toList) (0 ∈ l.version.toList)
        (0 ∈ l.installPath.toList)) := by
  rw [installFiles]
  refine ((secondPass_completesIf (Nat.lt_succ_self _)).bind fun s' _ =>
    (?_ : CompletesIf _ (0 < calls.dbFd → 0 ∈ l.name.toList ∧ 0 ∈ l.version.toList ∧
      0 ∈ l.installPath.toList))).congr ⟨fun h => ⟨h.1, h.2⟩, fun h => ⟨h.extract, h.register⟩⟩
  by_cases hdb : 0 < calls.dbFd
  · rw [if_pos hdb]
    refine (entryLineOf_completesIf.bind fun line hline => (?_ : CompletesIf _ True)).congr
      ⟨fun h _ => h.1, fun h => ⟨h hdb, trivial⟩⟩
    obtain ⟨hname, hversion, hpath⟩ := entryLineOf_completesIf.completes_iff.mp ⟨line, hline⟩
    obtain ⟨b, _, hb, hstr⟩ := entryLineOf_of_mem hname hversion hpath
    obtain rfl := Except.ok.inj (hline.symm.trans hb)
    rw [hstr]
    exact CompletesIf.ok _
  · rw [if_neg hdb]
    exact (CompletesIf.ok _).congr ⟨fun _ h => absurd h hdb, fun _ => trivial⟩

/-! ### The first loop -/

theorem isInfoEntry_of_named (h : e.isMeta ≠ 0 → e.Named) : isInfoEntry e = .ok e.isInfo := by
  rw [isInfoEntry, KpkgEntry.isInfo]
  by_cases hmeta : e.isMeta = 0
  · rw [if_pos hmeta]
    exact congrArg _ (decide_eq_false fun h => h.1 hmeta).symm
  · obtain ⟨name, hname⟩ := exists_str (h hmeta)
    rw [if_neg hmeta, hname]
    refine congrArg _ (decide_eq_decide.mpr ?_)
    exact ⟨fun hsame => ⟨hmeta, congrArg some hsame⟩, fun hsame => Option.some.inj hsame.2⟩

theorem isInfoEntry_of_not_named (hmeta : e.isMeta ≠ 0) (h : ¬ e.Named) :
    isInfoEntry e = .error .fault := by
  have hname : str e.filename = none := by
    by_contra hnot
    exact h (str_ne_none_iff.mp hnot)
  rw [isInfoEntry, if_neg hmeta, hname]
  rfl

theorem named_of_isInfo (h : e.isInfo = true) : e.Named := by
  obtain ⟨-, hname⟩ := of_decide_eq_true h
  exact str_ne_none_iff.mp (hname ▸ nofun)

theorem namesEnd_cons_of_isInfo {es : List (KpkgEntry × List Byte)} (h : e.isInfo = true) :
    NamesEnd ((e, rest) :: es) := by
  rw [NamesEnd, List.takeWhile_cons_of_neg (by simp [h])]
  exact fun _ hx => absurd hx List.not_mem_nil

theorem namesEnd_cons {es : List (KpkgEntry × List Byte)} (h : ¬ e.isInfo = true) :
    NamesEnd ((e, rest) :: es) ↔ (e.isMeta ≠ 0 → e.Named) ∧ NamesEnd es := by
  rw [NamesEnd, List.takeWhile_cons_of_pos (by simp [h]), List.forall_mem_cons]
  exact Iff.rfl

/-- The loop reads `info.txt`, when it comes to it. -/
theorem firstPass_eq (hturns : data.length < turns) :
    (NamesEnd (entries data) → firstPass l turns data =
      match (entries data).find? fun x => x.1.isInfo with
      | none => .ok none
      | some x => readInfo l x.1 x.2) ∧
    (¬ NamesEnd (entries data) → firstPass l turns data = .error .fault) := by
  induction turns generalizing data with
  | zero => exact absurd hturns (Nat.not_lt_zero _)
  | succ turns ih =>
    rw [firstPass]
    cases hread : readEntry data with
    | none =>
      rw [entries_of_none hread]
      exact ⟨fun _ => rfl, fun h => absurd (fun _ hx => absurd hx List.not_mem_nil) h⟩
    | some entry =>
      obtain ⟨e, rest⟩ := entry
      have hlength := length_of_readEntry hread
      have hsize : 0 < kpkgEntrySize := by decide
      have hless : (rest.drop e.size.toInt.toNat).length < turns := by
        rw [List.length_drop]
        omega
      obtain ⟨s', hskip⟩ := readData_eq (fun (_ : Unit) _ => ())
        (Nat.lt_succ_self rest.length) l.discardBuf e.size.toInt ()
      rw [entries_of_some hread]
      by_cases hinfo : e.isInfo = true
      · -- the loop ends here, and the names behind this entry do not matter
        refine ⟨fun _ => ?_, fun h => absurd (namesEnd_cons_of_isInfo hinfo) h⟩
        rw [List.find?_cons_of_pos (p := fun x : KpkgEntry × List Byte => x.1.isInfo) hinfo]
        dsimp only
        rw [isInfoEntry_of_named fun _ => named_of_isInfo hinfo, ok_bind, if_pos hinfo]
      · rw [namesEnd_cons hinfo,
          List.find?_cons_of_neg (p := fun x : KpkgEntry × List Byte => x.1.isInfo) hinfo]
        by_cases hnamed : e.isMeta ≠ 0 → e.Named
        · dsimp only
          rw [isInfoEntry_of_named hnamed, ok_bind, if_neg hinfo, hskip, ok_bind]
          exact ⟨fun h => (ih hless).1 h.2, fun h => (ih hless).2 fun hends => h ⟨hnamed, hends⟩⟩
        · -- a name without an end is compared with that of the file
          refine ⟨fun h => absurd h.1 hnamed, fun _ => ?_⟩
          obtain ⟨hmeta, hnot⟩ := Classical.not_imp.mp hnamed
          dsimp only
          rw [isInfoEntry_of_not_named hmeta hnot]
          rfl

/-! ### The file -/

theorem nameKey_plain : ∀ c ∈ nameKey ++ [equalsSign], inInfoLine c = true :=
  List.all_eq_true.mp (by decide)

theorem versionKey_plain : ∀ c ∈ versionKey ++ [equalsSign], inInfoLine c = true :=
  List.all_eq_true.mp (by decide)

theorem installPathKey_plain : ∀ c ∈ installPathKey ++ [equalsSign], inInfoLine c = true :=
  List.all_eq_true.mp (by decide)

theorem parseFields_completesIf : CompletesIf (parseFields l info) (InfoFits info) := by
  rw [parseFields]
  refine ((parseInfo_completesIf nameKey_plain).bind fun name _ =>
    (parseInfo_completesIf versionKey_plain).bind fun version _ =>
      (parseInfo_completesIf installPathKey_plain).bind fun installPath _ =>
        CompletesIf.ok _).congr ?_
  exact ⟨fun ⟨hname, hversion, hpath, _⟩ => ⟨hname, hversion, hpath⟩,
    fun h => ⟨h.name, h.version, h.installPath, trivial⟩⟩

/-- The arrays that have strings then. -/
theorem ready_parseFields {l' : Locals} (hinfo : 0 ∉ info) (h : parseFields l info = .ok l') :
    Ready calls again (0 ∈ l'.name.toList) (0 ∈ l'.version.toList) (0 ∈ l'.installPath.toList) ↔
      Ready calls again (Filled info nameKey l.name) (Filled info versionKey l.version)
        (Filled info installPathKey l.installPath) := by
  obtain ⟨name, hname, h⟩ := Outcome.bind_eq_ok.mp h
  obtain ⟨version, hversion, h⟩ := Outcome.bind_eq_ok.mp h
  obtain ⟨installPath, hpath, h⟩ := Outcome.bind_eq_ok.mp h
  obtain rfl := Except.ok.inj h
  rw [mem_toList_parseInfo nameKey_plain hinfo hname,
    mem_toList_parseInfo versionKey_plain hinfo hversion,
    mem_toList_parseInfo installPathKey_plain hinfo hpath]

/-- A file that fits is read as a whole, with a zero behind it. -/
theorem readInfo_of_le (hle : e.size.toNat ≤ rest.length) (hsize : e.size.toNat < 512) :
    ∃ metaBuf, readInfo l e rest =
      parseFields { l with metaBuf } (infoText e rest) >>= fun l => .ok (some l) := by
  have hlength : (rest.take e.size.toNat).length = e.size.toNat := List.length_take_of_le hle
  obtain ⟨a, ha⟩ := storeAt_of_le l.metaBuf 0 (rest.take e.size.toNat) (by omega)
  obtain ⟨b, hb⟩ := storeAt_of_le a e.size.toNat [0] hsize
  have hboth : storeAt l.metaBuf 0 (rest.take e.size.toNat ++ [0]) = some b := by
    rw [storeAt_append, ha, Option.bind_some, hlength, Nat.zero_add, hb]
  have hint : e.size.toInt = e.size.toNat := BitVec.toInt_eq_toNat_of_lt (by omega)
  have hstr := str_storeAt hboth
  rw [List.take_zero, List.nil_append] at hstr
  refine ⟨b, ?_⟩
  rw [readInfo, ha, checked_some, ok_bind, if_pos (by rw [hint, hlength]), hb, checked_some,
    ok_bind, hstr, checked_some, ok_bind, infoText]

/-- The zero behind a file of 512 bytes or more is outside of the array, if not the file. -/
theorem readInfo_of_ge (hle : e.size.toNat ≤ rest.length) (hsize : 512 ≤ e.size.toNat) :
    readInfo l e rest = .error .fault := by
  have hlength : (rest.take e.size.toNat).length = e.size.toNat := List.length_take_of_le hle
  rw [readInfo]
  rcases Nat.eq_or_lt_of_le hsize with heq | hlt
  · -- 512 bytes fit, but not the zero
    obtain ⟨a, ha⟩ := storeAt_of_le l.metaBuf 0 (rest.take e.size.toNat) (by omega)
    have hint : e.size.toInt = e.size.toNat := BitVec.toInt_eq_toNat_of_lt (by omega)
    rw [ha, checked_some, ok_bind, if_pos (by rw [hint, hlength]),
      storeAt_eq_none (by rw [List.length_singleton]; omega)]
    rfl
  · rw [storeAt_eq_none (by omega)]
    rfl

/-- A file that is cut off is not parsed. -/
theorem readInfo_of_lt (hlt : rest.length < e.size.toNat) (hfits : rest.length ≤ 512) :
    readInfo l e rest = .ok none := by
  have hall : rest.take e.size.toNat = rest := List.take_of_length_le hlt.le
  obtain ⟨a, ha⟩ := storeAt_of_le l.metaBuf 0 rest (by omega)
  -- less than the size was read, and a size from `2 ^ 31` on is negative
  have hint : (rest.length : Int) ≠ e.size.toInt := by
    have hbound := e.size.isLt
    rw [BitVec.toInt_eq_toNat_cond]
    split
    all_goals omega
  rw [readInfo, hall, ha, checked_some, ok_bind, if_neg hint]

theorem readInfo_of_long (hlt : rest.length < e.size.toNat) (hlong : 512 < rest.length) :
    readInfo l e rest = .error .fault := by
  have hall : rest.take e.size.toNat = rest := List.take_of_length_le hlt.le
  rw [readInfo, hall, storeAt_eq_none (by omega)]
  rfl

/-! ### The function -/

/-- With `info.txt`, the function comes to its end if the rest of the archive is ready. -/
theorem pkgInstallFile_completesIf_of_find (hnames : NamesEnd (entries data))
    (hfind : ((entries data).find? fun x => x.1.isInfo) = some (e, rest)) :
    CompletesIf (pkgInstallFile calls l (some data) again s)
      (if e.size.toNat ≤ rest.length then
        e.size.toNat < 512 ∧ InfoFits (infoText e rest) ∧
          Ready calls again (Filled (infoText e rest) nameKey l.name)
            (Filled (infoText e rest) versionKey l.version)
            (Filled (infoText e rest) installPathKey l.installPath)
      else rest.length ≤ 512) := by
  have hpass := (firstPass_eq (l := l) (Nat.lt_succ_self data.length)).1 hnames
  rw [hfind] at hpass
  dsimp only at hpass
  rw [pkgInstallFile, hpass]
  by_cases hle : e.size.toNat ≤ rest.length
  · rw [if_pos hle]
    by_cases hsize : e.size.toNat < 512
    · obtain ⟨metaBuf, hread⟩ := readInfo_of_le (l := l) hle hsize
      have hzero : 0 ∉ infoText e rest := fun hmem => by
        simpa using List.mem_takeWhile_imp hmem
      rw [hread]
      show CompletesIf (_ >>= _ >>= _) _
      rw [bind_assoc]
      refine (parseFields_completesIf.bind fun l' hl' =>
        installFiles_completesIf.congr (ready_parseFields hzero hl')).congr ?_
      exact ⟨fun h => ⟨hsize, h⟩, fun h => h.2⟩
    · rw [readInfo_of_ge hle (Nat.le_of_not_lt hsize)]
      exact ⟨fun h => absurd h.1 hsize, fun _ => rfl⟩
  · rw [if_neg hle]
    have hlt := Nat.lt_of_not_le hle
    by_cases hfits : rest.length ≤ 512
    · rw [readInfo_of_lt hlt hfits, ok_bind]
      exact (CompletesIf.ok _).congr ⟨fun _ => hfits, fun _ => trivial⟩
    · rw [readInfo_of_long hlt (Nat.lt_of_not_le hfits)]
      exact ⟨fun h => absurd h hfits, fun _ => rfl⟩

theorem pkgInstallFile_completesIf :
    CompletesIf (pkgInstallFile calls l (some data) again s) (Installable calls l data again) := by
  by_cases hnames : NamesEnd (entries data)
  · cases hfind : (entries data).find? fun x => x.1.isInfo with
    | none =>
      have hpass := (firstPass_eq (l := l) (Nat.lt_succ_self data.length)).1 hnames
      rw [hfind] at hpass
      rw [pkgInstallFile, hpass]
      refine (CompletesIf.ok _).congr ⟨fun _ => ⟨hnames, fun e rest h => ?_⟩, fun _ => trivial⟩
      exact nomatch hfind.symm.trans h
    | some x =>
      obtain ⟨e, rest⟩ := x
      refine (pkgInstallFile_completesIf_of_find hnames hfind).congr ⟨fun h => ⟨hnames, ?_⟩, ?_⟩
      · intro e' rest' hfind'
        obtain ⟨rfl, rfl⟩ := Prod.mk.inj (Option.some.inj (hfind.symm.trans hfind'))
        exact h
      · exact fun h => h.info e rest hfind
  · have hpass := (firstPass_eq (l := l) (Nat.lt_succ_self data.length)).2 hnames
    rw [pkgInstallFile, hpass]
    exact ⟨fun h => absurd h.named hnames, fun _ => rfl⟩

/-- Both loops come to their end, whatever is in the archive. -/
theorem pkgInstallFile_ne_outOfFuel :
    pkgInstallFile calls l (some data) again s ≠ .error .outOfFuel :=
  pkgInstallFile_completesIf.ne_outOfFuel

end InBounds

/-! ### Archives with one package -/

/-- A name that is filled up with zeros. -/
def filenameField (name : CString) (h : name.length < 256) : Vector Byte 256 :=
  ⟨(name ++ List.replicate (255 - name.length + 1) 0).toArray, by
    rw [List.size_toArray, List.length_append, List.length_replicate]
    omega⟩

theorem str_filenameField {name : CString} (h : name.length < 256) (hfree : 0 ∉ name) :
    str (filenameField name h) = some name :=
  str_eq_some_iff.mpr ⟨hfree, List.replicate (255 - name.length) 0, rfl⟩

/-- The entry of `info.txt` with a size. -/
def infoEntry (size : BitVec 32) : KpkgEntry :=
  { filename := filenameField infoName (by decide), size, isMeta := 1 }

theorem infoEntry_isInfo (size : BitVec 32) : (infoEntry size).isInfo = true :=
  decide_eq_true ⟨show (1 : Byte) ≠ 0 by decide, str_filenameField (by decide) (by decide)⟩

/-- Arrays of zeros. -/
def zeroLocals : Locals where
  name := Vector.replicate _ 0
  version := Vector.replicate _ 0
  installPath := Vector.replicate _ 0
  metaBuf := Vector.replicate _ 0
  discardBuf := Vector.replicate _ 0
  fileBuf := Vector.replicate _ 0
  fullPath := Vector.replicate _ 0
  dirPath := Vector.replicate _ 0
  entryLine := Vector.replicate _ 0

/-- A system where each call succeeds and nothing is kept. -/
def plainInstall : InstallCalls Unit where
  mkdir _ _ := ((), 0)
  create _ _ := ((), 3)
  write _ _ _ := ()
  openDb _ := ()
  dbFd := 3
  beforeFullPath := 0

/-- The lines `name=a`, `version=1` and `install_path=/`. -/
def infoA : CString := nameKey ++ [equalsSign, 0x61, newline] ++
  (versionKey ++ [equalsSign, 0x31, newline]) ++ (installPathKey ++ [equalsSign, slash, newline])

/-- The file `b` with a byte of data. -/
def fileB : KpkgEntry where
  filename := filenameField [0x62] (by decide)
  size := 1
  isMeta := 0

/-- A package with one file. -/
def archiveA : List Byte :=
  (infoEntry 32).bytes ++ (infoA ++ (fileB.bytes ++ ([0x78] ++ [])))

theorem entries_archiveA : entries archiveA =
    [(infoEntry 32, infoA ++ (fileB.bytes ++ ([0x78] ++ []))), (fileB, [0x78] ++ [])] := by
  rw [archiveA, entries_bytes (by decide), entries_bytes (by decide), entries_nil]

theorem lookup_infoA : lookup infoA nameKey = some [0x61] ∧ lookup infoA versionKey = some [0x31] ∧
    lookup infoA installPathKey = some [slash] := by
  have hlength : infoA.length < 33 := by decide
  have hname := findValue_eq_lookup nameKey_plain hlength
  have hversion := findValue_eq_lookup versionKey_plain hlength
  have hpath := findValue_eq_lookup installPathKey_plain hlength
  exact ⟨(Except.ok.inj hname).symm, (Except.ok.inj hversion).symm, (Except.ok.inj hpath).symm⟩

end KyroOS.Packages
