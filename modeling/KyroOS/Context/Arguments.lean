import KyroOS.Context.NewThreads
import KyroOS.Memory.UserCopy
import KyroOS.Process.Life

/-!
# The arguments of a new program

`thread_create_userspace` copies the argument strings to the user stack, one below the other, and
below them the array of their addresses. The program starts with its stack pointer at the array.

## Main definitions

* `FitsStack` — the strings and the array fit on the user stack
* `argBlocks` — where the strings are, and what is there
* `ArgumentBlock` — what a program finds on its stack

## Main results

* `copyStrings_userByte`, `copyArguments_userByte` — the copies as writes to user memory
* `argumentBlock_of_create` — what a new thread finds
-/

namespace KyroOS.Context

open KyroOS.Memory KyroOS.Threads KyroOS.Process ByteMap

/-! ### Places on the stack -/

/-- The room that `n` bytes take, with the padding. -/
def stackRoom (n : ℕ) : ℕ := (n + 15) / 16 * 16

/-- The room that the strings take. -/
def stringsRoom (argv : List (List Byte)) : ℕ :=
  (argv.map fun arg => stackRoom (arg.length + 1)).sum

/-- The strings and the array of their addresses fit on the user stack. -/
def FitsStack (argv : List (List Byte)) : Prop :=
  stringsRoom argv + stackRoom ((argv.length + 1) * 8) ≤ userStackSize

instance (argv : List (List Byte)) : Decidable (FitsStack argv) :=
  inferInstanceAs (Decidable (_ ≤ _))

/-- Bytes at a user address. -/
def userBlock (a : Word) (bytes : List Byte) : Block 64 (Option Byte) := ⟨a, bytes.map some⟩

/-- The strings, with their terminators, at their addresses. -/
def argBlocks (sp : Word) : List (List Byte) → List (Block 64 (Option Byte))
  | [] => []
  | arg :: argv =>
    let sp := alignStack (sp - BitVec.ofNat 64 (arg.length + 1))
    userBlock sp (arg ++ [0]) :: argBlocks sp argv

/-- The array of the addresses of the strings, with `NULL` at its end. -/
def arrayBlock (sp : Word) (pointers : List Word) : Block 64 (Option Byte) :=
  userBlock sp ((pointers ++ [0]).flatMap wordBytes)

theorem length_argBlocks (sp : Word) (argv : List (List Byte)) :
    (argBlocks sp argv).length = argv.length := by
  induction argv generalizing sp with
  | nil => rfl
  | cons arg argv ih => exact congrArg (· + 1) (ih _)

section Places

variable {sp : Word} {argv : List (List Byte)} {n lo : ℕ}

theorem le_stackRoom (n : ℕ) : n ≤ stackRoom n := by
  unfold stackRoom
  omega

/-- Room on an aligned stack. -/
theorem toNat_push_aligned (haligned : sp.toNat % 16 = 0) (hn : stackRoom n ≤ sp.toNat) :
    (alignStack (sp - BitVec.ofNat 64 n)).toNat = sp.toNat - stackRoom n := by
  have hlt := sp.isLt
  have hle := le_stackRoom n
  have hsub : (sp - BitVec.ofNat 64 n).toNat = sp.toNat - n := by
    rw [BitVec.toNat_sub, BitVec.toNat_ofNat]
    omega
  rw [toNat_alignStack, hsub]
  unfold stackRoom at *
  omega

/-- The strings lie one below the other, down to the stack pointer below them. -/
theorem argBlocks_spec (argv : List (List Byte)) {sp : Word} (haligned : sp.toNat % 16 = 0)
    (hfit : lo + stringsRoom argv ≤ sp.toNat) :
    (stringsEnd sp argv).toNat = sp.toNat - stringsRoom argv ∧
      (stringsEnd sp argv).toNat % 16 = 0 ∧
      (∀ b ∈ argBlocks sp argv, b.Within (stringsEnd sp argv).toNat sp.toNat) ∧
      (argBlocks sp argv).Pairwise Block.Apart := by
  induction argv generalizing sp with
  | nil => exact ⟨rfl, haligned, fun _ hb => absurd hb List.not_mem_nil, .nil⟩
  | cons arg argv ih =>
    have hroom : stringsRoom (arg :: argv) = stackRoom (arg.length + 1) + stringsRoom argv := rfl
    rw [hroom] at hfit ⊢
    have hpush := toNat_push_aligned haligned (show stackRoom (arg.length + 1) ≤ sp.toNat by omega)
    have hle := le_stackRoom (arg.length + 1)
    have hdvd : stackRoom (arg.length + 1) % 16 = 0 := Nat.mul_mod_left _ _
    obtain ⟨hbottom, haligned', hwithin, hpair⟩ :=
      @ih (alignStack (sp - BitVec.ofNat 64 (arg.length + 1))) (by omega) (by omega)
    have hhead : (userBlock (alignStack (sp - BitVec.ofNat 64 (arg.length + 1)))
        (arg ++ [0])).Within (alignStack (sp - BitVec.ofNat 64 (arg.length + 1))).toNat
          sp.toNat := by
      refine ⟨le_rfl, ?_⟩
      have hlen : ((arg ++ [0]).map some).length = arg.length + 1 := by simp
      show (alignStack (sp - BitVec.ofNat 64 (arg.length + 1))).toNat +
        ((arg ++ [0]).map some).length ≤ sp.toNat
      omega
    refine ⟨?_, haligned', fun b hb => ?_, List.pairwise_cons.mpr ⟨fun b hb => ?_, hpair⟩⟩
    · show (stringsEnd (alignStack (sp - BitVec.ofNat 64 (arg.length + 1))) argv).toNat = _
      omega
    · rcases List.mem_cons.mp hb with rfl | hb
      · refine hhead.mono ?_ le_rfl
        show (stringsEnd (alignStack (sp - BitVec.ofNat 64 (arg.length + 1))) argv).toNat ≤ _
        omega
      · exact (hwithin b hb).mono le_rfl (by omega)
    · exact hhead.apart (hwithin b hb) sp.isLt.le

end Places

/-- What a program finds at `sp`: an array of pointers with `NULL` at its end, each of which points to
one of the strings, and all of it in different places of the user stack. -/
structure ArgumentBlock (v : Vmm) (r sp : Word) (argv : List (List Byte)) (pointers : List Word) :
    Prop where
  array : ∀ i (hi : i < (pointers ++ [0]).length), Holds (userByte v r)
    (userBlock (sp + BitVec.ofNat 64 (8 * i)) (wordBytes ((pointers ++ [0]).get ⟨i, hi⟩)))
  strings : List.Forall₂ (fun p arg => Holds (userByte v r) (userBlock p (arg ++ [0])))
    pointers argv
  inside : ∀ b ∈ arrayBlock sp pointers ::
    List.zipWith (fun p arg => userBlock p (arg ++ [0])) pointers argv,
      b.Within userStackStart.toNat userStackTop.toNat
  apart : (arrayBlock sp pointers ::
    List.zipWith (fun p arg => userBlock p (arg ++ [0])) pointers argv).Pairwise Block.Apart
  aligned : sp.toNat % 16 = 0

/-! ### The copies -/

section Copies

variable {v : Vmm} {roots : Set Word} {r sp : Word} {argv : List (List Byte)} {pointers : List Word}

/-- The user stack is mapped. -/
def StackMapped (v : Vmm) (r : Word) : Prop :=
  ∀ x : Word, userStackStart.toNat ≤ x.toNat → x.toNat < userStackTop.toNat →
    v.walk r (pathOf x) ≠ none

theorem toNat_userStackStart : userStackStart.toNat = 0x7FFFFFEFF000 := by decide

theorem toNat_userStackTop : userStackTop.toNat = 0x7FFFFFFFF000 := by decide

/-- What keeps the address spaces keeps the stack mapped. -/
theorem StackMapped.keeps {v' : Vmm} (h : StackMapped v r) (hr : r ∈ roots)
    (hkeeps : Keeps roots v v') : StackMapped v' r := by
  intro x hle hlt
  have htop := toNat_userStackTop
  rw [hkeeps.walk r hr _ (tablePath_pathOf (userHalf_of_lt (by omega)))]
  exact h x hle hlt

/-- One copy to the stack. -/
theorem StackMapped.copy (h : StackMapped v r) (hinv : SpacesInv 4 v roots) (hr : r ∈ roots)
    {a : Word} {bytes : List Byte} (hle : userStackStart.toNat ≤ a.toNat)
    (hlt : a.toNat + bytes.length ≤ userStackTop.toNat) :
    Keeps roots v (vmmMemcpyToUserspace v r a bytes) ∧ ∀ x : Word, x.toNat < 2 ^ 47 →
      userByte (vmmMemcpyToUserspace v r a bytes) r x =
        write (userByte v r) (userBlock a bytes) x := by
  have htop := toNat_userStackTop
  refine ⟨vmmMemcpyToUserspace_keeps hinv hr (by omega), fun x hx => ?_⟩
  refine vmmMemcpyToUserspace_userByte (hinv.distinctFrames hr) (fun k hk => ⟨by omega, ?_⟩) hx
  have haddr : (a + BitVec.ofNat 64 k).toNat = a.toNat + k := by
    rw [BitVec.toNat_add, BitVec.toNat_ofNat]
    omega
  exact h _ (by omega) (by omega)

/-- The strings, as a program sees them. -/
theorem copyStrings_userByte (hr : r ∈ roots) (argv : List (List Byte)) {v : Vmm} {sp : Word}
    (hinv : SpacesInv 4 v roots) (hmapped : StackMapped v r) (haligned : sp.toNat % 16 = 0)
    (hfit : userStackStart.toNat + stringsRoom argv ≤ sp.toNat)
    (htop : sp.toNat ≤ userStackTop.toNat) :
    Keeps roots v (copyStrings v r sp argv).1 ∧
      (copyStrings v r sp argv).2.2 = (argBlocks sp argv).map Block.addr ∧
      ∀ x : Word, x.toNat < 2 ^ 47 → userByte (copyStrings v r sp argv).1 r x =
        writeAll (userByte v r) (argBlocks sp argv) x := by
  induction argv generalizing v sp with
  | nil => exact ⟨Keeps.refl hinv, rfl, fun _ _ => rfl⟩
  | cons arg argv ih =>
    have hroom : stringsRoom (arg :: argv) = stackRoom (arg.length + 1) + stringsRoom argv := rfl
    rw [hroom] at hfit
    have hpush := toNat_push_aligned haligned (show stackRoom (arg.length + 1) ≤ sp.toNat by omega)
    have hle := le_stackRoom (arg.length + 1)
    have hdvd : stackRoom (arg.length + 1) % 16 = 0 := Nat.mul_mod_left _ _
    have hlen : (arg ++ [0]).length = arg.length + 1 := by simp
    have hend : (alignStack (sp - BitVec.ofNat 64 (arg.length + 1))).toNat +
        (arg ++ [0]).length ≤ userStackTop.toNat := by omega
    obtain ⟨hkeeps, hbytes⟩ := hmapped.copy hinv hr (by omega) hend
    obtain ⟨hkeeps', hpointers, hrest⟩ := ih hkeeps.inv (hmapped.keeps hr hkeeps)
      (show (alignStack (sp - BitVec.ofNat 64 (arg.length + 1))).toNat % 16 = 0 by omega)
      (by omega) (by omega)
    refine ⟨hkeeps.trans hkeeps', congrArg (_ :: ·) hpointers, fun x hx => ?_⟩
    exact (hrest x hx).trans (writeAll_congr (hbytes x hx))

theorem length_flatMap_wordBytes (ws : List Word) : (ws.flatMap wordBytes).length = ws.length * 8 := by
  rw [List.length_flatMap]
  simp only [length_wordBytes, List.map_const', List.sum_replicate, smul_eq_mul]

/-- Where the array is: below the strings, and on the stack. -/
theorem arrayBlock_within (hfit : FitsStack argv) (hpointers : pointers.length = argv.length) :
    (argvAddress argv).toNat % 16 = 0 ∧
      userStackStart.toNat ≤ (argvAddress argv).toNat ∧
      (arrayBlock (argvAddress argv) pointers).Within (argvAddress argv).toNat
        (stringsEnd userStackTop argv).toNat := by
  have htop := toNat_userStackTop
  have hstart := toNat_userStackStart
  have hsize : userStackSize = 0x100000 := rfl
  unfold FitsStack at hfit
  obtain ⟨hbottom, haligned, -, -⟩ := @argBlocks_spec userStackStart.toNat argv userStackTop
    (by omega) (by omega)
  have hpush := toNat_push_aligned haligned
    (show stackRoom ((argv.length + 1) * 8) ≤ (stringsEnd userStackTop argv).toNat by omega)
  have hle := le_stackRoom ((argv.length + 1) * 8)
  have hdvd : stackRoom ((argv.length + 1) * 8) % 16 = 0 := Nat.mul_mod_left _ _
  have hlen : (arrayBlock (argvAddress argv) pointers).bytes.length = (argv.length + 1) * 8 := by
    show (((pointers ++ [0]).flatMap wordBytes).map some).length = _
    rw [List.length_map, length_flatMap_wordBytes, List.length_append, hpointers,
      List.length_singleton]
  have haddr : (argvAddress argv).toNat =
      (stringsEnd userStackTop argv).toNat - stackRoom ((argv.length + 1) * 8) := hpush
  refine ⟨by omega, by omega, le_rfl, ?_⟩
  rw [hlen]
  show (argvAddress argv).toNat + _ ≤ _
  omega

/-- The whole block, as a program sees it. -/
theorem copyArguments_userByte (hinv : SpacesInv 4 v roots) (hr : r ∈ roots)
    (hmapped : StackMapped v r) (hfit : FitsStack argv) (hpointers : pointers =
      (argBlocks userStackTop argv).map Block.addr) :
    ∀ x : Word, x.toNat < 2 ^ 47 → userByte (copyArguments v r argv).1 r x =
      writeAll (userByte v r)
        (argBlocks userStackTop argv ++ [arrayBlock (argvAddress argv) pointers]) x := by
  have htop := toNat_userStackTop
  have hstart := toNat_userStackStart
  have hsize : userStackSize = 0x100000 := rfl
  have hroom : stringsRoom argv ≤ userStackSize := by
    unfold FitsStack at hfit
    omega
  obtain ⟨hkeeps, hptrs, hbytes⟩ := copyStrings_userByte hr argv hinv hmapped
    (show userStackTop.toNat % 16 = 0 by omega) (by omega) le_rfl
  rw [← hpointers] at hptrs
  have hlength : pointers.length = argv.length := by
    rw [hpointers, List.length_map, length_argBlocks]
  obtain ⟨-, hlow, hwithin⟩ := arrayBlock_within hfit hlength
  have hbottom := (@argBlocks_spec userStackStart.toNat argv userStackTop (by omega)
    (by omega)).1
  have hend : (argvAddress argv).toNat + ((pointers ++ [0]).flatMap wordBytes).length ≤
      userStackTop.toNat := by
    have hlast : (argvAddress argv).toNat + (((pointers ++ [0]).flatMap wordBytes).map some).length ≤
        (stringsEnd userStackTop argv).toNat := hwithin.2
    rw [List.length_map] at hlast
    omega
  obtain ⟨-, hcopy⟩ := (hmapped.keeps hr hkeeps).copy hkeeps.inv hr hlow hend
  have hargs : (copyArguments v r argv).1 =
      vmmMemcpyToUserspace (copyStrings v r userStackTop argv).1 r (argvAddress argv)
        ((pointers ++ [0]).flatMap wordBytes) := by
    rw [argvAddress, ← copyStrings_snd v r, ← hptrs]
    rfl
  intro x hx
  rw [hargs, writeAll_append]
  exact (hcopy x hx).trans (write_congr (hbytes x hx))

/-- The words of an array. -/
theorem holds_words {m : Word → Option Byte} (ws : List Word) {a : Word}
    (h : Holds m (userBlock a (ws.flatMap wordBytes))) :
    ∀ i (hi : i < ws.length),
      Holds m (userBlock (a + BitVec.ofNat 64 (8 * i)) (wordBytes (ws.get ⟨i, hi⟩))) := by
  induction ws generalizing a with
  | nil => exact fun i hi => absurd hi (Nat.not_lt_zero i)
  | cons word ws ih =>
    have hboth : Holds m ⟨a, (wordBytes word).map some ++ (ws.flatMap wordBytes).map some⟩ := by
      rw [← List.map_append]
      exact h
    obtain ⟨hfirst, hrest⟩ := holds_append.mp hboth
    rw [List.length_map, length_wordBytes] at hrest
    intro i hi
    cases i with
    | zero =>
      rw [Nat.mul_zero, BitVec.add_zero]
      exact hfirst
    | succ i =>
      rw [Nat.mul_succ, Nat.add_comm, BitVec.ofNat_add, ← BitVec.add_assoc]
      exact ih hrest i (Nat.lt_of_succ_lt_succ hi)

/-- The strings and where they are. -/
theorem zipWith_argBlocks (argv : List (List Byte)) (sp : Word) :
    List.zipWith (fun p arg => userBlock p (arg ++ [0])) ((argBlocks sp argv).map Block.addr) argv =
      argBlocks sp argv := by
  induction argv generalizing sp with
  | nil => rfl
  | cons arg argv ih => exact congrArg (_ :: ·) (ih _)

theorem forall₂_argBlocks {m : Word → Option Byte} (argv : List (List Byte)) {sp : Word}
    (h : ∀ b ∈ argBlocks sp argv, Holds m b) :
    List.Forall₂ (fun p arg => Holds m (userBlock p (arg ++ [0])))
      ((argBlocks sp argv).map Block.addr) argv := by
  induction argv generalizing sp with
  | nil => exact .nil
  | cons arg argv ih =>
    exact .cons (h _ List.mem_cons_self) (ih fun b hb => h b (List.mem_cons_of_mem _ hb))

/-- Where everything is on the stack. -/
theorem argBlocks_stack (hfit : FitsStack argv) (hpointers : pointers.length = argv.length) :
    (∀ b ∈ argBlocks userStackTop argv ++ [arrayBlock (argvAddress argv) pointers],
      b.Within userStackStart.toNat userStackTop.toNat) ∧
    (argBlocks userStackTop argv ++ [arrayBlock (argvAddress argv) pointers]).Pairwise
      Block.Apart := by
  have htop := toNat_userStackTop
  have hstart := toNat_userStackStart
  have hsize : userStackSize = 0x100000 := rfl
  have hroom : stringsRoom argv + stackRoom ((argv.length + 1) * 8) ≤ userStackSize := hfit
  obtain ⟨hbottom, -, hwithin, hpair⟩ := @argBlocks_spec userStackStart.toNat argv userStackTop
    (by omega) (by omega)
  obtain ⟨-, hlow, harray⟩ := arrayBlock_within hfit hpointers
  constructor
  · intro b hb
    rcases List.mem_append.mp hb with hb | hb
    · exact (hwithin b hb).mono (by omega) le_rfl
    · rw [List.mem_singleton.mp hb]
      exact harray.mono hlow (by omega)
  · refine List.pairwise_append.mpr ⟨hpair, List.pairwise_singleton _ _, fun b hb c hc => ?_⟩
    rw [List.mem_singleton.mp hc]
    exact (hwithin b hb).apart harray userStackTop.isLt.le

/-- The arguments are laid out on a stack that is mapped. -/
theorem argumentBlock_copyArguments (hinv : SpacesInv 4 v roots) (hr : r ∈ roots)
    (hmapped : StackMapped v r) (hfit : FitsStack argv) :
    ArgumentBlock (copyArguments v r argv).1 r (argvAddress argv) argv
      ((argBlocks userStackTop argv).map Block.addr) := by
  have htop := toNat_userStackTop
  have hbytes := copyArguments_userByte hinv hr hmapped hfit rfl
  have hlength : ((argBlocks userStackTop argv).map Block.addr).length = argv.length := by
    rw [List.length_map, length_argBlocks]
  obtain ⟨hwithin, hapart⟩ := argBlocks_stack hfit hlength
  have hzip := zipWith_argBlocks argv userStackTop
  have haligned := (arrayBlock_within hfit hlength).1
  -- a program reads every block back
  have hholds : ∀ b ∈ argBlocks userStackTop argv ++ [arrayBlock (argvAddress argv)
      ((argBlocks userStackTop argv).map Block.addr)],
      Holds (userByte (copyArguments v r argv).1 r) b := by
    intro b hb
    have hend := (hwithin b hb).2
    refine (holds_writeAll hapart (fun c hc => ?_) hb).congr fun i hi => hbytes _ ?_
    · have hc := (hwithin c hc).2
      omega
    · rw [BitVec.toNat_add, BitVec.toNat_ofNat]
      omega
  refine ⟨?_, ?_, ?_, ?_, haligned⟩
  · exact holds_words _ (hholds _ (List.mem_append_right _ (List.mem_singleton_self _)))
  · exact forall₂_argBlocks argv fun b hb => hholds b (List.mem_append_left _ hb)
  · rw [hzip]
    exact fun b hb => hwithin b (List.mem_append.mpr
      ((List.mem_cons.mp hb).symm.imp id List.mem_singleton.mpr))
  · rw [hzip, List.pairwise_cons]
    rw [List.pairwise_append] at hapart
    exact ⟨fun b hb => (hapart.2.2 b hb _ (List.mem_singleton_self _)).symm, hapart.1⟩

end Copies

/-! ### A new thread -/

section NewThread

variable {v v' : Vmm} {roots : Set Word} {r sp a w : Word} {ws ws' : List Word} {k k' : Kernel}
  {sym : Symbols} {entry pml4 programBreak console t : Word} {argv : List (List Byte)}
  {record kstack : Kmalloc}

/-- The loop that maps the stack maps every address of it. -/
theorem stackMapped_mapUserStack (h : SpacesInv 4 v roots) (hr : r ∈ roots)
    (hok : mapUserStack v r (stackPages userStackStart) = .ok (v', true)) :
    SpacesInv 4 v' roots ∧ StackMapped v' r := by
  have htop := toNat_userStackTop
  have hstart := toNat_userStackStart
  obtain ⟨F, hfills, -, hall⟩ :=
    mapUserStack_fills hr _ h userHalf_stackPages nodup_stackPages hok
  refine ⟨hfills.inv, fun x hle hlt => ?_⟩
  -- the page of the address
  obtain ⟨i, hi⟩ : ∃ i, i = (x.toNat - userStackStart.toNat) / pageSize := ⟨_, rfl⟩
  have hpage : (userStackStart + BitVec.ofNat 64 (i * pageSize)).toNat =
      userStackStart.toNat + i * pageSize := by
    rw [BitVec.toNat_add, BitVec.toNat_ofNat]
    unfold pageSize at *
    omega
  have hpath : pathOf x = pathOf (userStackStart + BitVec.ofNat 64 (i * pageSize)) := by
    refine (pathOf_eq_iff (by omega) ?_).mpr ?_
    all_goals rw [hpage]; unfold pageSize at *; omega
  rw [hpath]
  refine (hall rfl).2 _ (List.mem_map.mpr ⟨i, List.mem_range.mpr ?_, rfl⟩)
  unfold pageSize at *
  omega

theorem StackMapped.kmalloc (h : StackMapped k.vmm r) (m : Kmalloc) :
    StackMapped (k.kmalloc m).vmm r := by
  obtain ⟨-, pmm, hvmm, -⟩ := kmalloc_eq k m
  rw [hvmm]
  exact h

/-- The cells that nothing is pushed to. -/
theorem pushAll_of_ne (mem : Word → Word)
    (h : ∀ i < ws.length, a ≠ sp - BitVec.ofNat 64 (8 * (i + 1))) :
    (pushAll mem sp ws).1 a = mem a := by
  induction ws generalizing mem sp with
  | nil => rfl
  | cons w ws ih =>
    rw [pushAll, ih, Function.update_of_ne]
    · exact h 0 (Nat.succ_pos _)
    · intro i hi
      have hnext := h (i + 1) (Nat.succ_lt_succ hi)
      rwa [Nat.mul_succ, Nat.add_comm, BitVec.ofNat_add, ← BitVec.sub_sub] at hnext

/-- A word that was pushed. -/
theorem pushAll_cell (mem : Word → Word) (ws : List Word) (hshort : 8 * (ws'.length + 1) < 2 ^ 64) :
    (pushAll mem sp (ws ++ w :: ws')).1 (sp - BitVec.ofNat 64 (8 * (ws.length + 1))) = w := by
  have hcell : sp - BitVec.ofNat 64 (8 * (ws.length + 1)) =
      sp - BitVec.ofNat 64 (8 * ws.length) - 8 := by
    rw [Nat.mul_succ, BitVec.ofNat_add, BitVec.sub_sub]
    rfl
  rw [pushAll_append, pushAll_snd, pushAll, hcell, pushAll_of_ne, Function.update_self]
  intro i hi heq
  -- the cells below are different ones
  have hnat := congrArg BitVec.toNat heq
  rw [BitVec.toNat_sub _ (BitVec.ofNat 64 (8 * (i + 1))), BitVec.toNat_ofNat] at hnat
  generalize sp - BitVec.ofNat 64 (8 * ws.length) - 8 = cell at hnat
  have hcell := cell.isLt
  omega

/-- A new user thread starts with its stack pointer, and with its second argument, at the block of
its arguments. -/
theorem argumentBlock_of_create (h : SpacesInv 4 k.vmm roots) (hr : pml4 ∈ roots)
    (hfit : FitsStack argv) (hok : threadCreateUserspace sym k entry pml4 programBreak argv console
      record kstack = .ok (k', t)) (ht : t ≠ 0) :
    ∃ pointers, ArgumentBlock k'.vmm pml4 (argvAddress argv) argv pointers ∧
      k'.kstack (stackTop kstack.block - BitVec.ofNat 64 (8 * 2)) = argvAddress argv ∧
      k'.kstack (stackTop kstack.block - BitVec.ofNat 64 (8 * 9)) = argvAddress argv := by
  have hend := threadCreateUserspace_end hok
  cases hend with
  | noRecord => exact absurd rfl ht
  | noPage => exact absurd rfl ht
  | noStack => exact absurd rfl ht
  | created vmm hblock hstack hmap hvmm hheap hlive hcurrent hkstack hnew hthread =>
    have hinv₁ : SpacesInv 4 (k.kmalloc record).vmm roots := (kmalloc_heapPhase h record).phase.inv
    obtain ⟨hinv₂, hmapped⟩ := stackMapped_mapUserStack hinv₁ hr hmap
    have hinv₃ := (kmalloc_heapPhase (k := { k.kmalloc record with vmm }) hinv₂ kstack).phase.inv
    have hmapped₃ := StackMapped.kmalloc (k := { k.kmalloc record with vmm }) hmapped kstack
    refine ⟨_, hvmm ▸ argumentBlock_copyArguments hinv₃ hr hmapped₃ hfit, ?_, ?_⟩
    · rw [hkstack, copyArguments_snd]
      exact pushAll_cell _ [0x23] (by simp)
    · rw [hkstack, copyArguments_snd]
      exact pushAll_cell _ [0x23, argvAddress argv, 0x202, 0x1B, entry, sym.userspaceThreadStarter, 0,
        BitVec.ofNat 64 argv.length] (by simp)

/-- The strings `sh` and `-c`. -/
def shellArgs : List (List Byte) := [[0x73, 0x68], [0x2D, 0x63]]

/-- A thread with two arguments, in a new address space of a machine with 2048 pages. -/
theorem argumentBlock_shellArgs : ∃ (k' : Kernel) (r : Word) (pointers : List Word),
    ArgumentBlock k'.vmm r (argvAddress shellArgs) shellArgs pointers ∧
      k'.kstack (stackTop 0x10000 - BitVec.ofNat 64 (8 * 2)) = argvAddress shellArgs ∧
      k'.kstack (stackTop 0x10000 - BitVec.ofNat 64 (8 * 9)) = argvAddress shellArgs := by
  have hfree : bigVmm.pmm.findFree ≠ none :=
    Pmm.findFree_ne_none (by decide : 2 < bigVmm.pmm.totalPages) (by decide)
  obtain ⟨r, v, hnew, -, hcreates⟩ := vmmCreateAddressSpace_spec bigVmm_inv le_rfl hfree
  obtain ⟨hres, hroom⟩ := vmmCreateAddressSpace_room (n := 2045) bigVmm_inv.reserves bigVmm_room
  rw [hnew] at hres hroom
  obtain ⟨vmm, hmap, -⟩ := mapUserStack_room (r := r) (n := 1021) (stackPages userStackStart) hres (by
    rw [stackPages, List.length_map, List.length_range]
    exact hroom)
  -- the thread is alone on the ring
  obtain ⟨k', hadd⟩ : ∃ k', schedulerAddThread
      (newUser ⟨0x400, 0x500⟩ { bigKernel with vmm := v } 0x400000 r 0x401000 shellArgs 0
        ⟨0x2000, none⟩ ⟨0x10000, none⟩ vmm) 0x2000 = .ok k' :=
    ⟨_, (if_neg (by decide)).trans (if_pos rfl)⟩
  have hcreate : threadCreateUserspace ⟨0x400, 0x500⟩ { bigKernel with vmm := v } 0x400000 r
      0x401000 shellArgs 0 ⟨0x2000, none⟩ ⟨0x10000, none⟩ = .ok (k', 0x2000) :=
    threadCreateUserspace_of_mapped (by decide) (by decide) hmap hadd
  obtain ⟨pointers, hblock⟩ := argumentBlock_of_create hcreates.inv (Set.mem_insert r ∅) (by decide)
    hcreate (by decide)
  exact ⟨k', r, pointers, hblock⟩

end NewThread

end KyroOS.Context
