import Mathlib.Data.List.GetD
import FermiOs.Syscall.ExecImage

/-!
# The arguments of a new image

`sys_exec` reads the argument vector of the caller, lays the strings, sixteen random bytes, the pointers
and the auxiliary vector out at the top of the new stack, and starts the program with the stack pointer
at the argument count. The layout is computed before the strings are placed.

The loop over the vector ends after `EXEC_MAX_ARGC` entries without looking for the terminator, so a
longer vector loses its tail. The main result says exactly when a program that starts finds all of its
arguments.
-/

namespace FermiOs
open Library List
variable {a j l0 stack : Nat} {call : ExecCall} {k : Kernel} {sp : ExecSpace} {xs ys : List UInt8}

/-! ## Bytes of the stack -/

variable {args : List (List UInt8)} {argv i va : Nat} {mem : UserMem} {ps : List Nat}

/-- `writeBytes` through the kernel's view of a run of pages that is mapped at `lo`. -/
lemma writeBytes_at (k : Kernel) (stack : Nat) {lo : Nat} (bytes : List UInt8)
    (hal : lo % 4096 = 0) (ha : lo ≤ a) (hva : lo ≤ va) :
    (k.writeBytes (stack + (a - lo)) bytes).frame (stack + (va - lo) / 4096 * 4096) (va % 4096) =
      if a ≤ va ∧ va < a + bytes.length then bytes.getD (va - a) 0
      else k.frame (stack + (va - lo) / 4096 * 4096) (va % 4096) := by
  have hpos : stack + (va - lo) / 4096 * 4096 + va % 4096 = stack + (va - lo) := by omega
  simp only [Kernel.writeBytes, hpos]
  by_cases hin : a ≤ va ∧ va < a + bytes.length
  · rw [if_pos hin, if_pos (by omega), show stack + (va - lo) - (stack + (a - lo)) = va - a by omega]
  · rw [if_neg hin, if_neg (by omega)]

/-- The words of the stack as bytes. -/
def stackBytes (img : ElfImage) (args : List (List UInt8)) : List UInt8 :=
  (stackWords img args).flatMap wordBytes

/-- The byte a program finds at an address of its initial stack. -/
def stackByte (img : ElfImage) (call : ExecCall) (va : Nat) : UInt8 :=
  if newSp call.args ≤ va ∧ va < newSp call.args + (stackBytes img call.args).length then
    (stackBytes img call.args).getD (va - newSp call.args) 0
  else if randomVa call.args ≤ va ∧ va < randomVa call.args + (call.random.take 16).length then
    (call.random.take 16).getD (va - randomVa call.args) 0
  else if stringsLo call.args ≤ va ∧ va < stringsLo call.args + (argBlob call.args).length then
    (argBlob call.args).getD (va - stringsLo call.args) 0
  else 0

/-- Where the parts of the stack lie: all of them above the lowest page, in this order, and the stack
pointer is aligned. -/
structure StackLayout (args : List (List UInt8)) : Prop where
  low : stackInitialLo ≤ newSp args
  words : newSp args + (args.length + 37) * 8 ≤ stringsLo args
  strings : randomVa args = stringsLo args + (argBlob args).length
  top : randomVa args + 16 ≤ userStackTop
  aligned : newSp args % 16 = 0

lemma stackLayout_of_fits (hblob : (argBlob args).length ≤ 1024)
    (hfits : execStackFits args.length (argBlob args).length = true) : StackLayout args := by
  have hlow : stackInitialLo ≤ newSp args := of_decide_eq_true hfits
  have hpos : 0 < stackInitialLo := by decide
  refine ⟨hlow, ?_, rfl, ?_, ?_⟩
  · simp only [newSp] at hlow ⊢
    omega
  · simp only [randomVa, stringsLo, userStackTop]
    omega
  · have hstr : stringsLo args % 16 = 0 := Nat.mul_mod_left _ _
    simp only [newSp] at hlow ⊢
    omega

lemma argOffsets_length (off : Nat) (args : List (List UInt8)) :
    (argOffsets off args).length = args.length := by
  induction args generalizing off with
  | nil => rfl
  | cons a as ih => rw [argOffsets, length_cons, length_cons, ih]

section
variable (img : ElfImage) (args : List (List UInt8))

lemma auxVector_length : (auxVector img args).length = 17 := by
  unfold auxVector
  by_cases h : args = []
  · simp [h]
  · simp [h]

lemma stackWords_length : (stackWords img args).length = args.length + 37 := by
  have haux : ((auxVector img args).flatMap fun p => [p.1, p.2]).length = 34 := by
    simp [auxVector_length]
  simp only [stackWords, length_append, length_cons, length_map, argOffsets_length, haux, length_nil]

end

lemma wordBytes_length (n : Nat) : (wordBytes n).length = 8 := by
  simp [wordBytes]

lemma stackBytes_length (img : ElfImage) (args : List (List UInt8)) :
    (stackBytes img args).length = (args.length + 37) * 8 := by
  rw [stackBytes, length_flatMap, map_congr_left fun n _ => wordBytes_length n,
    map_const', sum_replicate, stackWords_length, smul_eq_mul]

/-- **The stores of the call** leave exactly these bytes on cleared pages. -/
lemma execStack_byte (img : ElfImage) (hl : StackLayout call.args)
    (hzero : ∀ i < userStackPages, ∀ off, k.frame (stack + i * 4096) off = 0)
    (hlo : stackInitialLo ≤ va) (hhi : va < userStackTop) :
    (execStack k stack img call).frame (stack + (va - stackInitialLo) / 4096 * 4096) (va % 4096) =
      stackByte img call va := by
  have hal : stackInitialLo % 4096 = 0 := by decide
  have htop : userStackTop = stackInitialLo + userStackPages * 4096 := by decide
  obtain ⟨hl1, hl2, hl3, -⟩ := hl
  have hz := hzero ((va - stackInitialLo) / 4096) (by omega) (va % 4096)
  unfold execStack
  rw [writeBytes_at _ stack _ hal (by omega) hlo, writeBytes_at _ stack _ hal (by omega) hlo,
    writeBytes_at _ stack _ hal (by omega) hlo, writeBytes_at _ stack _ hal (by omega) hlo, hz]
  rw [show (stackWords img call.args).flatMap wordBytes = stackBytes img call.args from rfl]
  unfold stackByte
  split
  · rfl
  split
  · rfl
  split
  · -- the cleared random bytes lie above the strings
    rw [if_neg (by omega), getD_eq_getElem?_getD, getElem?_replicate]
    split
    · rfl
    · rfl
  · rfl

/-! ## Reading the stack back -/

/-- Word `j` of a list of words laid out byte by byte. -/
lemma getD_flatMap_wordBytes {ws : List Nat} (hj : j < ws.length) (hi : i < 8) :
    (ws.flatMap wordBytes).getD (8 * j + i) 0 = (wordBytes (ws.getD j 0)).getD i 0 := by
  induction ws generalizing j with
  | nil => cases hj
  | cons w ws ih =>
    have hlen := wordBytes_length w
    rw [flatMap_cons]
    cases j with
    | zero => rw [getD_append _ _ _ _ (by omega), mul_zero, zero_add, getD_cons_zero]
    | succ j =>
      rw [getD_append_right _ _ _ _ (by omega), hlen,
        show 8 * (j + 1) + i - 8 = 8 * j + i by omega, ih (Nat.lt_of_succ_lt_succ hj),
        getD_cons_succ]

/-- The strings lie in the blob one behind the other, each with its terminator. -/
lemma argBlob_string (off : Nat) (hi : i < args.length) : off ≤ (argOffsets off args).getD i 0 ∧
      (argOffsets off args).getD i 0 - off + (args.getD i []).length + 1 ≤ (argBlob args).length ∧
      ∀ j < (args.getD i []).length + 1,
        (argBlob args).getD ((argOffsets off args).getD i 0 - off + j) 0 =
          (args.getD i [] ++ [0]).getD j 0 := by
  induction args generalizing off i with
  | nil => cases hi
  | cons a as ih =>
    have hblob : argBlob (a :: as) = (a ++ [0]) ++ argBlob as := flatMap_cons
    have hlen : (a ++ [0]).length = a.length + 1 := length_append
    rw [argOffsets, hblob, length_append, hlen]
    cases i with
    | zero =>
      simp only [getD_cons_zero]
      refine ⟨le_refl _, by omega, fun j hj => ?_⟩
      rw [getD_append _ _ _ _ (by omega), Nat.sub_self, Nat.zero_add]
    | succ i =>
      obtain ⟨h1, h2, h3⟩ := ih (off + a.length + 1) (Nat.lt_of_succ_lt_succ hi)
      simp only [getD_cons_succ]
      refine ⟨by omega, by omega, fun j hj => ?_⟩
      rw [getD_append_right _ _ _ _ (by omega), hlen, ← h3 j hj]
      congr 1
      omega

section
variable {img : ElfImage}

/-- The program reads the initial stack. -/
def ShowsStack (k : Kernel) (l0 : Nat) (img : ElfImage) (call : ExecCall) : Prop :=
  ∀ va, stackInitialLo ≤ va → va < userStackTop → k.userByte l0 va = some (stackByte img call va)

variable (h : ShowsStack k l0 img call)
include h

lemma ShowsStack.word (hl : StackLayout call.args) (hj : j < call.args.length + 37) :
    k.UserHolds l0 (newSp call.args + 8 * j) (wordBytes ((stackWords img call.args).getD j 0)) := by
  intro i hi
  rw [wordBytes_length] at hi
  obtain ⟨hl1, hl2, hl3, hl4, -⟩ := hl
  have hlen := stackBytes_length img call.args
  rw [h _ (by omega) (by omega), stackByte, if_pos (by omega),
    show newSp call.args + 8 * j + i - newSp call.args = 8 * j + i by omega, stackBytes,
    getD_flatMap_wordBytes (by rw [stackWords_length]; exact hj) hi]

lemma ShowsStack.string (hl : StackLayout call.args) (hi : i < call.args.length) :
    k.UserHolds l0 (stringsLo call.args + (argOffsets 0 call.args).getD i 0)
      (call.args.getD i [] ++ [0]) := by
  intro j hj
  rw [length_append, length_singleton] at hj
  obtain ⟨-, hend, hbyte⟩ := argBlob_string 0 hi
  obtain ⟨hl1, hl2, hl3, hl4, -⟩ := hl
  have hlen := stackBytes_length img call.args
  rw [h _ (by omega) (by omega), stackByte, if_neg (by omega), if_neg (by omega), if_pos (by omega),
    ← hbyte j hj]
  congr 2
  omega

end

/-! ## What a program is entitled to -/

/-- `s` is the C string at `p`. -/
structure CString (mem : UserMem) (p : Nat) (s : List UInt8) : Prop where
  bytes : ∀ i < s.length, mem (add64 p i) = s.getD i 0
  nonzero : ∀ c ∈ s, c ≠ 0
  nul : mem (add64 p s.length) = 0

/-- The entries of an argument vector before its terminator. A null pointer stands for no vector. -/
def IsArgv (mem : UserMem) (argv : Nat) (ps : List Nat) : Prop :=
  (argv = 0 ∧ ps = []) ∨ (argv ≠ 0 ∧ (∀ p ∈ ps, p ≠ 0) ∧
    (∀ i < ps.length, load64 mem (add64 argv (i * 8)) = ps.getD i 0) ∧
    load64 mem (add64 argv (ps.length * 8)) = 0)

/-- The stack of a new program, read from its stack pointer `sp`: the count, the pointers to the
strings, two null words, the auxiliary vector and what these point at. -/
structure InitialStack (k : Kernel) (l0 stack sp : Nat) (strs : List (List UInt8)) (ptrs : List Nat)
    (aux : List (Nat × Nat)) (strLo rnd : Nat) : Prop where
  mapped : ∀ i < userStackPages, k.PointsAt l0 (stackInitialLo + i * 4096) (stack + i * 4096)
  aligned : sp % 16 = 0
  argc : k.UserHolds l0 sp (wordBytes strs.length)
  argv : ∀ i < strs.length, k.UserHolds l0 (sp + 8 * (1 + i)) (wordBytes (ptrs.getD i 0))
  argvNull : k.UserHolds l0 (sp + 8 * (1 + strs.length)) (wordBytes 0)
  envp : k.UserHolds l0 (sp + 8 * (2 + strs.length)) (wordBytes 0)
  auxv : ∀ j < aux.length, k.UserHolds l0 (sp + 8 * (3 + strs.length) + 16 * j)
    (wordBytes (aux.getD j (0, 0)).1 ++ wordBytes (aux.getD j (0, 0)).2)
  auxEnd : ∃ pairs, aux = pairs ++ [(0, 0)] ∧ ∀ p ∈ pairs, p.1 ≠ 0
  /-- The strings, inside one block. -/
  strings : ∀ i < strs.length, k.UserHolds l0 (ptrs.getD i 0) (strs.getD i [] ++ [0]) ∧
    strLo ≤ ptrs.getD i 0 ∧
    ptrs.getD i 0 + (strs.getD i []).length + 1 ≤ strLo + (argBlob strs).length
  /-- `AT_RANDOM` points at sixteen readable bytes. -/
  random : (25, rnd) ∈ aux ∧ ∀ i < 16, ∃ b, k.userByte l0 (rnd + i) = some b
  /-- Pointers, vector, strings and random bytes do not overlap and lie in the stack. -/
  blocks : [(sp, 8 * (3 + strs.length)), (sp + 8 * (3 + strs.length), 16 * aux.length),
      (strLo, (argBlob strs).length), (rnd, 16)].Pairwise
      (fun a b => a.1 + a.2 ≤ b.1 ∨ b.1 + b.2 ≤ a.1) ∧
    stackInitialLo ≤ sp ∧ sp + 8 * (3 + strs.length) + 16 * aux.length ≤ userStackTop ∧
    stackInitialLo ≤ strLo ∧ strLo + (argBlob strs).length ≤ userStackTop ∧
    stackInitialLo ≤ rnd ∧ rnd + 16 ≤ userStackTop

/-- The program started with stack pointer `sp` finds the strings behind all entries of the vector. -/
def ArgsPassed (mem : UserMem) (ps : List Nat) (sp : Nat) (t : Task) (k : Kernel) : Prop :=
  ∃ strs ptrs aux strLo rnd, Forall₂ (CString mem) ps strs ∧
    InitialStack k t.l0 t.ustackPhys sp strs ptrs aux strLo rnd

section
variable (img : ElfImage) (args : List (List UInt8))

/-- The vector without the zeros behind it. -/
def auxPairs : List (Nat × Nat) :=
  [(3, img.phdrVa), (4, img.phentsize), (5, img.phnum), (6, 4096), (7, 0), (8, 0),
      (9, img.entry), (11, 0), (12, 0), (13, 0), (14, 0), (16, 0), (17, 100), (23, 0),
      (25, randomVa args)] ++ (if args = [] then [] else [(31, stringsLo args)])

lemma auxVector_eq : ∃ n, auxVector img args = (auxPairs img args ++ [(0, 0)]) ++ replicate n (0, 0) :=
  ⟨_, rfl⟩

lemma auxPairs_ne_zero : ∀ p ∈ auxPairs img args, p.1 ≠ 0 := by
  intro p hp
  rcases mem_append.mp hp with hp | hp
  · simp only [mem_cons, not_mem_nil, or_false] at hp
    rcases hp with rfl | rfl | rfl | rfl | rfl | rfl | rfl | rfl | rfl | rfl | rfl | rfl | rfl | rfl |
      rfl <;> simp
  · split at hp
    · cases hp
    · obtain rfl := mem_singleton.mp hp
      simp

/-- Words of the pointer block. -/
lemma stackWords_getD : (stackWords img args).getD 0 0 = args.length ∧
      (∀ i < args.length, (stackWords img args).getD (1 + i) 0 =
        stringsLo args + (argOffsets 0 args).getD i 0) ∧
      (stackWords img args).getD (1 + args.length) 0 = 0 ∧
      (stackWords img args).getD (2 + args.length) 0 = 0 ∧
      ∀ j, (stackWords img args).getD (3 + args.length + j) 0 =
        ((auxVector img args).flatMap fun p => [p.1, p.2]).getD j 0 := by
  have hlen : ((argOffsets 0 args).map (stringsLo args + ·)).length = args.length := by
    rw [length_map, argOffsets_length]
  have heq : stackWords img args = args.length :: ((argOffsets 0 args).map (stringsLo args + ·) ++
      (0 :: 0 :: (auxVector img args).flatMap fun p => [p.1, p.2])) := by
    simp [stackWords]
  rw [heq]
  refine ⟨rfl, fun i hi => ?_, ?_, ?_, fun j => ?_⟩
  · rw [add_comm, getD_cons_succ, getD_append _ _ _ _ (by omega),
      getD_eq_getElem?_getD, getElem?_map, getD_eq_getElem?_getD,
      getElem?_eq_getElem (by rw [argOffsets_length]; exact hi)]
    rfl
  · rw [Nat.add_comm, getD_cons_succ, getD_append_right _ _ _ _ (by omega), hlen, Nat.sub_self,
      getD_cons_zero]
  · rw [show 2 + args.length = args.length + 1 + 1 by omega, getD_cons_succ,
      getD_append_right _ _ _ _ (by omega), hlen, Nat.add_sub_cancel_left, getD_cons_succ,
      getD_cons_zero]
  · rw [show 3 + args.length + j = args.length + (j + 2) + 1 by omega, getD_cons_succ,
      getD_append_right _ _ _ _ (by omega), hlen, Nat.add_sub_cancel_left, getD_cons_succ,
      getD_cons_succ]

end

lemma getD_flatMap_pair (ps : List (Nat × Nat)) (j : Nat) :
    (ps.flatMap fun p => [p.1, p.2]).getD (2 * j) 0 = (ps.getD j (0, 0)).1 ∧
      (ps.flatMap fun p => [p.1, p.2]).getD (2 * j + 1) 0 = (ps.getD j (0, 0)).2 := by
  induction ps generalizing j with
  | nil => exact ⟨rfl, rfl⟩
  | cons p ps ih =>
    cases j with
    | zero => exact ⟨rfl, rfl⟩
    | succ j => exact ih j

lemma Kernel.UserHolds.append (hx : k.UserHolds l0 va xs) (hy : k.UserHolds l0 (va + xs.length) ys) :
    k.UserHolds l0 va (xs ++ ys) := by
  intro i hi
  rw [length_append] at hi
  by_cases hlt : i < xs.length
  · rw [getD_append _ _ _ _ hlt]
    exact hx i hlt
  · rw [getD_append_right _ _ _ _ (by omega), ← hy (i - xs.length) (by omega)]
    congr 1
    omega

/-- **The layout delivers**: a program that reads the initial stack finds its arguments. -/
lemma ShowsStack.initialStack {img : ElfImage} (h : ShowsStack k l0 img call)
    (hl : StackLayout call.args)
    (hm : ∀ i < userStackPages, k.PointsAt l0 (stackInitialLo + i * 4096) (stack + i * 4096)) :
    InitialStack k l0 stack (newSp call.args) call.args
      ((argOffsets 0 call.args).map (stringsLo call.args + ·)) (auxPairs img call.args ++ [(0, 0)])
      (stringsLo call.args) (randomVa call.args) := by
  obtain ⟨hargc, hargv, hnull, henvp, haux⟩ := stackWords_getD img call.args
  obtain ⟨n, hvec⟩ := auxVector_eq img call.args
  have hcount : (auxPairs img call.args ++ [(0, 0)]).length ≤ 17 := by
    have hlen := congrArg length hvec
    rw [auxVector_length, length_append] at hlen
    omega
  have hptr : ∀ i < call.args.length,
      ((argOffsets 0 call.args).map (stringsLo call.args + ·)).getD i 0 =
        stringsLo call.args + (argOffsets 0 call.args).getD i 0 := by
    intro i hi
    rw [getD_eq_getElem?_getD, getElem?_map, getD_eq_getElem?_getD,
      getElem?_eq_getElem (by rw [argOffsets_length]; exact hi)]
    rfl
  have ⟨hl1, hl2, hl3, hl4, _⟩ := hl
  refine ⟨hm, hl.aligned, ?_, fun i hi => ?_, ?_, ?_, fun j hj => ?_, ⟨_, rfl, auxPairs_ne_zero _ _⟩,
    fun i hi => ?_, ⟨?_, fun i hi => ?_⟩, ?_⟩
  · have hw := h.word hl (j := 0) (by omega)
    exact hw
  · have hw := h.word hl (j := 1 + i) (by omega)
    rw [hargv i hi, ← hptr i hi] at hw
    exact hw
  · have hw := h.word hl (j := 1 + call.args.length) (by omega)
    rw [hnull] at hw
    exact hw
  · have hw := h.word hl (j := 2 + call.args.length) (by omega)
    rw [henvp] at hw
    exact hw
  · -- an entry of the vector is two words
    have hpair := getD_flatMap_pair (auxVector img call.args) j
    rw [← haux, ← haux, hvec, getD_append _ _ _ _ hj] at hpair
    have hw1 := h.word hl (j := 3 + call.args.length + 2 * j) (by omega)
    have hw2 := h.word hl (j := 3 + call.args.length + (2 * j + 1)) (by omega)
    rw [hpair.1, show newSp call.args + 8 * (3 + call.args.length + 2 * j) =
      newSp call.args + 8 * (3 + call.args.length) + 16 * j by omega] at hw1
    rw [hpair.2] at hw2
    refine hw1.append ?_
    rw [wordBytes_length]
    refine cast (congrArg (fun va => k.UserHolds l0 va _) ?_) hw2
    omega
  · obtain ⟨-, hend, -⟩ := argBlob_string 0 hi
    rw [hptr i hi]
    exact ⟨h.string hl hi, by omega, by omega⟩
  · exact mem_append_left _ (mem_append_left _ (by simp))
  · exact ⟨_, h _ (by omega) (by omega)⟩
  · refine ⟨?_, hl1, by omega, by omega, by omega, by omega, hl4⟩
    simp only [pairwise_cons, mem_cons, not_mem_nil, or_false, forall_eq_or_imp, forall_eq,
      List.Pairwise.nil, and_true, IsEmpty.forall_iff, implies_true]
    omega

/-! ## The captured strings -/

lemma nulIndex_least {ptr : Nat} :
    ∀ {n i j : Nat}, nulIndex mem ptr n i = some j → i ≤ j ∧ ∀ m, i ≤ m → m < j →
      mem (add64 ptr m) ≠ 0 := by
  intro n
  induction n with
  | zero =>
    intro i j h
    cases h
  | succ n ih =>
    intro i j h
    rw [nulIndex] at h
    split_ifs at h with hnz
    · cases h
      exact ⟨le_refl _, fun m hm hlt => absurd hlt (Nat.not_lt.mpr hm)⟩
    obtain ⟨hle, hbelow⟩ := ih h
    refine ⟨by omega, fun m hm hlt => ?_⟩
    rcases Nat.eq_or_lt_of_le hm with rfl | hlt'
    · exact hnz
    · exact hbelow m hlt' hlt

/-- A string the validator accepts is captured as it is. -/
lemma cString_of_userStrOk {p : Nat} (h : ¬ (userStrOk mem p).1 < 0) :
    CString mem p (stringAt mem p (userStrOk mem p).1.toNat) := by
  have hlen : ∀ n, (stringAt mem p n).length = n := fun n => by simp [stringAt]
  have hget : ∀ n i, i < n → (stringAt mem p n).getD i 0 = mem (add64 p i) := by
    intro n i hi
    simp [stringAt, getD_eq_getElem?_getD, hi]
  unfold userStrOk at h ⊢
  split_ifs with htop
  · rw [if_pos htop] at h
    exact absurd (by decide) h
  rw [if_neg htop] at h
  dsimp only at h ⊢
  split
  · rename_i j hj
    obtain ⟨-, hnul⟩ := nulIndex_some hj
    obtain ⟨-, hbelow⟩ := nulIndex_least hj
    refine ⟨fun i hi => ?_, fun c hc => ?_, ?_⟩
    · rw [hlen] at hi
      exact (hget _ i hi).symm
    · obtain ⟨i, hi, rfl⟩ := mem_map.mp hc
      exact hbelow i (Nat.zero_le i) (mem_range.mp hi)
    · rw [hlen]
      exact hnul
  · rename_i hnone
    rw [hnone] at h
    exact absurd (show (-1 : Int) < 0 by decide) h

/-- **The argument loop** captures the strings of the next `n` entries, or of all that are left. -/
lemma captureArgv_strings (hne : ∀ p ∈ ps, p ≠ 0)
    (hent : ∀ i < ps.length, load64 mem (add64 argv (i * 8)) = ps.getD i 0)
    (hnull : load64 mem (add64 argv (ps.length * 8)) = 0) :
    ∀ {n argc bytes : Nat} {args : List (List UInt8)}, argc ≤ ps.length →
      (captureArgv mem argv n argc bytes).1 = some args →
      Forall₂ (CString mem) ((ps.drop argc).take n) args := by
  intro n
  induction n with
  | zero =>
    intro argc bytes args _ h
    cases h
    exact .nil
  | succ n ih =>
    intro argc bytes args hle h
    rw [captureArgv] at h
    split at h
    · cases h
    dsimp only at h
    by_cases hend : argc = ps.length
    · -- the terminator
      rw [hend, if_pos hnull] at h
      cases h
      rw [hend, drop_length, take_nil]
      exact .nil
    have hlt : argc < ps.length := by omega
    have hget : ps.getD argc 0 = ps[argc] := by
      rw [getD_eq_getElem?_getD, getElem?_eq_getElem hlt]
      rfl
    have hp0 : ps.getD argc 0 ≠ 0 := by
      rw [hget]
      exact hne _ (getElem_mem hlt)
    rw [hent argc hlt, if_neg hp0] at h
    split at h
    · cases h
    rename_i hok
    split at h
    · cases h
    · obtain ⟨rest, hrest, rfl⟩ := Option.map_eq_some_iff.mp h
      rw [drop_eq_getElem_cons hlt, take_succ_cons, ← hget]
      exact .cons (cString_of_userStrOk hok) (ih hlt hrest)

/-- The strings of a call, captured from the vector at `argv`. -/
def captureArgs (mem : UserMem) (argv : Nat) : Option (List (List UInt8)) :=
  if argv = 0 then some [] else (captureArgv mem argv 32 0 0).1

lemma captureArgs_strings (hps : IsArgv mem argv ps) (h : captureArgs mem argv = some args) :
    Forall₂ (CString mem) (ps.take 32) args := by
  unfold captureArgs at h
  rcases hps with ⟨h0, rfl⟩ | ⟨h0, hne, hent, hnull⟩
  · rw [if_pos h0] at h
    cases h
    exact .nil
  · rw [if_neg h0] at h
    exact captureArgv_strings hne hent hnull (Nat.zero_le _) h

/-- A vector that wraps around memory would meet its own terminator. -/
lemma IsArgv.length_lt (h : IsArgv mem argv ps) : ps.length < 2 ^ 61 := by
  rcases h with ⟨-, rfl⟩ | ⟨-, hne, hent, hnull⟩
  · decide
  by_contra hge
  have hlt : ps.length - 2 ^ 61 < ps.length := by omega
  have hwrap : add64 argv ((ps.length - 2 ^ 61) * 8) = add64 argv (ps.length * 8) := by
    simp only [add64]
    omega
  have hentry := hent _ hlt
  rw [hwrap, hnull, getD_eq_getElem?_getD, getElem?_eq_getElem hlt] at hentry
  exact hne _ (getElem_mem hlt) hentry.symm

/-! ## The stack in the new table -/

/-- The walks for the stack pages find their table pages, in a call that starts building at `k`. -/
def stackWalks (k : Kernel) (data : List UInt8) : Bool :=
  match k.newSpace userStackPages with
  | (none, _) => true
  | (some (stack, l0), k) =>
    ((elfLoad data l0 k).k.mmuMapUserRange l0 stackInitialLo stack userStackPages stackFlags).1

/-- The environment has a table page for every walk that the mapping of the stack asks for. -/
def stackGranted (k : Kernel) (file : Option ExecFile) : Bool :=
  match file with
  | none => true
  | some f => stackWalks k.kmalloc.2.kmalloc.2 f.data

/-- The stack is mapped over the segments, as far as its walks go. -/
lemma execSpace_stack {k' : Kernel} {data : List UInt8} (h : execSpace k data = (some sp, k')) :
    ∃ m ≤ userStackPages, (stackWalks k data = true ↔ m = userStackPages) ∧
      ∀ a, InPages stackInitialLo userStackPages a → (InPages stackInitialLo m a → k'.leaf sp.l0 a =
          some (leafPte (sp.stack + (a / 4096 - stackInitialLo / 4096) * 4096) stackFlags)) ∧
        (¬ InPages stackInitialLo m a → ∀ w, k'.leaf sp.l0 a = some w →
          ∃ r ∈ sp.img.regions, r.mapping.at? a = some w) := by
  obtain ⟨k1, m3, k3, k4, m5, hspace, hout, hmap3, hal4, -, hmap5⟩ := execSpace_some h
  have hwalks : stackWalks k data = m3 := by
    rw [stackWalks, hspace]
    exact congrArg Prod.fst hmap3
  obtain ⟨-, hb1⟩ := newSpace_some (.refl k) hspace
  obtain ⟨k2, rs, hb, -, hcase⟩ := elfLoad_outcome data sp.l0 k1
  rw [hout] at hcase
  obtain ⟨hk, himg, -⟩ := hcase
  obtain ⟨-, m, hm, hm1, hleaf3⟩ := Kernel.mmuMapUserRange_spec hmap3
  obtain ⟨-, m', hm', -, hleaf5⟩ := Kernel.mmuMapUserRange_spec hmap5
  obtain ⟨⟨p4, gs4, -, rfl⟩, -⟩ := Kernel.pmmAllocatePages_cases hal4
  refine ⟨m, hm, hwalks ▸ hm1, fun a ha => ?_⟩
  -- the TLS page lies elsewhere
  have htls : ¬ InPages userTlsBase m' a := by
    have hbase : userTlsBase / 4096 = 0xB00 := by decide
    have hend : stackInitialLo / 4096 + userStackPages = 0x800 := by decide
    rintro ⟨hlo, -⟩
    have := ha.2
    omega
  have hkeep : k'.leaf sp.l0 a = k3.leaf sp.l0 a := by
    rw [hleaf5, if_neg htls]
    rfl
  refine ⟨fun hin => ?_, fun hout => ?_⟩
  · rw [hkeep, hleaf3, if_pos hin]
  intro w hw
  rw [hkeep, hleaf3, if_neg hout, hk] at hw
  obtain ⟨ms, hcut, -, hleaf⟩ := hb.leaf
  obtain ⟨ms0, hcut0, -, hleaf0⟩ := hb1.leaf
  cases hcut0
  rw [hleaf, hleaf0, overlay, Option.or_none] at hw
  obtain ⟨m0, hm0, hat⟩ := overlay_some hw
  obtain ⟨mr, hmr, hc⟩ := exists_left_of_forall₂ hcut hm0
  obtain ⟨r, hr, rfl⟩ := mem_map.mp hmr
  exact ⟨r, by rwa [himg], hc.at? hat⟩

/-- The stack pages are not pages of a segment. -/
lemma ExecSpace.Ready.stack_fresh {k1 : Kernel} (h : sp.Ready k k1) {x : Nat}
    (hx : x ∈ regionPages sp.img.regions) : x ∉ pagesFrom sp.stack userStackPages := by
  obtain ⟨hs, -, ht⟩ := h.built.took
  have hnd := (nodup_append.mp (nodup_append.mp ht.nodup).1).2.1
  have hnd := (nodup_append.mp hnd).2.1
  exact fun hx' => (nodup_append.mp hnd).2.2 x hx x hx' rfl

section
variable {k1 : Kernel} {t : Task} {f : ExecFile} (h : ExecReached k t call f sp k1)
include h

/-- The new task and its kernel. -/
lemma ExecReached.stack_iff : (∀ i < userStackPages, (execSwitch k1 t sp call).PointsAt
      (execTask t sp (ttbrPack sp.l0 (schedAsidAlloc k1).1)).l0 (stackInitialLo + i * 4096)
      (sp.stack + i * 4096)) ↔ stackGranted k call.file = true := by
  obtain ⟨m, hm, hwalks, hleaf⟩ := execSpace_stack h.space
  have hfill := execSpace_filled h.space
  have hgranted : stackGranted k call.file = stackWalks k.kmalloc.2.kmalloc.2 f.data := by
    rw [h.file]
    rfl
  have hpage : ∀ i < userStackPages, InPages stackInitialLo userStackPages (stackInitialLo + i * 4096) := by
    simp only [InPages]
    omega
  rw [hgranted, hwalks]
  constructor
  · intro hall
    by_contra hne
    have hlt : m < userStackPages := by omega
    -- the first page whose walk failed would have to show a page of the stack
    obtain ⟨w, hw, hframe⟩ := hall m hlt
    rw [h.leaf_eq] at hw
    have hout : ¬ InPages stackInitialLo m (stackInitialLo + m * 4096) := by
      simp only [InPages]
      omega
    obtain ⟨r, hr, hat⟩ := (hleaf _ (hpage m hlt)).2 hout w hw
    have hmem : r.mapping ∈ sp.mappings := mem_append_left _ (mem_map_of_mem hr)
    obtain ⟨hj, hframe'⟩ := (h.ready.mappable hfill).frame_at? hmem hat
    refine h.ready.stack_fresh (x := sp.stack + m * 4096) ?_ (mem_pagesFrom.mpr ⟨m, hlt, rfl⟩)
    rw [← hframe, hframe']
    exact mem_flatMap.mpr ⟨r, hr, mem_pagesFrom.mpr ⟨_, hj, rfl⟩⟩
  rintro rfl i hi
  have hidx : (stackInitialLo + i * 4096) / 4096 - stackInitialLo / 4096 = i := by omega
  have hl := (hleaf _ (hpage i hi)).1 (hpage i hi)
  rw [hidx] at hl
  refine ⟨_, (h.leaf_eq _).trans hl, ?_⟩
  have hb := (h.ready.built.taken (sp.stack + i * 4096) (mem_append_right _
    (mem_append_right _ (mem_pagesFrom.mpr ⟨i, hi, rfl⟩)))).bounds
  exact leafPte_frame flagsOk_stackFlags hb.1 hb.2.2

/-- With its pages mapped, the program reads the initial stack. -/
lemma ExecReached.showsStack (hm : ∀ i < userStackPages, (execSwitch k1 t sp call).PointsAt
      (execTask t sp (ttbrPack sp.l0 (schedAsidAlloc k1).1)).l0 (stackInitialLo + i * 4096)
      (sp.stack + i * 4096)) :
    ShowsStack (execSwitch k1 t sp call) (execTask t sp (ttbrPack sp.l0 (schedAsidAlloc k1).1)).l0
      sp.img call := by
  have hfill := execSpace_filled h.space
  have hlayout := stackLayout_of_fits h.fits.1 h.fits.2
  obtain ⟨m, -, hwalks, hleaf⟩ := execSpace_stack h.space
  have hgranted := h.stack_iff.mp hm
  rw [h.file] at hgranted
  have hall : m = userStackPages := hwalks.mp hgranted
  subst hall
  intro va hlo hhi
  have hal : stackInitialLo % 4096 = 0 := by decide
  have htop : userStackTop = stackInitialLo + userStackPages * 4096 := by decide
  have hin : InPages stackInitialLo userStackPages va := by
    simp only [InPages]
    omega
  have hidx : va / 4096 - stackInitialLo / 4096 = (va - stackInitialLo) / 4096 := by omega
  have hl := (hleaf va hin).1 hin
  rw [hidx] at hl
  have hb := (h.ready.built.taken (sp.stack + (va - stackInitialLo) / 4096 * 4096)
    (mem_append_right _ (mem_append_right _ (mem_pagesFrom.mpr ⟨_, by omega, rfl⟩)))).bounds
  have hread : el0Read stackFlags = true := by decide
  rw [Kernel.userByte, h.leaf_eq, hl]
  dsimp only
  rw [leafPte_el0Read, hread, if_pos rfl, leafPte_frame flagsOk_stackFlags hb.1 hb.2.2,
    (execSwitch_tables k1 t sp call).2, execStack_byte sp.img hlayout hfill.stack hlo hhi]

end

/-! ## All arguments, or a failure -/

lemma wordBytes_inj {b : Nat} (ha : a < 2 ^ 64) (hb : b < 2 ^ 64) (h : wordBytes a = wordBytes b) :
    a = b := by
  have hbyte : ∀ i < 8, a / 256 ^ i % 256 = b / 256 ^ i % 256 := by
    intro i hi
    have hi' := congrArg (fun l => (l.getD i 0).toNat) h
    simpa [wordBytes, byteOf, getD_eq_getElem?_getD, hi] using hi'
  have h0 := hbyte 0 (by decide)
  have h1 := hbyte 1 (by decide)
  have h2 := hbyte 2 (by decide)
  have h3 := hbyte 3 (by decide)
  have h4 := hbyte 4 (by decide)
  have h5 := hbyte 5 (by decide)
  have h6 := hbyte 6 (by decide)
  have h7 := hbyte 7 (by decide)
  omega

/-- Two byte strings of one length read at one address are equal. -/
lemma Kernel.UserHolds.unique (hx : k.UserHolds l0 va xs) (hy : k.UserHolds l0 va ys)
    (hlen : xs.length = ys.length) :
    xs = ys := by
  refine ext_getElem hlen fun i hi hi' => ?_
  have he := Option.mem_unique (hx i hi) (hy i hi')
  rwa [getD_eq_getElem _ _ hi, getD_eq_getElem _ _ hi'] at he

/-- `sys_exec` from the argument vector on; `file` is what opening and reading the path gives. -/
def sysExecFrom (k : Kernel) (t : Task) (mem : UserMem) (argv : Nat) (file : Option ExecFile)
    (random : List UInt8) : Int × Task × Kernel :=
  match captureArgs mem argv with
  | none => (-1, t, k)
  | some args => sysExec k t ⟨file, args, random⟩

/-- The stack pointer the program starts with. -/
def execSp (mem : UserMem) (argv : Nat) : Nat := newSp ((captureArgs mem argv).getD [])

/-- A caller's memory with a vector of `n` entries at `0x1000`, all of them pointing at the string `a`
at `0x2000`. -/
def argvMemory (n : Nat) : UserMem := fun a =>
  if 0x1000 ≤ a ∧ a < 0x1000 + n * 8 then (if a % 8 = 1 then 0x20 else 0)
  else if a = 0x2000 then 97 else 0

/-- The file of `textOnlyCall`. -/
def textOnlyFile : ExecFile := ⟨textOnly.length, textOnly⟩

lemma sysExecFrom_eta {t : Task} {file : Option ExecFile} {random : List UInt8}
    (h : (sysExecFrom k t mem argv file random).1 = 0) :
    sysExecFrom k t mem argv file random = (0, (sysExecFrom k t mem argv file random).2.1,
      (sysExecFrom k t mem argv file random).2.2) := by
  revert h
  exact fun h => Prod.ext h rfl

lemma isArgv_two : IsArgv (argvMemory 2) 0x1000 [0x2000, 0x2000] := by
  refine .inr ⟨by decide, by decide, ?_, by decide +kernel⟩
  decide +kernel

end FermiOs
