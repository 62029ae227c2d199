import FermiOs.Mm.Layout

/-!
# User pointers

The two validators of `syscall/syscall.c`, `user_buf_ok` and `user_str_ok`, and the byte scans over C
strings that the file-system code runs on a path. A function that follows a user-supplied address
returns the runs of bytes it touched, so that where a call reads or writes is part of its result.

Loops over a string that nothing bounds take a `fuel` argument, the number of bytes they may read;
statements about them hold for every fuel.
-/

namespace FermiOs

/-- The bytes the kernel sees at each virtual address while it serves one call. -/
abbrev UserMem := Nat → UInt8

/-- `USER_PATH_MAX`. -/
def userPathMax : Nat := 4096

/-! ## Touched bytes -/

/-- A run of bytes read or written through an address that came from user space. -/
structure Span where
  start : Nat
  len : Nat
  deriving DecidableEq

/-- The addresses of a span, in 64-bit pointer arithmetic. -/
def Span.Touches (r : Span) (a : Nat) : Prop := ∃ i < r.len, a = add64 r.start i

/-- Every address of every span lies in `[0, USER_VA_TOP)`. -/
def InUser (rs : List Span) : Prop := ∀ r ∈ rs, ∀ a, r.Touches a → a < userVaTop

@[simp] lemma inUser_nil : InUser [] := by
  intro r hr
  cases hr

@[simp] lemma inUser_cons {r : Span} {rs : List Span} :
    InUser (r :: rs) ↔ (∀ a, r.Touches a → a < userVaTop) ∧ InUser rs := by
  simp only [InUser, List.forall_mem_cons]

@[simp] lemma inUser_append {rs rs' : List Span} : InUser (rs ++ rs') ↔ InUser rs ∧ InUser rs' := by
  simp only [InUser, List.forall_mem_append]

variable {mem : UserMem} {p ptr : Nat}

/-- A span that ends at or below the top of user space touches user addresses only. -/
lemma touches_lt {n a : Nat} (h : n = 0 ∨ p + n ≤ userVaTop) (ha : Span.Touches ⟨p, n⟩ a) :
    a < userVaTop := by
  obtain ⟨i, hi, rfl⟩ := ha
  have hi' : i < n := hi
  have hsum : p + i < userVaTop := by omega
  have htop : userVaTop < 2 ^ 64 := by decide
  show (p + i) % 2 ^ 64 < userVaTop
  rw [Nat.mod_eq_of_lt (hsum.trans htop)]
  exact hsum

lemma add64_of_lt_top {i : Nat} (h : p + i ≤ userVaTop) : add64 p i = p + i := by
  have htop : userVaTop < 2 ^ 64 := by decide
  exact Nat.mod_eq_of_lt (by omega)

/-! ## Validators -/

/-- `user_buf_ok`. -/
def userBufOk (ptr len : Nat) : Bool :=
  if len = 0 then true
  else if add64 ptr len < ptr then false
  else if userVaTop < add64 ptr len then false
  else true

/-- The scan of `user_str_ok`: the first index below the bound that holds a NUL. -/
def nulIndex (mem : UserMem) (ptr : Nat) : Nat → Nat → Option Nat
  | 0, _ => none
  | n + 1, i => if mem (add64 ptr i) = 0 then some i else nulIndex mem ptr n (i + 1)

/-- `user_str_ok`: the length of the string, or `-1`, and the bytes inspected. -/
def userStrOk (mem : UserMem) (ptr : Nat) : Int × List Span :=
  if userVaTop ≤ ptr then (-1, [])
  else
    let bound := min (userVaTop - ptr) userPathMax
    match nulIndex mem ptr bound 0 with
    | some i => (i, [⟨ptr, i + 1⟩])
    | none => (-1, [⟨ptr, bound⟩])

/-- A user string of length at most `j`: index `j` is below the top of user space and holds a
NUL. -/
def Terminated (mem : UserMem) (p j : Nat) : Prop := p + j < userVaTop ∧ mem (p + j) = 0

/-- A buffer `user_buf_ok` accepts does not reach past user space. -/
lemma userBufOk_bound {len n : Nat} (hp : ptr < 2 ^ 64) (hl : len < 2 ^ 64)
    (h : userBufOk ptr len = true) (hn : n ≤ len) : n = 0 ∨ ptr + n ≤ userVaTop := by
  by_cases h0 : len = 0
  · exact .inl (by omega)
  -- no wrap-around is left once the overflow guard has passed
  have hguard : ¬ add64 ptr len < ptr ∧ ¬ userVaTop < add64 ptr len := by
    simpa [userBufOk, h0] using h
  have hsum : add64 ptr len = ptr + len := by
    have := hguard.1
    simp only [add64] at this ⊢
    omega
  have := hguard.2
  exact .inr (by omega)

lemma nulIndex_some :
    ∀ {n i j : Nat}, nulIndex mem ptr n i = some j → j < i + n ∧ mem (add64 ptr j) = 0 := by
  intro n
  induction n with
  | zero =>
    intro i j h
    cases h
  | succ n ih =>
    intro i j h
    rw [nulIndex] at h
    split_ifs at h with hz
    · cases h
      exact ⟨by omega, hz⟩
    · obtain ⟨hlt, hz⟩ := ih h
      exact ⟨by omega, hz⟩

/-- Whatever the verdict, the validator itself stays below the top of user space. -/
lemma userStrOk_inUser (mem : UserMem) (ptr : Nat) : InUser (userStrOk mem ptr).2 := by
  unfold userStrOk
  split_ifs with hlt
  · exact inUser_nil
  dsimp only
  split
  · rename_i i hi
    have hi := (nulIndex_some hi).1
    exact inUser_cons.2 ⟨fun a => touches_lt (.inr (by omega)), inUser_nil⟩
  · exact inUser_cons.2 ⟨fun a => touches_lt (.inr (by omega)), inUser_nil⟩

/-- An accepted string has its terminator inside user space, at the length returned. -/
lemma userStrOk_terminated (h : ¬ (userStrOk mem ptr).1 < 0) :
    Terminated mem ptr (userStrOk mem ptr).1.toNat := by
  unfold userStrOk at h ⊢
  split_ifs with hge
  · simp [hge] at h
  rw [if_neg hge] at h
  dsimp only at h ⊢
  split
  · rename_i i hi
    obtain ⟨hlt', hz⟩ := nulIndex_some hi
    have hi' : ptr + i < userVaTop := by omega
    rw [add64_of_lt_top (by omega)] at hz
    exact ⟨hi', hz⟩
  · rename_i hnone
    simp [hnone] at h

/-- The empty string and a bad pointer are the only ones without a positive length. -/
lemma userStrOk_eq_zero (h : (userStrOk mem ptr).1 = 0) : Terminated mem ptr 0 := by
  have ht : Terminated mem ptr (userStrOk mem ptr).1.toNat := userStrOk_terminated (by omega)
  rw [h] at ht
  exact ht

lemma Terminated.advance {j : Nat} (h : Terminated mem p j) (hne : mem p ≠ 0) :
    add64 p 1 = p + 1 ∧ 0 < j ∧ Terminated mem (p + 1) (j - 1) := by
  obtain ⟨hlt, hz⟩ := h
  have hj : 0 < j := by
    by_contra h0
    have : j = 0 := by omega
    subst this
    exact hne hz
  refine ⟨add64_of_lt_top (by omega), hj, ?_, ?_⟩
  · omega
  · rw [show p + 1 + (j - 1) = p + j by omega]
    exact hz

/-! ## Byte scans over a string -/

/-- Number of bytes `strlen` reads, the terminator included. -/
def strlenReads (mem : UserMem) : Nat → Nat → Nat
  | 0, _ => 0
  | n + 1, p => if mem p = 0 then 1 else strlenReads mem n (add64 p 1) + 1

/-- `strncmp` against a fixed string of that length: bytes read, and whether they agree. -/
def strncmpReads (mem : UserMem) : List UInt8 → Nat → Nat × Bool
  | [], _ => (0, true)
  | c :: cs, p =>
    if mem p ≠ c then (1, false)
    else if mem p = 0 then (1, true)
    else
      let r := strncmpReads mem cs (add64 p 1)
      (r.1 + 1, r.2)

/-- Number of slashes `while (*rest == '/') rest++` steps over. -/
def slashRun (mem : UserMem) : Nat → Nat → Nat
  | 0, _ => 0
  | n + 1, p => if mem p = 47 then slashRun mem n (add64 p 1) + 1 else 0

lemma strlenReads_le : ∀ {n p j : Nat}, Terminated mem p j → strlenReads mem n p ≤ j + 1 := by
  intro n
  induction n with
  | zero =>
    intro p j _
    exact Nat.zero_le _
  | succ n ih =>
    intro p j h
    rw [strlenReads]
    split_ifs with hne
    · omega
    obtain ⟨hadd, hj, hnext⟩ := h.advance hne
    have := ih hnext
    rw [hadd]
    omega

lemma strncmpReads_le :
    ∀ {cs : List UInt8} {p j : Nat}, Terminated mem p j → (strncmpReads mem cs p).1 ≤ j + 1 := by
  intro cs
  induction cs with
  | nil =>
    intro p j _
    exact Nat.zero_le _
  | cons c cs ih =>
    intro p j h
    rw [strncmpReads]
    split
    · exact Nat.le_add_left 1 j
    split_ifs with hne
    · exact Nat.le_add_left 1 j
    obtain ⟨hadd, hj, hnext⟩ := h.advance hne
    have := ih hnext
    rw [hadd]
    show (strncmpReads mem cs (p + 1)).1 + 1 ≤ j + 1
    omega

/-- After a successful comparison with a string that has no NUL, the rest of the user string is
still terminated. -/
lemma strncmpReads_rest : ∀ {cs : List UInt8} {p j : Nat}, (∀ c ∈ cs, c ≠ 0) → Terminated mem p j →
      (strncmpReads mem cs p).2 = true →
      cs.length ≤ j ∧ Terminated mem (p + cs.length) (j - cs.length) := by
  intro cs
  induction cs with
  | nil =>
    intro p j _ h _
    exact ⟨Nat.zero_le _, h⟩
  | cons c cs ih =>
    intro p j hcs h heq
    rw [strncmpReads] at heq
    split at heq
    · cases heq
    rename_i hc
    have hc : mem p = c := Classical.not_not.1 hc
    have hne : mem p ≠ 0 := hc ▸ hcs c List.mem_cons_self
    rw [if_neg hne] at heq
    obtain ⟨hadd, hj, hnext⟩ := h.advance hne
    rw [hadd] at heq
    obtain ⟨hle, hrest⟩ := ih (fun c' hc' => hcs c' (List.mem_cons_of_mem _ hc')) hnext heq
    rw [List.length_cons]
    refine ⟨by omega, ?_⟩
    rw [show p + (cs.length + 1) = p + 1 + cs.length by omega,
      show j - (cs.length + 1) = j - 1 - cs.length by omega]
    exact hrest

lemma slashRun_rest : ∀ {n p j : Nat}, Terminated mem p j →
      slashRun mem n p ≤ j ∧ Terminated mem (p + slashRun mem n p) (j - slashRun mem n p) := by
  intro n
  induction n with
  | zero =>
    intro p j h
    exact ⟨Nat.zero_le _, h⟩
  | succ n ih =>
    intro p j h
    rw [slashRun]
    split_ifs with hslash
    · obtain ⟨hadd, hj, hnext⟩ := h.advance (by rw [hslash]; decide)
      obtain ⟨hle, hrest⟩ := ih hnext
      rw [hadd]
      refine ⟨by omega, ?_⟩
      rw [show p + (slashRun mem n (p + 1) + 1) = p + 1 + slashRun mem n (p + 1) by omega,
        show j - (slashRun mem n (p + 1) + 1) = j - 1 - slashRun mem n (p + 1) by omega]
      exact hrest
    · exact ⟨Nat.zero_le _, h⟩

end FermiOs
