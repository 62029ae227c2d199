import FermiOs.Library.Aarch64

/-!
# Exception entry and return

The code of `exception/vector.S` for an exception taken from EL0: the entry stub, `exception_common` up
to the call of `exception_dispatch`, and its tail from there to the `eret`. The trap frame has 688
bytes. It holds the general registers, the interrupted program counter and state, the user stack
pointer, the SIMD registers that a C function may change, and the floating-point control registers;
`trapSlot` is its layout. The SIMD registers v8 to v15 are not in it.
-/

namespace FermiOs
open Library

/-- `FRAME_SIZE`. -/
def frameSize : Word := 688

/-- What the processor does when it takes an exception. -/
def takeException : List Op := [.mov (.sys .elrEl1) .pc, .mov (.sys .spsrEl1) .pstate]

/-- What the processor does for `eret`. -/
def eret : List Op := [.mov .pc (.sys .elrEl1), .mov .pstate (.sys .spsrEl1)]

/-- The exception types. -/
inductive ExceptionType where
  | sync
  | irq
  | fiq
  | serror

/-- `EXCEPTION_SYNC` and the others. -/
def ExceptionType.code : ExceptionType → Word
  | .sync => 0
  | .irq => 1
  | .fiq => 2
  | .serror => 3

/-- `VECTOR_ENTRY_LOWER`, with the frame in place. -/
def vectorEntryLower (type : ExceptionType) : List Op :=
  stpX 0 1 0 ++ mrs 0 .spEl0 ++ strX 0 280 ++ [.imm (.x 0) type.code]

/-- `exception_common` up to the call: general registers. -/
def saveGeneral : List Op :=
  stpX 2 3 16 ++ stpX 4 5 32 ++ stpX 6 7 48 ++ stpX 8 9 64 ++ stpX 10 11 80 ++ stpX 12 13 96 ++
    stpX 14 15 112 ++ stpX 16 17 128 ++ stpX 18 19 144 ++ stpX 20 21 160 ++ stpX 22 23 176 ++
    stpX 24 25 192 ++ stpX 26 27 208 ++ stpX 28 29 224 ++ strX 30 240

/-- System registers. -/
def saveSystem : List Op :=
  mrs 1 .elrEl1 ++ strX 1 248 ++ mrs 1 .spsrEl1 ++ strX 1 256 ++ mrs 1 .esrEl1 ++ strX 1 264 ++
    mrs 1 .farEl1 ++ strX 1 272

/-- SIMD registers and floating-point control. -/
def saveSimd : List Op :=
  stpQ 0 1 288 ++ stpQ 2 3 320 ++ stpQ 4 5 352 ++ stpQ 6 7 384 ++ stpQ 16 17 416 ++ stpQ 18 19 448 ++
    stpQ 20 21 480 ++ stpQ 22 23 512 ++ stpQ 24 25 544 ++ stpQ 26 27 576 ++ stpQ 28 29 608 ++
    stpQ 30 31 640 ++ mrs 1 .fpsr ++ strX 1 672 ++ mrs 1 .fpcr ++ strX 1 680

/-- The moves from the interrupted instruction to the call of `exception_dispatch`. -/
def entryOps (type : ExceptionType) : List Op :=
  takeException ++ vectorEntryLower type ++ saveGeneral ++ saveSystem ++ saveSimd

/-- The processor at the call of `exception_dispatch`, with the type and the frame as arguments. -/
def exceptionEntry (type : ExceptionType) (s : Cpu) : Cpu :=
  let s := exec (entryOps type) { s with sp := s.sp - frameSize }
  s.set (.x 1) s.sp

/-- `exception_common` after the call: system registers, and the mode to return to in x2. -/
def restoreSystem : List Op :=
  ldrX 1 248 ++ msr 1 .elrEl1 ++ ldrX 1 256 ++ msr 1 .spsrEl1 ++ [.and (.x 2) (.x 1) 0xF]

/-- The user stack pointer. -/
def restoreSpEl0 : List Op := ldrX 1 280 ++ msr 1 .spEl0

/-- Floating-point control and SIMD registers. -/
def restoreSimd : List Op :=
  ldrX 1 680 ++ msr 1 .fpcr ++ ldrX 1 672 ++ msr 1 .fpsr ++ ldpQ 30 31 640 ++ ldpQ 28 29 608 ++
    ldpQ 26 27 576 ++ ldpQ 24 25 544 ++ ldpQ 22 23 512 ++ ldpQ 20 21 480 ++ ldpQ 18 19 448 ++
    ldpQ 16 17 416 ++ ldpQ 6 7 384 ++ ldpQ 4 5 352 ++ ldpQ 2 3 320 ++ ldpQ 0 1 288

/-- General registers. -/
def restoreGeneral : List Op :=
  ldpX 2 3 16 ++ ldpX 4 5 32 ++ ldpX 6 7 48 ++ ldpX 8 9 64 ++ ldpX 10 11 80 ++ ldpX 12 13 96 ++
    ldpX 14 15 112 ++ ldpX 16 17 128 ++ ldpX 18 19 144 ++ ldpX 20 21 160 ++ ldpX 22 23 176 ++
    ldpX 24 25 192 ++ ldpX 26 27 208 ++ ldpX 28 29 224 ++ ldrX 30 240 ++ ldpX 0 1 0

/-- System registers and, when the return is to EL0, the user stack pointer (`cbnz x2, 1f`). -/
def restoreMode (s : Cpu) : Cpu :=
  let s := exec restoreSystem s
  if s.reg (.x 2) = 0 then exec restoreSpEl0 s else s

/-- The tail of `exception_common`, from the return of `exception_dispatch` to EL0. -/
def exceptionReturn (s : Cpu) : Cpu :=
  let s := exec (restoreSimd ++ restoreGeneral ++ eret) (restoreMode s)
  { s with sp := s.sp + frameSize }

/-! ## The trap frame -/

/-- The slot in which the trap frame keeps a register of the interrupted program. -/
def trapSlot : Reg → Option Nat
  | .x n => some (8 * n.val)
  | .vlo n =>
    if n.val < 8 then some (288 + 16 * n.val)
    else if n.val < 16 then none else some (416 + 16 * (n.val - 16))
  | .vhi n =>
    if n.val < 8 then some (296 + 16 * n.val)
    else if n.val < 16 then none else some (424 + 16 * (n.val - 16))
  | .sys .spEl0 => some 280
  | .sys .fpsr => some 672
  | .sys .fpcr => some 680
  | .sys _ => none
  | .pc => some 248
  | .pstate => some 256

/-- The registers of a program in EL0. -/
def userView : Reg → Prop
  | .x _ => True
  | .vlo _ => True
  | .vhi _ => True
  | .sys r => r = .spEl0 ∨ r = .fpsr ∨ r = .fpcr ∨ r = .tpidrEl0
  | .pc => True
  | .pstate => True

instance : DecidablePred userView := by
  rintro (_ | _ | _ | _ | _ | _) <;> dsimp only [userView] <;> infer_instance

variable {off : Nat} {r : Reg}

/-- The user registers outside the trap frame: v8 to v15 and the thread pointer. -/
lemma userView_cases (h : userView r) : (∃ off, trapSlot r = some off) ∨ r = .sys .tpidrEl0 ∨
      ∃ n : Fin 32, 8 ≤ n.val ∧ n.val < 16 ∧ (r = .vlo n ∨ r = .vhi n) := by
  cases r with
  | x n => exact .inl ⟨_, rfl⟩
  | pc => exact .inl ⟨_, rfl⟩
  | pstate => exact .inl ⟨_, rfl⟩
  | sys r =>
    rcases h with rfl | rfl | rfl | rfl
    · exact .inl ⟨_, rfl⟩
    · exact .inl ⟨_, rfl⟩
    · exact .inl ⟨_, rfl⟩
    · exact .inr (.inl rfl)
  | vlo n =>
    by_cases h8 : n.val < 8
    · exact .inl ⟨_, if_pos h8⟩
    by_cases h16 : n.val < 16
    · exact .inr (.inr ⟨n, by omega, h16, .inl rfl⟩)
    · exact .inl ⟨_, (if_neg h8).trans (if_neg h16)⟩
  | vhi n =>
    by_cases h8 : n.val < 8
    · exact .inl ⟨_, if_pos h8⟩
    by_cases h16 : n.val < 16
    · exact .inr (.inr ⟨n, by omega, h16, .inr rfl⟩)
    · exact .inl ⟨_, (if_neg h8).trans (if_neg h16)⟩

/-- The type is in x0, which nothing reads before the call. -/
lemma entryOps_before {e : Expr} (he : e.mentions (.x 0) = false) (type : ExceptionType) :
    e.before (entryOps type) = e.before (takeException ++ (stpX 0 1 0 ++ mrs 0 .spEl0 ++ strX 0 280) ++
        (saveGeneral ++ saveSystem ++ saveSimd)) := by
  have hbs : ∀ op ∈ saveGeneral ++ saveSystem ++ saveSimd, op.reads (.x 0) = false := by
    decide +kernel
  rw [← Expr.before_imm he hbs type.code]
  simp only [entryOps, vectorEntryLower, List.append_assoc, List.cons_append, List.nil_append]

/-- The entry code fills every slot with the register it is for. -/
lemma entryOps_slot (type : ExceptionType) (h : trapSlot r = some off) :
    (Expr.slot off).before (entryOps type) = .reg r := by
  have hall : ∀ r ∈ Reg.all, ∀ off ∈ trapSlot r, (Expr.slot off).before (takeException ++
      (stpX 0 1 0 ++ mrs 0 .spEl0 ++ strX 0 280) ++ (saveGeneral ++ saveSystem ++ saveSimd)) =
        .reg r := by
    decide +kernel
  rw [entryOps_before rfl]
  exact hall r r.mem_all off h

/-- It leaves the other user registers alone. -/
lemma entryOps_reg (type : ExceptionType) (hr : userView r) (h : trapSlot r = none) :
    (Expr.reg r).before (entryOps type) = .reg r := by
  have hall : ∀ r ∈ Reg.all, userView r → trapSlot r = none → (Expr.reg r).before (takeException ++
      (stpX 0 1 0 ++ mrs 0 .spEl0 ++ strX 0 280) ++ (saveGeneral ++ saveSystem ++ saveSimd)) =
        .reg r := by
    decide +kernel
  have hx : (Expr.reg r).mentions (.x 0) = false := by
    cases r <;> simp_all [Expr.mentions, trapSlot]
  rw [entryOps_before hx]
  exact hall r r.mem_all hr h

section
variable (type : ExceptionType) (s : Cpu)

@[simp] lemma exceptionEntry_sp : (exceptionEntry type s).sp = s.sp - frameSize := by
  simp [exceptionEntry]

/-- At the call the frame holds the user registers. -/
lemma exceptionEntry_slot (h : trapSlot r = some off) :
    (exceptionEntry type s).mem ((exceptionEntry type s).slot off) = s.reg r := by
  have hs := exec_slot { s with sp := s.sp - frameSize } (entryOps_slot type h)
  simp only [Cpu.slot, exceptionEntry_sp]
  exact hs

/-- The user registers outside the frame are still in place. -/
lemma exceptionEntry_reg (hr : userView r) (h : trapSlot r = none) :
    (exceptionEntry type s).reg r = s.reg r := by
  have hne : r ≠ .x 1 := by
    rintro rfl
    simp [trapSlot] at h
  have hs := exec_reg { s with sp := s.sp - frameSize } (entryOps_reg type hr h)
  simp only [exceptionEntry, Cpu.set_reg, Function.update_of_ne hne]
  exact hs

/-- Only the frame is written. -/
lemma exceptionEntry_mem {a : Word}
    (h : ∀ off ∈ stored (entryOps type), a ≠ s.sp - frameSize + BitVec.ofNat 64 off) :
    (exceptionEntry type s).mem a = s.mem a := by
  have hm : (exec (entryOps type) { s with sp := s.sp - frameSize }).mem a = s.mem a := exec_mem h
  exact hm

end

/-! ## Return -/

/-- The tail when the frame says EL0. -/
def returnOps : List Op :=
  restoreSystem ++ restoreSpEl0 ++ restoreSimd ++ restoreGeneral ++ eret

lemma restoreMode_eq {s : Cpu} (h : s.mem (s.slot 256) &&& 0xF = 0) :
    restoreMode s = exec (restoreSystem ++ restoreSpEl0) s := by
  have hx : (exec restoreSystem s).reg (.x 2) = s.mem (s.slot 256) &&& 0xF :=
    exec_reg s (e := .and (.slot 256) 0xF) (by decide +kernel)
  rw [restoreMode, if_pos (hx.trans h), exec_append]

lemma exceptionReturn_eq {s : Cpu} (h : s.mem (s.slot 256) &&& 0xF = 0) :
    exceptionReturn s = { exec returnOps s with sp := s.sp + frameSize } := by
  have hops : returnOps = (restoreSystem ++ restoreSpEl0) ++ (restoreSimd ++ restoreGeneral ++ eret) := by
    simp only [returnOps, List.append_assoc]
  rw [exceptionReturn, restoreMode_eq h, hops, exec_append _ (restoreSimd ++ restoreGeneral ++ eret)]
  simp only [exec_sp]

/-- Return to EL0: the user registers are those of the frame. -/
lemma exceptionReturn_slot {s : Cpu} (h : s.mem (s.slot 256) &&& 0xF = 0)
    (hr : trapSlot r = some off) : (exceptionReturn s).reg r = s.mem (s.slot off) := by
  have hall : ∀ r ∈ Reg.all, ∀ off ∈ trapSlot r, (Expr.reg r).before returnOps = .slot off := by
    decide +kernel
  have hs := exec_reg s (hall r r.mem_all off hr)
  rw [exceptionReturn_eq h]
  exact hs

/-- Those outside the frame stay as they are. -/
lemma exceptionReturn_reg {s : Cpu} (h : s.mem (s.slot 256) &&& 0xF = 0) (hr : userView r)
    (hn : trapSlot r = none) : (exceptionReturn s).reg r = s.reg r := by
  have hall : ∀ r ∈ Reg.all, userView r → trapSlot r = none →
      (Expr.reg r).before returnOps = .reg r := by
    decide +kernel
  have hs := exec_reg s (hall r r.mem_all hr hn)
  rw [exceptionReturn_eq h]
  exact hs

end FermiOs
