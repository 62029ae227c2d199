import Mathlib.Tactic

/-!
# Straight-line AArch64 code over one stack frame

Register file, memory and the moves of which save and restore sequences consist: a register to a slot
of the current stack frame and back, a register to a register, a constant, a mask. A SIMD register is
two 64-bit halves. Within a block the stack pointer stays where it is, so every slot has a name, its
offset, and a block can be executed symbolically: `Expr.before` computes, for what is read after a
block, the expression that has the same value before it. `Expr.eval_exec` is its correctness; facts
about a concrete block are then computations.

Memory is kept as its 8-byte cells under their byte addresses; all accesses are 8-byte aligned.
-/

namespace FermiOs.Library
open List Function

/-- Contents of a register or of a memory cell. -/
abbrev Word := BitVec 64

/-- The system registers that are moved. -/
inductive SysReg where
  | spEl0
  | elrEl1
  | spsrEl1
  | esrEl1
  | farEl1
  | fpsr
  | fpcr
  | tpidrEl0
  | ttbr0El1
deriving DecidableEq

/-- The 64-bit registers: general registers, both halves of the SIMD registers, system registers, and
the program counter and state of the interrupted code. -/
inductive Reg where
  | x (n : Fin 31)
  | vlo (n : Fin 32)
  | vhi (n : Fin 32)
  | sys (r : SysReg)
  | pc
  | pstate
deriving DecidableEq

/-- For the numerals that number registers. -/
instance Reg.neZero_x : NeZero 31 := ⟨by decide⟩

instance Reg.neZero_v : NeZero 32 := ⟨by decide⟩

/-- All system registers. -/
def SysReg.all : List SysReg :=
  [.spEl0, .elrEl1, .spsrEl1, .esrEl1, .farEl1, .fpsr, .fpcr, .tpidrEl0, .ttbr0El1]

/-- All registers. What holds of each of them can be checked by going through the list. -/
def Reg.all : List Reg :=
  (finRange 31).map .x ++ (finRange 32).map .vlo ++ (finRange 32).map .vhi ++
    SysReg.all.map .sys ++ [.pc, .pstate]

lemma Reg.mem_all (r : Reg) : r ∈ Reg.all := by
  cases r with
  | sys r => cases r <;> simp [Reg.all, SysReg.all]
  | _ => simp [Reg.all]

/-- A processor: registers, the stack pointer in use and memory. -/
structure Cpu where
  reg : Reg → Word
  sp : Word
  mem : Word → Word

/-- Write of one register. -/
def Cpu.set (s : Cpu) (r : Reg) (w : Word) : Cpu := { s with reg := update s.reg r w }

/-- Write of one memory cell. -/
def Cpu.store (s : Cpu) (a w : Word) : Cpu := { s with mem := update s.mem a w }

/-- Address of a slot of the current frame. -/
def Cpu.slot (s : Cpu) (off : Nat) : Word := s.sp + BitVec.ofNat 64 off

lemma Cpu.slot_inj (s : Cpu) (a b : Nat) :
    s.slot a = s.slot b ↔ a % 18446744073709551616 = b % 18446744073709551616 := by
  unfold Cpu.slot
  rw [BitVec.add_right_inj]
  exact BitVec.toNat_inj.symm

section
variable (s : Cpu) (r : Reg) (a w : Word)

@[simp] lemma Cpu.set_reg : (s.set r w).reg = update s.reg r w := rfl
@[simp] lemma Cpu.set_sp : (s.set r w).sp = s.sp := rfl
@[simp] lemma Cpu.set_mem : (s.set r w).mem = s.mem := rfl
@[simp] lemma Cpu.store_reg : (s.store a w).reg = s.reg := rfl
@[simp] lemma Cpu.store_sp : (s.store a w).sp = s.sp := rfl
@[simp] lemma Cpu.set_slot : (s.set r w).slot = s.slot := rfl
@[simp] lemma Cpu.store_slot : (s.store a w).slot = s.slot := rfl
@[simp] lemma Cpu.store_mem : (s.store a w).mem = update s.mem a w := rfl

end

/-- One move. -/
inductive Op where
  | str (r : Reg) (off : Nat)
  | ldr (r : Reg) (off : Nat)
  | mov (dst src : Reg)
  | imm (dst : Reg) (w : Word)
  | and (dst src : Reg) (mask : Word)
deriving DecidableEq

/-- Effect of one move. -/
def Op.exec (s : Cpu) : Op → Cpu
  | .str r off => s.store (s.slot off) (s.reg r)
  | .ldr r off => s.set r (s.mem (s.slot off))
  | .mov dst src => s.set dst (s.reg src)
  | .imm dst w => s.set dst w
  | .and dst src mask => s.set dst (s.reg src &&& mask)

/-- Effect of a block. -/
def exec (ops : List Op) (s : Cpu) : Cpu := ops.foldl Op.exec s

@[simp] lemma exec_nil (s : Cpu) : exec [] s = s := rfl

variable {ops : List Op}

lemma exec_cons (op : Op) (ops : List Op) (s : Cpu) : exec (op :: ops) s = exec ops (op.exec s) := rfl

lemma exec_append (as bs : List Op) (s : Cpu) : exec (as ++ bs) s = exec bs (exec as s) :=
  foldl_append

-- from here on blocks are executed by the lemmas above or symbolically, never unfolded
attribute [irreducible] exec

@[simp] lemma Op.exec_sp (s : Cpu) (op : Op) : (op.exec s).sp = s.sp := by
  cases op <;> rfl

@[simp] lemma exec_sp (ops : List Op) (s : Cpu) : (exec ops s).sp = s.sp := by
  induction ops generalizing s with
  | nil => rw [exec_nil]
  | cons op ops ih => rw [exec_cons, ih, op.exec_sp]

/-! ## Instructions -/

section
variable (a b : Fin 31) (c d : Fin 32) (off : Nat)

/-- Pairs of general registers. -/
def stpX : List Op := [.str (.x a) off, .str (.x b) (off + 8)]

@[inherit_doc stpX]
def ldpX : List Op := [.ldr (.x a) off, .ldr (.x b) (off + 8)]

/-- Pairs of whole SIMD registers. -/
def stpQ : List Op :=
  [.str (.vlo c) off, .str (.vhi c) (off + 8), .str (.vlo d) (off + 16), .str (.vhi d) (off + 24)]

@[inherit_doc stpQ]
def ldpQ : List Op :=
  [.ldr (.vlo c) off, .ldr (.vhi c) (off + 8), .ldr (.vlo d) (off + 16), .ldr (.vhi d) (off + 24)]

/-- Pairs of lower halves. A load clears the upper halves. -/
def stpD : List Op := [.str (.vlo c) off, .str (.vlo d) (off + 8)]

@[inherit_doc stpD]
def ldpD : List Op :=
  [.ldr (.vlo c) off, .imm (.vhi c) 0, .ldr (.vlo d) (off + 8), .imm (.vhi d) 0]

/-- Single general registers. -/
def strX : List Op := [.str (.x a) off]

@[inherit_doc strX]
def ldrX : List Op := [.ldr (.x a) off]

/-- Moves from and to a system register. -/
def mrs (r : SysReg) : List Op := [.mov (.x a) (.sys r)]

@[inherit_doc mrs]
def msr (r : SysReg) : List Op := [.mov (.sys r) (.x a)]

end

/-! ## Symbolic execution -/

/-- What is read of a state: a register, a slot of the frame, a constant, a masked value. -/
inductive Expr where
  | reg (r : Reg)
  | slot (off : Nat)
  | imm (w : Word)
  | and (e : Expr) (mask : Word)
deriving DecidableEq

/-- Value in a state. -/
def Expr.eval (s : Cpu) : Expr → Word
  | .reg r => s.reg r
  | .slot off => s.mem (s.slot off)
  | .imm w => w
  | .and e mask => e.eval s &&& mask

/-- The expression before one move. -/
def Expr.beforeOp (op : Op) : Expr → Expr
  | .reg r =>
    match op with
    | .str _ _ => .reg r
    | .ldr d off => if r = d then .slot off else .reg r
    | .mov d src => if r = d then .reg src else .reg r
    | .imm d w => if r = d then .imm w else .reg r
    | .and d src mask => if r = d then .and (.reg src) mask else .reg r
  | .slot off =>
    match op with
    | .str src o =>
      if off % 18446744073709551616 = o % 18446744073709551616 then .reg src else .slot off
    | _ => .slot off
  | .imm w => .imm w
  | .and e mask => .and (e.beforeOp op) mask

/-- The expression before a block. -/
def Expr.before (e : Expr) : List Op → Expr
  | [] => e
  | op :: ops => (e.before ops).beforeOp op

lemma Expr.eval_execOp (op : Op) (s : Cpu) (e : Expr) :
    e.eval (op.exec s) = (e.beforeOp op).eval s := by
  induction e with
  | imm w => rfl
  | and e mask ih => simp only [eval, beforeOp, ih]
  | slot off =>
    cases op with
    | str r o =>
      simp only [eval, Op.exec, beforeOp, Cpu.store_mem, Cpu.store_slot, update_apply, Cpu.slot_inj]
      split <;> rfl
    | ldr r o => rfl
    | mov d src => rfl
    | imm d w => rfl
    | and d src mask => rfl
  | reg r =>
    cases op with
    | str r' o => rfl
    | ldr d o =>
      simp only [eval, Op.exec, beforeOp, Cpu.set_reg, update_apply]
      split <;> rfl
    | mov d src =>
      simp only [eval, Op.exec, beforeOp, Cpu.set_reg, update_apply]
      split <;> rfl
    | imm d w =>
      simp only [eval, Op.exec, beforeOp, Cpu.set_reg, update_apply]
      split <;> rfl
    | and d src mask =>
      simp only [eval, Op.exec, beforeOp, Cpu.set_reg, update_apply]
      split <;> rfl

/-- Symbolic execution is correct. -/
lemma Expr.eval_exec (ops : List Op) (s : Cpu) (e : Expr) :
    e.eval (exec ops s) = (e.before ops).eval s := by
  induction ops generalizing s with
  | nil => rw [exec_nil, before]
  | cons op ops ih => rw [exec_cons, ih, Expr.eval_execOp, before]

lemma Expr.before_append (e : Expr) (as bs : List Op) :
    e.before (as ++ bs) = (e.before bs).before as := by
  induction as with
  | nil => rfl
  | cons op as ih => rw [cons_append, before, ih, before]

/-- The register an expression is about. -/
def Expr.mentions (r : Reg) : Expr → Bool
  | .reg d => d = r
  | .slot _ => false
  | .imm _ => false
  | .and e _ => e.mentions r

/-- The register a move reads. -/
def Op.reads (r : Reg) : Op → Bool
  | .str src _ => src = r
  | .ldr _ _ => false
  | .mov _ src => src = r
  | .imm _ _ => false
  | .and _ src _ => src = r

lemma Expr.beforeOp_mentions {op : Op} {r : Reg} (hop : op.reads r = false) {e : Expr}
    (he : e.mentions r = false) : (e.beforeOp op).mentions r = false := by
  induction e with
  | imm w => rfl
  | and e mask ih => exact ih he
  | slot off => cases op <;> simp only [beforeOp] <;> (try split) <;> first | rfl | exact hop
  | reg d => cases op <;> simp only [beforeOp] <;> (try split) <;> first | rfl | exact hop | exact he

lemma Expr.before_mentions {r : Reg} (hops : ∀ op ∈ ops, op.reads r = false) {e : Expr}
    (he : e.mentions r = false) : (e.before ops).mentions r = false := by
  induction ops with
  | nil => exact he
  | cons op ops ih =>
    exact beforeOp_mentions (hops op mem_cons_self)
      (ih fun o ho => hops o (mem_cons_of_mem _ ho))

lemma Expr.beforeOp_imm {e : Expr} {r : Reg} (he : e.mentions r = false) (w : Word) :
    e.beforeOp (.imm r w) = e := by
  induction e with
  | imm w => rfl
  | slot off => rfl
  | and e mask ih => exact congrArg (Expr.and · mask) (ih he)
  | reg d =>
    have hd : d ≠ r := fun hd => by simp [mentions, hd] at he
    simp only [beforeOp, if_neg hd]

/-- A constant does not matter where its register is not read afterwards. -/
lemma Expr.before_imm {e : Expr} {as bs : List Op} {r : Reg} (he : e.mentions r = false)
    (hbs : ∀ op ∈ bs, op.reads r = false) (w : Word) :
    e.before (as ++ .imm r w :: bs) = e.before (as ++ bs) := by
  rw [before_append, before_append, before, beforeOp_imm (before_mentions hbs he)]

/-- A register after a block. -/
lemma exec_reg {r : Reg} {e : Expr} (s : Cpu) (h : (Expr.reg r).before ops = e) :
    (exec ops s).reg r = e.eval s := by
  have hr := Expr.eval_exec ops s (.reg r)
  rw [h] at hr
  exact hr

/-- A slot of the frame after a block. -/
lemma exec_slot {off : Nat} {e : Expr} (s : Cpu) (h : (Expr.slot off).before ops = e) :
    (exec ops s).mem (s.slot off) = e.eval s := by
  have hs := Expr.eval_exec ops s (.slot off)
  rw [h, Expr.eval, Cpu.slot, exec_sp] at hs
  exact hs

/-- The slots a block stores to. -/
def stored : List Op → List Nat
  | [] => []
  | .str _ off :: ops => off :: stored ops
  | _ :: ops => stored ops

/-- Cells that are not slots stored to are kept. -/
lemma exec_mem {s : Cpu} {a : Word} (h : ∀ off ∈ stored ops, a ≠ s.slot off) :
    (exec ops s).mem a = s.mem a := by
  induction ops generalizing s with
  | nil => rw [exec_nil]
  | cons op ops ih =>
    rw [exec_cons]
    cases op with
    | str r o =>
      rw [ih fun off hoff => by simpa [Op.exec] using h off (mem_cons_of_mem _ hoff)]
      exact update_of_ne (h o mem_cons_self) _ _
    | ldr r o => exact ih h
    | mov d src => exact ih h
    | imm d w => exact ih h
    | and d src mask => exact ih h

end FermiOs.Library
