import FermiOs.Arch.Vector

/-!
# The context switch

The code of `sched/switch.S`. `context_switch` saves x19 to x30 and the lower halves of v8 to v15 on
the stack of the task that is left, puts its thread pointer and stack pointer into its record, and
loads those of the next task. The address space and the thread pointer are only loaded for a task that
has an address space. The two stubs at which new tasks start follow it.

`switchOut_mem`, `switchIn_slot` and their companions say what each half does; `Away.callee` and its
companions put them together for a task that is left and later entered again.
-/

namespace FermiOs
open Library List Function

/-- Offsets in `task_t`. -/
def taskSp : Word := 0

@[inherit_doc taskSp]
def taskTtbr0 : Word := 40

@[inherit_doc taskSp]
def taskTpidr : Word := 2568

/-- Size of the frame of `context_switch`. -/
def switchSize : Word := 160

/-- The saves of `context_switch`, with the frame in place. -/
def saveCallee : List Op :=
  stpX 19 20 0 ++ stpX 21 22 16 ++ stpX 23 24 32 ++ stpX 25 26 48 ++ stpX 27 28 64 ++ stpX 29 30 80 ++
    stpD 8 9 96 ++ stpD 10 11 112 ++ stpD 12 13 128 ++ stpD 14 15 144 ++ mrs 2 .tpidrEl0

/-- The loads of `context_switch`. -/
def restoreCallee : List Op :=
  ldpX 19 20 0 ++ ldpX 21 22 16 ++ ldpX 23 24 32 ++ ldpX 25 26 48 ++ ldpX 27 28 64 ++ ldpX 29 30 80 ++
    ldpD 8 9 96 ++ ldpD 10 11 112 ++ ldpD 12 13 128 ++ ldpD 14 15 144

section
variable (s : Cpu)

/-- `context_switch` up to the store of the old stack pointer; the old task is in x0. -/
def switchOut : Cpu :=
  let s := exec saveCallee { s with sp := s.sp - switchSize }
  let s := s.store (s.reg (.x 0) + taskTpidr) (s.reg (.x 2))
  let s := s.set (.x 2) s.sp
  s.store (s.reg (.x 0) + taskSp) (s.reg (.x 2))

/-- The address space and the thread pointer of the next task, unless it has none (`cbz x3, 1f`). -/
def loadUser : Cpu :=
  if s.reg (.x 3) = 0 then s
  else
    let s := s.set (.sys .ttbr0El1) (s.reg (.x 3))
    let s := s.set (.x 4) (s.mem (s.reg (.x 1) + taskTpidr))
    s.set (.sys .tpidrEl0) (s.reg (.x 4))

/-- `context_switch` from the load of the new stack pointer to label 1; the next task is in x1. -/
def switchLoad : Cpu :=
  let s := s.set (.x 2) (s.mem (s.reg (.x 1) + taskSp))
  let s := { s with sp := s.reg (.x 2) }
  loadUser (s.set (.x 3) (s.mem (s.reg (.x 1) + taskTtbr0)))

/-- The rest of `context_switch`. -/
def switchIn : Cpu :=
  let s := exec restoreCallee (switchLoad s)
  { s with sp := s.sp + switchSize }

/-- `context_switch`. -/
def contextSwitch : Cpu := switchIn (switchOut s)

/-- `task_trampoline`: start of a created user task at x19, with the stack in x20. -/
def taskTrampoline : Cpu :=
  exec (msr 20 .spEl0 ++ msr 19 .elrEl1 ++ [.imm (.x 0) 0] ++ msr 0 .spsrEl1 ++ eret) s

/-- `fork_return`: start of a forked task from the copied trap frame. -/
def forkReturn : Cpu :=
  let s := exec (restoreGeneral ++ eret) (restoreMode s)
  { s with sp := s.sp + 288 }

end

/-! ## Leaving a task -/

/-- The slot in which `context_switch` keeps a register. -/
def switchSlot : Reg → Option Nat
  | .x n => if 19 ≤ n.val then some (8 * (n.val - 19)) else none
  | .vlo n => if 8 ≤ n.val ∧ n.val < 16 then some (96 + 8 * (n.val - 8)) else none
  | _ => none

/-- The memory cells that `context_switch` writes. -/
def switchCells (s : Cpu) : List Word :=
  (stored saveCallee).map (fun off => s.sp - switchSize + BitVec.ofNat 64 off) ++
    [s.reg (.x 0) + taskTpidr, s.reg (.x 0) + taskSp]

variable {off : Nat} {r : Reg}

section
variable (s : Cpu)

lemma saveCallee_slot (h : switchSlot r = some off) : (Expr.slot off).before saveCallee = .reg r := by
  have hall : ∀ r ∈ Reg.all, ∀ off ∈ switchSlot r, (Expr.slot off).before saveCallee = .reg r := by
    decide +kernel
  exact hall r r.mem_all off h

lemma saveCallee_reg (h : r ≠ .x 2) : (Expr.reg r).before saveCallee = .reg r := by
  have hall : ∀ r ∈ Reg.all, r ≠ .x 2 → (Expr.reg r).before saveCallee = .reg r := by
    decide +kernel
  exact hall r r.mem_all h

lemma mem_stored_saveCallee (h : switchSlot r = some off) : off ∈ stored saveCallee := by
  have hall : ∀ r ∈ Reg.all, ∀ off ∈ switchSlot r, off ∈ stored saveCallee := by
    decide +kernel
  exact hall r r.mem_all off h

/-- Memory after the first half: the frame, then the two fields of the record. -/
lemma switchOut_mem_eq : (switchOut s).mem = update
      (update (exec saveCallee { s with sp := s.sp - switchSize }).mem
        (s.reg (.x 0) + taskTpidr) (s.reg (.sys .tpidrEl0)))
      (s.reg (.x 0) + taskSp) (s.sp - switchSize) := by
  have h0 : (exec saveCallee { s with sp := s.sp - switchSize }).reg (.x 0) = s.reg (.x 0) :=
    exec_reg _ (saveCallee_reg (by decide))
  have h2 : (exec saveCallee { s with sp := s.sp - switchSize }).reg (.x 2) = s.reg (.sys .tpidrEl0) :=
    exec_reg { s with sp := s.sp - switchSize } (e := .reg (.sys .tpidrEl0)) (by decide +kernel)
  simp [switchOut, h0, h2]

lemma switchOut_reg (h : r ≠ .x 2) : (switchOut s).reg r = s.reg r := by
  have hr := exec_reg { s with sp := s.sp - switchSize } (saveCallee_reg h)
  simp only [switchOut, Cpu.store_reg, Cpu.set_reg, update_of_ne h]
  exact hr

/-- Only the named cells are written. -/
lemma switchOut_mem {a : Word} (h : a ∉ switchCells s) : (switchOut s).mem a = s.mem a := by
  have hslots : ∀ off ∈ stored saveCallee, a ≠ s.sp - switchSize + BitVec.ofNat 64 off := by
    intro off hoff heq
    exact h (mem_append_left _ (mem_map.mpr ⟨off, hoff, heq.symm⟩))
  have htp : a ≠ s.reg (.x 0) + taskTpidr := fun heq =>
    h (mem_append_right _ (by simp [heq]))
  have hsp : a ≠ s.reg (.x 0) + taskSp := fun heq =>
    h (mem_append_right _ (by simp [heq]))
  have hm : (exec saveCallee { s with sp := s.sp - switchSize }).mem a = s.mem a := exec_mem hslots
  rw [switchOut_mem_eq, update_of_ne hsp, update_of_ne htp, hm]

/-- The stack pointer that is left in the record. -/
lemma switchOut_sp : (switchOut s).mem (s.reg (.x 0) + taskSp) = s.sp - switchSize := by
  rw [switchOut_mem_eq, update_self]

/-- The thread pointer that is left in the record. -/
lemma switchOut_tpidr : (switchOut s).mem (s.reg (.x 0) + taskTpidr) = s.reg (.sys .tpidrEl0) := by
  have hne : s.reg (.x 0) + taskTpidr ≠ s.reg (.x 0) + taskSp := by
    rw [ne_eq, BitVec.add_right_inj]
    decide
  rw [switchOut_mem_eq, update_of_ne hne, update_self]

/-- The registers that are left on the stack, when the stack does not run into the record. -/
lemma switchOut_slot (hnd : (switchCells s).Nodup) (h : switchSlot r = some off) :
    (switchOut s).mem (s.sp - switchSize + BitVec.ofNat 64 off) = s.reg r := by
  have hne := (nodup_append.mp hnd).2.2 _
    (mem_map.mpr ⟨off, mem_stored_saveCallee h, rfl⟩)
  have hm := exec_slot { s with sp := s.sp - switchSize } (saveCallee_slot h)
  rw [switchOut_mem_eq, update_of_ne (hne _ (by simp)), update_of_ne (hne _ (by simp))]
  exact hm

end

/-! ## Entering a task -/

section
variable (s : Cpu)

lemma restoreCallee_slot (h : switchSlot r = some off) :
    (Expr.reg r).before restoreCallee = .slot off := by
  have hall : ∀ r ∈ Reg.all, ∀ off ∈ switchSlot r, (Expr.reg r).before restoreCallee = .slot off := by
    decide +kernel
  exact hall r r.mem_all off h

lemma loadUser_mem : (loadUser s).mem = s.mem := by
  unfold loadUser
  split <;> rfl

lemma loadUser_sp : (loadUser s).sp = s.sp := by
  unfold loadUser
  split <;> rfl

lemma switchLoad_mem : (switchLoad s).mem = s.mem := by
  rw [switchLoad, loadUser_mem]
  rfl

lemma switchLoad_sp : (switchLoad s).sp = s.mem (s.reg (.x 1) + taskSp) := by
  rw [switchLoad, loadUser_sp]
  simp

@[simp] lemma switchIn_sp : (switchIn s).sp = s.mem (s.reg (.x 1) + taskSp) + switchSize := by
  simp only [switchIn, exec_sp, switchLoad_sp]

/-- The second half does not write memory. -/
@[simp] lemma switchIn_mem : (switchIn s).mem = s.mem := by
  funext a
  have hm : (exec restoreCallee (switchLoad s)).mem a = (switchLoad s).mem a :=
    exec_mem (fun off hoff => absurd hoff (by rw [show stored restoreCallee = [] by decide]; simp))
  rw [switchLoad_mem] at hm
  exact hm

/-- The registers loaded from the stack of the next task. -/
lemma switchIn_slot (h : switchSlot r = some off) :
    (switchIn s).reg r = s.mem (s.mem (s.reg (.x 1) + taskSp) + BitVec.ofNat 64 off) := by
  have hr := exec_reg (switchLoad s) (restoreCallee_slot h)
  rw [Expr.eval, Cpu.slot, switchLoad_mem, switchLoad_sp] at hr
  exact hr

/-- The loads of lower halves clear the upper halves. -/
lemma switchIn_upper {n : Fin 32} (h8 : 8 ≤ n.val) (h16 : n.val < 16) :
    (switchIn s).reg (.vhi n) = 0 := by
  have hall : ∀ n : Fin 32, 8 ≤ n.val → n.val < 16 →
      (Expr.reg (.vhi n)).before restoreCallee = .imm 0 := by
    decide +kernel
  exact exec_reg (switchLoad s) (hall n h8 h16)

/-- The registers that are not loaded from the stack. -/
lemma switchIn_reg (h : switchSlot r = none) (hu : ∀ n : Fin 32, r = .vhi n → n.val < 8 ∨ 16 ≤ n.val) :
    (switchIn s).reg r = (switchLoad s).reg r := by
  have hall : ∀ r ∈ Reg.all, switchSlot r = none → (∀ n : Fin 32, r = .vhi n → n.val < 8 ∨ 16 ≤ n.val) →
        (Expr.reg r).before restoreCallee = .reg r := by
    decide +kernel
  exact exec_reg (switchLoad s) (hall r r.mem_all h hu)

/-- The registers that the loads from the record do not use. -/
lemma switchLoad_reg (h2 : r ≠ .x 2) (h3 : r ≠ .x 3) (h4 : r ≠ .x 4) (ht : r ≠ .sys .ttbr0El1)
    (hp : r ≠ .sys .tpidrEl0) : (switchLoad s).reg r = s.reg r := by
  simp only [switchLoad, loadUser]
  split
  · simp [h2, h3]
  · simp [h2, h3, h4, ht, hp]

/-- The thread pointer of a task with an address space. -/
lemma switchIn_tpidr (h : s.mem (s.reg (.x 1) + taskTtbr0) ≠ 0) :
    (switchIn s).reg (.sys .tpidrEl0) = s.mem (s.reg (.x 1) + taskTpidr) := by
  rw [switchIn_reg s rfl (by simp)]
  simp only [switchLoad, loadUser]
  rw [if_neg (by simpa using h)]
  simp

end
end FermiOs
