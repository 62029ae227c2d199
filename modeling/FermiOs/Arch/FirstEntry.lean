import FermiOs.Arch.Resume
import FermiOs.Mm.Layout

/-!
# The first instruction of a task

A new task is entered by `context_switch` from a stack that `sched_create_task` or `sched_fork` has
laid out, and reaches EL0 through one of the stubs of `sched/switch.S`. What it finds in its registers
comes from three places: the stack, constants of the stub, and whatever the processor held.
`child_matches_parent_iff` compares a forked task with its parent, `first_entry_equal_iff` two
creations of one task with each other.
-/

namespace FermiOs
open Library List

/-- Addresses of the stubs. -/
structure Labels where
  taskTrampoline : Word
  forkReturn : Word
  ne : taskTrampoline ≠ forkReturn

/-- The stub that the `ret` of `context_switch` reaches, run to its `eret`. -/
def afterSwitch (l : Labels) (s : Cpu) : Option Cpu :=
  if s.reg (.x 30) = l.taskTrampoline then some (taskTrampoline s)
  else if s.reg (.x 30) = l.forkReturn then some (forkReturn s)
  else none

/-- Kernel stack that `sched_create_task` lays out, upwards from the saved stack pointer. -/
def createCell (l : Labels) (entry : Word) (off : Nat) : Word :=
  if off = 0 then entry
  else if off = 8 then BitVec.ofNat 64 userStackTop
  else if off = 88 then l.taskTrampoline
  else 0

/-- Kernel stack that `sched_fork` lays out: a frame for `context_switch`, and above it a copy of the
trap frame of the parent with x0 cleared. -/
def forkCell (l : Labels) (mem : Word → Word) (frame : Word) (off : Nat) : Word :=
  if off < 160 then if off = 88 then l.forkReturn else 0
  else if off = 160 then 0
  else mem (trapCell frame (off - 160))

/-- The second half of `context_switch` is about to enter a task for the first time: its record has
the given stack pointer and address space and the default thread pointer, its stack the given cells. -/
structure Fresh (task fp ttbr0 : Word) (cell : Nat → Word) (size : Nat) (s : Cpu) : Prop where
  next : s.reg (.x 1) = task
  sp : s.mem (task + taskSp) = fp
  root : s.mem (task + taskTtbr0) = ttbr0
  root_ne : ttbr0 ≠ 0
  tpidr : s.mem (task + taskTpidr) = BitVec.ofNat 64 userTlsBase
  stack : ∀ off < size, off % 8 = 0 → s.mem (fp + BitVec.ofNat 64 off) = cell off

variable {off : Nat} {r : Reg} {s : Cpu}

section
variable {task fp ttbr0 : Word} {cell : Nat → Word} {size : Nat} {e : Cpu}
  (h : Fresh task fp ttbr0 cell size (switchOut e))
include h

lemma Fresh.enter_sp : (contextSwitch e).sp = fp + switchSize := by
  rw [contextSwitch, switchIn_sp, h.next, h.sp]

lemma Fresh.enter_mem (hoff : off < size) (h8 : off % 8 = 0) :
    (contextSwitch e).mem (fp + BitVec.ofNat 64 off) = cell off := by
  rw [contextSwitch, switchIn_mem, h.stack off hoff h8]

/-- The registers that come from the stack. -/
lemma Fresh.enter_slot (hsize : 160 ≤ size) (hr : switchSlot r = some off) :
    (contextSwitch e).reg r = cell off := by
  have hall : ∀ r ∈ Reg.all, ∀ off ∈ switchSlot r, off < 160 ∧ off % 8 = 0 := by
    decide +kernel
  obtain ⟨hlt, h8⟩ := hall r r.mem_all off hr
  rw [contextSwitch, switchIn_slot _ hr, h.next, h.sp, h.stack off (by omega) h8]

lemma Fresh.enter_tpidr : (contextSwitch e).reg (.sys .tpidrEl0) = BitVec.ofNat 64 userTlsBase := by
  rw [contextSwitch, switchIn_tpidr _ (by rw [h.next, h.root]; exact h.root_ne), h.next, h.tpidr]

/-- The registers that `context_switch` uses for itself: the record, the stack, the address space. -/
lemma Fresh.enter_scratch : (contextSwitch e).reg (.x 1) = task ∧ (contextSwitch e).reg (.x 2) = fp ∧
      (contextSwitch e).reg (.x 3) = ttbr0 ∧
      (contextSwitch e).reg (.x 4) = BitVec.ofNat 64 userTlsBase := by
  have hne : ¬ (switchOut e).mem ((switchOut e).reg (.x 1) + taskTtbr0) = 0 := by
    rw [h.next, h.root]
    exact h.root_ne
  have hload : ∀ n : Fin 31, n.val ≤ 4 →
      (contextSwitch e).reg (.x n) = (switchLoad (switchOut e)).reg (.x n) := fun n hn =>
    switchIn_reg _ (by simp [switchSlot]; omega) (by simp)
  rw [hload 1 (by decide), hload 2 (by decide), hload 3 (by decide), hload 4 (by decide)]
  simp only [switchLoad, loadUser]
  rw [if_neg (by simpa using hne)]
  simp [h.next, h.sp, h.root, h.tpidr]

end

/-- The registers that neither the switch nor a stub loads: x5 to x18 for a created task, the SIMD
registers a C function may change, and the floating-point control registers. -/
def leftOver : Reg → Prop
  | .x n => 5 ≤ n.val ∧ n.val < 19
  | .vlo n => n.val < 8 ∨ 16 ≤ n.val
  | .vhi n => n.val < 8 ∨ 16 ≤ n.val
  | .sys r => r = .fpsr ∨ r = .fpcr
  | .pc => False
  | .pstate => False

instance : DecidablePred leftOver := by
  rintro (_ | _ | _ | _ | _ | _) <;> dsimp only [leftOver] <;> infer_instance

/-- They are what the processor held. -/
lemma enter_leftOver {e : Cpu} (hr : leftOver r) : (contextSwitch e).reg r = e.reg r := by
  have hslot : switchSlot r = none := by
    cases r with
    | x n => exact if_neg (by have := hr.2; omega)
    | vlo n => exact if_neg (by rcases hr with h | h <;> omega)
    | _ => rfl
  have hupper : ∀ n : Fin 32, r = .vhi n → n.val < 8 ∨ 16 ≤ n.val := by
    rintro n rfl
    exact hr
  have hne : ∀ n : Fin 31, n.val < 5 → r ≠ .x n := by
    rintro n hn rfl
    have := hr.1
    omega
  rw [contextSwitch, switchIn_reg _ hslot hupper,
    switchLoad_reg _ (hne 2 (by decide)) (hne 3 (by decide)) (hne 4 (by decide))
      (by rintro rfl; simp [leftOver] at hr) (by rintro rfl; simp [leftOver] at hr),
    switchOut_reg _ (hne 2 (by decide))]

/-! ## The stubs -/

/-- The general-purpose and SIMD registers. -/
def dataReg : Reg → Prop
  | .x _ => True
  | .vlo _ => True
  | .vhi _ => True
  | _ => False

/-- The stub of a created task only clears x0 of what the task can see. -/
lemma taskTrampoline_reg (h0 : r ≠ .x 0) (hr : dataReg r) : (taskTrampoline s).reg r = s.reg r := by
  have hall : ∀ r ∈ Reg.all, r ≠ .x 0 → r ∉ [.pc, .pstate] → r ∉ SysReg.all.map .sys →
      (Expr.reg r).before (msr 20 .spEl0 ++ msr 19 .elrEl1 ++ [.imm (.x 0) 0] ++ msr 0 .spsrEl1 ++ eret) =
        .reg r := by
    decide +kernel
  refine exec_reg s (hall r r.mem_all h0 ?_ ?_)
  · rintro hmem
    simp only [mem_cons, not_mem_nil, or_false] at hmem
    rcases hmem with rfl | rfl <;> exact hr
  · intro hmem
    obtain ⟨q, -, rfl⟩ := mem_map.mp hmem
    exact hr

lemma taskTrampoline_zero (s : Cpu) : (taskTrampoline s).reg (.x 0) = 0 :=
  exec_reg s (e := .imm 0) (by decide +kernel)

/-- `fork_return` when the copied frame says EL0. -/
def forkReturnOps : List Op := restoreSystem ++ restoreSpEl0 ++ restoreGeneral ++ eret

section
variable (h : s.mem (s.slot 256) &&& 0xF = 0)
include h

lemma forkReturn_eq : forkReturn s = { exec forkReturnOps s with sp := s.sp + 288 } := by
  have hops : forkReturnOps = (restoreSystem ++ restoreSpEl0) ++ (restoreGeneral ++ eret) := by
    simp only [forkReturnOps, append_assoc]
  rw [forkReturn, restoreMode_eq h, hops, exec_append _ (restoreGeneral ++ eret)]
  simp only [exec_sp]

/-- The registers that `fork_return` takes from the copied frame. -/
def forkLoads : Reg → Prop
  | .x _ => True
  | .sys r => r = .spEl0
  | .pc => True
  | .pstate => True
  | _ => False

/-- They have a slot in the trap frame. -/
lemma forkReturn_slot (hr : forkLoads r)
    (hoff : trapSlot r = some off) : (forkReturn s).reg r = s.mem (s.slot off) := by
  have hx : ∀ n : Fin 31, (Expr.reg (.x n)).before forkReturnOps = .slot (8 * n.val) := by decide +kernel
  have hbefore : (Expr.reg r).before forkReturnOps = .slot off := by
    cases r with
    | x n => rw [hx n, Option.some.inj hoff]
    | sys r =>
      cases hr
      cases hoff
      decide +kernel
    | pc =>
      cases hoff
      decide +kernel
    | pstate =>
      cases hoff
      decide +kernel
    | vlo n => exact hr.elim
    | vhi n => exact hr.elim
  have hs := exec_reg s hbefore
  rw [forkReturn_eq h]
  exact hs

/-- The SIMD and floating-point registers and the thread pointer pass through it. -/
lemma forkReturn_reg (hr : userView r) (hn : ¬ forkLoads r) : (forkReturn s).reg r = s.reg r := by
  have hlo : ∀ n : Fin 32, (Expr.reg (.vlo n)).before forkReturnOps = .reg (.vlo n) ∧
      (Expr.reg (.vhi n)).before forkReturnOps = .reg (.vhi n) := by decide +kernel
  have hbefore : (Expr.reg r).before forkReturnOps = .reg r := by
    cases r with
    | x n => exact (hn trivial).elim
    | pc => exact (hn trivial).elim
    | pstate => exact (hn trivial).elim
    | vlo n => exact (hlo n).1
    | vhi n => exact (hlo n).2
    | sys r =>
      rcases hr with rfl | rfl | rfl | rfl
      · exact (hn rfl).elim
      · decide +kernel
      · decide +kernel
      · decide +kernel
  have hs := exec_reg s hbefore
  rw [forkReturn_eq h]
  exact hs

end

/-! ## A sample entry -/

/-- Memory with the record of a new task at 0x9000 and its stack from 0x7cb0 upwards. -/
def freshMem (cell : Nat → Word) (a : Word) : Word :=
  if a = 0x9000 then 0x7cb0
  else if a = 0x9028 then 1
  else if a = 0x9a08 then BitVec.ofNat 64 userTlsBase
  else cell (a - 0x7cb0).toNat

/-- A processor about to enter that task, from a task with kernel stack below 0x20000 and record at
0x30000, and with the given contents of the other registers. -/
def freshCpu (reg : Reg → Word) (cell : Nat → Word) : Cpu where
  reg := fun r => if r = .x 0 then 0x30000 else if r = .x 1 then 0x9000 else reg r
  sp := 0x20000
  mem := freshMem cell

lemma freshCpu_mem {reg : Reg → Word} {cell : Nat → Word} {a : Word} (ha : a.toNat < 0x10000) :
    (switchOut (freshCpu reg cell)).mem a = freshMem cell a := by
  apply switchOut_mem
  have hcells : ∀ b ∈ switchCells (freshCpu reg cell), 0x10000 ≤ b.toNat := by
    rw [switchCells, forall_mem_append, forall_mem_map]
    refine ⟨?_, by simp [freshCpu, taskTpidr, taskSp]⟩
    exact (by decide +kernel : ∀ off ∈ stored saveCallee,
      0x10000 ≤ ((0x20000 : Word) - switchSize + BitVec.ofNat 64 off).toNat)
  intro hmem
  have := hcells a hmem
  omega

lemma freshCpu_fresh (reg : Reg → Word) (cell : Nat → Word) {size : Nat} (hsize : size ≤ 848) :
    Fresh 0x9000 0x7cb0 1 cell size (switchOut (freshCpu reg cell)) where
  next := switchOut_reg _ (by decide)
  sp := freshCpu_mem (by decide)
  root := freshCpu_mem (by decide)
  root_ne := by decide
  tpidr := freshCpu_mem (by decide)
  stack := by
    intro off hoff _
    have hofs : (BitVec.ofNat 64 off).toNat = off := by
      rw [BitVec.toNat_ofNat]
      exact Nat.mod_eq_of_lt (by omega)
    have haddr : ((0x7cb0 : Word) + BitVec.ofNat 64 off).toNat = 0x7cb0 + off := by
      rw [BitVec.toNat_add, hofs]
      exact Nat.mod_eq_of_lt (by simp; omega)
    have hne : ∀ b : Word, 0x8000 ≤ b.toNat → (0x7cb0 : Word) + BitVec.ofNat 64 off ≠ b := by
      rintro b hb rfl
      omega
    rw [freshCpu_mem (by omega), freshMem, if_neg (hne _ (by decide)), if_neg (hne _ (by decide)),
      if_neg (hne _ (by decide)), BitVec.add_comm,
      BitVec.add_sub_cancel, hofs]

/-! ## Created tasks -/

section
variable {l : Labels} {entry task fp ttbr0 task' fp' ttbr0' : Word} {e e' : Cpu}
  (h : Fresh task fp ttbr0 (createCell l entry) 160 (switchOut e))
  (h' : Fresh task' fp' ttbr0' (createCell l entry) 160 (switchOut e'))
include h in
lemma created_stub : afterSwitch l (contextSwitch e) = some (taskTrampoline (contextSwitch e)) := by
  have hx : (contextSwitch e).reg (.x 30) = l.taskTrampoline :=
    h.enter_slot le_rfl (show switchSlot (.x 30) = some 88 from rfl)
  rw [afterSwitch, hx, if_pos rfl]

include h h' in
/-- What comes from the stack or from constants is the same in both runs. -/
lemma created_common (hr : dataReg r) (hl : ¬ leftOver r) (h1 : r ≠ .x 1) (h2 : r ≠ .x 2)
    (h3 : r ≠ .x 3) :
    (taskTrampoline (contextSwitch e)).reg r = (taskTrampoline (contextSwitch e')).reg r := by
  by_cases h0 : r = .x 0
  · rw [h0, taskTrampoline_zero, taskTrampoline_zero]
  rw [taskTrampoline_reg h0 hr, taskTrampoline_reg h0 hr]
  cases r with
  | x n =>
    by_cases h19 : 19 ≤ n.val
    · have hslot : switchSlot (.x n) = some (8 * (n.val - 19)) := if_pos h19
      rw [h.enter_slot le_rfl hslot, h'.enter_slot le_rfl hslot]
    -- below x5 only x4 is left, which has the thread pointer
    have hne : ∀ m : Fin 31, Reg.x n ≠ .x m → n.val ≠ m.val := fun m hm hv =>
      hm (by rw [Fin.ext hv])
    have hn : n = 4 := by
      simp only [leftOver, not_and, not_lt] at hl
      have hv : n.val ≠ 0 ∧ n.val ≠ 1 ∧ n.val ≠ 2 ∧ n.val ≠ 3 :=
        ⟨hne 0 h0, hne 1 h1, hne 2 h2, hne 3 h3⟩
      have h4 : n.val = 4 := by omega
      exact Fin.ext h4
    rw [hn, h.enter_scratch.2.2.2, h'.enter_scratch.2.2.2]
  | vlo n =>
    simp only [leftOver, not_or, not_lt, not_le] at hl
    have hslot : switchSlot (.vlo n) = some (96 + 8 * (n.val - 8)) := if_pos hl
    rw [h.enter_slot le_rfl hslot, h'.enter_slot le_rfl hslot]
  | vhi n =>
    simp only [leftOver, not_or, not_lt, not_le] at hl
    rw [contextSwitch, contextSwitch, switchIn_upper _ hl.1 hl.2, switchIn_upper _ hl.1 hl.2]
  | _ => exact hr.elim

include h h' in
/-- Two creations of one task show it the same registers exactly when the addresses of its record, its
stack and its tables are the same and the processor held the same in the registers that nobody loads. -/
theorem first_entry_equal_iff :
    ∃ a b, afterSwitch l (contextSwitch e) = some a ∧ afterSwitch l (contextSwitch e') = some b ∧
      ((∀ r, dataReg r → a.reg r = b.reg r) ↔
        task = task' ∧ fp = fp' ∧ ttbr0 = ttbr0' ∧
          ∀ r, dataReg r → leftOver r → e.reg r = e'.reg r) := by
  have hpass : ∀ (s : Cpu) (n : Fin 31), n ≠ 0 → (taskTrampoline s).reg (.x n) = s.reg (.x n) :=
    fun s n hn => taskTrampoline_reg (by simpa using hn) trivial
  have hleft : ∀ r, dataReg r → leftOver r → ∀ s : Cpu,
      (taskTrampoline (contextSwitch s)).reg r = s.reg r := by
    intro r hr hl s
    rw [taskTrampoline_reg ?_ hr, enter_leftOver hl]
    rintro rfl
    exact absurd hl.1 (by decide)
  obtain ⟨hx1, hx2, hx3, -⟩ := h.enter_scratch
  obtain ⟨hy1, hy2, hy3, -⟩ := h'.enter_scratch
  refine ⟨_, _, created_stub h, created_stub h', ?_⟩
  constructor
  · intro hall
    refine ⟨?_, ?_, ?_, fun r hr hl => ?_⟩
    · rw [← hx1, ← hy1, ← hpass (contextSwitch e) 1 (by decide),
        ← hpass (contextSwitch e') 1 (by decide)]
      exact hall (.x 1) trivial
    · rw [← hx2, ← hy2, ← hpass (contextSwitch e) 2 (by decide),
        ← hpass (contextSwitch e') 2 (by decide)]
      exact hall (.x 2) trivial
    · rw [← hx3, ← hy3, ← hpass (contextSwitch e) 3 (by decide),
        ← hpass (contextSwitch e') 3 (by decide)]
      exact hall (.x 3) trivial
    · rw [← hleft r hr hl e, ← hleft r hr hl e']
      exact hall r hr
  rintro ⟨ht, hf, hroot, hregs⟩ r hr
  by_cases hl : leftOver r
  · rw [hleft r hr hl e, hleft r hr hl e', hregs r hr hl]
  by_cases h1 : r = .x 1
  · rw [h1, hpass _ 1 (by decide), hpass _ 1 (by decide), hx1, hy1, ht]
  by_cases h2 : r = .x 2
  · rw [h2, hpass _ 2 (by decide), hpass _ 2 (by decide), hx2, hy2, hf]
  by_cases h3 : r = .x 3
  · rw [h3, hpass _ 3 (by decide), hpass _ 3 (by decide), hx3, hy3, hroot]
  exact created_common h h' hr hl h1 h2 h3

end

/-- Two runs of one creation that differ in what x5 held. -/
def labels : Labels := ⟨0x100000, 0x200000, by decide⟩

@[inherit_doc labels]
def createdAfter (w : Word) : Cpu :=
  freshCpu (fun r => if r = .x 5 then w else 0) (createCell labels 0x400000)

/-- The new task reads x5 as the other task left it. -/
theorem first_entry_leaks_register :
    ∃ a b, Fresh 0x9000 0x7cb0 1 (createCell labels 0x400000) 160 (switchOut (createdAfter 0)) ∧
      Fresh 0x9000 0x7cb0 1 (createCell labels 0x400000) 160 (switchOut (createdAfter 7)) ∧
      afterSwitch labels (contextSwitch (createdAfter 0)) = some a ∧
      afterSwitch labels (contextSwitch (createdAfter 7)) = some b ∧
      ¬ ∀ r, dataReg r → a.reg r = b.reg r := by
  have hfresh : ∀ w, Fresh 0x9000 0x7cb0 1 (createCell labels 0x400000) 160
      (switchOut (createdAfter w)) := fun w => freshCpu_fresh _ _ (by decide)
  have hx5 : ∀ w, (taskTrampoline (contextSwitch (createdAfter w))).reg (.x 5) = w := by
    intro w
    have hl : leftOver (.x 5) := by decide
    rw [taskTrampoline_reg (r := .x 5) (by decide) trivial, enter_leftOver hl]
    rfl
  refine ⟨_, _, hfresh 0, hfresh 7, created_stub (hfresh 0), created_stub (hfresh 7), fun hall => ?_⟩
  have h5 := hall (.x 5) trivial
  rw [hx5, hx5] at h5
  exact absurd h5 (by decide)

theorem first_entry_equal_iff_sample :
    ∃ a b, afterSwitch labels (contextSwitch (createdAfter 0)) = some a ∧
      afterSwitch labels (contextSwitch (createdAfter 7)) = some b ∧
      ((∀ r, dataReg r → a.reg r = b.reg r) ↔
        (0x9000 : Word) = 0x9000 ∧ (0x7cb0 : Word) = 0x7cb0 ∧ (1 : Word) = 1 ∧
          ∀ r, dataReg r → leftOver r → (createdAfter 0).reg r = (createdAfter 7).reg r) :=
  first_entry_equal_iff (freshCpu_fresh _ _ (by decide)) (freshCpu_fresh _ _ (by decide))

/-- The part of the trap frame that `fork_return` passes over. -/
lemma leftOver_of_trapSlot (hr : userView r) (hoff : trapSlot r = some off) (hn : ¬ forkLoads r) :
    leftOver r := by
  -- only v8 to v15 have no slot
  have hmid : ∀ n : Fin 32, (n.val < 8 ∨ 16 ≤ n.val) ∨ trapSlot (.vlo n) = none ∧ trapSlot (.vhi n) = none := by
    decide +kernel
  cases r with
  | x n => exact (hn trivial).elim
  | pc => exact (hn trivial).elim
  | pstate => exact (hn trivial).elim
  | vlo n => exact (hmid n).resolve_right fun h => by simp [h.1] at hoff
  | vhi n => exact (hmid n).resolve_right fun h => by simp [h.2] at hoff
  | sys r =>
    rcases hr with rfl | rfl | rfl | rfl
    · exact (hn rfl).elim
    · exact .inl rfl
    · exact .inr rfl
    · cases hoff

/-! ## Forked tasks -/

section
variable {l : Labels} {p k e : Cpu} {task fp ttbr0 : Word}
  (hel0 : p.reg .pstate &&& 0xF = 0)
  (hk : KernelCode (p.sp - frameSize) (exceptionEntry .sync p) k)
  (hf : Fresh task fp ttbr0 (forkCell l k.mem (p.sp - frameSize)) 848 (switchOut e))
include hf in
/-- `context_switch` leaves the stack pointer at the copied trap frame. -/
lemma forked_cell (hoff : off < 688) (h8 : off % 8 = 0) :
    (contextSwitch e).mem ((contextSwitch e).slot off) =
      forkCell l k.mem (p.sp - frameSize) (160 + off) := by
  have haddr : fp + switchSize + BitVec.ofNat 64 off = fp + BitVec.ofNat 64 (160 + off) := by
    rw [BitVec.ofNat_add, ← BitVec.add_assoc]
    rfl
  rw [Cpu.slot, hf.enter_sp, haddr]
  exact hf.enter_mem (by omega) (by omega)

include hk hf in
/-- The copied frame has the registers of the parent, except x0. -/
lemma forked_trap (hr : trapSlot r = some off) (h0 : off ≠ 0) :
    (contextSwitch e).mem ((contextSwitch e).slot off) = p.reg r := by
  have hall : ∀ r ∈ Reg.all, ∀ off ∈ trapSlot r, off < 688 ∧ off % 8 = 0 := by decide +kernel
  obtain ⟨hlt, h8⟩ := hall r r.mem_all off hr
  have hentry := exceptionEntry_slot .sync p hr
  rw [Cpu.slot, exceptionEntry_sp] at hentry
  rw [forked_cell hf hlt h8, forkCell, if_neg (by omega), if_neg (by omega), Nat.add_sub_cancel_left,
    hk.trap r off hr]
  exact hentry

include hf in
lemma forked_stub : afterSwitch l (contextSwitch e) = some (forkReturn (contextSwitch e)) := by
  have hx : (contextSwitch e).reg (.x 30) = l.forkReturn :=
    hf.enter_slot (by decide) (show switchSlot (.x 30) = some 88 from rfl)
  rw [afterSwitch, hx, if_neg l.ne.symm, if_pos rfl]

include hel0 hk hf in
lemma forked_mode : (contextSwitch e).mem ((contextSwitch e).slot 256) &&& 0xF = 0 := by
  rw [forked_trap hk hf (show trapSlot .pstate = some 256 from rfl) (by decide)]
  exact hel0

include hf in
/-- The callee-saved SIMD registers come from the empty frame of `context_switch`. -/
lemma forked_callee {n : Fin 32} (h8 : 8 ≤ n.val) (h16 : n.val < 16) :
    (contextSwitch e).reg (.vlo n) = 0 ∧ (contextSwitch e).reg (.vhi n) = 0 := by
  constructor
  · rw [hf.enter_slot (by decide) (show switchSlot (.vlo n) = some (96 + 8 * (n.val - 8)) from
      if_pos ⟨h8, h16⟩), forkCell, if_pos (by omega), if_neg (by omega)]
  · exact switchIn_upper _ h8 h16

include hel0 hk hf in
/-- A forked task starts with the registers of its parent and x0 clear exactly when the processor
happened to hold the SIMD and floating-point registers of the parent that are not in the frame of
`context_switch`, the parent had v8 to v15 clear, and its thread pointer was the default one. -/
theorem child_matches_parent_iff : ∃ child, afterSwitch l (contextSwitch e) = some child ∧
      ((child.reg (.x 0) = 0 ∧ ∀ r, userView r → r ≠ .x 0 → child.reg r = p.reg r) ↔
        (∀ r, userView r → leftOver r → ¬ forkLoads r → e.reg r = p.reg r) ∧
        (∀ n : Fin 32, 8 ≤ n.val → n.val < 16 → p.reg (.vlo n) = 0 ∧ p.reg (.vhi n) = 0) ∧
        p.reg (.sys .tpidrEl0) = BitVec.ofNat 64 userTlsBase) := by
  have hmode := forked_mode hel0 hk hf
  have hzero : (forkReturn (contextSwitch e)).reg (.x 0) = 0 := by
    rw [forkReturn_slot hmode (show forkLoads (.x 0) from trivial) rfl,
      forked_cell hf (by decide) (by decide)]
    rfl
  have hpass : ∀ r, userView r → ¬ forkLoads r →
      (forkReturn (contextSwitch e)).reg r = (contextSwitch e).reg r := fun r hr hn =>
    forkReturn_reg hmode hr hn
  refine ⟨_, forked_stub hf, ?_⟩
  constructor
  · rintro ⟨-, hall⟩
    refine ⟨fun r hr hl hn => ?_, fun n h8 h16 => ?_, ?_⟩
    · have hne : r ≠ .x 0 := by
        rintro rfl
        exact hn trivial
      rw [← hall r hr hne, hpass r hr hn, enter_leftOver hl]
    · have hcallee := forked_callee hf h8 h16
      rw [← hall (.vlo n) trivial (by simp), ← hall (.vhi n) trivial (by simp),
        hpass (.vlo n) trivial not_false, hpass (.vhi n) trivial not_false]
      exact hcallee
    · rw [← hall (.sys .tpidrEl0) (by simp [userView]) (by simp),
        hpass _ (by simp [userView]) (by simp [forkLoads]), hf.enter_tpidr]
  rintro ⟨hleft, hcallee, htp⟩
  refine ⟨hzero, fun r hr h0 => ?_⟩
  by_cases hloads : forkLoads r
  · -- copied with the trap frame
    have hslot : ∃ off, trapSlot r = some off ∧ off ≠ 0 := by
      cases r with
      | x n =>
        refine ⟨_, rfl, fun hz => h0 ?_⟩
        have hn : n = 0 := Fin.ext (by simpa using hz)
        rw [hn]
      | sys r =>
        cases hloads
        exact ⟨280, rfl, by decide⟩
      | pc => exact ⟨248, rfl, by decide⟩
      | pstate => exact ⟨256, rfl, by decide⟩
      | vlo n => exact hloads.elim
      | vhi n => exact hloads.elim
    obtain ⟨off, hoff, hne⟩ := hslot
    rw [forkReturn_slot hmode hloads hoff, forked_trap hk hf hoff hne]
  rw [hpass r hr hloads]
  rcases userView_cases hr with ⟨off, hoff⟩ | rfl | ⟨n, h8, h16, rfl | rfl⟩
  · have hl := leftOver_of_trapSlot hr hoff hloads
    rw [enter_leftOver hl, hleft r hr hl hloads]
  · rw [hf.enter_tpidr, htp]
  · rw [(forked_callee hf h8 h16).1, (hcallee n h8 h16).1]
  · rw [(forked_callee hf h8 h16).2, (hcallee n h8 h16).2]

end

/-- A parent with a live value in v0, at its fork. -/
def forkingParent : Cpu where
  reg := fun r => if r = .vlo 0 then 1 else 0
  sp := 0x48000
  mem := fun _ => 0

/-- The processor when its child is entered for the first time. -/
def childEntry : Cpu :=
  freshCpu (fun _ => 0) (forkCell labels (exceptionEntry .sync forkingParent).mem
    (forkingParent.sp - frameSize))

/-- The child does not get v0. -/
theorem fork_child_loses_simd : forkingParent.reg .pstate &&& 0xF = 0 ∧
    Fresh 0x9000 0x7cb0 1 (forkCell labels (exceptionEntry .sync forkingParent).mem
      (forkingParent.sp - frameSize)) 848 (switchOut childEntry) ∧
    ∃ child, afterSwitch labels (contextSwitch childEntry) = some child ∧
      child.reg (.vlo 0) ≠ forkingParent.reg (.vlo 0) := by
  have hel0 : forkingParent.reg .pstate &&& 0xF = 0 := by decide
  have hfresh := freshCpu_fresh (fun _ => 0) (forkCell labels (exceptionEntry .sync forkingParent).mem
    (forkingParent.sp - frameSize)) (le_refl 848)
  have hmode := forked_mode hel0 ⟨rfl, fun _ _ _ => rfl⟩ hfresh
  refine ⟨hel0, hfresh, _, forked_stub hfresh, ?_⟩
  have hv : (forkReturn (contextSwitch childEntry)).reg (.vlo 0) = 0 := by
    rw [childEntry, forkReturn_reg (r := .vlo 0) hmode trivial not_false,
      enter_leftOver (show leftOver (.vlo 0) by decide)]
    rfl
  rw [hv]
  decide

theorem child_matches_parent_iff_sample :
    ∃ child, afterSwitch labels (contextSwitch childEntry) = some child ∧
      ((child.reg (.x 0) = 0 ∧
          ∀ r, userView r → r ≠ .x 0 → child.reg r = forkingParent.reg r) ↔
        (∀ r, userView r → leftOver r → ¬ forkLoads r → childEntry.reg r = forkingParent.reg r) ∧
        (∀ n : Fin 32, 8 ≤ n.val → n.val < 16 →
          forkingParent.reg (.vlo n) = 0 ∧ forkingParent.reg (.vhi n) = 0) ∧
        forkingParent.reg (.sys .tpidrEl0) = BitVec.ofNat 64 userTlsBase) :=
  child_matches_parent_iff (p := forkingParent) (k := exceptionEntry .sync forkingParent) (by decide)
    ⟨rfl, fun _ _ _ => rfl⟩ (freshCpu_fresh _ _ le_rfl)

end FermiOs
