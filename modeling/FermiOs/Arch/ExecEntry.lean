import FermiOs.Arch.FirstEntry
import FermiOs.Syscall.Exec

/-!
# Registers and thread pointer after exec

`sys_exec` rewrites the trap frame of the calling task and sets the thread pointer in its record. The
thread pointer that EL0 uses is the register TPIDR_EL0. `context_switch` moves it between the register
and the record of the running task, always the register into the record first, so a value that only
the record has does not last. `TpHistory` follows the register through the life of a task;
`exec_entry_iff` compares what a new image finds with what it should find.
-/

namespace FermiOs
open Library List Function
variable {args : List (List UInt8)} {entry : Nat} {frame task w : Word} {own : Word → Prop}
  {r : Reg} {s s' : Cpu}

/-! ## The thread pointer in the kernel -/

/-- Kernel code on behalf of a task, from one point to another: C code that does not write TPIDR_EL0,
and stretches in which the task is left and entered again. -/
inductive KernelRun (own : Word → Prop) (task : Word) (s : Cpu) : Cpu → Prop
  | refl : KernelRun own task s s
  | code {c c' : Cpu} (run : KernelRun own task s c)
      (tpidr : c'.reg (.sys .tpidrEl0) = c.reg (.sys .tpidrEl0)) : KernelRun own task s c'
  | away {c e : Cpu} (run : KernelRun own task s c) (away : Away own task c e) :
      KernelRun own task s (contextSwitch e)

lemma KernelRun.tpidr (h : KernelRun own task s s') :
    s'.reg (.sys .tpidrEl0) = s.reg (.sys .tpidrEl0) := by
  induction h with
  | refl => rfl
  | code _ htp ih => rw [htp, ih]
  | away _ haway ih => rw [haway.tpidr, ih]

/-- The saved state says EL0. -/
def ReturnsToEl0 (s : Cpu) : Prop := s.mem (s.slot 256) &&& 0xF = 0

/-- `arch_prctl`: the result, `EINVAL` as an error, and the new thread pointer. -/
def archPrctl (op addr tp : Word) : Except Nat Word × Word :=
  if op = 0x1002 then
    if addr = 0 ∨ addr &&& 7 ≠ 0 then (.error eInval, tp) else (.ok 0, addr)
  else if op = 0x1003 then (.ok tp, tp)
  else (.error eInval, tp)

/-! ## Exec -/

/-- `envp_off`. -/
def envpOff (args : List (List UInt8)) : Nat := 8 + (args.length + 1) * 8

/-- The stores of `sys_exec` into the trap frame, in order: all general registers, the program counter
and state, then the three arguments and the stack pointer. -/
def execWrites (entry : Nat) (args : List (List UInt8)) : List (Nat × Word) :=
  (range 31).map (fun i => (8 * i, 0)) ++
    [(248, BitVec.ofNat 64 entry), (256, 0), (0, BitVec.ofNat 64 args.length),
      (8, BitVec.ofNat 64 (newSp args + 8)), (16, BitVec.ofNat 64 (newSp args + envpOff args)),
      (280, BitVec.ofNat 64 (newSp args))]

/-- Stores into the frame at `frame`. -/
def writeFrame (frame : Word) (ws : List (Nat × Word)) (mem : Word → Word) : Word → Word :=
  ws.foldl (fun m w => update m (trapCell frame w.1) w.2) mem

/-- The registers a new image is entitled to: arguments, entry point, stack, the rest clear. -/
def execReg (entry : Nat) (args : List (List UInt8)) : Reg → Option Word
  | .x n =>
    some (if n.val = 0 then BitVec.ofNat 64 args.length
      else if n.val = 1 then BitVec.ofNat 64 (newSp args + 8)
      else if n.val = 2 then BitVec.ofNat 64 (newSp args + envpOff args)
      else 0)
  | .pc => some (BitVec.ofNat 64 entry)
  | .pstate => some 0
  | .sys .spEl0 => some (BitVec.ofNat 64 (newSp args))
  | _ => none

lemma trapCell_inj {a b : Nat} (ha : a < 688) (hb : b < 688) :
    trapCell frame a = trapCell frame b ↔ a = b := by
  unfold trapCell
  rw [BitVec.add_right_inj, ← BitVec.toNat_inj, BitVec.toNat_ofNat, BitVec.toNat_ofNat,
    Nat.mod_eq_of_lt (by omega), Nat.mod_eq_of_lt (by omega)]

/-- The last store to a slot. -/
def lastWrite : List (Nat × Word) → Nat → Option Word
  | [], _ => none
  | (o, w) :: ws, off =>
    match lastWrite ws off with
    | some v => some v
    | none => if o = off then some w else none

/-- It is the one that counts. -/
lemma writeFrame_apply {ws : List (Nat × Word)} (hws : ∀ w ∈ ws, w.1 < 688) {off : Nat}
    (hoff : off < 688) (mem : Word → Word) :
    writeFrame frame ws mem (trapCell frame off) =
      (lastWrite ws off).getD (mem (trapCell frame off)) := by
  induction ws generalizing mem with
  | nil => rfl
  | cons w ws ih =>
    have hstep : writeFrame frame (w :: ws) mem =
        writeFrame frame ws (update mem (trapCell frame w.1) w.2) := rfl
    rw [hstep, ih (fun c hc => hws c (mem_cons_of_mem _ hc)), lastWrite]
    cases hlast : lastWrite ws off with
    | some v => rfl
    | none =>
      by_cases ho : w.1 = off
      · simp [ho]
      · have hne : trapCell frame off ≠ trapCell frame w.1 := fun heq =>
          ho ((trapCell_inj hoff (hws w mem_cons_self)).mp heq).symm
        simp [ho, hne]

lemma execWrites_bound : ∀ w ∈ execWrites entry args, w.1 < 688 := by
  intro w hw
  rcases mem_append.mp hw with hmem | hmem
  · obtain ⟨i, hi, rfl⟩ := mem_map.mp hmem
    have := mem_range.mp hi
    omega
  · simp only [mem_cons, not_mem_nil, or_false] at hmem
    rcases hmem with rfl | rfl | rfl | rfl | rfl | rfl <;> simp

/-- The frame after `sys_exec` has the registers of a new image. -/
lemma execWrites_spec (frame : Word) (mem : Word → Word) (hr : execReg entry args r = some w) :
    ∃ off, trapSlot r = some off ∧
      writeFrame frame (execWrites entry args) mem (trapCell frame off) = w := by
  have hlast : ∀ off < 688, lastWrite (execWrites entry args) off = some w →
      writeFrame frame (execWrites entry args) mem (trapCell frame off) = w := fun off hoff h => by
    rw [writeFrame_apply execWrites_bound hoff, h, Option.getD_some]
  have hx : ∀ n : Fin 31, lastWrite (execWrites entry args) (8 * n.val) = execReg entry args (.x n) := by
    intro n
    fin_cases n <;> rfl
  cases r with
  | x n => exact ⟨_, rfl, hlast _ (by omega) ((hx n).trans hr)⟩
  | pc => exact ⟨_, rfl, hlast _ (by decide) hr⟩
  | pstate => exact ⟨_, rfl, hlast _ (by decide) hr⟩
  | sys r =>
    cases r with
    | spEl0 => exact ⟨_, rfl, hlast _ (by decide) hr⟩
    | _ => cases hr
  | vlo n => cases hr
  | vhi n => cases hr

/-- A successful `sys_exec` of a task in `p`: kernel code up to the rewriting of the frame in `k`, and
from there to the return of `exception_dispatch` in `s`. The dispatcher does not write x0 back. -/
structure ExecCourse (own : Word → Prop) (task : Word) (entry : Nat) (args : List (List UInt8))
    (p k s : Cpu) : Prop where
  before : KernelRun own task (exceptionEntry .sync p) k
  after : KernelRun own task
    { k with mem := writeFrame (p.sp - frameSize) (execWrites entry args) k.mem } s
  sp : s.sp = p.sp - frameSize
  trap : ∀ r off, trapSlot r = some off → s.mem (trapCell (p.sp - frameSize) off) =
    writeFrame (p.sp - frameSize) (execWrites entry args) k.mem (trapCell (p.sp - frameSize) off)

section
variable {p k : Cpu} (h : ExecCourse own task entry args p k s)
include h

lemma ExecCourse.slot (hr : execReg entry args r = some w) :
    ∃ off, trapSlot r = some off ∧ s.mem (s.slot off) = w := by
  obtain ⟨off, hoff, hw⟩ := execWrites_spec (p.sp - frameSize) k.mem hr
  refine ⟨off, hoff, ?_⟩
  rw [Cpu.slot, h.sp]
  exact (h.trap r off hoff).trans hw

lemma ExecCourse.returnsToEl0 : ReturnsToEl0 s := by
  obtain ⟨off, hoff, hw⟩ := h.slot (show execReg entry args .pstate = some 0 from rfl)
  cases hoff
  rw [ReturnsToEl0, hw]
  rfl

/-- The new image finds its registers whatever happened before. -/
lemma ExecCourse.reg (hr : execReg entry args r = some w) : (exceptionReturn s).reg r = w := by
  obtain ⟨off, hoff, hw⟩ := h.slot hr
  rw [exceptionReturn_slot h.returnsToEl0 hoff, hw]

/-- It finds the thread pointer of the old one. -/
lemma ExecCourse.tpidr : (exceptionReturn s).reg (.sys .tpidrEl0) = p.reg (.sys .tpidrEl0) := by
  have huser : userView (.sys .tpidrEl0) := by simp [userView]
  rw [exceptionReturn_reg h.returnsToEl0 huser rfl, h.after.tpidr]
  rw [h.before.tpidr, exceptionEntry_reg .sync p huser rfl]

end

/-! ## The life of a task -/

/-- Execution of a task in EL0 that does not change its thread pointer: its own instructions,
interrupts and system calls. -/
inductive KeepsTp (own : Word → Prop) (task : Word) (s : Cpu) : Cpu → Prop
  | refl : KeepsTp own task s s
  | user {u u' : Cpu} (run : KeepsTp own task s u)
      (tpidr : u'.reg (.sys .tpidrEl0) = u.reg (.sys .tpidrEl0)) : KeepsTp own task s u'
  | kernel {u k : Cpu} (type : ExceptionType) (run : KeepsTp own task s u)
      (handled : KernelRun own task (exceptionEntry type u) k) (el0 : ReturnsToEl0 k) :
      KeepsTp own task s (exceptionReturn k)

lemma kernel_tpidr {type : ExceptionType} {u k : Cpu}
    (h : KernelRun own task (exceptionEntry type u) k) (hel0 : ReturnsToEl0 k) :
    (exceptionReturn k).reg (.sys .tpidrEl0) = u.reg (.sys .tpidrEl0) := by
  have huser : userView (.sys .tpidrEl0) := by simp [userView]
  rw [exceptionReturn_reg hel0 huser rfl, h.tpidr, exceptionEntry_reg type u huser rfl]

lemma KeepsTp.tpidr (h : KeepsTp own task s s') : s'.reg (.sys .tpidrEl0) = s.reg (.sys .tpidrEl0) := by
  induction h with
  | refl => rfl
  | user _ htp ih => rw [htp, ih]
  | kernel type _ hrun hel0 ih => rw [kernel_tpidr hrun hel0, ih]

/-- A task has come to the EL0 state `s`, and the last update of its thread pointer was to `w`: the
start of the task, a direct write, an `arch_prctl`. Exec is not an update. -/
inductive TpHistory (own : Word → Prop) (task : Word) : Word → Cpu → Prop
  | start {fp ttbr0 : Word} {cell : Nat → Word} {size : Nat} {l : Labels} {e s : Cpu}
      (fresh : Fresh task fp ttbr0 cell size (switchOut e))
      (entered : afterSwitch l (contextSwitch e) = some s) :
      TpHistory own task (BitVec.ofNat 64 userTlsBase) s
  | keeps {w : Word} {s s' : Cpu} (past : TpHistory own task w s) (run : KeepsTp own task s s') :
      TpHistory own task w s'
  | write {w : Word} {s : Cpu} (past : TpHistory own task w s) (v : Word) :
      TpHistory own task v (s.set (.sys .tpidrEl0) v)
  | prctl {w : Word} {s k k' : Cpu} (past : TpHistory own task w s)
      (before : KernelRun own task (exceptionEntry .sync s) k)
      (after : KernelRun own task (k.set (.sys .tpidrEl0)
        (archPrctl (s.reg (.x 0)) (s.reg (.x 1)) (k.reg (.sys .tpidrEl0))).2) k')
      (el0 : ReturnsToEl0 k') :
      TpHistory own task (archPrctl (s.reg (.x 0)) (s.reg (.x 1)) w).2 (exceptionReturn k')
  | exec {w : Word} {entry : Nat} {args : List (List UInt8)} {p k s : Cpu}
      (past : TpHistory own task w p) (run : ExecCourse own task entry args p k s) :
      TpHistory own task w (exceptionReturn s)

lemma restoreMode_tpidr (s : Cpu) : (restoreMode s).reg (.sys .tpidrEl0) = s.reg (.sys .tpidrEl0) := by
  have h1 : (exec restoreSystem s).reg (.sys .tpidrEl0) = s.reg (.sys .tpidrEl0) :=
    exec_reg s (e := .reg (.sys .tpidrEl0)) (by decide +kernel)
  have h2 : (exec restoreSpEl0 (exec restoreSystem s)).reg (.sys .tpidrEl0) =
      (exec restoreSystem s).reg (.sys .tpidrEl0) :=
    exec_reg _ (e := .reg (.sys .tpidrEl0)) (by decide +kernel)
  simp only [restoreMode]
  split
  · exact h2.trans h1
  · exact h1

/-- The stubs leave the thread pointer that `context_switch` has loaded. -/
lemma afterSwitch_tpidr {l : Labels} (h : afterSwitch l s = some s') :
    s'.reg (.sys .tpidrEl0) = s.reg (.sys .tpidrEl0) := by
  unfold afterSwitch at h
  split at h
  · cases h
    exact exec_reg s (e := .reg (.sys .tpidrEl0)) (by decide +kernel)
  split at h
  · cases h
    have hreg : (exec (restoreGeneral ++ eret) (restoreMode s)).reg (.sys .tpidrEl0) =
        (restoreMode s).reg (.sys .tpidrEl0) :=
      exec_reg _ (e := .reg (.sys .tpidrEl0)) (by decide +kernel)
    exact hreg.trans (restoreMode_tpidr s)
  · cases h

/-- The register holds the last update. -/
lemma TpHistory.tpidr (h : TpHistory own task w s) : s.reg (.sys .tpidrEl0) = w := by
  induction h with
  | start hfresh hentered => rw [afterSwitch_tpidr hentered, hfresh.enter_tpidr]
  | keeps _ hrun ih => rw [hrun.tpidr, ih]
  | write _ v _ => simp
  | prctl past hbefore hafter hel0 ih =>
    have huser : userView (.sys .tpidrEl0) := by simp [userView]
    rw [exceptionReturn_reg hel0 huser rfl, hafter.tpidr, Cpu.set_reg, update_self,
      hbefore.tpidr, exceptionEntry_reg .sync _ huser rfl, ih]
  | exec _ hrun ih => rw [hrun.tpidr, ih]

/-- A new image finds the right registers, and a thread pointer that is the default one and stays so,
exactly when the last update before the exec was to the default. -/
theorem exec_entry_iff {own : Word → Prop} {task w : Word} {entry : Nat} {args : List (List UInt8)}
    {p k s : Cpu} (past : TpHistory own task w p) (h : ExecCourse own task entry args p k s) :
    ((∀ r v, execReg entry args r = some v → (exceptionReturn s).reg r = v) ∧
      (exceptionReturn s).reg (.sys .tpidrEl0) = BitVec.ofNat 64 userTlsBase ∧
      ∀ u, KeepsTp own task (exceptionReturn s) u →
        u.reg (.sys .tpidrEl0) = BitVec.ofNat 64 userTlsBase) ↔
      w = BitVec.ofNat 64 userTlsBase := by
  have htp : (exceptionReturn s).reg (.sys .tpidrEl0) = w := by rw [h.tpidr, past.tpidr]
  constructor
  · rintro ⟨-, hdefault, -⟩
    rw [← htp, hdefault]
  · rintro rfl
    exact ⟨fun r v hr => h.reg hr, htp, fun u hu => by rw [hu.tpidr, htp]⟩

/-- A created task at its first instruction. -/
def startedTask : Cpu := taskTrampoline (contextSwitch (createdAfter 0))

lemma startedTask_history : TpHistory (· < 0x10000) 0x9000 (BitVec.ofNat 64 userTlsBase) startedTask :=
  .start (freshCpu_fresh _ _ (by decide : 160 ≤ 848)) (created_stub (freshCpu_fresh _ _ (by decide)))

/-- The processor at the return of a handler that has done nothing but rewrite the frame. -/
def execReturn (entry : Nat) (args : List (List UInt8)) (p : Cpu) : Cpu :=
  { exceptionEntry .sync p with
    mem := writeFrame (p.sp - frameSize) (execWrites entry args) (exceptionEntry .sync p).mem }

lemma execReturn_course (own : Word → Prop) (task : Word) (entry : Nat) (args : List (List UInt8))
    (p : Cpu) : ExecCourse own task entry args p (exceptionEntry .sync p) (execReturn entry args p) where
  before := .refl
  after := .refl
  sp := exceptionEntry_sp .sync p
  trap := fun _ _ _ => rfl

/-- A task moves its thread pointer to 0x5000 and calls exec: the new image starts with 0x5000. -/
theorem exec_keeps_old_thread_pointer :
    TpHistory (· < 0x10000) 0x9000 0x5000 (startedTask.set (.sys .tpidrEl0) 0x5000) ∧
    ExecCourse (· < 0x10000) 0x9000 0x400000 [] (startedTask.set (.sys .tpidrEl0) 0x5000)
      (exceptionEntry .sync (startedTask.set (.sys .tpidrEl0) 0x5000))
      (execReturn 0x400000 [] (startedTask.set (.sys .tpidrEl0) 0x5000)) ∧
    (exceptionReturn (execReturn 0x400000 [] (startedTask.set (.sys .tpidrEl0) 0x5000))).reg
      (.sys .tpidrEl0) ≠ BitVec.ofNat 64 userTlsBase := by
  have hcourse := execReturn_course (· < 0x10000) 0x9000 0x400000 []
    (startedTask.set (.sys .tpidrEl0) 0x5000)
  refine ⟨.write startedTask_history _, hcourse, ?_⟩
  rw [hcourse.tpidr, Cpu.set_reg, update_self]
  decide

theorem exec_entry_iff_first_exec : ((∀ r v, execReg 0x400000 [] r = some v →
        (exceptionReturn (execReturn 0x400000 [] startedTask)).reg r = v) ∧
      (exceptionReturn (execReturn 0x400000 [] startedTask)).reg (.sys .tpidrEl0) =
        BitVec.ofNat 64 userTlsBase ∧
      ∀ u, KeepsTp (· < 0x10000) 0x9000 (exceptionReturn (execReturn 0x400000 [] startedTask)) u →
        u.reg (.sys .tpidrEl0) = BitVec.ofNat 64 userTlsBase) ↔
      BitVec.ofNat 64 userTlsBase = BitVec.ofNat 64 userTlsBase :=
  exec_entry_iff startedTask_history (execReturn_course _ _ _ _ _)

end FermiOs
