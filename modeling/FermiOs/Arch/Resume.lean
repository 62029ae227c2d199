import FermiOs.Arch.Switch

/-!
# Registers across an interrupt

A user task is interrupted, `exception_dispatch` runs, perhaps leaving the task for others and coming
back to it much later, and the task goes on in EL0. The C code in between is only known by what the
AAPCS64 asks of it: after a call, sp, x19 to x29 and the lower halves of v8 to v15 are as before. It
may change the upper halves, and `context_switch` clears them.

`resumed_of_ne_upper` says that every other user register survives any such course;
`resume_exact_iff` says when all do.
-/

namespace FermiOs
open Library List Function
variable {a : Word} {r : Reg}

/-- The registers that a called function leaves as they are. -/
def calleeSaved : Reg → Prop
  | .x n => 19 ≤ n.val ∧ n.val < 30
  | .vlo n => 8 ≤ n.val ∧ n.val < 16
  | _ => False

/-- What a caller may rely on after a call. -/
structure Aapcs (s s' : Cpu) : Prop where
  sp : s'.sp = s.sp
  reg : ∀ r, calleeSaved r → s'.reg r = s.reg r

/-- Address of a slot of the trap frame at `frame`. -/
def trapCell (frame : Word) (off : Nat) : Word := frame + BitVec.ofNat 64 off

/-- A stretch of kernel C code that writes neither the thread pointer nor the trap frame of the task. -/
structure KernelCode (frame : Word) (s s' : Cpu) : Prop where
  tpidr : s'.reg (.sys .tpidrEl0) = s.reg (.sys .tpidrEl0)
  trap : ∀ r off, trapSlot r = some off → s'.mem (trapCell frame off) = s.mem (trapCell frame off)

/-- The upper halves of v8 to v15 are the same. -/
def UpperKept (s s' : Cpu) : Prop :=
  ∀ n : Fin 32, 8 ≤ n.val → n.val < 16 → s'.reg (.vhi n) = s.reg (.vhi n)

/-- A task is left by the call of `context_switch` in `c` and entered by the one in `e`. In between,
other tasks run and may change every register and all memory except `own`, which has the kernel stack
and the record of the task. -/
structure Away (own : Word → Prop) (task : Word) (c e : Cpu) : Prop where
  prev : c.reg (.x 0) = task
  next : e.reg (.x 1) = task
  user : c.mem (task + taskTtbr0) ≠ 0
  cells : ∀ a ∈ switchCells c, own a
  ttbr0 : own (task + taskTtbr0)
  apart : (switchCells c).Nodup
  ttbr0_apart : task + taskTtbr0 ∉ switchCells c
  kept : ∀ a, own a → e.mem a = (switchOut c).mem a
  other : ∀ a ∈ switchCells e, ¬ own a

section
variable {own : Word → Prop} {task : Word} {c e : Cpu} (h : Away own task c e)
include h

/-- What the task owns is still there when it is entered. -/
lemma Away.mem (ha : own a) : (switchOut e).mem a = (switchOut c).mem a := by
  rw [switchOut_mem e fun hmem => h.other a hmem ha, h.kept a ha]

lemma Away.own_sp : own (task + taskSp) :=
  h.cells _ (by rw [← h.prev]; exact mem_append_right _ (by simp))

lemma Away.own_tpidr : own (task + taskTpidr) :=
  h.cells _ (by rw [← h.prev]; exact mem_append_right _ (by simp))

/-- The next task of the second call. -/
lemma Away.next_out : (switchOut e).reg (.x 1) = task := by
  rw [switchOut_reg e (by decide), h.next]

/-- The frame that is loaded is the one that was saved. -/
lemma Away.frame : (switchOut e).mem (task + taskSp) = c.sp - switchSize := by
  rw [h.mem h.own_sp, ← h.prev, switchOut_sp]

lemma Away.sp : (contextSwitch e).sp = c.sp := by
  rw [contextSwitch, switchIn_sp, h.next_out, h.frame, BitVec.sub_add_cancel]

/-- The registers that `context_switch` saves. -/
lemma Away.reg {off : Nat} (hr : switchSlot r = some off) : (contextSwitch e).reg r = c.reg r := by
  have hown : own (c.sp - switchSize + BitVec.ofNat 64 off) :=
    h.cells _ (mem_append_left _ (mem_map.mpr ⟨off, mem_stored_saveCallee hr, rfl⟩))
  rw [contextSwitch, switchIn_slot _ hr, h.next_out, h.frame, h.mem hown, switchOut_slot c h.apart hr]

/-- `context_switch` is a call that obeys the AAPCS64, seen from the task. -/
lemma Away.callee : Aapcs c (contextSwitch e) where
  sp := h.sp
  reg := by
    intro r hr
    have hslot : ∃ off, switchSlot r = some off := by
      cases r with
      | x n => exact ⟨_, if_pos hr.1⟩
      | vlo n => exact ⟨_, if_pos hr⟩
      | _ => exact hr.elim
    obtain ⟨off, hoff⟩ := hslot
    exact h.reg hoff

lemma Away.tpidr : (contextSwitch e).reg (.sys .tpidrEl0) = c.reg (.sys .tpidrEl0) := by
  have hne : (switchOut e).mem ((switchOut e).reg (.x 1) + taskTtbr0) ≠ 0 := by
    rw [h.next_out, h.mem h.ttbr0, switchOut_mem c h.ttbr0_apart]
    exact h.user
  rw [contextSwitch, switchIn_tpidr _ hne, h.next_out, h.mem h.own_tpidr, ← h.prev, switchOut_tpidr]

/-- Owned cells that the first call does not use. -/
lemma Away.mem_kept (ha : own a) (hc : a ∉ switchCells c) : (contextSwitch e).mem a = c.mem a := by
  rw [contextSwitch, switchIn_mem, h.mem ha, switchOut_mem c hc]

end

/-! ## One interrupt -/

/-- What becomes of an interrupt: the handler returns, or it leaves the task first, by the call of
`context_switch` in `c`, and comes back by the one in `e`. -/
inductive Course where
  | stays
  | switches (c e : Cpu)

/-- The course leads from the call of `exception_dispatch` in `s` to its return in `s'`. C code keeps
what a caller relies on as long as the functions it calls do. -/
def Course.Runs (own : Word → Prop) (task : Word) (s s' : Cpu) : Course → Prop
  | .stays => Aapcs s s' ∧ KernelCode s.sp s s'
  | .switches c e =>
    KernelCode s.sp s c ∧ Away own task c e ∧ KernelCode s.sp (contextSwitch e) s' ∧
      (Aapcs c (contextSwitch e) → Aapcs s s') ∧
      -- the trap frame is on the stack of the task, clear of what the call saves
      (∀ r off, trapSlot r = some off →
        own (trapCell s.sp off) ∧ trapCell s.sp off ∉ switchCells c)

/-- The C code of the course does not touch the upper halves of v8 to v15. -/
def Course.LeavesUpper (s s' : Cpu) : Course → Prop
  | .stays => UpperKept s s'
  | .switches c e => UpperKept s c ∧ UpperKept (contextSwitch e) s'

section
variable {own : Word → Prop} {task : Word} {s s' : Cpu} {course : Course}

lemma Course.Runs.aapcs (h : course.Runs own task s s') : Aapcs s s' := by
  cases course with
  | stays => exact h.1
  | switches c e => exact h.2.2.2.1 h.2.1.callee

/-- Whatever runs meanwhile, the thread pointer and the trap frame are kept. -/
lemma Course.Runs.code (h : course.Runs own task s s') : KernelCode s.sp s s' := by
  cases course with
  | stays => exact h.2
  | switches c e =>
    obtain ⟨hc, haway, hr, -, htrap⟩ := h
    constructor
    · rw [hr.tpidr, haway.tpidr, hc.tpidr]
    · intro r off hoff
      obtain ⟨hown, hcell⟩ := htrap r off hoff
      rw [hr.trap r off hoff, haway.mem_kept hown hcell, hc.trap r off hoff]

variable (hel0 : s.reg .pstate &&& 0xF = 0)
include hel0

section
variable (h : course.Runs own task (exceptionEntry .irq s) s')
include h

/-- The frame still says EL0 when the handler returns. -/
lemma Course.Runs.mode : s'.mem (s'.slot 256) &&& 0xF = 0 := by
  have hcell := h.code.trap .pstate 256 rfl
  have hentry := exceptionEntry_slot .irq s (show trapSlot .pstate = some 256 from rfl)
  rw [Cpu.slot, h.aapcs.sp]
  rw [Cpu.slot] at hentry
  rw [trapCell, hentry] at hcell
  rw [hcell]
  exact hel0

/-- Every user register except the upper halves of v8 to v15 survives. -/
lemma resumed_of_ne_upper (hr : userView r) (hn : ∀ n : Fin 32, r = .vhi n → n.val < 8 ∨ 16 ≤ n.val) :
    (exceptionReturn s').reg r = s.reg r := by
  have hmode := h.mode hel0
  rcases userView_cases hr with ⟨off, hoff⟩ | rfl | ⟨n, h8, h16, rfl | rfl⟩
  · -- in the trap frame, which nobody has written
    have hentry := exceptionEntry_slot .irq s hoff
    have hcell := h.code.trap r off hoff
    rw [exceptionReturn_slot hmode hoff, Cpu.slot, h.aapcs.sp]
    exact hcell.trans hentry
  · rw [exceptionReturn_reg hmode hr rfl, h.code.tpidr, exceptionEntry_reg .irq s hr rfl]
  · -- callee-saved, so the C code and the switch keep it
    have hnone : trapSlot (.vlo n) = none := by simp [trapSlot, h8, h16]
    rw [exceptionReturn_reg hmode hr hnone, h.aapcs.reg (.vlo n) ⟨h8, h16⟩,
      exceptionEntry_reg .irq s hr hnone]
  · rcases hn n rfl with hlt | hge
    · omega
    · omega

/-- The upper halves of v8 to v15 are those at the return of the handler. -/
lemma resumed_upper {n : Fin 32} (h8 : 8 ≤ n.val) (h16 : n.val < 16) :
    (exceptionReturn s').reg (.vhi n) = s'.reg (.vhi n) :=
  exceptionReturn_reg (h.mode hel0) trivial (by simp [trapSlot, h8, h16])

end

/-- All user registers survive exactly when the task is not left, or when the upper halves of v8 to
v15 are clear; provided that the C code does not use them. -/
theorem resume_exact_iff (h : course.Runs own task (exceptionEntry .irq s) s')
    (hu : course.LeavesUpper (exceptionEntry .irq s) s') :
    (∀ r, userView r → (exceptionReturn s').reg r = s.reg r) ↔
      ((∃ c e, course = .switches c e) →
        ∀ n : Fin 32, 8 ≤ n.val → n.val < 16 → s.reg (.vhi n) = 0) := by
  have hout : ∀ n : Fin 32, 8 ≤ n.val → n.val < 16 →
      (exceptionEntry .irq s).reg (.vhi n) = s.reg (.vhi n) := fun n h8 h16 =>
    exceptionEntry_reg .irq s trivial (by simp [trapSlot, h8, h16])
  constructor
  · rintro hall ⟨c, e, rfl⟩ n h8 h16
    have hkept := hall (.vhi n) trivial
    rw [resumed_upper hel0 h h8 h16, hu.2 n h8 h16, contextSwitch, switchIn_upper _ h8 h16] at hkept
    exact hkept.symm
  intro hzero r hr
  by_cases hn : ∀ n : Fin 32, r = .vhi n → n.val < 8 ∨ 16 ≤ n.val
  · exact resumed_of_ne_upper hel0 h hr hn
  -- what is left is an upper half of v8 to v15
  push Not at hn
  obtain ⟨n, rfl, h8, h16⟩ := hn
  rw [resumed_upper hel0 h h8 h16]
  cases course with
  | stays => rw [hu n h8 h16, hout n h8 h16]
  | switches c e =>
    rw [hu.2 n h8 h16, contextSwitch, switchIn_upper _ h8 h16, hzero ⟨c, e, rfl⟩ n h8 h16]

end

/-! ## A run with a live upper half -/

/-- A user task with kernel stack below 0x8000 and record at 0x9000. The upper half of v8 is in use. -/
def sampleUser : Cpu where
  reg := fun r => if r = .vhi 8 then 1 else 0
  sp := 0x8000
  mem := fun a => if a = 0x9028 then 1 else 0

/-- It is left at once, and entered from a task with kernel stack below 0x20000 and record at
0x30000. -/
def sampleOut : Cpu := (exceptionEntry .irq sampleUser).set (.x 0) 0x9000

@[inherit_doc sampleOut]
def sampleBack : Cpu where
  reg := fun r => if r = .x 0 then 0x30000 else if r = .x 1 then 0x9000 else 0
  sp := 0x20000
  mem := (switchOut sampleOut).mem

lemma switchCells_sampleOut :
    switchCells sampleOut = (stored saveCallee).map (fun off => 0x7cb0 + BitVec.ofNat 64 off) ++
      [0x9a08, 0x9000] := by
  have hsp : sampleOut.sp = 0x7d50 := exceptionEntry_sp .irq sampleUser
  have hx : sampleOut.reg (.x 0) = 0x9000 := by simp [sampleOut]
  rw [switchCells, hsp, hx]
  rfl

lemma sample_away : Away (· < 0x10000) 0x9000 sampleOut sampleBack where
  prev := by simp [sampleOut]
  next := rfl
  user := by
    have hm : sampleOut.mem (0x9000 + taskTtbr0) = sampleUser.mem (0x9000 + taskTtbr0) :=
      exceptionEntry_mem .irq sampleUser (by decide +kernel)
    rw [hm]
    decide
  cells := by
    rw [switchCells_sampleOut, forall_mem_append, forall_mem_map]
    exact ⟨by decide +kernel, by simp⟩
  ttbr0 := by decide
  apart := by
    rw [switchCells_sampleOut]
    exact Nodup.of_map BitVec.toNat (by decide +kernel)
  ttbr0_apart := by
    rw [switchCells_sampleOut]
    decide +kernel
  kept := fun _ _ => rfl
  other := by
    rw [switchCells, forall_mem_append, forall_mem_map]
    exact ⟨by decide +kernel, by simp [sampleBack, taskTpidr, taskSp]⟩

lemma sample_runs :
    (Course.switches sampleOut sampleBack).Runs (· < 0x10000) 0x9000 (exceptionEntry .irq sampleUser)
      (contextSwitch sampleBack) := by
  have hreg : ∀ r, r ≠ .x 0 → sampleOut.reg r = (exceptionEntry .irq sampleUser).reg r :=
    fun r hr => update_of_ne hr _ _
  have htrap : ∀ r ∈ Reg.all, ∀ off ∈ trapSlot r, trapCell 0x7d50 off < 0x10000 ∧
      trapCell 0x7d50 off ∉ (stored saveCallee).map (fun off => 0x7cb0 + BitVec.ofNat 64 off) ++
        [0x9a08, 0x9000] := by
    decide +kernel
  have hsp : (exceptionEntry .irq sampleUser).sp = 0x7d50 := exceptionEntry_sp .irq sampleUser
  refine ⟨⟨hreg _ (by decide), fun _ _ _ => rfl⟩, sample_away, ⟨rfl, fun _ _ _ => rfl⟩, ?_, ?_⟩
  · intro hcall
    refine ⟨hcall.sp, fun r hr => ?_⟩
    rw [hcall.reg r hr]
    apply hreg
    rintro rfl
    exact absurd hr.1 (by decide)
  · intro r off hoff
    rw [switchCells_sampleOut, hsp]
    exact htrap r r.mem_all off hoff

lemma sample_leavesUpper :
    (Course.switches sampleOut sampleBack).LeavesUpper (exceptionEntry .irq sampleUser)
      (contextSwitch sampleBack) := by
  refine ⟨fun n _ _ => ?_, fun _ _ _ => rfl⟩
  simp [sampleOut]

/-- The task comes back with the upper half of v8 cleared. -/
theorem upper_half_lost_in_switch :
    (Course.switches sampleOut sampleBack).Runs (· < 0x10000) 0x9000 (exceptionEntry .irq sampleUser)
      (contextSwitch sampleBack) ∧
    sampleUser.reg .pstate &&& 0xF = 0 ∧
    ¬ ∀ r, userView r → (exceptionReturn (contextSwitch sampleBack)).reg r = sampleUser.reg r := by
  have hel0 : sampleUser.reg .pstate &&& 0xF = 0 := by decide
  refine ⟨sample_runs, hel0, fun hall => ?_⟩
  have hback := hall (.vhi 8) trivial
  rw [resumed_upper hel0 sample_runs (by decide) (by decide), contextSwitch,
    switchIn_upper _ (by decide) (by decide)] at hback
  exact absurd hback (by decide)

theorem resume_exact_iff_sample :
    (∀ r, userView r → (exceptionReturn (contextSwitch sampleBack)).reg r = sampleUser.reg r) ↔
      ((∃ c e, Course.switches sampleOut sampleBack = .switches c e) →
        ∀ n : Fin 32, 8 ≤ n.val → n.val < 16 → sampleUser.reg (.vhi n) = 0) :=
  resume_exact_iff (by decide) sample_runs sample_leavesUpper

end FermiOs
