import FermiOs.Mm.Layout

/-!
# Page descriptors

The 64-bit stage-1 descriptors of `mm/mmu/mmu.h`: how the kernel builds a leaf entry, what the
hardware reads back from it at EL0, and how `mmu_protect_user_range` rewrites one. The permission of
a descriptor is decoded by `el0Read`, `el0Write` and `el0Exec` from the AP field and UXN.
-/

namespace FermiOs

/-- A translation-table descriptor. -/
abbrev Pte := BitVec 64

/-- `PTE_VALID`. -/
def pteValidBit : Pte := 0x1#64

/-- `PTE_TABLE`. -/
def pteTableBit : Pte := 0x2#64

/-- `PTE_AF`. -/
def pteAf : Pte := 0x400#64

/-- `PTE_SH_INNER`. -/
def pteShInner : Pte := 0x300#64

/-- `PTE_NG`. -/
def pteNg : Pte := 0x800#64

/-- `PTE_AP_RW_EL0`. -/
def pteApRwEl0 : Pte := 0x40#64

/-- `PTE_AP_RO`. -/
def pteApRo : Pte := 0x80#64

/-- `PTE_AP_RO_EL0`. -/
def pteApRoEl0 : Pte := 0xC0#64

/-- `PTE_ATTRIDX(idx)`. -/
def pteAttridx (idx : Nat) : Pte := BitVec.ofNat 64 idx <<< 2

/-- `PTE_PXN`. -/
def ptePxn : Pte := 0x20000000000000#64

/-- `PTE_UXN`. -/
def pteUxn : Pte := 0x40000000000000#64

/-- `PTE_ADDR_MASK`. -/
def pteAddrMask : Pte := 0x0000FFFFFFFFF000#64

/-- `PERM_MASK` of `mmu_protect_user_range`. -/
def permMask : Pte := 0xC0#64 ||| pteUxn ||| ptePxn ||| pteAttridx 3

/-- The descriptor `mmu_map_user_range` stores for the page at `pa`. -/
def leafPte (pa : Nat) (flags : Pte) : Pte :=
  (BitVec.ofNat 64 pa &&& pteAddrMask) ||| pteValidBit ||| pteTableBit ||| pteAf ||| pteShInner |||
    pteNg ||| flags

section
variable (w : Pte)

/-- The descriptor `mmu_protect_user_range` leaves in place of `w`. -/
def protectPte (flags : Pte) : Pte := (w &&& ~~~permMask) ||| (flags &&& permMask)

/-- `pte_valid`. -/
def pteValid : Bool := w.getLsbD 0

/-- Physical page a leaf descriptor points at. -/
def pteFrame : Nat := (w &&& pteAddrMask).toNat

/-- EL0 may load: AP[1] is set. -/
def el0Read : Bool := w.getLsbD 6

/-- EL0 may store: AP[1] is set and AP[2] is clear. -/
def el0Write : Bool := w.getLsbD 6 && !w.getLsbD 7

/-- EL0 may fetch instructions: UXN is clear. -/
def el0Exec : Bool := !w.getLsbD 54

end

section
variable (prot : Nat)

/-- `VMA_PROT_READ` is set in `prot`. -/
def protRead : Bool := prot.testBit 0

/-- `VMA_PROT_WRITE` is set in `prot`. -/
def protWrite : Bool := prot.testBit 1

/-- `VMA_PROT_EXEC` is set in `prot`. -/
def protExec : Bool := prot.testBit 2

/-- `mmu_prot_to_flags`. -/
def mmuProtToFlags : Pte :=
  pteAttridx 1 ||| ptePxn |||
    (if protWrite prot then pteApRwEl0 else if protRead prot then pteApRoEl0 else pteApRo) |||
    (if protExec prot then 0#64 else pteUxn)

end

/-- `text_flags` of `sched_create_task` and `sched_fork`. -/
def textFlags : Pte := pteAttridx 1 ||| pteApRoEl0 ||| ptePxn

/-- `stack_flags`, also used for TLS pages. -/
def stackFlags : Pte := pteAttridx 1 ||| pteApRwEl0 ||| pteUxn ||| ptePxn

/-- `elf_pflags_to_pte`: `PF_X = 1`, `PF_W = 2`. -/
def elfPflagsToPte (pflags : Nat) : Pte :=
  pteAttridx 1 ||| ptePxn ||| (if pflags.testBit 1 then pteApRwEl0 else pteApRoEl0) |||
    (if pflags.testBit 0 then 0#64 else pteUxn)

/-- Flags that stay clear of the address field and leave the entry's fixed bits alone. -/
def FlagsOk (flags : Pte) : Prop := flags &&& ~~~permMask = 0#64
deriving Decidable

lemma flagsOk_mmuProtToFlags (prot : Nat) : FlagsOk (mmuProtToFlags prot) := by
  unfold mmuProtToFlags
  cases protWrite prot <;> cases protRead prot <;> cases protExec prot <;> decide

lemma flagsOk_textFlags : FlagsOk textFlags := by decide

lemma flagsOk_stackFlags : FlagsOk stackFlags := by decide

lemma flagsOk_elfPflagsToPte (pflags : Nat) : FlagsOk (elfPflagsToPte pflags) := by
  unfold elfPflagsToPte
  cases pflags.testBit 0 <;> cases pflags.testBit 1 <;> decide

/-! ## Decoding -/

variable {flags : Pte} {i pa : Nat}

lemma getLsbD_addrMask (hi : i < 64) : pteAddrMask.getLsbD i = decide (12 ≤ i ∧ i < 48) := by
  revert i
  decide

lemma getLsbD_addrMask_low (hi : i < 12 ∨ 48 ≤ i) : pteAddrMask.getLsbD i = false := by
  by_cases h : i < 64
  · rw [getLsbD_addrMask h, decide_eq_false_iff_not]
    omega
  · exact BitVec.getLsbD_of_ge _ _ (by omega)

lemma ofNat_and_addrMask (hal : pa % 4096 = 0) (hlt : pa < 2 ^ 48) :
    BitVec.ofNat 64 pa &&& pteAddrMask = BitVec.ofNat 64 pa := by
  refine BitVec.eq_of_getLsbD_eq fun i hi => ?_
  rw [BitVec.getLsbD_and, getLsbD_addrMask hi, BitVec.getLsbD_ofNat]
  simp only [hi, decide_true, Bool.true_and]
  by_cases h : 12 ≤ i ∧ i < 48
  · simp [h]
  have hbit : pa.testBit i = false := by
    by_cases h12 : i < 12
    · have hmod : (pa % 2 ^ 12).testBit i = false := by
        rw [show pa % 2 ^ 12 = 0 from hal, Nat.zero_testBit]
      rw [Nat.testBit_mod_two_pow] at hmod
      simpa [h12] using hmod
    · refine Nat.testBit_lt_two_pow (lt_of_lt_of_le hlt ?_)
      exact Nat.pow_le_pow_right (by decide) (by omega)
  simp [hbit]

lemma flags_and_addrMask (h : FlagsOk flags) : flags &&& pteAddrMask = 0#64 := by
  have hm : pteAddrMask = ~~~permMask &&& pteAddrMask := by decide
  rw [hm, ← BitVec.and_assoc, h, BitVec.zero_and]

/-- The bits every leaf has set lie outside the address field and the permission mask. -/
lemma fixedBits_getLsbD (hi : i < 64) (h : pteAddrMask.getLsbD i = true ∨ permMask.getLsbD i = true) :
    (pteValidBit ||| pteTableBit ||| pteAf ||| pteShInner ||| pteNg).getLsbD i = false := by
  revert i
  decide

section
variable (pa : Nat) (flags : Pte)

/-- A bit outside the address field, VALID, TABLE, AF, SH and nG comes from the flags. -/
lemma leafPte_getLsbD (hi : i = 6 ∨ i = 7 ∨ i = 54) :
    (leafPte pa flags).getLsbD i = flags.getLsbD i := by
  have hm : pteAddrMask.getLsbD i = false := getLsbD_addrMask_low (by omega)
  simp only [leafPte, BitVec.getLsbD_or, BitVec.getLsbD_and, hm, Bool.and_false, Bool.false_or]
  rcases hi with rfl | rfl | rfl <;> rfl

@[simp] lemma leafPte_valid : pteValid (leafPte pa flags) = true := by
  simp [pteValid, leafPte, pteValidBit]

@[simp] lemma leafPte_el0Read : el0Read (leafPte pa flags) = el0Read flags :=
  leafPte_getLsbD pa flags (by simp)

@[simp] lemma leafPte_el0Write : el0Write (leafPte pa flags) = el0Write flags := by
  simp only [el0Write, leafPte_getLsbD pa flags (show 6 = 6 ∨ _ by simp),
    leafPte_getLsbD pa flags (show 7 = 6 ∨ 7 = 7 ∨ _ by simp)]

@[simp] lemma leafPte_el0Exec : el0Exec (leafPte pa flags) = el0Exec flags := by
  simp only [el0Exec, leafPte_getLsbD pa flags (show 54 = 6 ∨ 54 = 7 ∨ 54 = 54 by simp)]

end

/-- A leaf built for a page-aligned physical address points at it. -/
lemma leafPte_frame (hf : FlagsOk flags) (hal : pa % 4096 = 0) (hlt : pa < 2 ^ 48) :
    pteFrame (leafPte pa flags) = pa := by
  have hbits : leafPte pa flags &&& pteAddrMask = BitVec.ofNat 64 pa &&& pteAddrMask := by
    refine BitVec.eq_of_getLsbD_eq fun i hi => ?_
    have hfl : (flags &&& pteAddrMask).getLsbD i = false := by simp [flags_and_addrMask hf]
    rw [BitVec.getLsbD_and] at hfl
    by_cases h : 12 ≤ i ∧ i < 48
    · have hm : pteAddrMask.getLsbD i = true := by rw [getLsbD_addrMask hi]; simp [h]
      have hfix := fixedBits_getLsbD hi (.inl hm)
      simp only [BitVec.getLsbD_or, Bool.or_eq_false_iff] at hfix
      rw [hm, Bool.and_true] at hfl
      simp only [leafPte, BitVec.getLsbD_and, BitVec.getLsbD_or, hm, hfl, hfix, Bool.and_true,
        Bool.or_false]
    · have hm : pteAddrMask.getLsbD i = false := getLsbD_addrMask_low (by omega)
      simp [hm]
  rw [pteFrame, hbits, ofNat_and_addrMask hal hlt, BitVec.toNat_ofNat, Nat.mod_eq_of_lt (by omega)]

section
variable (w flags : Pte)

lemma protectPte_getLsbD_perm (hi : i < 64) (hp : permMask.getLsbD i = true) :
    (protectPte w flags).getLsbD i = flags.getLsbD i := by
  simp only [protectPte, BitVec.getLsbD_or, BitVec.getLsbD_and, BitVec.getLsbD_not, hp, hi,
    decide_true, Bool.not_true, Bool.and_false, Bool.and_true, Bool.false_or]

lemma protectPte_getLsbD_keep (hi : i < 64) (hp : permMask.getLsbD i = false) :
    (protectPte w flags).getLsbD i = w.getLsbD i := by
  simp only [protectPte, BitVec.getLsbD_or, BitVec.getLsbD_and, BitVec.getLsbD_not, hp, hi,
    decide_true, Bool.not_false, Bool.and_false, Bool.and_true, Bool.or_false]

@[simp] lemma protectPte_valid : pteValid (protectPte w flags) = pteValid w :=
  protectPte_getLsbD_keep w flags (by decide) (by decide)

@[simp] lemma protectPte_el0Write : el0Write (protectPte w flags) = el0Write flags := by
  simp only [el0Write, protectPte_getLsbD_perm w flags (show 6 < 64 by decide) (by decide),
    protectPte_getLsbD_perm w flags (show 7 < 64 by decide) (by decide)]

@[simp] lemma protectPte_frame : pteFrame (protectPte w flags) = pteFrame w := by
  unfold pteFrame
  congr 1
  refine BitVec.eq_of_getLsbD_eq fun i hi => ?_
  by_cases h : 12 ≤ i ∧ i < 48
  · have hp : permMask.getLsbD i = false := by
      revert i
      decide
    rw [BitVec.getLsbD_and, BitVec.getLsbD_and, protectPte_getLsbD_keep w flags hi hp]
  · simp [getLsbD_addrMask_low (show i < 12 ∨ 48 ≤ i by omega)]

end

/-! ## What the flags grant at EL0 -/

lemma mmuProtToFlags_el0Write (prot : Nat) : el0Write (mmuProtToFlags prot) = protWrite prot := by
  unfold mmuProtToFlags
  cases protWrite prot <;> cases protRead prot <;> cases protExec prot <;> decide

lemma textFlags_el0Write : el0Write textFlags = false := by decide

end FermiOs
