import FermiOs.Sched.Fork
import FermiOs.Syscall.Arena
import Mathlib.Order.Bounds.Defs

/-!
# What `mmap` maps

For an otherwise valid request the two ways `sys_mmap` places a region. Without `MAP_FIXED` the
region goes to the lowest place that fits (`mmap_takes_lowest`). With `MAP_FIXED` the call looks at
the regions only, and hands `vma_add` an end that was not rounded: it maps over the image, the stacks
and the TLS page, and refuses every length that is no multiple of a page (`fixed_exact_iff`).
-/

namespace FermiOs
open List
variable {addr end_ fd flags length offset prot start : Nat} {k k' : Kernel} {set : VmaSet} {t : Task}

/-- The arguments pass every check of `sys_mmap` that is not about the place. -/
structure ArgsOk (t : Task) (length prot flags fd offset : Nat) : Prop where
  user : t.ttbr0 ≠ 0
  prot : prot < 8
  unshared : mapShared flags = false
  anonymous : mapAnonymous flags = true
  offset : offset = 0
  fd : fd = 2 ^ 64 - 1
  nonempty : length ≠ 0
  word : length < 2 ^ 64

/-- The length in whole pages. -/
def roundUp (length : Nat) : Nat := (length + 4095) / 4096 * 4096

/-- `vma_add` finds a free entry, and memory for the page array. -/
def HasRoom (k : Kernel) (set : VmaSet) : Prop :=
  set.length < vmaMaxPerTask ∧ k.kmalloc.1 = true

/-- The set with a new region of `sys_mmap`. -/
def withRegion (set : VmaSet) (start end_ prot : Nat) : VmaSet :=
  vmaInsertSorted set (freshVma start end_ prot (vmaAnonymous + vmaShared))

/-! ## Outcomes of a valid call -/

lemma sysMmap_refused {err : Nat} (h : ArgsOk t length prot flags fd offset)
    (hp : mmapPlace t.vmas addr length flags = .error err) :
    sysMmap k t addr length prot flags fd offset = fail k t err := by
  simp [sysMmap, h.user, not_le.mpr h.prot, h.unshared, h.anonymous, h.offset, h.fd, h.nonempty, hp]

lemma sysMmap_placed (h : ArgsOk t length prot flags fd offset)
    (hp : mmapPlace t.vmas addr length flags = .ok (start, end_)) {r : Option VmaSet}
    (hadd : vmaAdd k t.vmas start end_ prot (vmaAnonymous + vmaShared) = (r, k')) :
    sysMmap k t addr length prot flags fd offset =
      r.elim (fail k' t eNoMem) fun vmas => (start, { t with vmas := vmas }, k') := by
  cases r <;> simp [sysMmap, h.user, not_le.mpr h.prot, h.unshared, h.anonymous, h.offset, h.fd,
    h.nonempty, hp, hadd]

lemma vmaAdd_denied (h : end_ % 4096 ≠ 0 ∨ ¬ HasRoom k set) :
    ∃ k', vmaAdd k set start end_ prot flags = (none, k') := by
  by_cases hok : AddOk set start end_
  · -- the checks have passed, so it is the array that is refused
    have hk : ¬ k.kmalloc.1 = true := fun hk =>
      h.resolve_left (not_not.mpr hok.end_aligned) ⟨hok.room, hk⟩
    rw [vmaAdd_ok k prot flags hok, if_neg hk]
    exact ⟨_, rfl⟩
  · exact ⟨k, vmaAdd_not_ok hok⟩

lemma vmaAdd_mapped (hlt : start < end_) (hs : start % 4096 = 0) (he : end_ % 4096 = 0)
    (hwin : end_ ≤ userVaTop) (hfree : RangeFree set start (end_ - start)) (hroom : HasRoom k set) :
    vmaAdd k set start end_ prot (vmaAnonymous + vmaShared) =
      (some (withRegion set start end_ prot), k.kmalloc.2) := by
  have hapart : ∀ v ∈ set, v.end_ ≤ start ∨ end_ ≤ v.start := by
    intro v hv
    have := hfree v hv
    omega
  have hshort : (end_ - start) / 4096 ≤ 2 ^ 20 := by
    simp only [userVaTop] at hwin
    omega
  rw [vmaAdd_ok k prot _ ⟨hlt, hs, he, hroom.1, hapart, hshort⟩, if_pos hroom.2]
  rfl

/-! ## The lowest place -/

/-- A place for a request without `MAP_FIXED`. -/
def Fits (set : VmaSet) (length c : Nat) : Prop :=
  userMmapBase ≤ c ∧ c % 4096 = 0 ∧ c + roundUp length ≤ userVaTop ∧
    RangeFree set c (roundUp length)

/-- The place `sys_mmap` computes: the lowest that fits, or the error for exhausted memory. -/
lemma mmapPlace_free (addr : Nat) (h : ArgsOk t length prot flags fd offset)
    (hflags : mapFixed flags = false) (hset : InUserSpace set) :
    (∃ c, IsLeast {c | Fits set length c} c ∧
      mmapPlace set addr length flags = .ok (c, c + roundUp length)) ∨
      (∀ c, ¬ Fits set length c) ∧ mmapPlace set addr length flags = .error eNoMem := by
  have hpos := h.nonempty
  by_cases hbig : userVaTop < roundUp length
  · -- the request is longer than the window: whatever the sums wrap to is refused
    refine .inr ⟨fun c hc => absurd hc.2.2.1 (by omega), ?_⟩
    simp only [mmapPlace, hflags, Bool.false_eq_true, if_false]
    by_cases hwrap : pageAlignUp length < length
    · rw [if_pos hwrap]
    rw [if_neg hwrap]
    have hno : mmapRangeOk (mmapFindFree set (pageAlignUp length))
        (add64 (mmapFindFree set (pageAlignUp length)) (pageAlignUp length)) = false := by
      simp only [mmapRangeOk, decide_eq_false_iff_not]
      simp only [roundUp, userVaTop, pageAlignUp, add64] at *
      omega
    rw [hno]
    split <;> rfl
  have hup : pageAlignUp length = roundUp length :=
    pageAlignUp_of_lt (by simp only [roundUp, userVaTop] at hbig; omega)
  have hlen : length ≤ roundUp length ∧ 0 < roundUp length := by
    simp only [roundUp]
    omega
  simp only [mmapPlace, hflags, Bool.false_eq_true, if_false, hup, if_neg (not_lt.mpr hlen.1)]
  rcases mmapFindFree_result hset (not_lt.mp hbig) with ⟨h0, hnone⟩ | ⟨hbase, hal, hfit, hfree, hlow⟩
  · rw [if_pos h0]
    exact .inr ⟨fun c hc => absurd (hnone c hc.1 hc.2.2.2) (not_lt.mpr hc.2.2.1), rfl⟩
  refine .inl ⟨_, ⟨⟨hbase, hal, hfit, hfree⟩, fun c hc => hlow c hc.1 hc.2.2.2⟩, ?_⟩
  have hne : mmapFindFree set (roundUp length) ≠ 0 := by
    simp only [userMmapBase] at hbase
    omega
  have hsum : add64 (mmapFindFree set (roundUp length)) (roundUp length) =
      mmapFindFree set (roundUp length) + roundUp length := by
    simp only [userVaTop] at hfit
    rw [add64, Nat.mod_eq_of_lt (by omega)]
  have hrange : mmapRangeOk (mmapFindFree set (roundUp length))
      (mmapFindFree set (roundUp length) + roundUp length) = true :=
    decide_eq_true ⟨by omega, hfit⟩
  rw [if_neg hne, hsum, hrange]
  rfl

/-- **A request without `MAP_FIXED`**: the search ends, the region goes to the lowest place that fits,
and memory is reported exhausted exactly when there is none, the table is full or the page array
cannot be allocated. -/
theorem mmap_takes_lowest (h : ArgsOk t length prot flags fd offset)
    (hflags : mapFixed flags = false) (hset : InUserSpace t.vmas) :
    (∀ fuel, t.vmas.length < fuel → mmapSearch t.vmas (pageAlignUp length) fuel userMmapBase =
        mmapFindFree t.vmas (pageAlignUp length)) ∧
      ((∃ c : Nat, IsLeast {c | Fits t.vmas length c} c ∧ HasRoom k t.vmas ∧
          sysMmap k t addr length prot flags fd offset =
            ((c : Int), { t with vmas := withRegion t.vmas c (c + roundUp length) prot }, k.kmalloc.2)) ∨
        ((∀ c, ¬ Fits t.vmas length c) ∨ ¬ HasRoom k t.vmas) ∧
          ∃ k', sysMmap k t addr length prot flags fd offset = fail k' t eNoMem) := by
  refine ⟨fun fuel hf => mmapFindFree_fuel (fun v hv => hset.end_le hv) _ hf, ?_⟩
  rcases mmapPlace_free addr h hflags hset with ⟨c, hleast, hp⟩ | ⟨hnone, hp⟩
  · by_cases hroom : HasRoom k t.vmas
    · obtain ⟨-, hal, hfit, hfree⟩ := hleast.1
      have hpos : 0 < roundUp length ∧ roundUp length % 4096 = 0 := by
        have := h.nonempty
        simp only [roundUp]
        omega
      have hadd : vmaAdd k t.vmas c (c + roundUp length) prot (vmaAnonymous + vmaShared) = _ :=
        vmaAdd_mapped (by omega) hal (by omega) hfit (by rwa [Nat.add_sub_cancel_left]) hroom
      exact .inl ⟨c, hleast, hroom, sysMmap_placed h hp hadd⟩
    · obtain ⟨k', hadd⟩ : ∃ k', vmaAdd k t.vmas c (c + roundUp length) prot
          (vmaAnonymous + vmaShared) = (none, k') := vmaAdd_denied (.inr hroom)
      exact .inr ⟨.inr hroom, k', sysMmap_placed h hp hadd⟩
  · exact .inr ⟨.inl hnone, k, sysMmap_refused h hp⟩

/-- The fresh task asks for `length` bytes. -/
lemma freshState_args {length flags : Nat} (h : length ≠ 0 ∧ length < 2 ^ 64)
    (hflags : mapShared flags = false ∧ mapAnonymous flags = true) :
    ArgsOk freshState.2 length 3 flags (2 ^ 64 - 1) 0 :=
  ⟨by decide, by decide, hflags.1, hflags.2, rfl, rfl, h.1, h.2⟩

theorem mmap_takes_lowest_fresh : ∃ c : Nat, IsLeast {c | Fits [] 0x1001 c} c ∧
      (sysMmap freshState.1 freshState.2 0 0x1001 3 0x22 (2 ^ 64 - 1) 0).1 = c := by
  have hargs : ArgsOk freshState.2 0x1001 3 0x22 (2 ^ 64 - 1) 0 :=
    freshState_args (by decide) (by decide)
  have hset : InUserSpace freshState.2.vmas :=
    ⟨forall_mem_nil _, fun p g ⟨v, hv, _⟩ => absurd hv not_mem_nil⟩
  rcases (mmap_takes_lowest hargs (by decide) hset).2 with ⟨c, hleast, -, heq⟩ | ⟨-, k', heq⟩
  · exact ⟨c, hleast, congrArg Prod.fst heq⟩
  · have hfst : (sysMmap freshState.1 freshState.2 0 0x1001 3 0x22 (2 ^ 64 - 1) 0).1 = -1 :=
      congrArg Prod.fst heq
    exact absurd hfst (by decide +kernel)

/-! ## Fixed places -/

/-- The mappings of a task outside its regions: image, initial and grown stack, TLS page. -/
def Task.outside (cfg : MemCfg) (t : Task) : List Mapping :=
  imageMappings cfg t.regions ++ stackMapping t.ustackPhys :: t.grown.map grownMapping ++
    [tlsMapping t.tlsPhys]

/-- Some byte of `[start, end_)` is mapped by one of `ms`. -/
def Meets (ms : List Mapping) (start end_ : Nat) : Prop :=
  ∃ m ∈ ms, m.va < end_ ∧ start < m.va + m.pages * 4096 ∧ 0 < m.pages

section
variable (k : Kernel) (t : Task)

/-- No page of the rounded range is in use. -/
def Unused (addr length : Nat) : Prop :=
  RangeFree t.vmas addr (roundUp length) ∧
    ¬ Meets (t.outside k.pmm.cfg) addr (addr + roundUp length)

/-- The call fails, and nothing but the kernel heap and the errno word changes. -/
def Refused (r : Int × Task × Kernel) : Prop :=
  r.1 = -1 ∧ r.2.1 = t ∧ ∃ k1, HeapStep k k1 ∧ ErrnoStep t k1 r.2.2

/-- What a valid `MAP_FIXED` request should do: map exactly the rounded range when it is unused, a full
table and a refused allocation apart, and fail without effect when it is used. -/
def FixedExact (addr length prot flags fd offset : Nat) : Prop :=
  (Unused k t addr length → HasRoom k t.vmas → sysMmap k t addr length prot flags fd offset =
      ((addr : Int), { t with vmas := withRegion t.vmas addr (addr + roundUp length) prot },
        k.kmalloc.2)) ∧
    (¬ Unused k t addr length → Refused k t (sysMmap k t addr length prot flags fd offset))

end

lemma refused_of_fail {err : Nat} (h : sysMmap k t addr length prot flags fd offset = fail k' t err) :
    Refused k t (sysMmap k t addr length prot flags fd offset) := by
  rcases sysMmap_cases h with ⟨hr, ht, k1, hh, err, -, hk⟩ | ⟨start, end_, set, -, -, -, -, hr, -⟩
  · rw [h]
    exact ⟨hr, ht, k1, hh, .inr ⟨err, hk⟩⟩
  · exact absurd hr (by simp)

/-- Regions and the start are aligned, so the rounding meets no further region. -/
lemma rangeFree_roundUp_iff (hok : AllOk set) (hal : addr % 4096 = 0) :
    RangeFree set addr (roundUp length) ↔ vmaFindOverlap set addr (addr + length) = none := by
  simp only [RangeFree, vmaFindOverlap, find?_eq_none, decide_eq_true_eq, roundUp]
  refine forall₂_congr fun v hv => ?_
  have := (hok v hv).start_aligned
  omega

/-- **A `MAP_FIXED` request** does what it should when the failure is excused, when a region is in the
way, or when exactly one of the two defects would strike: the length is rounded for nobody, and what
lies outside the regions is not looked at. -/
theorem fixed_exact_iff (h : ArgsOk t length prot flags fd offset) (hflags : mapFixed flags = true)
    (hok : AllOk t.vmas) (hal : addr % 4096 = 0) (hwin : addr + roundUp length ≤ userVaTop) :
    FixedExact k t addr length prot flags fd offset ↔
      ¬ HasRoom k t.vmas ∨ ¬ RangeFree t.vmas addr (roundUp length) ∨
        (length % 4096 = 0 ↔ ¬ Meets (t.outside k.pmm.cfg) addr (addr + roundUp length)) := by
  have hpos := h.nonempty
  have hround : length ≤ roundUp length ∧ (length % 4096 = 0 → roundUp length = length) := by
    simp only [roundUp]
    omega
  have hsum : add64 addr length = addr + length := by
    simp only [userVaTop] at hwin
    rw [add64, Nat.mod_eq_of_lt (by omega)]
  have hrange : mmapRangeOk addr (addr + length) = true := decide_eq_true ⟨by omega, by omega⟩
  by_cases hfree : RangeFree t.vmas addr (roundUp length)
  swap
  · -- a region is in the way
    have hov := Option.ne_none_iff_isSome.mp (mt (rangeFree_roundUp_iff hok hal).mpr hfree)
    have hp : mmapPlace t.vmas addr length flags = .error eInval := by
      simp [mmapPlace, hflags, hal, hsum, hrange, hov]
    exact iff_of_true ⟨fun hu => absurd hu.1 hfree, fun _ => refused_of_fail (sysMmap_refused h hp)⟩
      (.inr (.inl hfree))
  have hp : mmapPlace t.vmas addr length flags = .ok (addr, addr + length) := by
    simp [mmapPlace, hflags, hal, hsum, hrange, (rangeFree_roundUp_iff hok hal).mp hfree]
  by_cases hadd : length % 4096 ≠ 0 ∨ ¬ HasRoom k t.vmas
  · -- `vma_add` refuses
    obtain ⟨k', hadd'⟩ : ∃ k', vmaAdd k t.vmas addr (addr + length) prot
        (vmaAnonymous + vmaShared) = (none, k') := vmaAdd_denied (hadd.imp_left (by omega))
    have hfail : sysMmap k t addr length prot flags fd offset = fail k' t eNoMem :=
      sysMmap_placed h hp hadd'
    have hsecond := refused_of_fail hfail
    by_cases hroom : HasRoom k t.vmas
    swap
    · exact iff_of_true ⟨fun _ hr => absurd hr hroom, fun _ => hsecond⟩ (.inl hroom)
    have hlen := hadd.resolve_right (not_not.mpr hroom)
    constructor
    · intro hex
      refine .inr (.inr (iff_of_false hlen fun hm => ?_))
      have := hsecond.1.symm.trans (congrArg Prod.fst (hex.1 ⟨hfree, hm⟩ hroom))
      simp at this
    · rintro (hr | hf | hiff)
      · exact absurd hroom hr
      · exact absurd hfree hf
      · exact ⟨fun hu _ => absurd (hiff.mpr hu.2) hlen, fun _ => hsecond⟩
  -- the region is added
  obtain ⟨hlen, hroom⟩ := not_or.mp hadd
  have hlen := not_not.mp hlen
  have hroom := not_not.mp hroom
  have hsame := hround.2 hlen
  have hadd' : vmaAdd k t.vmas addr (addr + length) prot (vmaAnonymous + vmaShared) = _ :=
    vmaAdd_mapped (by omega) hal (by omega) (hsame ▸ hwin)
      (by rwa [Nat.add_sub_cancel_left, ← hsame]) hroom
  have hmap := sysMmap_placed h hp hadd'
  constructor
  · intro hex
    refine .inr (.inr (iff_of_true hlen fun hm => ?_))
    have := (hex.2 fun hu => hu.2 hm).1.symm.trans (congrArg Prod.fst hmap)
    simp at this
  rintro (hr | hf | hiff)
  · exact absurd hroom hr
  · exact absurd hfree hf
  · rw [FixedExact, hsame]
    exact ⟨fun _ _ => hmap, fun hu => absurd ⟨hfree, hiff.mp hlen⟩ hu⟩

/-- The fresh task has nothing at or above its heap. -/
lemma freshState_unmet (end_ : Nat) :
    ¬ Meets (freshState.2.outside freshState.1.pmm.cfg) 0x20000000 end_ := by
  have hbelow : ∀ m ∈ freshState.2.outside freshState.1.pmm.cfg,
      m.va + m.pages * 4096 ≤ 0x20000000 := by
    decide
  rintro ⟨m, hm, -, hlt, -⟩
  exact absurd (hbelow m hm) (not_le.mpr hlt)

theorem fixed_exact_iff_fresh :
    FixedExact freshState.1 freshState.2 0x20000000 0x1000 3 0x32 (2 ^ 64 - 1) 0 :=
  have hargs : ArgsOk freshState.2 0x1000 3 0x32 (2 ^ 64 - 1) 0 :=
    freshState_args (by decide) (by decide)
  (fixed_exact_iff hargs (by decide) (forall_mem_nil _) (by decide)
    (by decide)).mpr (.inr (.inr (iff_of_true (by decide) (freshState_unmet _))))

/-- One page is mapped over the TLS page, and one byte in an unused place is refused. -/
theorem fixed_over_tls_and_unrounded :
    ¬ FixedExact freshState.1 freshState.2 userTlsBase 0x1000 3 0x32 (2 ^ 64 - 1) 0 ∧
      ¬ FixedExact freshState.1 freshState.2 0x20000000 1 3 0x32 (2 ^ 64 - 1) 0 := by
  refine ⟨fun hex => ?_, fun hex => ?_⟩
  · have hmeets : Meets (freshState.2.outside freshState.1.pmm.cfg) userTlsBase
        (userTlsBase + roundUp 0x1000) :=
      ⟨tlsMapping 0x4010c000, mem_append_right _ (mem_singleton.mpr rfl), by decide⟩
    exact absurd (hex.2 fun hu => hu.2 hmeets).1 (by decide +kernel)
  · have hmap := hex.1 ⟨forall_mem_nil _, freshState_unmet _⟩ ⟨by decide, by decide⟩
    exact absurd (congrArg Prod.fst hmap) (by decide +kernel)

end FermiOs
