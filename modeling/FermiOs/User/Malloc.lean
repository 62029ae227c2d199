import FermiOs.Library.Blocks

/-!
# The heap of the user library

`malloc`, `calloc`, `realloc` and `free` of `user/lib/malloc.c` on byte memory. All blocks are on one
doubly linked list in address order; they tile the arena between the first program break and the
current one. `malloc` takes the first free block that is large enough and splits it, or moves the
break. `block_release` marks a block free and merges it with the block behind and the block before.

The three places that edit the list (`split`, `unite` and the marking of a block) store into a few
neighbouring blocks and into the link back of the block behind them. `Edits` says so once, and
`Repr.edit` derives from it that the rest of the list is as before.
-/

namespace FermiOs
open Library List

/-- The static variables of `malloc.c`, memory, `errno`, and the break as the kernel has it. -/
structure UserHeap where
  mem : Bytes
  head : Nat
  tail : Nat
  brk : Nat
  ready : Bool
  bytes : Nat
  errno : Nat
  kernelBrk : Nat

variable {c : Block} {h h' : UserHeap} {hi lo nx : Nat}

namespace UserHeap

/-! ## Headers -/

/-- `MAGIC_ALLOC`. -/
def magicAlloc : Nat := 0xA110CED

/-- `MAGIC_FREE`. -/
def magicFree : Nat := 0xFEEDF1EE

section
variable (m : Bytes) (b : Nat)

/-- The fields of `block_t`. -/
def size : Nat := m.load b 8

@[inherit_doc size]
def next : Nat := m.load (b + 8) 8

@[inherit_doc size]
def prev : Nat := m.load (b + 16) 8

@[inherit_doc size]
def magic : Nat := m.load (b + 24) 4

@[inherit_doc size]
def isFree : Nat := m.load (b + 28) 4

/-- Stores to the fields. -/
def setSize (v : Nat) : Bytes := m.store b 8 v

@[inherit_doc setSize]
def setNext (v : Nat) : Bytes := m.store (b + 8) 8 v

@[inherit_doc setSize]
def setPrev (v : Nat) : Bytes := m.store (b + 16) 8 v

@[inherit_doc setSize]
def setMagic (v : Nat) : Bytes := m.store (b + 24) 4 v

@[inherit_doc setSize]
def setIsFree (v : Nat) : Bytes := m.store (b + 28) 4 v

end

/-- The header of a block between `before` and `n`. Magic and flag agree. -/
structure Header (m : Bytes) (b : Block) (before n : Nat) : Prop where
  size : size m b.addr = b.size
  next : next m b.addr = n
  prev : prev m b.addr = before
  magic : magic m b.addr = if b.free then magicFree else magicAlloc
  isFree : isFree m b.addr = if b.free then 1 else 0

variable {b : Block} {base before n need : Nat} {bs l r : List Block} {m : Bytes}

lemma Header.keep {m' : Bytes} (h : Header m b before n)
    (hm : ∀ x, b.addr ≤ x → x < b.addr + 32 → m' x = m x) : Header m' b before n := by
  have hload : ∀ o k, o + k ≤ 32 → m'.load (b.addr + o) k = m.load (b.addr + o) k := fun o k hk =>
    Bytes.load_congr fun x hlo hhi => hm x (by omega) (by omega)
  exact ⟨(hload 0 8 (by decide)).trans h.size, (hload 8 8 (by decide)).trans h.next,
    (hload 16 8 (by decide)).trans h.prev, (hload 24 4 (by decide)).trans h.magic,
    (hload 28 4 (by decide)).trans h.isFree⟩

/-- The fields, as loads. -/
lemma Header.loads (h : Header m b before n) :
    m.load b.addr 8 = b.size ∧ m.load (b.addr + 8) 8 = n ∧ m.load (b.addr + 16) 8 = before ∧
      m.load (b.addr + 24) 4 = (if b.free then magicFree else magicAlloc) ∧
      m.load (b.addr + 28) 4 = if b.free then 1 else 0 :=
  ⟨h.size, h.next, h.prev, h.magic, h.isFree⟩

/-- `sizeof(block_t)` is 32. -/
def header : HeaderKind where
  len := 32
  len_pos := HeaderKind.pos_of_32
  Shows := Header
  frame := fun hm h => h.keep hm

/-- The end of a block, as a literal. -/
lemma stop_eq (b : Block) : header.stop b = b.addr + 32 + b.size := rfl

/-! ## The code -/

/-- `ALIGN_UP`, in 64-bit arithmetic. -/
def alignUp (n : Nat) : Nat := (n + 15) % 2 ^ 64 / 16 * 16

/-- `PAYLOAD` is 32 behind the header, `BLOCK_OF` goes back. -/
def blockOf (p : Nat) : Nat := (p + (2 ^ 64 - 32)) % 2 ^ 64

/-- `ENOMEM`. -/
def enomem : Nat := 12

/-- `sys_brk(want)`: the kernel moves the break there, or leaves it. It returns the break. -/
def sysBrk (cur want : Nat) (granted : Bool) : Nat := if granted then want else cur

section
variable (h : UserHeap)

/-- `heap_grow` once the break is known. -/
def growBy (n : Nat) (granted : Bool) : Nat × UserHeap :=
  let want := (h.brk + n) % 2 ^ 64
  let got := sysBrk h.kernelBrk want granted
  if got ≠ want then (0, { h with kernelBrk := got })
  else (h.brk, { h with brk := got, kernelBrk := got, bytes := (h.bytes + n) % 2 ^ 64 })

/-- `heap_grow`. -/
def heapGrow (n : Nat) (granted : Bool) : Nat × UserHeap :=
  if h.ready then h.growBy n granted
  else
    -- `sys_brk(0)` reports the break
    let h := { h with brk := h.kernelBrk, ready := true }
    if h.brk = 0 then (0, h) else h.growBy n granted

/-- `heap_append`. -/
def heapAppend (b : Nat) : UserHeap :=
  let m := setPrev (setNext h.mem b 0) b h.tail
  if h.tail ≠ 0 then { h with mem := setNext m h.tail b, tail := b }
  else { h with mem := m, head := b, tail := b }

/-- The block behind, or the tail of the list if there is none, gets its link back. -/
def linkBack (nx v : Nat) : UserHeap :=
  if nx ≠ 0 then { h with mem := setPrev h.mem nx v } else { h with tail := v }

/-- Merging in `block_release`: `a` takes in the block `b` behind it, whose magic is cleared. -/
def unite (a b : Nat) : UserHeap :=
  let m := setSize h.mem a ((size h.mem a + (32 + size h.mem b)) % 2 ^ 64)
  let m := setNext m a (next m b)
  let h := { h with mem := m }.linkBack (next m b) a
  { h with mem := setMagic h.mem b 0 }

/-- `block_release`. -/
def blockRelease (b : Nat) : Nat × UserHeap :=
  let h := { h with mem := setMagic (setIsFree h.mem b 1) b magicFree }
  let n := next h.mem b
  let h := if n ≠ 0 ∧ isFree h.mem n ≠ 0 then h.unite b n else h
  let p := prev h.mem b
  if p ≠ 0 ∧ isFree h.mem p ≠ 0 then (p, h.unite p b) else (b, h)

/-- A block is cut behind the first `need` bytes of its payload; the rest is free. -/
def split (b need : Nat) : UserHeap :=
  let s := b + 32 + need
  let m := setSize h.mem s (size h.mem b - need - 32)
  let m := setMagic (setIsFree m s 1) s magicFree
  let m := setPrev (setNext m s (next m b)) s b
  let h := { h with mem := m }.linkBack (next m b) s
  { h with mem := setSize (setNext h.mem b s) b need }

/-- The search of `malloc`: the first block that is free and large enough, or null. -/
def firstFit (need : Nat) : Nat :=
  walk (next h.mem) (fun p => p == 0 || (isFree h.mem p != 0 && need ≤ size h.mem p)) h.brk h.head

/-- A block that was found is handed out. -/
def handOut (b need : Nat) : UserHeap :=
  let h := if (need + 32 + 16) % 2 ^ 64 ≤ size h.mem b then h.split b need else h
  let m := setMagic (setIsFree h.mem b 0) b magicAlloc
  { h with mem := m.fill (b + 32) (size m b) 0 }

/-- A new block at the end of the arena. -/
def addBlock (b need : Nat) : UserHeap :=
  let m := setMagic (setIsFree (setSize h.mem b need) b 0) b magicAlloc
  let h := { h with mem := m }.heapAppend b
  { h with mem := h.mem.fill (b + 32) need 0 }

end

/-- The payload size `malloc` looks for. -/
def needOf (n : Nat) : Nat := alignUp (if n = 0 then 1 else n)

section
variable (h : UserHeap)

/-- `malloc`, with the kernel's answer should the arena have to grow. -/
def malloc (n : Nat) (granted : Bool) : Nat × UserHeap :=
  let need := needOf n
  let b := h.firstFit need
  if b ≠ 0 then (b + 32, h.handOut b need)
  else
    let r := h.heapGrow ((need + 32) % 2 ^ 64) granted
    if r.1 = 0 then (0, { r.2 with errno := enomem })
    else (r.1 + 32, r.2.addBlock r.1 need)

/-- `free`. -/
def free (p : Nat) : UserHeap :=
  if p = 0 then h
  else if magic h.mem (blockOf p) ≠ magicAlloc then h
  else (h.blockRelease (blockOf p)).2

/-- `realloc`. -/
def realloc (p n : Nat) (granted : Bool) : Nat × UserHeap :=
  if p = 0 then h.malloc n granted
  else if n = 0 then (0, h.free p)
  else
    let b := blockOf p
    let keep := alignUp n
    if keep ≤ size h.mem b then
      if (keep + 32 + 16) % 2 ^ 64 ≤ size h.mem b then
        (p, ((h.split b keep).blockRelease (b + 32 + keep)).2)
      else (p, h)
    else
      let old := size h.mem b
      let r := h.malloc n granted
      if r.1 = 0 then (0, r.2)
      else (r.1, { r.2 with mem := r.2.mem.copy r.1 p (if old < n then old else n) }.free p)

/-- `calloc`. -/
def calloc (nmemb size : Nat) (granted : Bool) : Nat × UserHeap :=
  if nmemb ≠ 0 ∧ (2 ^ 64 - 1) / nmemb < size then (0, { h with errno := enomem })
  else h.malloc (nmemb * size % 2 ^ 64) granted

end

/-! ## States -/

/-- The blocks `bs` are in memory and tile the arena from `base` to the break. The break is known once
there are blocks. -/
structure Repr (h : UserHeap) (base : Nat) (bs : List Block) : Prop where
  chain : header.Chain h.mem 0 h.head bs 0 h.tail
  tiled : header.Tiled base bs h.kernelBrk
  base_ne : base ≠ 0
  aligned : base % 16 = 0
  sizes : ∀ b ∈ bs, b.size % 16 = 0
  below : h.kernelBrk < 2 ^ 64
  known : if h.ready then h.brk = h.kernelBrk else bs = []

section
variable (hr : h.Repr base bs)
include hr

lemma Repr.bounds (hb : b ∈ bs) : b.addr ≠ 0 ∧ b.addr + 32 + b.size < 2 ^ 64 := by
  have hin := hr.tiled.bounds hb
  have hbase := hr.base_ne
  have hbelow := hr.below
  have hstop := stop_eq b
  omega

/-- Every block is aligned. -/
lemma Repr.addr_aligned (hb : b ∈ bs) : b.addr % 16 = 0 := by
  have hall : ∀ (p q : Nat) (cs : List Block), p % 16 = 0 → header.Tiled p cs q →
      (∀ c ∈ cs, c.size % 16 = 0) → ∀ c ∈ cs, c.addr % 16 = 0 := by
    intro p q cs
    induction cs generalizing p with
    | nil =>
      intro _ _ _ c hc
      exact (not_mem_nil hc).elim
    | cons a cs ih =>
      rintro hp ⟨rfl, hrest⟩ hs c hc
      rcases mem_cons.mp hc with rfl | hc
      · exact hp
      · have ha := hs a mem_cons_self
        have hstop := stop_eq a
        exact ih _ (by omega) hrest (fun d hd => hs d (mem_cons_of_mem a hd)) c hc
  exact hall base _ bs hr.aligned hr.tiled hr.sizes b hb

/-- Stores that miss the headers. -/
lemma Repr.with_mem (hm : header.Chain m 0 h.head bs 0 h.tail) :
    ({ h with mem := m } : UserHeap).Repr base bs :=
  ⟨hm, hr.tiled, hr.base_ne, hr.aligned, hr.sizes, hr.below, hr.known⟩

/-- Stores into the payload of one block. -/
lemma Repr.with_payload (hb : b ∈ bs)
    (hm : ∀ x, x < b.addr + 32 ∨ b.addr + 32 + b.size ≤ x → m x = h.mem x) :
    ({ h with mem := m } : UserHeap).Repr base bs := by
  refine hr.with_mem (hr.chain.congr fun c hc x hlo hhi => hm x ?_)
  have hhi : x < c.addr + 32 := hhi
  by_cases hbc : b = c
  · subst hbc
    omega
  · have hfar : b.addr + 32 + b.size ≤ c.addr ∨ c.addr + 32 + c.size ≤ b.addr :=
      HeaderKind.stop_le_of_ne hr.tiled.apart hb hc hbc
    omega

end

/-! ## Editing the list -/

/-- What an edit of the list does: it stores into `[lo, hi)` and makes `nx`, or the end of the list,
link back to `v`. -/
structure Edits (h h' : UserHeap) (lo hi nx v : Nat) : Prop where
  mem : ∀ x, x < lo ∨ hi ≤ x → nx = 0 ∨ x < nx + 16 ∨ nx + 24 ≤ x → h'.mem x = h.mem x
  back : nx ≠ 0 → prev h'.mem nx = v
  same : h' = { h with mem := h'.mem, tail := if nx = 0 then v else h.tail }

/-- The blocks behind the edited ones. -/
lemma Edits.behind {v v0 q : Nat} (he : Edits h h' lo hi nx v) (hlo : lo ≤ hi)
    (ht : header.Tiled hi r q) (hpos : ∀ c ∈ r, c.addr ≠ 0)
    (hc : header.Chain h.mem v0 nx r 0 h.tail) :
    header.Chain h'.mem v nx r 0 h'.tail := by
  cases r with
  | nil =>
    obtain ⟨rfl, -⟩ := hc
    rw [he.same]
    exact ⟨rfl, rfl⟩
  | cons c r =>
    obtain ⟨rfl, n, hshow, hrest⟩ := hc
    obtain ⟨rfl, htr⟩ := ht
    have hne := hpos c mem_cons_self
    have htail : h'.tail = h.tail := by
      rw [he.same]
      exact if_neg hne
    have hm : ∀ x, c.addr ≤ x → x < c.addr + 16 ∨ c.addr + 24 ≤ x → h'.mem x = h.mem x :=
      fun x hx hout => he.mem x (.inr hx) (.inr hout)
    have hload : ∀ o k, o + k ≤ 16 ∨ 24 ≤ o → h'.mem.load (c.addr + o) k = h.mem.load (c.addr + o) k :=
      fun o k hk => Bytes.load_congr fun x hlo hhi => hm x (by omega) (by omega)
    refine ⟨rfl, n, ⟨(hload 0 8 (by decide)).trans hshow.size, (hload 8 8 (by decide)).trans hshow.next,
      he.back hne, (hload 24 4 (by decide)).trans hshow.magic,
      (hload 28 4 (by decide)).trans hshow.isFree⟩, ?_⟩
    rw [htail]
    refine hrest.congr fun d hd x hlo hhi => ?_
    have hd := (htr.bounds hd).1
    have hstop := stop_eq c
    exact hm x (by omega) (by omega)

/-- **An edit of some blocks** leaves the list around them as it was. -/
lemma Repr.edit (mid mid' : List Block) (hr : h.Repr base (l ++ (mid ++ r))) (hne : mid ≠ [])
    (hmid : header.Tiled lo mid hi) (hmid' : header.Tiled lo mid' hi)
    (hsizes : ∀ b ∈ mid', b.size % 16 = 0)
    (he : ∀ before nx last, header.Chain h.mem before lo mid nx last → nx = 0 ∨ nx = hi →
      (if nx = 0 then h.tail else prev h.mem nx) = last →
      ∃ v, Edits h h' lo hi nx v ∧ header.Chain h'.mem before lo mid' nx v) :
    h'.Repr base (l ++ (mid' ++ r)) := by
  obtain ⟨p, t0, hl, hrest⟩ := HeaderKind.chain_append.mp hr.chain
  obtain ⟨nx, v0, hm, hrr⟩ := HeaderKind.chain_append.mp hrest
  obtain ⟨lo', htl, hrest'⟩ := HeaderKind.tiled_append.mp hr.tiled
  obtain ⟨hi', htm, htr⟩ := HeaderKind.tiled_append.mp hrest'
  -- the places are where `mid` says they are
  obtain ⟨rfl, rfl, rfl⟩ : lo = p ∧ lo = lo' ∧ hi = hi' := by
    have h1 := hmid.total
    have h2 := htm.total
    cases mid with
    | nil => exact absurd rfl hne
    | cons a as =>
      have e1 : p = a.addr := hm.1
      have e2 : lo' = a.addr := htm.1
      have e3 : lo = a.addr := hmid.1
      omega
  have hpos : ∀ c ∈ l ++ (mid ++ r), c.addr ≠ 0 := fun c hc => (hr.bounds hc).1
  have hnx : (nx = 0 ∨ nx = hi) ∧ (if nx = 0 then h.tail else prev h.mem nx) = v0 := by
    cases r with
    | nil => exact ⟨.inl hrr.1, (if_pos hrr.1).trans hrr.2.symm⟩
    | cons c r =>
      obtain ⟨rfl, n, hc, -⟩ := hrr
      have hne : c.addr ≠ 0 := hpos c (by simp)
      exact ⟨.inr htr.1.symm, (if_neg hne).trans hc.prev⟩
  obtain ⟨v, hedit, hnew⟩ := he t0 nx v0 hm hnx.1 hnx.2
  have hlohi : lo ≤ hi := by
    have := hmid.total
    omega
  have hsame := hedit.same
  have hready : h'.ready = h.ready := by rw [hsame]
  have hbrk : h'.brk = h.brk := by rw [hsame]
  have hkernel : h'.kernelBrk = h.kernelBrk := by rw [hsame]
  have hhead : h'.head = h.head := by rw [hsame]
  refine ⟨?_, ?_, hr.base_ne, hr.aligned, ?_, hkernel ▸ hr.below, ?_⟩
  · rw [hhead]
    refine HeaderKind.chain_append.mpr ⟨lo, t0, ?_, HeaderKind.chain_append.mpr ⟨nx, v, hnew, ?_⟩⟩
    · refine hl.congr fun c hc x hxlo hxhi => ?_
      have hcb := (htl.bounds hc).2
      have hstop := stop_eq c
      have hxhi : x < c.addr + 32 := hxhi
      exact hedit.mem x (by omega) (by omega)
    · exact hedit.behind hlohi htr
        (fun c hc => hpos c (mem_append_right l (mem_append_right mid hc))) hrr
  · rw [hkernel]
    exact HeaderKind.tiled_append.mpr ⟨lo, htl, HeaderKind.tiled_append.mpr ⟨hi, hmid', htr⟩⟩
  · have hold := hr.sizes
    simp only [forall_mem_append] at hold ⊢
    exact ⟨hold.1, hsizes, hold.2.2⟩
  have hknown := hr.known
  rw [hready]
  split_ifs with hyes
  · rw [hbrk, hkernel]
    rwa [if_pos hyes] at hknown
  · rw [if_neg hyes] at hknown
    exact absurd (append_eq_nil_iff.mp (append_eq_nil_iff.mp hknown).2).1 hne

section
variable {v x a k : Nat}

lemma linkBack_outside (hx : nx = 0 ∨ x < nx + 16 ∨ nx + 24 ≤ x) :
    (h.linkBack nx v).mem x = h.mem x := by
  unfold linkBack
  split
  · exact Bytes.store_outside (by omega)
  · rfl

lemma load_linkBack (ha : nx = 0 ∨ a + k ≤ nx + 16 ∨ nx + 24 ≤ a) :
    (h.linkBack nx v).mem.load a k = h.mem.load a k :=
  Bytes.load_congr fun x hlo hhi => linkBack_outside (by omega)

lemma prev_linkBack (hnx : nx ≠ 0) (hv : v < 2 ^ 64) : prev (h.linkBack nx v).mem nx = v := by
  rw [linkBack, if_pos hnx]
  exact Bytes.load_store _ _ _ hv

lemma linkBack_same : h.linkBack nx v =
    { h with mem := (h.linkBack nx v).mem, tail := if nx = 0 then v else h.tail } := by
  by_cases hne : nx = 0
  · rw [linkBack, if_neg (not_not.mpr hne), if_pos hne]
  · rw [linkBack, if_pos hne, if_neg hne]

end

lemma magicAlloc_lt : magicAlloc < 256 ^ 4 := by decide

lemma magicFree_lt : magicFree < 256 ^ 4 := by decide

/-! ## Splitting -/

/-- The two parts of a block that is split. -/
def parts (b : Block) (need : Nat) : List Block :=
  [⟨b.addr, need, b.free⟩, ⟨b.addr + 32 + need, b.size - need - 32, true⟩]

lemma split_edits (hb : Header h.mem b before nx) (hnx : nx = 0 ∨ nx = header.stop b)
    (hneed : need + 48 ≤ b.size) (hbelow : b.addr + 32 + b.size < 2 ^ 64) :
    Edits h (h.split b.addr need) b.addr (header.stop b) nx (b.addr + 32 + need) ∧
      header.Chain (h.split b.addr need).mem before b.addr (parts b need) nx (b.addr + 32 + need) := by
  rw [stop_eq] at hnx ⊢
  obtain ⟨-, hnext, hprev, hmagic, hflag⟩ := hb.loads
  have hmf := magicFree_lt
  -- the new header is written first; it does not touch the link of `b`
  have hlink : next (setMagic (setIsFree (setSize h.mem (b.addr + 32 + need)
      (b.size - need - 32)) (b.addr + 32 + need) 1) (b.addr + 32 + need) magicFree) b.addr = nx := by
    simp only [next, setMagic, setIsFree, setSize]
    simp (disch := omega) only [Bytes.load_store_of_apart, hnext]
  have hlink' : ∀ m : Bytes, next (setPrev (setNext m (b.addr + 32 + need) nx) (b.addr + 32 + need)
      b.addr) b.addr = next m b.addr := by
    intro m
    simp only [next, setPrev, setNext]
    simp (disch := omega) only [Bytes.load_store_of_apart]
  simp only [split, hb.size, hlink, hlink', parts]
  refine ⟨⟨fun x hx hout => ?_, fun hne => ?_, ?_⟩, rfl, b.addr + 32 + need, ⟨?_, ?_, ?_, ?_, ?_⟩,
    rfl, nx, ⟨?_, ?_, ?_, ?_, ?_⟩, rfl, rfl⟩
  · simp only [setPrev, setNext, setMagic, setIsFree, setSize]
    simp (disch := omega) only [Bytes.store_outside, linkBack_outside]
  · rw [prev, setSize, setNext, Bytes.load_store_of_apart (by omega),
      Bytes.load_store_of_apart (by omega)]
    exact prev_linkBack hne (by omega)
  · rw [linkBack_same]
  all_goals
    simp only [size, next, prev, magic, isFree, setPrev, setNext, setMagic, setIsFree, setSize]
    simp (disch := omega) only [Bytes.load_store_of_apart, load_linkBack, Bytes.load_store, hprev,
      hmagic, hflag, if_true]

lemma parts_tiled (hneed : need + 48 ≤ b.size) :
    header.Tiled b.addr (parts b need) (header.stop b) := by
  refine ⟨rfl, rfl, ?_⟩
  show b.addr + 32 + need + 32 + (b.size - need - 32) = b.addr + 32 + b.size
  omega

/-- **A block is split.** -/
lemma Repr.split (hr : h.Repr base (l ++ b :: r)) (hneed : need + 48 ≤ b.size) (hal : need % 16 = 0) :
    (h.split b.addr need).Repr base (l ++ (parts b need ++ r)) := by
  have hmem : b ∈ l ++ b :: r := mem_append_right l mem_cons_self
  have hsize := hr.sizes b hmem
  refine Repr.edit [b] (parts b need) hr (cons_ne_nil b []) ⟨rfl, rfl⟩ (parts_tiled hneed) ?_ ?_
  · intro c hc
    rcases mem_cons.mp hc with rfl | hc
    · exact hal
    · obtain rfl := mem_singleton.mp hc
      show (b.size - need - 32) % 16 = 0
      omega
  · rintro before nx last ⟨-, n, hb, rfl, -⟩ hnx -
    exact ⟨_, split_edits hb hnx hneed (hr.bounds hmem).2⟩

/-! ## Merging -/

/-- A block that has taken in the one behind it. -/
def joined (a b : Block) : Block := ⟨a.addr, a.size + (32 + b.size), a.free⟩

lemma unite_edits {a : Block} (ha : Header h.mem a before b.addr) (hb : Header h.mem b a.addr nx)
    (hadj : header.stop a = b.addr) (hnx : nx = 0 ∨ nx = header.stop b)
    (hbelow : b.addr + 32 + b.size < 2 ^ 64) :
    Edits h (h.unite a.addr b.addr) a.addr (header.stop b) nx a.addr ∧
      header.Chain (h.unite a.addr b.addr).mem before a.addr [joined a b] nx a.addr := by
  rw [stop_eq] at hadj hnx ⊢
  obtain ⟨-, hbnext, -⟩ := hb.loads
  obtain ⟨-, -, hprev, hmagic, hflag⟩ := ha.loads
  have hsum : (a.size + (32 + b.size)) % 2 ^ 64 = a.size + (32 + b.size) := Nat.mod_eq_of_lt (by omega)
  have hlink : next (setSize h.mem a.addr (a.size + (32 + b.size))) b.addr = nx := by
    simp only [next, setSize]
    simp (disch := omega) only [Bytes.load_store_of_apart, hbnext]
  have hlink' : ∀ m : Bytes, next (setNext m a.addr nx) b.addr = next m b.addr := by
    intro m
    simp only [next, setNext]
    simp (disch := omega) only [Bytes.load_store_of_apart]
  simp only [unite, ha.size, hb.size, hsum, hlink, hlink', joined]
  refine ⟨⟨fun x hx hout => ?_, fun hne => ?_, ?_⟩, rfl, nx, ⟨?_, ?_, ?_, ?_, ?_⟩, rfl, rfl⟩
  · simp only [setMagic, setNext, setSize]
    simp (disch := omega) only [Bytes.store_outside, linkBack_outside]
  · rw [prev, setMagic, Bytes.load_store_of_apart (by omega)]
    exact prev_linkBack hne (by omega)
  · rw [linkBack_same]
  all_goals
    simp only [size, next, prev, magic, isFree, setMagic, setNext, setSize]
    simp (disch := omega) only [Bytes.load_store_of_apart, load_linkBack, Bytes.load_store, hprev,
      hmagic, hflag]

/-- **Two blocks are merged.** -/
lemma Repr.unite {a : Block} (hr : h.Repr base (l ++ a :: b :: r)) :
    (h.unite a.addr b.addr).Repr base (l ++ joined a b :: r) := by
  have ham : a ∈ l ++ a :: b :: r := mem_append_right l mem_cons_self
  have hbm : b ∈ l ++ a :: b :: r := mem_append_right l (mem_cons_of_mem a mem_cons_self)
  have hadj : header.stop a = b.addr := by
    obtain ⟨p, -, -, hrest⟩ := HeaderKind.tiled_append.mp hr.tiled
    exact hrest.1
  refine Repr.edit [a, b] [joined a b] hr (cons_ne_nil a [b])
    ⟨rfl, hadj, rfl⟩ ⟨rfl, ?_⟩ ?_ ?_
  · rw [stop_eq] at hadj
    show a.addr + 32 + (a.size + (32 + b.size)) = b.addr + 32 + b.size
    omega
  · intro c hc
    obtain rfl := mem_singleton.mp hc
    have h1 := hr.sizes a ham
    have h2 := hr.sizes b hbm
    show (a.size + (32 + b.size)) % 16 = 0
    omega
  · rintro before nx last ⟨-, n, ha, rfl, n', hb, rfl, -⟩ hnx -
    exact ⟨_, unite_edits ha hb hadj hnx (hr.bounds hbm).2⟩

/-! ## Marking -/

/-- The flag and the magic number that goes with it. -/
def flagged (m : Bytes) (b : Nat) (f : Bool) : Bytes :=
  setMagic (setIsFree m b (if f then 1 else 0)) b (if f then magicFree else magicAlloc)

lemma flagged_outside {b x : Nat} {f : Bool} (hx : x < b ∨ b + 32 ≤ x) : flagged m b f x = m x := by
  rw [flagged, setMagic, setIsFree, Bytes.store_outside (by omega), Bytes.store_outside (by omega)]

lemma header_flagged (h : Header m b before n) (f : Bool) :
    Header (flagged m b.addr f) { b with free := f } before n := by
  obtain ⟨hsize, hnext, hprev, -⟩ := h.loads
  have hmagic : (if f then magicFree else magicAlloc) < 256 ^ 4 := by cases f <;> decide
  have hflag : (if f then 1 else 0) < 256 ^ 4 := by cases f <;> decide
  constructor <;> simp only [size, next, prev, magic, isFree, flagged, setMagic, setIsFree] <;>
    simp (disch := first | assumption | omega) only [Bytes.load_store_of_apart, Bytes.load_store,
      hsize, hnext, hprev]

/-- **A block is marked.** -/
lemma Repr.flagged (hr : h.Repr base (l ++ b :: r)) (f : Bool) :
    ({ h with mem := flagged h.mem b.addr f } : UserHeap).Repr base
      (l ++ { b with free := f } :: r) := by
  refine Repr.edit [b] [{ b with free := f }] hr (cons_ne_nil b []) ⟨rfl, rfl⟩ ⟨rfl, rfl⟩ ?_ ?_
  · intro c hc
    obtain rfl := mem_singleton.mp hc
    exact hr.sizes b (mem_append_right l mem_cons_self)
  -- the block behind keeps its link back
  rintro before nx last ⟨-, n, hb, rfl, rfl⟩ hnx hback
  rw [stop_eq] at hnx
  refine ⟨b.addr, ⟨fun x hx _ => ?_, fun hne => ?_, ?_⟩, rfl, n, header_flagged hb f, rfl, rfl⟩
  · rw [stop_eq] at hx
    exact flagged_outside (by omega)
  · rw [if_neg hne] at hback
    exact (Bytes.load_congr fun x hlo hhi => flagged_outside (by omega)).trans hback
  · split_ifs at hback ⊢
    · rw [← hback]
    · rfl

/-! ## Releasing -/

/-- No two neighbours are both free. -/
def Tidy (bs : List Block) : Prop := (bs.map Block.free).IsChain fun f g => f = false ∨ g = false

lemma tidy_split : Tidy (l ++ b :: r) ↔ Tidy (l ++ [b]) ∧ Tidy (b :: r) := by
  simp only [Tidy, map_append, map_cons, map_nil]
  exact isChain_split

/-- Only the flags matter. -/
lemma Tidy.swap (h : Tidy (l ++ b :: r)) (hc : c.free = b.free) : Tidy (l ++ c :: r) := by
  simp only [Tidy, map_append, map_cons, hc] at h ⊢
  exact h

lemma Tidy.tail (h : Tidy (b :: r)) : Tidy r := List.IsChain.tail h

lemma Tidy.left (h : Tidy (l ++ r)) : Tidy l := by
  simp only [Tidy, map_append] at h ⊢
  exact (isChain_append.mp h).1

lemma Tidy.used_cons (h : Tidy r) (hb : b.free = false) : Tidy (b :: r) := by
  refine isChain_cons.mpr ⟨fun _ _ => .inl hb, h⟩

lemma Tidy.append_used (h : Tidy l) (hb : b.free = false) : Tidy (l ++ [b]) := by
  simp only [Tidy, map_append, map_cons, map_nil, hb]
  refine isChain_append.mpr ⟨h, isChain_singleton _, fun _ _ g hg => .inr ?_⟩
  exact (Option.some.inj hg).symm

lemma Tidy.cons_used (h : Tidy (c :: r)) (hc : c.free = false) : Tidy (b :: c :: r) :=
  isChain_cons_cons.mpr ⟨.inr hc, h⟩

/-- The flag of a block, as the code reads it. -/
lemma Header.isFree_iff (h : Header m b before n) : UserHeap.isFree m b.addr ≠ 0 ↔ b.free = true := by
  rw [h.isFree]
  cases b.free with
  | true => exact iff_of_true (by decide) rfl
  | false => exact iff_of_false (by decide) (by decide)

variable (hr : h.Repr base (l ++ b :: r))
include hr

/-- **Merging with the block behind.** -/
lemma Repr.merge_behind (ht : Tidy r) (hfree : b.free = true) :
    ∃ c r', c.addr = b.addr ∧ c.free = true ∧ Tidy (c :: r') ∧
      (∀ d : Block, d.free = false → (d ∈ r' ↔ d ∈ r)) ∧
      (if next h.mem b.addr ≠ 0 ∧ isFree h.mem (next h.mem b.addr) ≠ 0 then
        h.unite b.addr (next h.mem b.addr) else h).Repr base (l ++ c :: r') := by
  obtain ⟨before, n, -, hb, hrr⟩ := hr.chain.at_block
  rw [hb.next]
  cases r with
  | nil =>
    obtain ⟨rfl, -⟩ := hrr
    exact ⟨b, [], rfl, hfree, isChain_singleton _, fun _ _ => Iff.rfl, hr⟩
  | cons d r =>
    obtain ⟨rfl, n', hd, -⟩ := hrr
    have hne : d.addr ≠ 0 := (hr.bounds (mem_append_right l (mem_cons_of_mem b mem_cons_self))).1
    cases hdf : d.free with
    | true =>
      rw [if_pos ⟨hne, hd.isFree_iff.mpr hdf⟩]
      refine ⟨joined b d, r, rfl, hfree, ?_, fun e he => ?_, hr.unite⟩
      · exact Tidy.swap (l := []) ht (hfree.trans hdf.symm)
      have hned := Block.ne_of_free he hdf
      rw [mem_cons]
      tauto
    | false =>
      have hno : ¬ isFree h.mem d.addr ≠ 0 := by
        rw [hd.isFree_iff, hdf]
        decide
      rw [if_neg fun hc => hno hc.2]
      exact ⟨b, d :: r, rfl, hfree, ht.cons_used hdf, fun _ _ => Iff.rfl, hr⟩

/-- **Merging with the block before.** -/
lemma Repr.merge_before (hl : Tidy l) (ht : Tidy (b :: r)) (hfree : b.free = true) :
    ∃ bs, Tidy bs ∧ (∀ d : Block, d.free = false → (d ∈ bs ↔ d ∈ l ++ r)) ∧
      (if prev h.mem b.addr ≠ 0 ∧ isFree h.mem (prev h.mem b.addr) ≠ 0 then
        (prev h.mem b.addr, h.unite (prev h.mem b.addr) b.addr) else (b.addr, h)).2.Repr base bs := by
  have hskip : ∀ d : Block, d.free = false → (d ∈ l ++ b :: r ↔ d ∈ l ++ r) := by
    intro d hd
    have hned := Block.ne_of_free hd hfree
    simp only [mem_append, mem_cons]
    tauto
  obtain ⟨before, n, hll, hb, -⟩ := hr.chain.at_block
  rw [hb.prev]
  rcases eq_nil_or_concat l with rfl | ⟨l, a, rfl⟩
  · obtain ⟨-, rfl⟩ := hll
    exact ⟨b :: r, ht, hskip, hr⟩
  rw [concat_eq_append] at hr hll hl hskip ⊢
  obtain rfl := hll.last_eq
  obtain ⟨before', n', -, ha, -⟩ := hll.at_block
  rw [append_assoc] at hr
  have hne : a.addr ≠ 0 := (hr.bounds (mem_append_right l mem_cons_self)).1
  cases haf : a.free with
  | true =>
    rw [if_pos ⟨hne, ha.isFree_iff.mpr haf⟩]
    refine ⟨l ++ joined a b :: r, tidy_split.mpr ⟨?_, ?_⟩, fun d hd => ?_, hr.unite⟩
    · exact Tidy.swap hl rfl
    · exact Tidy.swap (l := []) ht (haf.trans hfree.symm)
    have hned : d ≠ joined a b := Block.ne_of_free hd haf
    have hned' := Block.ne_of_free hd haf
    simp only [mem_append, mem_cons, not_mem_nil, or_false]
    tauto
  | false =>
    have hno : ¬ isFree h.mem a.addr ≠ 0 := by
      rw [ha.isFree_iff, haf]
      decide
    rw [if_neg fun hc => hno hc.2]
    refine ⟨l ++ [a] ++ b :: r, ?_, hskip, ?_⟩
    · rw [append_assoc]
      exact tidy_split.mpr ⟨hl, ht.used_cons haf⟩
    · rw [append_assoc]
      exact hr

/-- **A block is released**: it goes out of use, and no two neighbours are free. -/
lemma Repr.release (hl : Tidy l) (ht : Tidy r) :
    ∃ bs, (h.blockRelease b.addr).2.Repr base bs ∧ Tidy bs ∧
      ∀ d : Block, d.free = false → (d ∈ bs ↔ d ∈ l ++ r) := by
  obtain ⟨c, r', haddr, hfree, htc, hlive, hr'⟩ := (hr.flagged true).merge_behind ht rfl
  obtain ⟨bs, htidy, hlive', hr''⟩ := hr'.merge_before hl htc hfree
  rw [haddr] at hr''
  refine ⟨bs, hr'', htidy, fun d hd => (hlive' d hd).trans ?_⟩
  rw [mem_append, mem_append, hlive d hd]

end UserHeap
end FermiOs
