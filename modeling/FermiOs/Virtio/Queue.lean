import FermiOs.Library.Run

/-!
# Split virtqueues

`pci/virtio/virtqueue.c`: a descriptor table, a ring of chains offered to the device and a ring of
chains the device gives back. The driver never looks for a free descriptor: `free_head` moves around
the table and the descriptor it names is taken to be free. Ring indices are 16-bit counters that are
reduced modulo the queue size when a slot is accessed.
-/

namespace FermiOs.Virtio
open List Function

/-- `VIRTQ_MAX_SIZE`. -/
def virtqMaxSize : Nat := 16

/-- `VIRTQ_DESC_F_NEXT` and `VIRTQ_DESC_F_WRITE`. -/
def descNext : Nat := 1

@[inherit_doc descNext]
def descWrite : Nat := 2

/-- `struct virtq_desc`. -/
structure Desc where
  addr : Nat
  len : Nat
  flags : Nat
  next : Nat
  deriving DecidableEq

/-- `struct virtq_used_elem`. -/
structure UsedElem where
  id : Nat
  len : Nat
  deriving DecidableEq

/-- `struct virtqueue` with the memory it points at. -/
structure Virtqueue where
  size : Nat
  freeHead : Nat
  lastUsed : Nat
  desc : Nat → Desc
  availIdx : Nat
  availRing : Nat → Nat
  usedIdx : Nat
  usedRing : Nat → UsedElem

/-- `struct virtq_seg`. -/
structure Seg where
  pa : Nat
  len : Nat
  flags : Nat

/-- `virtqueue_setup`, for a device that offers `maxSize` descriptors. -/
def virtqueueSetup (maxSize : Nat) : Option Virtqueue :=
  if maxSize = 0 then none
  else some
    { size := min virtqMaxSize maxSize, freeHead := 0, lastUsed := 0, desc := fun _ => ⟨0, 0, 0, 0⟩,
      availIdx := 0, availRing := fun _ => 0, usedIdx := 0, usedRing := fun _ => ⟨0, 0⟩ }

/-- The available ring gets one more entry. -/
def Virtqueue.publish (vq : Virtqueue) (head : Nat) : Virtqueue :=
  { vq with
    availRing := Function.update vq.availRing (vq.availIdx % vq.size) head
    availIdx := (vq.availIdx + 1) % 2 ^ 16 }

/-- `virtqueue_submit`. -/
def virtqueueSubmit (vq : Virtqueue) (pa len flags : Nat) : Virtqueue :=
  let idx := vq.freeHead
  Virtqueue.publish
    { vq with
      freeHead := (idx + 1) % vq.size
      desc := Function.update vq.desc idx ⟨pa, len, flags, 0⟩ } idx

/-- The loop of `virtqueue_submit_chain`, from segment `i` on. -/
def writeChain (size head : Nat) : Nat → List Seg → (Nat → Desc) → Nat → Desc
  | _, [], desc => desc
  | i, [s], desc => Function.update desc ((head + i) % size) ⟨s.pa, s.len, s.flags, 0⟩
  | i, s :: s' :: segs, desc =>
    writeChain size head (i + 1) (s' :: segs) (Function.update desc ((head + i) % size)
      ⟨s.pa, s.len, s.flags ||| descNext, (head + i + 1) % size⟩)

/-- `virtqueue_submit_chain`. -/
def virtqueueSubmitChain (vq : Virtqueue) (segs : List Seg) : Virtqueue :=
  let head := vq.freeHead
  Virtqueue.publish
    { vq with
      freeHead := (head + segs.length) % vq.size
      desc := writeChain vq.size head 0 segs vq.desc } head

/-- What the device does when it gives a chain back. -/
def Virtqueue.giveBack (vq : Virtqueue) (e : UsedElem) : Virtqueue :=
  { vq with
    usedRing := Function.update vq.usedRing (vq.usedIdx % vq.size) e
    usedIdx := (vq.usedIdx + 1) % 2 ^ 16 }

/-- The chain that starts at a descriptor, as the device follows it. -/
def chainFrom (desc : Nat → Desc) : Nat → Nat → List Desc
  | 0, _ => []
  | n + 1, head =>
    let d := desc head
    if d.flags.testBit 0 then d :: chainFrom desc n d.next else [d]

/-! ## What the device finds -/

/-- A buffer of a request: where it is, its length, and whether the device is to write it. -/
structure Buffer where
  pa : Nat
  len : Nat
  write : Bool
  deriving DecidableEq

/-- The segment the drivers pass for a buffer. -/
def Buffer.seg (b : Buffer) : Seg := ⟨b.pa, b.len, if b.write then descWrite else 0⟩

/-- What a descriptor says to the device. -/
def Desc.buffer (d : Desc) : Buffer := ⟨d.addr, d.len, d.flags.testBit 1⟩

lemma Buffer.seg_bits (b : Buffer) : b.seg.flags.testBit 0 = false ∧
    b.seg.flags.testBit 1 = b.write ∧ (b.seg.flags ||| descNext).testBit 0 = true ∧
    (b.seg.flags ||| descNext).testBit 1 = b.write := by
  rw [Buffer.seg]
  dsimp only
  cases b.write <;> decide

lemma mod_ne_of_near {size u v : Nat} (huv : u < v) (hlt : v < u + size) : u % size ≠ v % size := by
  intro h
  have hzero := Nat.sub_mod_eq_zero_of_mod_eq h.symm
  rw [Nat.mod_eq_of_lt (by omega)] at hzero
  omega

section
variable (size head : Nat)

lemma writeChain_of_ne {x : Nat} : ∀ (segs : List Seg) (i : Nat) (desc : Nat → Desc),
    (∀ j, i ≤ j → j < i + segs.length → x ≠ (head + j) % size) →
    writeChain size head i segs desc x = desc x
  | [], _, _, _ => rfl
  | [_], i, _, h => update_of_ne (h i le_rfl (Nat.lt_succ_self i)) _ _
  | _ :: s' :: segs, i, _, h => by
    have hrest : ∀ j, i + 1 ≤ j → j < i + 1 + (s' :: segs).length → x ≠ (head + j) % size :=
      fun j hj hlt => h j (by omega) (by simp only [length_cons] at hlt ⊢; omega)
    rw [writeChain, writeChain_of_ne (s' :: segs) (i + 1) _ hrest]
    exact update_of_ne (h i le_rfl (by simp)) _ _

/-- The device that starts at the first descriptor finds the buffers in turn and then stops, however
long it would go on: the places of a chain that fits into the table are different. -/
lemma chainFrom_writeChain : ∀ (bs : List Buffer) (i n : Nat) (desc : Nat → Desc), bs ≠ [] →
    bs.length ≤ size → bs.length ≤ n →
    (chainFrom (writeChain size head i (bs.map Buffer.seg) desc) n ((head + i) % size)).map
      Desc.buffer = bs := by
  intro bs
  induction bs with
  | nil => exact fun _ _ _ h => absurd rfl h
  | cons b bs ih =>
    intro i n desc _ hsize hn
    obtain ⟨hend, hwrite, hnext, hwrite'⟩ := b.seg_bits
    obtain ⟨n, rfl⟩ : ∃ m, n = m + 1 := ⟨n - 1, by simp only [length_cons] at hn; omega⟩
    cases bs with
    | nil =>
      simp only [map_cons, map_nil, writeChain, chainFrom, update_self, hend, Bool.false_eq_true,
        if_false, Desc.buffer, hwrite]
      rfl
    | cons b' bs =>
      simp only [length_cons] at hsize hn
      -- the rest of the chain is written elsewhere
      have hfirst : writeChain size head i ((b :: b' :: bs).map Buffer.seg) desc ((head + i) % size)
          = ⟨b.pa, b.len, b.seg.flags ||| descNext, (head + i + 1) % size⟩ := by
        simp only [map_cons, writeChain]
        rw [← map_cons, writeChain_of_ne, update_self]
        · rfl
        intro j hj hlt
        rw [length_map, length_cons] at hlt
        exact mod_ne_of_near (by omega) (by omega)
      simp only [chainFrom, hfirst, hnext, if_true]
      rw [map_cons, Desc.buffer, hwrite']
      refine congrArg (cons b) (ih (i + 1) n _ (cons_ne_nil b' bs) ?_ ?_) <;>
        rw [length_cons] <;> omega

end

/-- A call of `virtqueue_submit` or of `virtqueue_submit_chain`. -/
inductive Submission
  | single (b : Buffer)
  | chain (bs : List Buffer)

/-- The buffers of a request. -/
def Submission.buffers : Submission → List Buffer
  | .single b => [b]
  | .chain bs => bs

namespace Virtqueue

/-- The driver puts a request on the queue. -/
def submit (vq : Virtqueue) : Submission → Virtqueue
  | .single b => virtqueueSubmit vq b.pa b.len b.seg.flags
  | .chain bs => virtqueueSubmitChain vq (bs.map Buffer.seg)

/-- A request from its submission until `virtqueue_poll` has seen the device give it back. -/
def exchange (vq : Virtqueue) (r : Submission × UsedElem) : Virtqueue :=
  { (vq.submit r.1).giveBack r.2 with lastUsed := (vq.lastUsed + 1) % 2 ^ 16 }

/-- The buffers of entry `k` of the available ring, for a device that follows at most `n` links. -/
def follow (vq : Virtqueue) (n k : Nat) : List Buffer :=
  (chainFrom vq.desc n (vq.availRing (k % 2 ^ 16 % vq.size))).map Desc.buffer

/-- A single buffer goes onto the queue as a chain of one. -/
lemma submit_eq {vq : Virtqueue} (h : vq.freeHead < vq.size) (r : Submission) :
    vq.submit r = virtqueueSubmitChain vq (r.buffers.map Buffer.seg) := by
  cases r with
  | single b =>
    have h0 : (vq.freeHead + 0) % vq.size = vq.freeHead := Nat.mod_eq_of_lt h
    simp only [submit, virtqueueSubmit, virtqueueSubmitChain, Submission.buffers, map_cons, map_nil,
      writeChain, h0]
    rfl
  | chain bs => rfl

/-- After any number of finished requests the counters are where the next one needs them. -/
lemma exchange_run (past : List (Submission × UsedElem)) : ∀ {vq : Virtqueue} {k : Nat},
    vq.freeHead < vq.size → vq.availIdx = k % 2 ^ 16 →
    (past.foldl exchange vq).size = vq.size ∧ (past.foldl exchange vq).freeHead < vq.size ∧
      (past.foldl exchange vq).availIdx = (k + past.length) % 2 ^ 16 := by
  induction past with
  | nil => exact fun hfree hidx => ⟨rfl, hfree, hidx⟩
  | cons r past ih =>
    intro vq k hfree hidx
    have hsize : (vq.exchange r).size = vq.size := by
      rw [exchange, submit_eq hfree]
      rfl
    have hhead : (vq.exchange r).freeHead < (vq.exchange r).size := by
      rw [hsize, exchange, submit_eq hfree]
      exact Nat.mod_lt _ (Nat.zero_lt_of_lt hfree)
    have hnext : (vq.exchange r).availIdx = (k + 1) % 2 ^ 16 := by
      rw [← Nat.mod_add_mod, ← hidx, exchange, submit_eq hfree]
      rfl
    rw [foldl_cons, ← hsize, length_cons, add_comm past.length, ← add_assoc]
    exact ih hhead hnext

/-- The device that takes the entry of a request which has just been put on the queue finds it. -/
lemma follow_submit {vq : Virtqueue} {k n : Nat} {r : Submission} (hfree : vq.freeHead < vq.size)
    (hidx : vq.availIdx = k % 2 ^ 16) (hsome : r.buffers ≠ []) (hfits : r.buffers.length ≤ vq.size)
    (hn : r.buffers.length ≤ n) : (vq.submit r).follow n k = r.buffers := by
  have hread := chainFrom_writeChain vq.size vq.freeHead r.buffers 0 n vq.desc hsome hfits hn
  rw [add_zero, Nat.mod_eq_of_lt hfree] at hread
  rw [submit_eq hfree, follow, virtqueueSubmitChain, publish]
  dsimp only
  rw [← hidx, update_self]
  exact hread

/-- On a queue of any size, with every earlier request finished, the device that takes the next entry
of the available ring, its number counted modulo `2 ^ 16`, recovers the request that was submitted. -/
theorem device_recovers {maxSize : Nat} {vq : Virtqueue} (hsetup : virtqueueSetup maxSize = some vq)
    (past : List (Submission × UsedElem)) {r : Submission} (hsome : r.buffers ≠ [])
    (hfits : r.buffers.length ≤ vq.size) {n : Nat} (hn : vq.size ≤ n) :
    ((past.foldl exchange vq).submit r).follow n past.length = r.buffers := by
  have hstart : vq.freeHead < vq.size ∧ vq.availIdx = 0 % 2 ^ 16 := by
    obtain ⟨hzero, heq⟩ := Option.ite_none_left_eq_some.mp hsetup
    cases heq
    exact ⟨Nat.lt_min.mpr ⟨(by decide : 0 < virtqMaxSize), pos_of_ne_zero hzero⟩, rfl⟩
  obtain ⟨hsize, hfree, hidx⟩ := exchange_run past hstart.1 hstart.2
  rw [zero_add] at hidx
  rw [← hsize] at hfree hfits hn
  exact follow_submit hfree hidx hsome hfits (hfits.trans hn)

/-- Two segments after a single buffer on a queue of two: the chain wraps around the table. -/
theorem device_recovers_pair : (((virtqueueSetup 2).bind fun vq => some
      (((vq.exchange (.single ⟨64, 8, true⟩, ⟨0, 8⟩)).submit
        (.chain [⟨128, 16, false⟩, ⟨192, 1, true⟩])).follow 2 1)) =
      some [⟨128, 16, false⟩, ⟨192, 1, true⟩]) :=
  congrArg some (@device_recovers 2 _ rfl [(.single ⟨64, 8, true⟩, ⟨0, 8⟩)]
    (.chain [⟨128, 16, false⟩, ⟨192, 1, true⟩]) (cons_ne_nil _ _) le_rfl 2 le_rfl)

end Virtqueue
end FermiOs.Virtio
