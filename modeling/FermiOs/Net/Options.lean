import Mathlib.Tactic

/-!
# DHCP options

`dhcp_find_option` and `dhcp_build` of `pci/virtio/net/net.c`. Options are a sequence of tag, length and
value, with padding bytes in between and an end marker. The walk counts in 32 bits, also where it adds a
length to its position.
-/

namespace FermiOs.Net
open List

/-- The loop of `dhcp_find_option` from position `p` on: where the value is, and its length. There is no
result if a read fails, or if the loop has not ended after `n` turns. -/
def findFrom (read : Nat → Option UInt8) (maxLen : Nat) (want : UInt8) :
    (n p : Nat) → Option (Option (Nat × Nat))
  | 0, _ => none
  | n + 1, p =>
    if maxLen ≤ p then some none
    else (read p).bind fun code =>
      if code = 255 then some none
      else if code = 0 then findFrom read maxLen want n ((p + 1) % 2 ^ 32)
      else if maxLen ≤ (p + 1) % 2 ^ 32 then some none
      else (read ((p + 1) % 2 ^ 32)).bind fun len =>
        if maxLen < (p + 2 + len.toNat) % 2 ^ 32 then some none
        else if code = want then some (some ((p + 2) % 2 ^ 32, len.toNat))
        else findFrom read maxLen want n ((p + 2 + len.toNat) % 2 ^ 32)

/-- `dhcp_find_option` on a blob, given as many turns as it needs. -/
def dhcpFindOption (blob : List UInt8) (want : UInt8) (r : Option (Nat × Nat)) : Prop :=
  ∃ n, findFrom (fun i => blob[i]?) blob.length want n 0 = some r

/-- Four bytes of an address. -/
structure Addr where
  a : UInt8
  b : UInt8
  c : UInt8
  d : UInt8

def Addr.bytes (x : Addr) : List UInt8 := [x.a, x.b, x.c, x.d]

/-- An option that is there only with an address. -/
def addrField (code : UInt8) : Option Addr → List UInt8
  | none => []
  | some x => code :: 4 :: x.bytes

/-- The options that `dhcp_build` writes. -/
def buildOptions (msg : UInt8) (requestedIp serverId : Option Addr) : List UInt8 :=
  [53, 1, msg] ++ [55, 4, 1, 3, 51, 54] ++ addrField 50 requestedIp ++ addrField 54 serverId ++ [255]

/-- `dhcp_build`: the bytes written; the result is their number. -/
def dhcpBuild (msg : UInt8) (mac : Fin 6 → UInt8) (xid : BitVec 32) (requestedIp serverId : Option Addr) :
    List UInt8 :=
  [1, 1, 6, 0, ⟨xid.extractLsb' 24 8⟩, ⟨xid.extractLsb' 16 8⟩, ⟨xid.extractLsb' 8 8⟩,
    ⟨xid.extractLsb' 0 8⟩] ++ replicate 20 0 ++ ofFn mac ++ replicate 202 0 ++ [0x63, 0x82, 0x53, 0x63] ++
    buildOptions msg requestedIp serverId

/-! ## The sequence -/

/-- The value of the first option with the wanted code in the sequence in front of the end marker, or
nothing if there is none or the sequence is cut off in front of it. -/
inductive First (want : UInt8) : List UInt8 → Option (List UInt8) → Prop
  | nil : First want [] none
  | fin (rest : List UInt8) : First want (255 :: rest) none
  | pad {rest : List UInt8} {r : Option (List UInt8)} : First want rest r → First want (0 :: rest) r
  | noLength {code : UInt8} : code ≠ 255 → code ≠ 0 → First want [code] none
  | cut {code len : UInt8} {rest : List UInt8} : code ≠ 255 → code ≠ 0 → rest.length < len.toNat →
      First want (code :: len :: rest) none
  | hit {len : UInt8} {rest : List UInt8} : want ≠ 255 → want ≠ 0 → len.toNat ≤ rest.length →
      First want (want :: len :: rest) (some (rest.take len.toNat))
  | skip {code len : UInt8} {rest : List UInt8} {r : Option (List UInt8)} : code ≠ 255 → code ≠ 0 →
      code ≠ want → len.toNat ≤ rest.length → First want (rest.drop len.toNat) r →
      First want (code :: len :: rest) r

/-- The call returns, with no read outside the blob, and its result is the first occurrence. -/
def FindsFirst (blob : List UInt8) (want : UInt8) : Prop :=
  ∃ r, dhcpFindOption blob want r ∧ (∀ q ∈ r, q.1 + q.2 ≤ blob.length) ∧
    First want blob (r.map fun q => (blob.drop q.1).take q.2)

/-- The option is found with this value. -/
def Recovers (blob : List UInt8) (code : UInt8) (value : List UInt8) : Prop :=
  ∃ q, dhcpFindOption blob code (some (q, value.length)) ∧ (blob.drop q).take value.length = value

/-- What `dhcp_build` writes behind the 240 fixed bytes is found again. -/
def BuildRecovered : Prop :=
  ∀ (msg : UInt8) (mac : Fin 6 → UInt8) (xid : BitVec 32) (ip server : Option Addr) (opts : List UInt8),
    opts = (dhcpBuild msg mac xid ip server).drop 240 →
      Recovers opts 53 [msg] ∧ Recovers opts 55 [1, 3, 51, 54] ∧ (∀ x ∈ ip, Recovers opts 50 x.bytes) ∧
        ∀ x ∈ server, Recovers opts 54 x.bytes

lemma build_recovered : BuildRecovered := by
  rintro msg mac xid ip server opts rfl
  have hdrop : (dhcpBuild msg mac xid ip server).drop 240 = buildOptions msg ip server := by
    refine drop_left' ?_
    simp only [length_append, length_replicate, length_ofFn, length_cons, length_nil]
  rw [hdrop]
  refine ⟨⟨2, ⟨2, rfl⟩, rfl⟩, ⟨5, ⟨3, rfl⟩, rfl⟩, ?_, ?_⟩
  · rintro x ⟨⟩
    exact ⟨11, ⟨4, rfl⟩, rfl⟩
  · rintro x ⟨⟩
    cases ip with
    | none => exact ⟨11, ⟨4, rfl⟩, rfl⟩
    | some y => exact ⟨17, ⟨5, rfl⟩, rfl⟩

variable {blob : List UInt8} {want : UInt8}

/-- While no sum wraps, the walk follows the sequence. -/
lemma findFrom_first (h : blob.length + 255 < 2 ^ 32) : ∀ n p, p ≤ blob.length → blob.length < p + n →
    ∃ r, findFrom (fun i => blob[i]?) blob.length want n p = some r ∧
      (∀ q ∈ r, q.1 + q.2 ≤ blob.length) ∧
      First want (blob.drop p) (r.map fun q => (blob.drop q.1).take q.2) := by
  intro n
  induction n with
  | zero => omega
  | succ n ih =>
    intro p hp hn
    rw [findFrom]
    by_cases hend : blob.length ≤ p
    · rw [if_pos hend, drop_eq_nil_of_le hend]
      exact ⟨none, rfl, by simp, .nil⟩
    have hlt : p < blob.length := Nat.lt_of_not_le hend
    rw [if_neg hend, getElem?_eq_getElem hlt, Option.bind_some, drop_eq_getElem_cons hlt]
    generalize blob[p] = code
    by_cases h255 : code = 255
    · rw [if_pos h255, h255]
      exact ⟨none, rfl, by simp, .fin _⟩
    rw [if_neg h255, Nat.mod_eq_of_lt (by omega)]
    by_cases h0 : code = 0
    · obtain ⟨r, hr, hin, hfirst⟩ := ih (p + 1) hlt (by omega)
      rw [if_pos h0, h0]
      exact ⟨r, hr, hin, .pad hfirst⟩
    rw [if_neg h0]
    by_cases hend' : blob.length ≤ p + 1
    · rw [if_pos hend', drop_eq_nil_of_le hend']
      exact ⟨none, rfl, by simp, .noLength h255 h0⟩
    have hlt' : p + 1 < blob.length := Nat.lt_of_not_le hend'
    rw [if_neg hend', getElem?_eq_getElem hlt', Option.bind_some, drop_eq_getElem_cons hlt']
    generalize blob[p + 1] = len
    have hlen : len.toNat < 256 := len.toNat_lt
    have hrest : (blob.drop (p + 1 + 1)).length = blob.length - (p + 2) := length_drop
    rw [Nat.mod_eq_of_lt (by omega), Nat.mod_eq_of_lt (by omega)]
    by_cases hcut : blob.length < p + 2 + len.toNat
    · rw [if_pos hcut]
      exact ⟨none, rfl, by simp, .cut h255 h0 (by omega)⟩
    rw [if_neg hcut]
    by_cases hwant : code = want
    · rw [if_pos hwant]
      subst hwant
      exact ⟨_, rfl, by rintro q ⟨⟩; exact Nat.le_of_not_lt hcut, .hit h255 h0 (by omega)⟩
    · obtain ⟨r, hr, hin, hfirst⟩ := ih (p + 2 + len.toNat) (Nat.le_of_not_lt hcut) (by omega)
      rw [if_neg hwant]
      refine ⟨r, hr, hin, .skip h255 h0 hwant (by omega) ?_⟩
      rwa [drop_drop]

/-- A blob of padding with an option at its end that claims 255 bytes. -/
def paddedBlob (k : Nat) : List UInt8 := replicate k 0 ++ [53, 255]

/-- Where the sum wraps, the walk takes the option for one inside the blob. -/
lemma findFrom_paddedBlob {k : Nat} (hk : k + 2 < 2 ^ 32) (hwrap : 2 ^ 32 ≤ k + 2 + 255)
    {r : Option (Nat × Nat)} : ∀ n p, p ≤ k →
      findFrom (fun i => (paddedBlob k)[i]?) (k + 2) 53 n p = some r → r = some (k + 2, 255) := by
  intro n
  induction n with
  | zero => exact fun _ _ h => by cases h
  | succ n ih =>
    intro p hp h
    rw [findFrom, if_neg (by omega)] at h
    rcases Nat.lt_or_eq_of_le hp with hlt | rfl
    · have hpad : (paddedBlob k)[p]? = some 0 := by
        rw [paddedBlob, getElem?_append_left (by simpa using hlt), getElem?_replicate, if_pos hlt]
      rw [hpad, Option.bind_some, if_neg (by decide), if_pos rfl, Nat.mod_eq_of_lt (by omega)] at h
      exact ih (p + 1) hlt h
    · have hcode : (paddedBlob p)[p]? = some 53 := by simp [paddedBlob]
      have hlen : (paddedBlob p)[p + 1]? = some 255 := by simp [paddedBlob]
      rw [hcode, Option.bind_some, if_neg (by decide), if_neg (by decide),
        Nat.mod_eq_of_lt (show p + 1 < 2 ^ 32 by omega), if_neg (by omega), hlen, Option.bind_some,
        show UInt8.toNat 255 = 255 from rfl, if_neg (by omega), if_pos rfl,
        Nat.mod_eq_of_lt hk] at h
      exact (Option.some.inj h).symm

lemma paddedBlob_wrong {k : Nat} (hk : k + 2 < 2 ^ 32) (hwrap : 2 ^ 32 ≤ k + 2 + 255) :
    ¬ FindsFirst (paddedBlob k) 53 := by
  rintro ⟨r, ⟨n, hn⟩, hin, -⟩
  have hlen : (paddedBlob k).length = k + 2 := by simp [paddedBlob]
  rw [hlen] at hn hin
  cases findFrom_paddedBlob hk hwrap n 0 (Nat.zero_le _) hn
  exact absurd (hin _ rfl) (by simp)

end FermiOs.Net
