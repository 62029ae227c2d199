import Mathlib.Tactic

/-!
# Formatted output into a bounded buffer

`kvsnprintf` of `lib/strings/strings.c` with its helpers. Every helper hands bytes to `buf_putc` one
after the other; which ones does not depend on the buffer. The functions are therefore written for any
sink, the code being the case of the buffer, and the full output the case of a list.

A format and a string argument are the bytes in front of the NUL; neither shares memory with the buffer.
An argument is a word of the argument list.
-/

namespace FermiOs.Strings
open List Function

/-! ## The code -/

/-- `digits` in `buf_putu`. -/
def digit (d : Nat) : UInt8 := if d < 10 then .ofNat (48 + d) else .ofNat (87 + d)

/-- The first loop of `buf_putu`: the digits in `tmp`, the last one first. -/
def tmpDigits (base : Nat) : Nat → Nat → List UInt8
  | 0, _ => []
  | n + 1, val => if val = 0 then [] else digit (val % base) :: tmpDigits base n (val / base)

section
variable {σ : Type} (put : σ → UInt8 → σ)

/-- `buf_puts`. -/
def bufPuts (s : σ) (text : List UInt8) : σ := text.foldl put s

/-- `buf_putu`; `tmp` has 24 bytes. -/
def bufPutu (s : σ) (val base : Nat) : σ :=
  if val = 0 then put s 48 else bufPuts put s (tmpDigits base 24 val).reverse

variable (str : BitVec 64 → List UInt8)

/-- The `switch` of `kvsnprintf`: `%s`, `%d`, `%u`, `%x`, `%c`, `%%`, and what it does not know. -/
def convert (spec : UInt8) (arg : BitVec 64) (s : σ) : σ :=
  if spec = 115 then
    -- (null)
    bufPuts put s (if arg = 0 then [40, 110, 117, 108, 108, 41] else str arg)
  else if spec = 100 then
    let val := BitVec.ofInt 64 (arg.setWidth 32).toInt
    if (arg.setWidth 32).toInt < 0 then bufPutu put (put s 45) (0 - val).toNat 10
    else bufPutu put s val.toNat 10
  else if spec = 117 then bufPutu put s arg.toNat 10
  else if spec = 120 then bufPutu put s arg.toNat 16
  else if spec = 99 then put s ⟨arg.setWidth 8⟩
  else if spec = 37 then put s 37
  else put (put s 37) spec

/-- The conversions that take an argument. -/
def takesArg (spec : UInt8) : Bool := spec ∈ [115, 100, 117, 120, 99]

/-- The loop of `kvsnprintf`; the next argument is number `k`. -/
def format (args : Nat → BitVec 64) : List UInt8 → Nat → σ → σ
  | [], _, s => s
  | c :: fmt, k, s =>
    if c ≠ 37 then format args fmt k (put s c)
    else match fmt with
      | [] => s
      | spec :: fmt =>
        format args fmt (if takesArg spec then k + 1 else k) (convert put str spec (args k) s)

end

/-- The buffer, and the position, a `size_t`. -/
structure Out where
  mem : Nat → UInt8
  pos : Nat

/-- `buf_putc`. -/
def bufPutc (buflen : Nat) (s : Out) (c : UInt8) : Out where
  mem := if (s.pos + 1) % 2 ^ 64 < buflen then update s.mem s.pos c else s.mem
  pos := (s.pos + 1) % 2 ^ 64

variable (str : BitVec 64 → List UInt8) (args : Nat → BitVec 64) (fmt : List UInt8)

/-- `kvsnprintf`: the memory from the start of the buffer on, and the result, an `int`. -/
def kvsnprintf (buf : Nat → UInt8) (buflen : Nat) : (Nat → UInt8) × Int :=
  let s := format (bufPutc buflen) str args fmt 0 ⟨buf, 0⟩
  (if 0 < buflen then update s.mem (if s.pos < buflen then s.pos else buflen - 1) 0 else s.mem,
    (s.pos : Int).bmod (2 ^ 32))

/-- The full output: every byte handed to `buf_putc`. -/
def fullOutput : List UInt8 := format (fun out c => out ++ [c]) str args fmt 0 []

/-! ## The bytes do not depend on the sink -/

/-- The loop for the digits ends inside `tmp`: more turns add nothing. -/
lemma tmpDigits_enough {base : Nat} : ∀ {n val : Nat}, val < base ^ n → ∀ k,
    tmpDigits base (n + k) val = tmpDigits base n val := by
  intro n
  induction n with
  | zero =>
    intro val h k
    obtain rfl : val = 0 := by simpa using h
    cases k <;> rfl
  | succ n ih =>
    intro val h k
    have hdiv : val / base < base ^ n := Nat.div_lt_of_lt_mul (by rwa [pow_succ'] at h)
    rw [add_right_comm, tmpDigits, tmpDigits, ih hdiv]

section
variable {σ τ : Type} {put : σ → UInt8 → σ} {put' : τ → UInt8 → τ} (f : σ → τ)
  (hf : ∀ s c, put' (f s) c = f (put s c))
include hf

lemma bufPuts_hom (s : σ) (text : List UInt8) : bufPuts put' (f s) text = f (bufPuts put s text) :=
  foldl_hom f hf

lemma bufPutu_hom (s : σ) (val base : Nat) : bufPutu put' (f s) val base = f (bufPutu put s val base) := by
  unfold bufPutu
  split
  · exact hf s 48
  · exact bufPuts_hom f hf s _

lemma convert_hom (spec : UInt8) (arg : BitVec 64) (s : σ) :
    convert put' str spec arg (f s) = f (convert put str spec arg s) := by
  simp only [convert, hf, bufPuts_hom f hf, bufPutu_hom f hf, apply_ite f]

/-- Two sinks that correspond stay so. -/
lemma format_hom : ∀ k s, format put' str args fmt k (f s) = f (format put str args fmt k s) := by
  intro k s
  fun_induction format put str args fmt k s with
  | case1 => rfl
  | case2 k s c fmt hc ih =>
    rw [format.eq_def]
    dsimp only
    rw [if_pos hc, hf, ih]
  | case3 k s c hc => rw [format, if_neg hc]
  | case4 k s c hc spec fmt ih => rw [format, if_neg hc, convert_hom str f hf, ih]

end

/-- The code hands the full output to the buffer. -/
lemma format_eq_foldl {σ : Type} (put : σ → UInt8 → σ) (s : σ) :
    format put str args fmt 0 s = (fullOutput str args fmt).foldl put s :=
  format_hom str args fmt (fun out => out.foldl put s) (fun out c => by simp) 0 []

/-! ## The buffer -/

/-- The buffer behind some bytes: they are there up to the last place but one. -/
lemma foldl_bufPutc (buf : Nat → UInt8) (buflen : Nat) (out : List UInt8) (h : out.length < 2 ^ 64) :
    out.foldl (bufPutc buflen) ⟨buf, 0⟩ =
      ⟨fun i => if i + 1 < buflen then out[i]?.getD (buf i) else buf i, out.length⟩ := by
  induction out using List.reverseRecOn with
  | nil => simp
  | append_singleton out c ih =>
    rw [length_append, length_singleton] at h ⊢
    rw [foldl_append, foldl_cons, foldl_nil, ih (by omega), bufPutc, Nat.mod_eq_of_lt h]
    congr 1
    funext i
    dsimp only
    by_cases hi : i = out.length
    · rw [hi, getElem?_concat_length]
      split
      · exact update_self _ _ _
      · exact if_neg ‹_›
    · have hold : (out ++ [c])[i]? = out[i]? := by grind
      rw [hold]
      split
      · exact update_of_ne hi _ _
      · rfl

/-- **A bounded buffer gets the beginning of the output**: nothing at or behind its end is touched, the
result is the length of the full output, and as many bytes of it as leave room for a NUL are stored. -/
theorem kvsnprintf_truncates (buf : Nat → UInt8) (buflen : Nat)
    (hlen : (fullOutput str args fmt).length < 2 ^ 31) :
    (∀ i, buflen ≤ i → (kvsnprintf str args fmt buf buflen).1 i = buf i) ∧
      (kvsnprintf str args fmt buf buflen).2 = (fullOutput str args fmt).length ∧
      (0 < buflen → ∃ n, n = min (fullOutput str args fmt).length (buflen - 1) ∧
        (∀ i < n, some ((kvsnprintf str args fmt buf buflen).1 i) = (fullOutput str args fmt)[i]?) ∧
        (kvsnprintf str args fmt buf buflen).1 n = 0) := by
  simp only [kvsnprintf, format_eq_foldl, foldl_bufPutc buf buflen _ (lt_trans hlen (by decide))]
  generalize fullOutput str args fmt = out at hlen
  have hstop : (if out.length < buflen then out.length else buflen - 1) = min out.length (buflen - 1) := by
    split <;> omega
  rw [hstop]
  refine ⟨fun i hi => ?_, Int.bmod_eq_of_le (by omega) (by omega), fun hb => ⟨_, rfl, fun i hi => ?_, ?_⟩⟩
  · split
    · rw [update_of_ne (by omega), if_neg (by omega)]
    · exact if_neg (by omega)
  · rw [if_pos hb, update_of_ne (by omega), if_pos (by omega), getElem?_eq_getElem (by omega)]
    rfl
  · rw [if_pos hb, update_self]

/-- `n=%d` with -5 in four bytes: the last digit gives way to the NUL, the result counts it. -/
theorem kvsnprintf_truncates_number :
    fullOutput (fun _ => []) (fun _ => -5) [110, 61, 37, 100] = [110, 61, 45, 53] ∧
      (kvsnprintf (fun _ => []) (fun _ => -5) [110, 61, 37, 100] (fun _ => 255) 4).2 = 4 ∧
      (kvsnprintf (fun _ => []) (fun _ => -5) [110, 61, 37, 100] (fun _ => 255) 4).1 4 = 255 :=
  have h := kvsnprintf_truncates (fun _ => []) (fun _ => -5) [110, 61, 37, 100] (fun _ => 255) 4
    (by decide +kernel)
  ⟨by decide +kernel, h.2.1.trans (by decide +kernel), h.1 4 le_rfl⟩

end FermiOs.Strings
