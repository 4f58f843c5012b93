import Mathlib.Algebra.Ring.Nat
import Mathlib.Data.List.Basic
import Mathlib.Order.Basic
import Mathlib.Tactic.SplitIfs

/-!
# UTF-8, one byte at a time

A reader of UTF-8 may stop in the middle of a character: it then keeps the bits it has read and the
number of bytes that are to come. `Pending.run` says which bytes may follow and which code points
they complete; from between two characters, the byte sequences that it reads to the end of a
character are the encodings of strings.
-/

namespace Utf8

def encode (s : List Char) : List UInt8 := s.flatMap String.utf8EncodeChar

@[simp] theorem encode_nil : encode [] = [] := rfl

@[simp] theorem encode_cons (c : Char) (s : List Char) :
    encode (c :: s) = String.utf8EncodeChar c ++ encode s := rfl

/-- What has been read of a character, and how many of its bytes are to come. -/
structure Pending where
  value : UInt32 := 0
  remaining : Nat := 0
  deriving DecidableEq, Repr

namespace Pending

/-- The bits of a byte inside a character are added. -/
def extend (value : UInt32) (b : UInt8) : UInt32 := value * 64 + UInt32.ofNat (b.toNat % 64)

/-- A byte inside a character: its range is smaller where a short form, a surrogate or a code point
beyond the last one would come up. -/
def Continues (p : Pending) (b : UInt8) : Prop :=
  0x80 ≤ b.toNat ∧ b.toNat ≤ 0xBF
    ∧ (p.remaining = 2 → p.value = 0 → 0xA0 ≤ b.toNat)
    ∧ (p.remaining = 2 → p.value = 0xD → b.toNat ≤ 0x9F)
    ∧ (p.remaining = 3 → p.value = 0 → 0x90 ≤ b.toNat)
    ∧ (p.remaining = 3 → p.value = 4 → b.toNat ≤ 0x8F)

instance (p : Pending) (b : UInt8) : Decidable (p.Continues b) := by
  unfold Continues; infer_instance

/-- The first byte of a character. -/
def lead (b : UInt8) : Option (List UInt32 × Pending) :=
  if b.toNat < 0x80 then some ([UInt32.ofNat b.toNat], ⟨UInt32.ofNat b.toNat, 0⟩)
  else if b.toNat < 0xC2 then none
  else if b.toNat < 0xE0 then some ([], ⟨UInt32.ofNat (b.toNat % 32), 1⟩)
  else if b.toNat < 0xF0 then some ([], ⟨UInt32.ofNat (b.toNat % 16), 2⟩)
  else if b.toNat < 0xF5 then some ([], ⟨UInt32.ofNat (b.toNat % 8), 3⟩)
  else none

/-- The code points that a byte completes, and what is pending after it. -/
def next (p : Pending) (b : UInt8) : Option (List UInt32 × Pending) :=
  match p.remaining with
  | 0 => lead b
  | n + 1 =>
    if p.Continues b then
      some (if n = 0 then [extend p.value b] else [], ⟨extend p.value b, n⟩)
    else none

def run : Pending → List UInt8 → Option (List UInt32 × Pending)
  | p, [] => some ([], p)
  | p, b :: bytes => do
    let (w, p) ← p.next b
    let (v, p) ← p.run bytes
    return (w ++ v, p)

/-- UTF-8 may go on with these bytes. -/
def Reads (p : Pending) (bytes : List UInt8) : Prop := (p.run bytes).isSome

instance (p : Pending) (bytes : List UInt8) : Decidable (p.Reads bytes) := by
  unfold Reads; infer_instance

variable {p q r : Pending} {b : UInt8} {bytes rest : List UInt8} {w v : List UInt32} {c : Char}
  {x : UInt32} {n : Nat}

@[simp] theorem run_nil : p.run [] = some ([], p) := rfl

theorem run_cons : p.run (b :: bytes) = some (w, r) ↔
    ∃ w₁ q w₂, p.next b = some (w₁, q) ∧ q.run bytes = some (w₂, r) ∧ w = w₁ ++ w₂ := by
  simp only [run, Option.bind_eq_bind, Option.bind_eq_some_iff, Prod.exists, Option.pure_def,
    Option.some.injEq, Prod.mk.injEq]
  constructor
  · rintro ⟨w₁, q, hq, w₂, r', hr, rfl, rfl⟩
    exact ⟨w₁, q, w₂, hq, hr, rfl⟩
  · rintro ⟨w₁, q, w₂, hq, hr, rfl⟩
    exact ⟨w₁, q, hq, w₂, r, hr, rfl, rfl⟩

theorem run_append : ∀ {p : Pending} {bytes : List UInt8} {w : List UInt32},
    p.run (bytes ++ rest) = some (w, r) ↔
      ∃ w₁ q w₂, p.run bytes = some (w₁, q) ∧ q.run rest = some (w₂, r) ∧ w = w₁ ++ w₂
  | p, [], w => by simp
  | p, b :: bytes, w => by
    simp only [List.cons_append, run_cons, run_append]
    constructor
    · rintro ⟨w₁, p', _, hp, ⟨w₂, q, w₃, hq, hr, rfl⟩, rfl⟩
      exact ⟨w₁ ++ w₂, q, w₃, ⟨w₁, p', w₂, hp, hq, rfl⟩, hr, by simp⟩
    · rintro ⟨_, q, w₃, ⟨w₁, p', w₂, hp, hq, rfl⟩, hr, rfl⟩
      exact ⟨w₁, p', w₂ ++ w₃, hp, ⟨w₂, q, w₃, hq, hr, rfl⟩, by simp⟩

/-- What comes first is read as well. -/
theorem reads_append : p.Reads (bytes ++ rest) ↔
    ∃ w q, p.run bytes = some (w, q) ∧ q.Reads rest := by
  simp only [Reads, Option.isSome_iff_exists, Prod.exists, run_append]
  constructor
  · rintro ⟨_, r, w₁, q, w₂, hq, hr, rfl⟩
    exact ⟨w₁, q, hq, w₂, r, hr⟩
  · rintro ⟨w₁, q, hq, w₂, r, hr⟩
    exact ⟨w₁ ++ w₂, r, w₁, q, w₂, hq, hr, rfl⟩

/-! ## One character -/

theorem extend_toNat (hx : x.toNat < 2 ^ 16) :
    (extend x b).toNat = x.toNat * 64 + b.toNat % 64 := by
  have hmod : b.toNat % 64 < 64 := Nat.mod_lt _ (by decide)
  have h64 : UInt32.toNat 64 = 64 := rfl
  rw [extend, UInt32.toNat_add, UInt32.toNat_mul, UInt32.toNat_ofNat', h64]
  omega

theorem ofNat_toNat (hn : n < 2 ^ 16) : (UInt32.ofNat n).toNat = n := by
  rw [UInt32.toNat_ofNat']
  omega

theorem byte_toNat (hn : n < 256) : (UInt8.ofNat n).toNat = n := by
  rw [UInt8.toNat_ofNat']
  omega

theorem continues_iff : Continues ⟨x, n⟩ b ↔ 0x80 ≤ b.toNat ∧ b.toNat ≤ 0xBF
    ∧ (n = 2 → x.toNat = 0 → 0xA0 ≤ b.toNat) ∧ (n = 2 → x.toNat = 0xD → b.toNat ≤ 0x9F)
    ∧ (n = 3 → x.toNat = 0 → 0x90 ≤ b.toNat) ∧ (n = 3 → x.toNat = 4 → b.toNat ≤ 0x8F) := by
  simp only [Continues, ← UInt32.toNat_inj]
  rfl

theorem lead_one (h : b.toNat < 0x80) :
    lead b = some ([UInt32.ofNat b.toNat], ⟨UInt32.ofNat b.toNat, 0⟩) := if_pos h

theorem lead_two (hlo : 0xC2 ≤ b.toNat) (hhi : b.toNat < 0xE0) :
    lead b = some ([], ⟨UInt32.ofNat (b.toNat % 32), 1⟩) := by
  rw [lead, if_neg (by omega), if_neg (by omega), if_pos hhi]

theorem lead_three (hlo : 0xE0 ≤ b.toNat) (hhi : b.toNat < 0xF0) :
    lead b = some ([], ⟨UInt32.ofNat (b.toNat % 16), 2⟩) := by
  rw [lead, if_neg (by omega), if_neg (by omega), if_neg (by omega), if_pos hhi]

theorem lead_four (hlo : 0xF0 ≤ b.toNat) (hhi : b.toNat < 0xF5) :
    lead b = some ([], ⟨UInt32.ofNat (b.toNat % 8), 3⟩) := by
  rw [lead, if_neg (by omega), if_neg (by omega), if_neg (by omega), if_neg (by omega), if_pos hhi]

theorem lead_cases (h : lead b = some (w, p)) :
    (b.toNat < 0x80 ∧ w = [UInt32.ofNat b.toNat] ∧ p = ⟨UInt32.ofNat b.toNat, 0⟩) ∨
    (0xC2 ≤ b.toNat ∧ b.toNat < 0xE0 ∧ w = [] ∧ p = ⟨UInt32.ofNat (b.toNat % 32), 1⟩) ∨
    (0xE0 ≤ b.toNat ∧ b.toNat < 0xF0 ∧ w = [] ∧ p = ⟨UInt32.ofNat (b.toNat % 16), 2⟩) ∨
    (0xF0 ≤ b.toNat ∧ b.toNat < 0xF5 ∧ w = [] ∧ p = ⟨UInt32.ofNat (b.toNat % 8), 3⟩) := by
  unfold lead at h
  split_ifs at h with h1 h2 h3 h4 h5 <;> cases h
  · exact .inl ⟨h1, rfl, rfl⟩
  · exact .inr (.inl ⟨by omega, h3, rfl, rfl⟩)
  · exact .inr (.inr (.inl ⟨by omega, h4, rfl, rfl⟩))
  · exact .inr (.inr (.inr ⟨by omega, h5, rfl, rfl⟩))

theorem run_lead (h : lead b = some ([], p)) (hp : p.run rest = some (w, q)) :
    run ⟨x, 0⟩ (b :: rest) = some (w, q) :=
  run_cons.2 ⟨[], p, w, h, hp, rfl⟩

theorem next_continues (h : Continues ⟨x, n + 1⟩ b) : next ⟨x, n + 1⟩ b =
    some (if n = 0 then [extend x b] else [], ⟨extend x b, n⟩) := if_pos h

theorem run_more (h : Continues ⟨x, n + 2⟩ b) (hp : run ⟨extend x b, n + 1⟩ rest = some (w, q)) :
    run ⟨x, n + 2⟩ (b :: rest) = some (w, q) :=
  run_cons.2 ⟨[], _, w, next_continues h, hp, rfl⟩

theorem run_last (h : Continues ⟨x, 1⟩ b) (hc : (extend x b).toNat = c.val.toNat) :
    run ⟨x, 1⟩ [b] = some ([c.val], ⟨c.val, 0⟩) := by
  rw [UInt32.toNat_inj] at hc
  exact run_cons.2 ⟨[c.val], ⟨c.val, 0⟩, [], hc ▸ next_continues h, rfl, rfl⟩

/-- Inside a character another byte has to come. -/
theorem run_inside (h : run ⟨x, n + 1⟩ bytes = some (w, q)) (hq : q.remaining = 0) :
    ∃ b rest v, bytes = b :: rest ∧ Continues ⟨x, n + 1⟩ b
      ∧ run ⟨extend x b, n⟩ rest = some (v, q) ∧ w = (if n = 0 then [extend x b] else []) ++ v := by
  cases bytes with
  | nil => cases h; cases hq
  | cons b rest =>
    obtain ⟨w₁, p, v, hb, hv, rfl⟩ := run_cons.1 h
    by_cases hc : Continues ⟨x, n + 1⟩ b
    · cases (next_continues hc).symm.trans hb
      exact ⟨b, rest, v, rfl, hc, hv, rfl⟩
    · cases (show next ⟨x, n + 1⟩ b = none from if_neg hc).symm.trans hb

theorem run_inside_more (h : run ⟨x, n + 2⟩ bytes = some (w, q)) (hq : q.remaining = 0) :
    ∃ b rest, bytes = b :: rest ∧ Continues ⟨x, n + 2⟩ b
      ∧ run ⟨extend x b, n + 1⟩ rest = some (w, q) := by
  obtain ⟨b, rest, v, hbytes, hc, hv, hw⟩ := run_inside h hq
  obtain rfl : w = v := hw
  exact ⟨b, rest, hbytes, hc, hv⟩

theorem run_inside_last (h : run ⟨x, 1⟩ bytes = some (w, q)) (hq : q.remaining = 0) :
    ∃ b rest v, bytes = b :: rest ∧ Continues ⟨x, 1⟩ b
      ∧ run ⟨extend x b, 0⟩ rest = some (v, q) ∧ w = extend x b :: v :=
  run_inside h hq

theorem val_toNat (c : Char) :
    c.val.toNat < 0x110000 ∧ (c.val.toNat < 0xD800 ∨ 0xDFFF < c.val.toNat) := by
  have hvalid := c.valid
  simp only [UInt32.isValidChar, Nat.isValidChar] at hvalid
  omega

theorem exists_char (hlt : n < 0x110000) (h : n < 0xD800 ∨ 0xDFFF < n) :
    ∃ c : Char, c.val.toNat = n :=
  ⟨Char.ofNatAux n (by simp only [Nat.isValidChar]; omega), rfl⟩

/-- A character is read byte by byte. -/
theorem run_encodeChar (c : Char) (x : UInt32) :
    run ⟨x, 0⟩ (String.utf8EncodeChar c) = some ([c.val], ⟨c.val, 0⟩) := by
  obtain ⟨hlt, hsur⟩ := val_toNat c
  simp only [String.utf8EncodeChar]
  generalize hv : c.val.toNat = n at *
  have htail (m : Nat) : (UInt8.ofNat (m % 64 + 128)).toNat = m % 64 + 128 :=
    byte_toNat (by omega)
  split_ifs with h1 h2 h3
  · have hb := byte_toNat (show n < 256 by omega)
    have hlead := lead_one (show (UInt8.ofNat n).toNat < 0x80 by omega)
    rw [hb, ← hv, UInt32.ofNat_toNat] at hlead
    exact run_cons.2 ⟨_, _, [], hv ▸ hlead, rfl, rfl⟩
  · have hb := byte_toNat (show n / 64 % 32 + 192 < 256 by omega)
    have hx := ofNat_toNat (show (n / 64 % 32 + 192) % 32 < 2 ^ 16 by omega)
    have hn := htail n
    refine run_lead (lead_two (by omega) (by omega)) (run_last ?_ ?_)
    · rw [continues_iff]; omega
    · rw [hb, extend_toNat (by omega)]; omega
  · have hb := byte_toNat (show n / 4096 % 16 + 224 < 256 by omega)
    have hlead : lead (UInt8.ofNat (n / 4096 % 16 + 224)) =
        some ([], ⟨UInt32.ofNat (n / 4096), 2⟩) := by
      rw [lead_three (by omega) (by omega), hb, show (n / 4096 % 16 + 224) % 16 = n / 4096 by omega]
    have hx := ofNat_toNat (show n / 4096 < 2 ^ 16 by omega)
    generalize UInt32.ofNat (n / 4096) = y at hlead hx
    clear hb
    have hx' : (extend y (UInt8.ofNat (n / 64 % 64 + 128))).toNat = n / 64 := by
      rw [extend_toNat (by omega), htail]
      omega
    refine run_lead hlead (run_more ?_ (run_last ?_ ?_))
    · rw [continues_iff, htail]; omega
    · rw [continues_iff, hx', htail]; omega
    · rw [extend_toNat (by omega), hx', htail]; omega
  · have hb := byte_toNat (show n / 262144 % 8 + 240 < 256 by omega)
    have hlead : lead (UInt8.ofNat (n / 262144 % 8 + 240)) =
        some ([], ⟨UInt32.ofNat (n / 262144), 3⟩) := by
      rw [lead_four (by omega) (by omega), hb,
        show (n / 262144 % 8 + 240) % 8 = n / 262144 by omega]
    have hx := ofNat_toNat (show n / 262144 < 2 ^ 16 by omega)
    generalize UInt32.ofNat (n / 262144) = y at hlead hx
    clear hb
    have hx' : (extend y (UInt8.ofNat (n / 4096 % 64 + 128))).toNat = n / 4096 := by
      rw [extend_toNat (by omega), htail]
      omega
    have hx'' : (extend (extend y (UInt8.ofNat (n / 4096 % 64 + 128)))
        (UInt8.ofNat (n / 64 % 64 + 128))).toNat = n / 64 := by
      rw [extend_toNat (by omega), hx', htail]
      omega
    refine run_lead hlead (run_more ?_ (run_more ?_ (run_last ?_ ?_)))
    · rw [continues_iff, htail]; omega
    · rw [continues_iff, hx', htail]; omega
    · rw [continues_iff, hx'', htail]; omega
    · rw [extend_toNat (by omega), hx'', htail]; omega

theorem byte_eq (h : n = b.toNat) : UInt8.ofNat n = b := by
  rw [h, UInt8.ofNat_toNat]

section Encode

variable {b₁ b₂ b₃ : UInt8}

theorem encodeChar_one (hc : c.val.toNat = b.toNat) (h : b.toNat < 0x80) :
    String.utf8EncodeChar c = [b] := by
  rw [String.utf8EncodeChar, if_pos (by omega), byte_eq hc]

theorem encodeChar_two (hc : c.val.toNat = b.toNat % 32 * 64 + b₁.toNat % 64)
    (hlo : 0xC2 ≤ b.toNat) (hhi : b.toNat < 0xE0) (h₁ : 0x80 ≤ b₁.toNat ∧ b₁.toNat ≤ 0xBF) :
    String.utf8EncodeChar c = [b, b₁] := by
  simp only [String.utf8EncodeChar, hc]
  rw [if_neg (by omega), if_pos (by omega), byte_eq (b := b) (by omega),
    byte_eq (b := b₁) (by omega)]

theorem encodeChar_three
    (hc : c.val.toNat = (b.toNat % 16 * 64 + b₁.toNat % 64) * 64 + b₂.toNat % 64)
    (hlo : 0xE0 ≤ b.toNat) (hhi : b.toNat < 0xF0) (h₁ : 0x80 ≤ b₁.toNat ∧ b₁.toNat ≤ 0xBF)
    (h₂ : 0x80 ≤ b₂.toNat ∧ b₂.toNat ≤ 0xBF) (hshort : 0x7FF < c.val.toNat) :
    String.utf8EncodeChar c = [b, b₁, b₂] := by
  rw [hc] at hshort
  simp only [String.utf8EncodeChar, hc]
  rw [if_neg (by omega), if_neg (by omega), if_pos (by omega), byte_eq (b := b) (by omega),
    byte_eq (b := b₁) (by omega), byte_eq (b := b₂) (by omega)]

theorem encodeChar_four
    (hc : c.val.toNat = ((b.toNat % 8 * 64 + b₁.toNat % 64) * 64 + b₂.toNat % 64) * 64
      + b₃.toNat % 64)
    (hlo : 0xF0 ≤ b.toNat) (hhi : b.toNat < 0xF5) (h₁ : 0x80 ≤ b₁.toNat ∧ b₁.toNat ≤ 0xBF)
    (h₂ : 0x80 ≤ b₂.toNat ∧ b₂.toNat ≤ 0xBF) (h₃ : 0x80 ≤ b₃.toNat ∧ b₃.toNat ≤ 0xBF)
    (hshort : 0xFFFF < c.val.toNat) : String.utf8EncodeChar c = [b, b₁, b₂, b₃] := by
  rw [hc] at hshort
  simp only [String.utf8EncodeChar, hc]
  rw [if_neg (by omega), if_neg (by omega), if_neg (by omega), byte_eq (b := b) (by omega),
    byte_eq (b := b₁) (by omega), byte_eq (b := b₂) (by omega), byte_eq (b := b₃) (by omega)]

end Encode

/-- A character and what is read after it. -/
def StartsChar (bytes : List UInt8) (w : List UInt32) (q : Pending) : Prop :=
  ∃ c rest v, bytes = String.utf8EncodeChar c ++ rest ∧ w = c.val :: v
    ∧ run ⟨c.val, 0⟩ rest = some (v, q)

theorem startsChar {x : UInt32} (hc : x.toNat < 0x110000)
    (hsur : x.toNat < 0xD800 ∨ 0xDFFF < x.toNat) (pre : List UInt8)
    (hpre : ∀ c : Char, c.val.toNat = x.toNat → String.utf8EncodeChar c = pre)
    (h : run ⟨x, 0⟩ rest = some (v, q)) : StartsChar (pre ++ rest) (x :: v) q := by
  obtain ⟨c, hc⟩ := exists_char hc hsur
  obtain rfl := UInt32.toNat_inj.1 hc
  exact ⟨c, rest, v, by rw [hpre c rfl], rfl, h⟩

theorem startsChar_one (hb : b.toNat < 0x80)
    (h : run ⟨UInt32.ofNat b.toNat, 0⟩ bytes = some (v, q)) :
    StartsChar (b :: bytes) (UInt32.ofNat b.toNat :: v) q := by
  have hx := ofNat_toNat (show b.toNat < 2 ^ 16 by omega)
  exact startsChar (by omega) (by omega) [b] (fun c hc => encodeChar_one (hc.trans hx) hb) h

theorem startsChar_two (hlo : 0xC2 ≤ b.toNat) (hhi : b.toNat < 0xE0)
    (h : run ⟨UInt32.ofNat (b.toNat % 32), 1⟩ bytes = some (w, q)) (hq : q.remaining = 0) :
    StartsChar (b :: bytes) w q := by
  have hx := ofNat_toNat (show b.toNat % 32 < 2 ^ 16 by omega)
  generalize UInt32.ofNat (b.toNat % 32) = x at hx h
  obtain ⟨b₁, rest, v, rfl, h₁, hv, rfl⟩ := run_inside_last h hq
  rw [continues_iff, hx] at h₁
  have he := extend_toNat (b := b₁) (hx.trans_lt (by omega))
  rw [hx] at he
  exact startsChar (by omega) (by omega) [b, b₁]
    (fun c hc => encodeChar_two (hc.trans he) hlo hhi ⟨h₁.1, h₁.2.1⟩) hv

theorem three_range {a d e : Nat} (ha : a < 16) (hd : d < 64) (he : e < 64)
    (hshort : a = 0 → 32 ≤ d) (hsur : a = 0xD → d < 32) :
    0x7FF < (a * 64 + d) * 64 + e ∧ (a * 64 + d) * 64 + e < 0x10000
      ∧ ((a * 64 + d) * 64 + e < 0xD800 ∨ 0xDFFF < (a * 64 + d) * 64 + e) := by
  omega

theorem four_range {a d e f : Nat} (ha : a < 5) (hd : d < 64) (he : e < 64) (hf : f < 64)
    (hshort : a = 0 → 16 ≤ d) (hlast : a = 4 → d < 16) :
    0xFFFF < ((a * 64 + d) * 64 + e) * 64 + f
      ∧ ((a * 64 + d) * 64 + e) * 64 + f < 0x110000 := by
  omega

theorem startsChar_three (hlo : 0xE0 ≤ b.toNat) (hhi : b.toNat < 0xF0)
    (h : run ⟨UInt32.ofNat (b.toNat % 16), 2⟩ bytes = some (w, q)) (hq : q.remaining = 0) :
    StartsChar (b :: bytes) w q := by
  have ha : b.toNat % 16 < 16 := Nat.mod_lt _ (by decide)
  have hx := ofNat_toNat (show b.toNat % 16 < 2 ^ 16 by omega)
  generalize UInt32.ofNat (b.toNat % 16) = x at hx h
  obtain ⟨b₁, rest, rfl, h₁, hv⟩ := run_inside_more h hq
  have he := extend_toNat (b := b₁) (hx.trans_lt (by omega))
  rw [continues_iff, hx] at h₁
  rw [hx] at he
  generalize extend x b₁ = y at he hv
  obtain ⟨b₂, rest, v₂, rfl, h₂, hv₂, rfl⟩ := run_inside_last hv hq
  have he' := extend_toNat (b := b₂) (he.trans_lt (by omega))
  rw [continues_iff] at h₂
  rw [he] at he'
  obtain ⟨h₁lo, h₁hi, hshort, hsur, -⟩ := h₁
  obtain ⟨hgt, hlt, hvalid⟩ := three_range ha (Nat.mod_lt b₁.toNat (by decide))
    (Nat.mod_lt b₂.toNat (by decide)) (fun h0 => by have := hshort rfl h0; omega)
    (fun h0 => by have := hsur rfl h0; omega)
  rw [← he'] at hgt hlt hvalid
  exact startsChar (Nat.lt_trans hlt (show 0x10000 < 0x110000 by decide)) hvalid [b, b₁, b₂]
    (fun c hc => encodeChar_three (hc.trans he') hlo hhi ⟨h₁lo, h₁hi⟩ ⟨h₂.1, h₂.2.1⟩
      (hc ▸ hgt)) hv₂

theorem startsChar_four (hlo : 0xF0 ≤ b.toNat) (hhi : b.toNat < 0xF5)
    (h : run ⟨UInt32.ofNat (b.toNat % 8), 3⟩ bytes = some (w, q)) (hq : q.remaining = 0) :
    StartsChar (b :: bytes) w q := by
  have ha : b.toNat % 8 < 5 := by omega
  have hx := ofNat_toNat (show b.toNat % 8 < 2 ^ 16 by omega)
  generalize UInt32.ofNat (b.toNat % 8) = x at hx h
  obtain ⟨b₁, rest, rfl, h₁, hv⟩ := run_inside_more h hq
  have he := extend_toNat (b := b₁) (hx.trans_lt (by omega))
  rw [continues_iff, hx] at h₁
  rw [hx] at he
  generalize extend x b₁ = y at he hv
  obtain ⟨b₂, rest, rfl, h₂, hv₂⟩ := run_inside_more hv hq
  have he' := extend_toNat (b := b₂) (he.trans_lt (by omega))
  rw [continues_iff] at h₂
  rw [he] at he'
  generalize extend y b₂ = z at he' hv₂
  obtain ⟨b₃, rest, v₃, rfl, h₃, hv₃, rfl⟩ := run_inside_last hv₂ hq
  have he'' := extend_toNat (b := b₃) (he'.trans_lt (by omega))
  rw [continues_iff] at h₃
  rw [he'] at he''
  obtain ⟨h₁lo, h₁hi, -, -, hshort, hlast⟩ := h₁
  obtain ⟨hgt, hlt⟩ := four_range ha (Nat.mod_lt b₁.toNat (by decide))
    (Nat.mod_lt b₂.toNat (by decide)) (Nat.mod_lt b₃.toNat (by decide))
    (fun h0 => by have := hshort rfl h0; omega) (fun h0 => by have := hlast rfl h0; omega)
  rw [← he''] at hgt hlt
  exact startsChar hlt (.inr (Nat.lt_trans (by decide) hgt)) [b, b₁, b₂, b₃]
    (fun c hc => encodeChar_four (hc.trans he'') hlo hhi ⟨h₁lo, h₁hi⟩ ⟨h₂.1, h₂.2.1⟩
      ⟨h₃.1, h₃.2.1⟩ (hc ▸ hgt)) hv₃

/-- What is read up to the end of a character starts with a character. -/
theorem run_char (h : run ⟨x, 0⟩ (b :: bytes) = some (w, q)) (hq : q.remaining = 0) :
    StartsChar (b :: bytes) w q := by
  obtain ⟨w₁, p, v, hb, hv, rfl⟩ := run_cons.1 h
  obtain ⟨hone, rfl, rfl⟩ | ⟨hlo, hhi, rfl, rfl⟩ | ⟨hlo, hhi, rfl, rfl⟩ | ⟨hlo, hhi, rfl, rfl⟩ :=
    lead_cases hb
  · exact startsChar_one hone hv
  · exact startsChar_two hlo hhi hv hq
  · exact startsChar_three hlo hhi hv hq
  · exact startsChar_four hlo hhi hv hq

/-! ## The sequences that are read -/

theorem run_encode : ∀ (s : List Char) (x : UInt32),
    ∃ q : Pending, run ⟨x, 0⟩ (encode s) = some (s.map Char.val, q) ∧ q.remaining = 0
  | [], x => ⟨⟨x, 0⟩, rfl, rfl⟩
  | c :: s, x => by
    obtain ⟨q, hq, hr⟩ := run_encode s c.val
    exact ⟨q, run_append.2 ⟨_, _, _, run_encodeChar c x, hq, rfl⟩, hr⟩

theorem exists_of_run : ∀ {k : Nat} {bytes : List UInt8} {x : UInt32} {w : List UInt32},
    bytes.length ≤ k → run ⟨x, 0⟩ bytes = some (w, q) → q.remaining = 0 →
    ∃ s, bytes = encode s ∧ w = s.map Char.val
  | _, [], _, _, _, h, _ => by cases h; exact ⟨[], rfl, rfl⟩
  | k + 1, b :: bytes, x, w, hk, h, hq => by
    obtain ⟨c, rest, v, hbytes, rfl, hv⟩ := run_char h hq
    have hlen : rest.length ≤ k := by
      have hpos := List.length_pos_iff.2 (String.utf8EncodeChar_ne_nil (c := c))
      have hsum := congrArg List.length hbytes
      rw [List.length_append] at hsum
      simp only [List.length_cons] at hsum hk
      omega
    obtain ⟨s, rfl, rfl⟩ := exists_of_run hlen hv hq
    exact ⟨c :: s, hbytes, rfl⟩

/-- From between two characters the encodings are what is read to the end of a character. -/
theorem encode_iff (x : UInt32) : (∃ s, bytes = encode s ∧ w = s.map Char.val) ↔
    ∃ q : Pending, run ⟨x, 0⟩ bytes = some (w, q) ∧ q.remaining = 0 := by
  constructor
  · rintro ⟨s, rfl, rfl⟩
    exact run_encode s x
  · rintro ⟨q, h, hq⟩
    exact exists_of_run (Nat.le_refl _) h hq

/-- Behind a byte that is a character there is a character. -/
theorem encode_behind {s : List Char} (h : encode s = bytes ++ b :: rest) (hb : b.toNat < 0x80) :
    ∃ s, rest = encode s := by
  obtain ⟨q, hq, hrem⟩ := run_encode s 0
  rw [h] at hq
  obtain ⟨w₁, p, w₂, -, hp, -⟩ := run_append.1 hq
  obtain ⟨w₃, p', w₄, hnext, hrest, -⟩ := run_cons.1 hp
  obtain ⟨x, n⟩ := p
  cases n with
  | zero =>
    cases (lead_one hb).symm.trans hnext
    obtain ⟨s, hs, -⟩ := exists_of_run (Nat.le_refl _) hrest hrem
    exact ⟨s, hs⟩
  | succ n =>
    have hcont : Continues ⟨x, n + 1⟩ b := by
      by_contra hcont
      simp [next, hcont] at hnext
    exact absurd hcont.1 (by omega)

theorem encode_ascii : ∀ {bytes : List UInt8}, (∀ b ∈ bytes, b.toNat < 0x80) →
    ∃ s, bytes = encode s
  | [], _ => ⟨[], rfl⟩
  | b :: bytes, h => by
    obtain ⟨hb, hbytes⟩ := List.forall_mem_cons.1 h
    obtain ⟨s, hs⟩ := encode_ascii hbytes
    obtain ⟨q, hq, hrem⟩ := run_encode s (UInt32.ofNat b.toNat)
    rw [← hs] at hq
    have hrun : run ⟨0, 0⟩ (b :: bytes) =
        some ([UInt32.ofNat b.toNat] ++ s.map Char.val, q) :=
      run_cons.2 ⟨_, _, _, lead_one hb, hq, rfl⟩
    obtain ⟨s', hs', -⟩ := exists_of_run (Nat.le_refl _) hrun hrem
    exact ⟨s', hs'⟩

end Pending

/-! ## Boundaries -/

section Boundary

open Pending

variable {c : Char} {s : List Char}

/-- The number of bytes that some of the first characters of `s` take. -/
def IsBoundary (s : List Char) (b : Nat) : Prop := ∃ i, b = (encode (s.take i)).length

/-- The lead byte of a character of `n` bytes. -/
def IsLead (b : UInt8) (n : Nat) : Prop :=
  n = 1 ∧ b.toNat < 0x80 ∨ n = 2 ∧ 0xC0 ≤ b.toNat ∧ b.toNat < 0xE0 ∨
    n = 3 ∧ 0xE0 ≤ b.toNat ∧ b.toNat < 0xF0 ∨ n = 4 ∧ 0xF0 ≤ b.toNat ∧ b.toNat < 0xF8

/-- A byte inside a character. -/
def IsTail (b : UInt8) : Prop := 0x80 ≤ b.toNat ∧ b.toNat < 0xC0

theorem isTail_ofNat (n : Nat) : IsTail (UInt8.ofNat (n % 64 + 128)) := by
  rw [IsTail, byte_toNat (by omega)]
  omega

theorem encodeChar_shape (c : Char) : ∃ b rest, String.utf8EncodeChar c = b :: rest ∧
    IsLead b (rest.length + 1) ∧ ∀ x ∈ rest, IsTail x := by
  obtain ⟨hlt, -⟩ := val_toNat c
  simp only [String.utf8EncodeChar]
  generalize c.val.toNat = n at hlt
  split_ifs with h1 h2 h3
  · refine ⟨_, [], rfl, .inl ⟨rfl, ?_⟩, by simp⟩
    rw [byte_toNat (by omega)]
    omega
  · refine ⟨_, [_], rfl, .inr (.inl ⟨rfl, ?_⟩), by
      simp only [List.forall_mem_cons, isTail_ofNat]; simp⟩
    rw [byte_toNat (by omega)]
    omega
  · refine ⟨_, [_, _], rfl, .inr (.inr (.inl ⟨rfl, ?_⟩)), by
      simp only [List.forall_mem_cons, isTail_ofNat]; simp⟩
    rw [byte_toNat (by omega)]
    omega
  · refine ⟨_, [_, _, _], rfl, .inr (.inr (.inr ⟨rfl, ?_⟩)), by
      simp only [List.forall_mem_cons, isTail_ofNat]; simp⟩
    rw [byte_toNat (by omega)]
    omega

theorem encodeChar_length (c : Char) : (String.utf8EncodeChar c).length =
    if c.val.toNat ≤ 0x7F then 1 else if c.val.toNat ≤ 0x7FF then 2
    else if c.val.toNat ≤ 0xFFFF then 3 else 4 := by
  rw [String.utf8EncodeChar]
  split_ifs <;> rfl

/-- An ASCII byte is a character of its own. -/
theorem val_of_mem_encodeChar {b : UInt8} {c : Char} (hb : b ∈ String.utf8EncodeChar c)
    (hlt : b.toNat < 0x80) : c.val.toNat = b.toNat := by
  obtain ⟨lead, tail, hc, hlead, htail⟩ := encodeChar_shape c
  have hlen := encodeChar_length c
  rw [hc] at hb hlen
  rcases List.mem_cons.1 hb with rfl | hb
  · by_cases hone : c.val.toNat ≤ 0x7F
    · rw [String.utf8EncodeChar, if_pos hone] at hc
      rw [← (List.cons.inj hc).1, Pending.byte_toNat (by omega)]
    · rw [if_neg hone, List.length_cons] at hlen
      unfold IsLead at hlead
      split_ifs at hlen <;> omega
  · have hge := (htail b hb).1
    omega

theorem encode_append (s t : List Char) : encode (s ++ t) = encode s ++ encode t := by
  simp [encode]

/-- A cut leaves whole characters and fewer bytes of the next one than it has. -/
theorem encode_take : ∀ (s : List Char) (k : Nat), k ≤ (encode s).length →
    ∃ i p, (encode s).take k = encode (s.take i) ++ p ∧ (encode (s.take i)).length ≤ k ∧
      (p = [] ∨ ∃ c rest, s.drop i = c :: rest ∧ p <+: String.utf8EncodeChar c ∧
        p.length < (String.utf8EncodeChar c).length)
  | [], k, hk => ⟨0, [], by simp, by simp, .inl rfl⟩
  | c :: s, k, hk => by
    by_cases hc : k < (String.utf8EncodeChar c).length
    · refine ⟨0, (String.utf8EncodeChar c).take k, ?_, by simp, .inr ⟨c, s, rfl, ?_, ?_⟩⟩
      · rw [encode_cons, List.take_append_of_le_length (Nat.le_of_lt hc)]
        rfl
      · exact List.take_prefix _ _
      · rw [List.length_take]
        omega
    · rw [encode_cons, List.length_append] at hk
      obtain ⟨i, p, htake, hle, hp⟩ := encode_take s (k - (String.utf8EncodeChar c).length)
        (by omega)
      refine ⟨i + 1, p, ?_, ?_, hp⟩
      · rw [List.take_succ_cons, encode_cons, encode_cons, List.append_assoc, ← htake,
          List.take_append, List.take_of_length_le (Nat.not_lt.1 hc)]
      · rw [List.take_succ_cons, encode_cons, List.length_append]
        omega

/-- Between the first bytes of a character there is no boundary. -/
theorem IsBoundary.le_of_cut {i k b : Nat} {rest : List Char} (hs : s.drop i = c :: rest)
    (hk : k < (encode (s.take i)).length + (String.utf8EncodeChar c).length)
    (hb : IsBoundary s b) (hbk : b ≤ k) : b ≤ (encode (s.take i)).length := by
  obtain ⟨j, rfl⟩ := hb
  have hmono {m n : Nat} (h : m ≤ n) :
      (encode (s.take m)).length ≤ (encode (s.take n)).length := by
    rw [← Nat.add_sub_cancel' h, List.take_add, encode_append, List.length_append]
    exact Nat.le_add_right _ _
  by_cases hj : j ≤ i
  · exact hmono hj
  · have hnext : s.take (i + 1) = s.take i ++ [c] := by
      rw [List.take_add, hs]
      rfl
    have hle := hmono (Nat.lt_of_not_le hj)
    rw [hnext, encode_append, List.length_append] at hle
    simp only [encode_cons, encode_nil, List.append_nil] at hle
    omega

end Boundary

/-! ## Bits -/

theorem mask_eq {b mask : UInt8} {k : Nat} (hmask : mask.toNat = 2 ^ k - 1) :
    (b &&& mask).toUInt32 = UInt32.ofNat (b.toNat % 2 ^ k) := by
  apply UInt32.toNat_inj.1
  have hlt : b.toNat % 2 ^ k < 2 ^ 32 :=
    Nat.lt_of_le_of_lt (Nat.mod_le _ _) (Nat.lt_of_lt_of_le b.toNat_lt (by decide))
  rw [UInt8.toNat_toUInt32, UInt8.toNat_and, hmask, Nat.and_two_pow_sub_one_eq_mod,
    UInt32.toNat_ofNat', Nat.mod_eq_of_lt hlt]

theorem toNat_bits {x mask : UInt32} {k : Nat} (hmask : mask.toNat = 2 ^ k - 1) :
    (x &&& mask).toNat = x.toNat % 2 ^ k := by
  rw [UInt32.toNat_and, hmask, Nat.and_two_pow_sub_one_eq_mod]

theorem toNat_shift_bits {x mask : UInt32} {j : UInt32} {k : Nat} (hj : j.toNat < 32)
    (hmask : mask.toNat = 2 ^ k - 1) :
    ((x >>> j) &&& mask).toNat = x.toNat / 2 ^ j.toNat % 2 ^ k := by
  rw [toNat_bits hmask, UInt32.toNat_shiftRight, Nat.shiftRight_eq_div_pow, Nat.mod_eq_of_lt hj]

/-- Bits side by side. -/
theorem toNat_or_shift {x y j : UInt32} (hj : j.toNat < 32)
    (hx : x.toNat * 2 ^ j.toNat < 2 ^ 32) (hy : y.toNat < 2 ^ j.toNat) :
    ((x <<< j) ||| y).toNat = x.toNat * 2 ^ j.toNat + y.toNat := by
  rw [UInt32.toNat_or, UInt32.toNat_shiftLeft, Nat.mod_eq_of_lt hj, Nat.shiftLeft_eq,
    Nat.mod_eq_of_lt hx, Nat.mul_comm, Nat.two_pow_add_eq_or_of_lt hy]

end Utf8
