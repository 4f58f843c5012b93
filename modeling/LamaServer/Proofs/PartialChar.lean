import LamaServer.Lib.Utf8
import LamaServer.Proofs.GrammarMask
import Mathlib.Tactic.IntervalCases
import Mathlib.Tactic.NormNum

/-!
# Characters that are cut off

The bytes of a character that are known fix its code point up to the last bits, so the characters
that a token may be completed to are the well-formed ones of an interval. The matcher asks if a
range of the class meets the interval. That decides neither whether the common part has a
well-formed character nor, for a negated class, whether the ranges leave one out.
-/

namespace LamaServer

/-- `decode_utf8` is left with this state behind some but not all bytes of the character. -/
def PartialUtf8.CompletesTo (p : PartialUtf8) (c : Char) : Prop :=
  ∃ bytes rest, bytes ≠ [] ∧ rest ≠ [] ∧ String.utf8EncodeChar c = bytes ++ rest ∧
    decodeUtf8 bytes {} = ([0], p)

/-! ## Reading the first bytes -/

section Decode

variable {n k m : Nat} {c : Char} {p : PartialUtf8} {bytes rest text : Text} {value : UInt32}

theorem lead_bits :
    (∀ n < 32, decodeLookup.getD (UInt8.ofNat (n + 192) >>> 4).toNat 0 = 2 ∧
      (UInt8.ofNat (n + 192) &&& 0x3F).toUInt32 = UInt32.ofNat n) ∧
    (∀ n < 16, decodeLookup.getD (UInt8.ofNat (n + 224) >>> 4).toNat 0 = 3 ∧
      (UInt8.ofNat (n + 224) &&& 0x1F).toUInt32 = UInt32.ofNat n) ∧
    (∀ n < 8, decodeLookup.getD (UInt8.ofNat (n + 240) >>> 4).toNat 0 = 4 ∧
      (UInt8.ofNat (n + 240) &&& 0x0F).toUInt32 = UInt32.ofNat n) ∧
    ∀ n < 64, (UInt8.ofNat (n + 128) &&& 0x3F).toUInt32 = UInt32.ofNat n := by
  decide

theorem decodeLoop_lead {b : UInt8} {r : Int} (mask : UInt8) (hr : 0 < r)
    (hlookup : decodeLookup.getD (b >>> 4).toNat 0 = r + 1)
    (hmask : (1 <<< UInt8.ofNat (7 - r).toNat) - 1 = mask) :
    decodeLoop (b :: rest) 0 0 = decodeLoop rest (b &&& mask).toUInt32 r := by
  rw [decodeLoop, hlookup, if_neg (Int.lt_irrefl 0)]
  simp only [Int.add_sub_cancel, hmask, if_neg (Int.not_lt.2 hr.le), if_neg hr.ne']
  cases decodeLoop rest (b &&& mask).toUInt32 r <;> rfl

theorem decodeLoop_tail {b : UInt8} {r : Int} (hr : 1 < r) :
    decodeLoop (b :: rest) value r =
      decodeLoop rest ((value <<< 6) + (b &&& 0x3F).toUInt32) (r - 1) := by
  rw [decodeLoop, if_pos (by omega)]
  simp only [if_neg (show ¬r - 1 < 0 by omega), if_neg (show r - 1 ≠ 0 by omega)]
  cases decodeLoop rest ((value <<< 6) + (b &&& 0x3F).toUInt32) (r - 1) <;> rfl

theorem decodeUtf8_of_loop (hnul : ∀ b ∈ bytes, b ≠ 0)
    (h : decodeLoop bytes 0 0 = some ([], p)) : decodeUtf8 bytes {} = ([0], p) := by
  have htake : bytes.takeWhile (· ≠ 0) = bytes :=
    List.takeWhile_eq_self_iff.2 fun b hb => by simpa using hnul b hb
  have hstart : continueDecode bytes 0 0 = some (bytes, 0, 0) := by
    cases bytes <;> simp [continueDecode]
  rw [decodeUtf8, htake]
  simp only [hstart, h]
  rfl

theorem decodeLoop_two (hn : n < 32) : decodeLoop (UInt8.ofNat (n % 32 + 192) :: rest) 0 0 =
    decodeLoop rest (UInt32.ofNat n) 1 := by
  obtain ⟨hlookup, hbits⟩ := lead_bits.1 n hn
  rw [Nat.mod_eq_of_lt hn, decodeLoop_lead (r := 1) 0x3F (by decide) hlookup rfl, hbits]

theorem decodeLoop_three (hn : n < 16) : decodeLoop (UInt8.ofNat (n % 16 + 224) :: rest) 0 0 =
    decodeLoop rest (UInt32.ofNat n) 2 := by
  obtain ⟨hlookup, hbits⟩ := lead_bits.2.1 n hn
  rw [Nat.mod_eq_of_lt hn, decodeLoop_lead (r := 2) 0x1F (by decide) hlookup rfl, hbits]

theorem decodeLoop_four (hn : n < 8) : decodeLoop (UInt8.ofNat (n % 8 + 240) :: rest) 0 0 =
    decodeLoop rest (UInt32.ofNat n) 3 := by
  obtain ⟨hlookup, hbits⟩ := lead_bits.2.2.1 n hn
  rw [Nat.mod_eq_of_lt hn, decodeLoop_lead (r := 3) 0x0F (by decide) hlookup rfl, hbits]

/-- The bits of a byte inside a character are added. -/
theorem decodeLoop_next {r : Int} (hr : 1 < r) (hm : n / 64 = m) :
    decodeLoop (UInt8.ofNat (n % 64 + 128) :: rest) (UInt32.ofNat m) r =
      decodeLoop rest (UInt32.ofNat n) (r - 1) := by
  have h6 : UInt32.toNat 6 = 6 := rfl
  have hpow : 2 ^ (6 % 32) = 64 := rfl
  rw [decodeLoop_tail hr, lead_bits.2.2.2 _ (Nat.mod_lt _ (by decide))]
  congr 1
  apply UInt32.toNat_inj.1
  simp only [UInt32.toNat_add, UInt32.toNat_shiftLeft, UInt32.toNat_ofNat', h6, Nat.shiftLeft_eq,
    hpow]
  omega

/-- Behind all but `r` bytes of a character, its last `6 * r` bits are missing. -/
def missing (n r : Nat) : PartialUtf8 := ⟨UInt32.ofNat (n / 64 ^ r), r⟩

/-- Where a text can be cut before its last byte. -/
theorem cut_cases {b : UInt8} (h : b :: bytes = text ++ rest) :
    text = [] ∧ rest = b :: bytes ∨ ∃ text', text = b :: text' ∧ bytes = text' ++ rest := by
  cases text with
  | nil => exact .inl ⟨rfl, h.symm⟩
  | cons x text =>
    rw [List.cons_append, List.cons.injEq] at h
    exact .inr ⟨text, by rw [h.1], h.2⟩

theorem decodeLoop_missing (hn : c.val.toNat = n) {bytes rest : Text} (hbytes : bytes ≠ [])
    (hrest : rest ≠ []) (h : String.utf8EncodeChar c = bytes ++ rest) :
    decodeLoop bytes 0 0 = some ([], missing n rest.length) := by
  obtain ⟨hlt, -⟩ := Utf8.Pending.val_toNat c
  have hnil {text : Text} (h : [] = text ++ rest) : False :=
    hrest (List.append_eq_nil_iff.1 h.symm).2
  rw [String.utf8EncodeChar, hn] at h
  rw [hn] at hlt
  split_ifs at h with h1 h2 h3
  · rcases cut_cases h with ⟨rfl, -⟩ | ⟨text, rfl, h'⟩
    · exact absurd rfl hbytes
    · exact (hnil h').elim
  · rcases cut_cases h with ⟨rfl, -⟩ | ⟨text, rfl, h'⟩
    · exact absurd rfl hbytes
    rw [decodeLoop_two (by omega)]
    rcases cut_cases h' with ⟨rfl, rfl⟩ | ⟨text, rfl, h''⟩
    · simp [decodeLoop, missing]
    · exact (hnil h'').elim
  · rcases cut_cases h with ⟨rfl, -⟩ | ⟨text, rfl, h'⟩
    · exact absurd rfl hbytes
    rw [decodeLoop_three (by omega)]
    rcases cut_cases h' with ⟨rfl, rfl⟩ | ⟨text, rfl, h''⟩
    · simp [decodeLoop, missing]
    rw [decodeLoop_next (by decide) (by omega)]
    rcases cut_cases h'' with ⟨rfl, rfl⟩ | ⟨text, rfl, h'''⟩
    · simp [decodeLoop, missing]
    · exact (hnil h''').elim
  · rcases cut_cases h with ⟨rfl, -⟩ | ⟨text, rfl, h'⟩
    · exact absurd rfl hbytes
    rw [decodeLoop_four (by omega)]
    rcases cut_cases h' with ⟨rfl, rfl⟩ | ⟨text, rfl, h''⟩
    · simp [decodeLoop, missing]
    rw [decodeLoop_next (by decide) (by omega)]
    rcases cut_cases h'' with ⟨rfl, rfl⟩ | ⟨text, rfl, h'''⟩
    · simp [decodeLoop, missing]
    rw [decodeLoop_next (by decide) (by omega)]
    rcases cut_cases h''' with ⟨rfl, rfl⟩ | ⟨text, rfl, h''''⟩
    · simp [decodeLoop, missing]
    · exact (hnil h'''').elim

/-- A character of more than one byte has no NUL among them. -/
theorem ne_zero_of_mem (hlen : 1 < (String.utf8EncodeChar c).length) :
    ∀ b ∈ String.utf8EncodeChar c, b ≠ 0 := by
  obtain ⟨b, rest, hc, hlead, htail⟩ := Utf8.encodeChar_shape c
  have hzero : UInt8.toNat 0 = 0 := rfl
  rw [hc, List.length_cons] at hlen
  rw [hc, List.forall_mem_cons]
  refine ⟨?_, fun x hx => ?_⟩
  · rintro rfl
    unfold Utf8.IsLead at hlead
    omega
  · rintro rfl
    obtain ⟨hlo, -⟩ := htail 0 hx
    omega

theorem completesTo_iff : p.CompletesTo c ↔
    ∃ r, 0 < r ∧ r < (String.utf8EncodeChar c).length ∧ p = missing c.val.toNat r := by
  refine ⟨fun ⟨bytes, rest, hbytes, hrest, h, hp⟩ => ?_, fun ⟨r, hpos, hlt, hp⟩ => ?_⟩
  · have hlen := congrArg List.length h
    have hpos := List.length_pos_iff.2 hbytes
    have hpos' := List.length_pos_iff.2 hrest
    rw [List.length_append] at hlen
    have hnul (b : UInt8) (hb : b ∈ bytes) : b ≠ 0 :=
      ne_zero_of_mem (by omega) b (h ▸ List.mem_append_left _ hb)
    rw [decodeUtf8_of_loop hnul (decodeLoop_missing rfl hbytes hrest h)] at hp
    exact ⟨rest.length, hpos', by omega, (Prod.mk.inj hp).2.symm⟩
  · generalize hbytes :
      (String.utf8EncodeChar c).take ((String.utf8EncodeChar c).length - r) = bytes
    generalize hrest :
      (String.utf8EncodeChar c).drop ((String.utf8EncodeChar c).length - r) = rest
    have h : String.utf8EncodeChar c = bytes ++ rest := by
      rw [← hbytes, ← hrest, List.take_append_drop]
    have hlen : bytes.length = (String.utf8EncodeChar c).length - r := by
      rw [← hbytes, List.length_take]
      omega
    have hlen' : rest.length = r := by
      rw [← hrest, List.length_drop]
      omega
    have hne : bytes ≠ [] := List.length_pos_iff.1 (by omega)
    have hne' : rest ≠ [] := List.length_pos_iff.1 (by omega)
    have hnul (b : UInt8) (hb : b ∈ bytes) : b ≠ 0 :=
      ne_zero_of_mem (by omega) b (h ▸ List.mem_append_left _ hb)
    refine ⟨bytes, rest, hne, hne', h, ?_⟩
    rw [decodeUtf8_of_loop hnul (decodeLoop_missing rfl hne hne' h), hp, hlen']

theorem missing_inj {m r r' : Nat} (hn : n < 2 ^ 32) (hm : m < 2 ^ 32) :
    missing n r = missing m r' ↔ r = r' ∧ n / 64 ^ r = m / 64 ^ r := by
  have hlt {a b : Nat} (ha : a < 2 ^ 32) : a / 64 ^ b < 2 ^ 32 := (Nat.div_le_self ..).trans_lt ha
  rw [missing, missing, PartialUtf8.mk.injEq, Int.natCast_inj, ← UInt32.toNat_inj,
    UInt32.toNat_ofNat', UInt32.toNat_ofNat', Nat.mod_eq_of_lt (hlt hn), Nat.mod_eq_of_lt (hlt hm)]
  refine ⟨fun ⟨hv, hr⟩ => ⟨hr, hr ▸ hv⟩, fun ⟨hr, hv⟩ => ⟨hr ▸ hv, hr⟩⟩

end Decode

/-- The least code point that the missing bits can complete a state to, and the greatest. A code
point that has a shorter encoding is none. -/
def PartialUtf8.low (p : PartialUtf8) : Nat :=
  let least := p.value.toNat * 64 ^ p.nRemain.toNat
  if least = 0 ∧ p.nRemain = 2 then 0x800 else if least = 0 ∧ p.nRemain = 3 then 0x10000 else least

def PartialUtf8.high (p : PartialUtf8) : Nat :=
  p.value.toNat * 64 ^ p.nRemain.toNat + (64 ^ p.nRemain.toNat - 1)

/-- The characters of an interval are those that complete the state. -/
theorem PartialUtf8.CompletesTo.iff_interval {p : PartialUtf8} {c : Char} (h : p.CompletesTo c)
    (d : Char) : p.CompletesTo d ↔ p.low ≤ d.val.toNat ∧ d.val.toNat ≤ p.high := by
  obtain ⟨r, hpos, hlen, rfl⟩ := completesTo_iff.1 h
  obtain ⟨hc, -⟩ := Utf8.Pending.val_toNat c
  obtain ⟨hd, -⟩ := Utf8.Pending.val_toNat d
  have hfour : r < 4 := by
    rw [Utf8.encodeChar_length] at hlen
    split_ifs at hlen <;> omega
  have hd_iff : (missing c.val.toNat r).CompletesTo d ↔
      r < (String.utf8EncodeChar d).length ∧ c.val.toNat / 64 ^ r = d.val.toNat / 64 ^ r := by
    rw [completesTo_iff]
    refine ⟨fun ⟨r', hpos', hlt, heq⟩ => ?_, fun ⟨hlt, heq⟩ => ⟨r, hpos, hlt, ?_⟩⟩
    · obtain ⟨rfl, hv⟩ := (missing_inj (by omega) (by omega)).1 heq
      exact ⟨hlt, hv⟩
    · exact (missing_inj (by omega) (by omega)).2 ⟨rfl, heq⟩
  have hvalue : (missing c.val.toNat r).value.toNat = c.val.toNat / 64 ^ r := by
    rw [missing, UInt32.toNat_ofNat']
    exact Nat.mod_eq_of_lt ((Nat.div_le_self ..).trans_lt (by omega))
  rw [hd_iff, PartialUtf8.low, PartialUtf8.high, hvalue]
  rw [Utf8.encodeChar_length] at hlen ⊢
  simp only [missing, Int.toNat_natCast]
  interval_cases r
  · norm_num at hlen ⊢
    split_ifs at hlen ⊢ <;> omega
  · norm_num at hlen ⊢
    split_ifs at hlen ⊢ <;> omega
  · norm_num at hlen ⊢
    split_ifs at hlen ⊢ <;> omega

/-! ## The matcher -/

section Match

variable {p : PartialUtf8} {c : Char} {k : CharClass} {n : Nat} {pos : GrammarPos}
  {form : Cfg.Form Nat CharClass}

theorem toNat_shiftLeft {x j : UInt32} (hj : j.toNat < 32) (hx : x.toNat * 2 ^ j.toNat < 2 ^ 32) :
    (x <<< j).toNat = x.toNat * 2 ^ j.toNat := by
  rw [UInt32.toNat_shiftLeft, Nat.mod_eq_of_lt hj, Nat.shiftLeft_eq, Nat.mod_eq_of_lt hx]

/-- The bounds that the matcher computes, the lower one before it is raised. -/
theorem bounds_toNat {j : UInt32} (hj : j = UInt32.ofNat (p.nRemain.toNat * 6))
    (hlt : p.nRemain.toNat < 4) (hv : p.value.toNat * 64 ^ p.nRemain.toNat < 2 ^ 32) :
    (p.value <<< j).toNat = p.value.toNat * 64 ^ p.nRemain.toNat ∧
      ((p.value <<< j) ||| ((1 <<< j) - 1)).toNat = p.high := by
  have hpow : 64 ^ p.nRemain.toNat = 2 ^ (p.nRemain.toNat * 6) := by
    rw [Nat.mul_comm, Nat.pow_mul]
  have hjn : j.toNat = p.nRemain.toNat * 6 := by
    rw [hj, UInt32.toNat_ofNat']
    omega
  have hone : ((1 <<< j) - 1 : UInt32).toNat = 64 ^ p.nRemain.toNat - 1 := by
    subst hj
    generalize p.nRemain.toNat = r at hlt
    interval_cases r <;> rfl
  have hfits : p.value.toNat * 2 ^ j.toNat < 2 ^ 32 := by
    rw [hjn, ← hpow]
    exact hv
  have hsmall : ((1 <<< j) - 1 : UInt32).toNat < 2 ^ j.toNat := by
    rw [hone, hjn, hpow]
    exact Nat.sub_lt (Nat.two_pow_pos _) Nat.one_pos
  rw [toNat_shiftLeft (by omega) hfits, Utf8.toNat_or_shift (by omega) hfits hsmall, hone, hjn,
    hpow, PartialUtf8.high]
  exact ⟨rfl, by rw [hpow]⟩

/-- A range of the class meets the interval. -/
def CharClass.Meets (k : CharClass) (p : PartialUtf8) : Prop :=
  ∃ r ∈ k.ranges, r.1.toNat ≤ p.high ∧ p.low ≤ r.2.toNat

theorem mayContain_iff (h : p.CompletesTo c) : k.mayContain p = true ↔
    (k.Meets p ↔ k.negated = false) := by
  obtain ⟨r, hpos, hlen, hp⟩ := completesTo_iff.1 h
  obtain ⟨hc, -⟩ := Utf8.Pending.val_toNat c
  rw [Utf8.encodeChar_length] at hlen
  have hr : p.nRemain = r := by rw [hp, missing]
  have hvalue : p.value.toNat = c.val.toNat / 64 ^ r := by
    rw [hp, missing, UInt32.toNat_ofNat']
    exact Nat.mod_eq_of_lt ((Nat.div_le_self ..).trans_lt (by omega))
  have hfour : r < 4 := by split_ifs at hlen <;> omega
  have hguard : ¬(p.nRemain < 0 ∨ p.nRemain = 1 ∧ p.value < 2) := by
    have htwo : UInt32.toNat 2 = 2 := rfl
    rw [UInt32.lt_iff_toNat_lt, hr, hvalue, htwo]
    rintro (hneg | ⟨hone, hlt⟩)
    · omega
    · obtain rfl : r = 1 := by omega
      rw [Nat.pow_one] at hlt
      split_ifs at hlen <;> omega
  have hv : p.value.toNat * 64 ^ p.nRemain.toNat < 2 ^ 32 := by
    rw [hr, Int.toNat_natCast, hvalue]
    exact (Nat.div_mul_le_self ..).trans_lt (by omega)
  obtain ⟨hlow, hhigh⟩ := bounds_toNat rfl (by rw [hr, Int.toNat_natCast]; exact hfour) hv
  rw [CharClass.mayContain, if_neg hguard]
  dsimp only
  generalize p.value <<< UInt32.ofNat (p.nRemain.toNat * 6) = least at hlow hhigh
  have hraised : (if least = 0 ∧ p.nRemain = 2 then (1 : UInt32) <<< 11
      else if least = 0 ∧ p.nRemain = 3 then (1 : UInt32) <<< 16 else least).toNat = p.low := by
    have hzero : least = 0 ↔ p.value.toNat * 64 ^ p.nRemain.toNat = 0 := by
      rw [← hlow, ← UInt32.toNat_inj]
      rfl
    rw [PartialUtf8.low, ← hlow]
    simp only [hzero, ← hlow]
    split_ifs <;> rfl
  have hmeets : (k.ranges.any fun r =>
      r.1 ≤ least ||| ((1 <<< UInt32.ofNat (p.nRemain.toNat * 6)) - 1) ∧
      (if least = 0 ∧ p.nRemain = 2 then (1 : UInt32) <<< 11
        else if least = 0 ∧ p.nRemain = 3 then (1 : UInt32) <<< 16 else least) ≤ r.2) = true ↔
      k.Meets p := by
    simp only [List.any_eq_true, decide_eq_true_eq, UInt32.le_iff_toNat_le, hraised, hhigh,
      CharClass.Meets]
  rw [beq_iff_eq, Bool.eq_iff_iff, hmeets, Bool.not_eq_true']

/-- A range and the interval have a well-formed character in common. -/
def PartialUtf8.Shares (p : PartialUtf8) (r : UInt32 × UInt32) : Prop :=
  let first := max p.low r.1.toNat
  let last := min p.high r.2.toNat
  first ≤ last ∧ first ≤ 0x10FFFF ∧ ¬(0xD800 ≤ first ∧ last ≤ 0xDFFF)

/-- It is no accident that a range of the class meets the interval: one of a positive class has a
well-formed character in common with it, and those of a negated class have them all. -/
def CharClass.Tells (k : CharClass) (p : PartialUtf8) : Prop :=
  k.Meets p →
    (k.negated = false → ∃ r ∈ k.ranges, p.Shares r) ∧
    (k.negated = true → ∀ c : Char, p.low ≤ c.val.toNat → c.val.toNat ≤ p.high →
      ∃ r ∈ k.ranges, r.1 ≤ c.val ∧ c.val ≤ r.2)

theorem shares_iff (p : PartialUtf8) (r : UInt32 × UInt32) : p.Shares r ↔
    ∃ c : Char, (p.low ≤ c.val.toNat ∧ c.val.toNat ≤ p.high) ∧ r.1 ≤ c.val ∧ c.val ≤ r.2 := by
  unfold PartialUtf8.Shares
  simp only [UInt32.le_iff_toNat_le]
  refine ⟨fun ⟨hle, hlast, hsur⟩ => ?_, fun ⟨c, hc, hr⟩ => ?_⟩
  · by_cases hfirst : max p.low r.1.toNat < 0xD800 ∨ 0xDFFF < max p.low r.1.toNat
    · obtain ⟨c, hc⟩ := Utf8.Pending.exists_char (Nat.lt_succ_of_le hlast) hfirst
      exact ⟨c, by omega⟩
    · obtain ⟨c, hc⟩ := Utf8.Pending.exists_char (n := 0xE000) (by decide) (.inr (by decide))
      exact ⟨c, by omega⟩
  · obtain ⟨hlt, hsur⟩ := Utf8.Pending.val_toNat c
    omega

/-- A partial character is taken to match a class exactly where a completion of it does, unless the
ranges that meet its interval tell nothing. -/
theorem matchPartialChar_iff (hpos : pos.Valid n) (hk : pos.symbols = .char k :: form)
    (hp : ∃ c, p.CompletesTo c) :
    ((pos.matchPartialChar p = .ok true ↔
      ∃ c : Char, p.CompletesTo c ∧ ∃ next, pos.matchChar c.val = .ok (true, next)) ↔
    k.Tells p) := by
  obtain ⟨c, hc⟩ := hp
  have hinterval := hc.iff_interval
  have hcode : pos.matchPartialChar p = .ok true ↔ (k.Meets p ↔ k.negated = false) := by
    rw [hpos.matchPartialChar hk, Except.ok.injEq, mayContain_iff hc]
  have hmatch (d : Char) : (∃ next, pos.matchChar d.val = .ok (true, next)) ↔
      k.Contains d.val := by
    obtain ⟨b, next, hmatch, hb, -⟩ := hpos.matchChar hk d.val
    rw [hmatch, ← hb]
    simp
  have hmeets {d : Char} {r : UInt32 × UInt32} (hd : p.CompletesTo d) (hr : r ∈ k.ranges)
      (hin : r.1 ≤ d.val ∧ d.val ≤ r.2) : k.Meets p := by
    have hbounds := (hinterval d).1 hd
    simp only [UInt32.le_iff_toNat_le] at hin
    exact ⟨r, hr, by omega, by omega⟩
  rw [hcode]
  simp only [hmatch, CharClass.Contains, CharClass.Tells]
  rcases hneg : k.negated with _ | _
  · have hshares : (∃ d : Char, p.CompletesTo d ∧ ∃ r ∈ k.ranges, r.1 ≤ d.val ∧ d.val ≤ r.2) ↔
        ∃ r ∈ k.ranges, p.Shares r := by
      simp only [shares_iff, hinterval]
      constructor
      · rintro ⟨d, hd, r, hr, hin⟩
        exact ⟨r, hr, d, hd, hin⟩
      · rintro ⟨r, hr, d, hd, hin⟩
        exact ⟨d, hd, r, hr, hin⟩
    have himp : (∃ r ∈ k.ranges, p.Shares r) → k.Meets p := by
      rw [← hshares]
      rintro ⟨d, hd, r, hr, hin⟩
      exact hmeets hd hr hin
    simp only [iff_true, hshares, true_imp_iff, Bool.false_eq_true, false_imp_iff, and_true]
    exact ⟨Iff.mp, fun h => ⟨h, himp⟩⟩
  · simp only [Bool.true_eq_false, iff_false, false_imp_iff, true_imp_iff, true_and]
    by_cases hm : k.Meets p
    · simp only [hm, not_true_eq_false, false_iff, true_imp_iff]
      refine ⟨fun h d hlo hhi => ?_, fun h => ?_⟩
      · by_contra hout
        exact h ⟨d, (hinterval d).2 ⟨hlo, hhi⟩, hout⟩
      · rintro ⟨d, hd, hout⟩
        obtain ⟨hlo, hhi⟩ := (hinterval d).1 hd
        exact hout (h d hlo hhi)
    · simp only [hm, not_false_eq_true, true_iff, false_imp_iff, iff_true]
      refine ⟨c, hc, ?_⟩
      rintro ⟨r, hr, hin⟩
      exact hm (hmeets hc hr hin)

theorem completesTo_e : PartialUtf8.CompletesTo ⟨3, 1⟩ 'è' :=
  ⟨[0xC3], [0xA8], by decide, by decide, rfl, by decide⟩

/-- `[a]` with the first byte of `è`. -/
theorem matchPartialChar_iff_literal :
    ((GrammarPos.matchPartialChar [.char 97, .endRule] ⟨3, 1⟩ = .ok true ↔
      ∃ c : Char, PartialUtf8.CompletesTo ⟨3, 1⟩ c ∧
        ∃ next, GrammarPos.matchChar [.char 97, .endRule] c.val = .ok (true, next)) ↔
    CharClass.Tells ⟨false, [(97, 97)]⟩ ⟨3, 1⟩) :=
  matchPartialChar_iff ((acceptGrammar_valid accept_literal).1 _ (List.mem_singleton_self _)) rfl
    ⟨'è', completesTo_e⟩

/-- `[^é]` does not match the first byte of `è`. -/
theorem not_matchPartialChar : PartialUtf8.CompletesTo ⟨3, 1⟩ 'è' ∧
    GrammarPos.matchChar [.charNot 0xE9, .endRule] 'è'.val = .ok (true, [.endRule]) ∧
    GrammarPos.matchPartialChar [.charNot 0xE9, .endRule] ⟨3, 1⟩ = .ok false :=
  ⟨completesTo_e, by decide, by decide⟩

end Match

end LamaServer
