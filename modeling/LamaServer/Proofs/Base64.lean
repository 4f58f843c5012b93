import LamaServer.Base64
import LamaServer.Lib.Base64
import Mathlib.Data.List.TakeWhile

/-!
# Base 64 is decoded

The buffer of four holds the characters of a group that is not complete, and everything before it is
in the result, so four characters at a time are a step of the decoding. The characters are counted
down in an `int`: in a string whose length is none, the decoding ends too early or has no defined
end, unless its characters end first.
-/

namespace LamaServer

open Base64

variable {c : UInt8} {s w : Text} {st : Base64State} {n : Nat} {m : Int}

theorem isBase64_iff : isBase64 c = true ↔ c ∈ alphabet := by
  rw [mem_alphabet_iff]
  simp only [isBase64, isAlnum, decide_eq_true_eq, UInt8.le_iff_toNat_le, ← UInt8.toNat_inj,
    show (ascii '0').toNat = 48 from rfl, show (ascii '9').toNat = 57 from rfl,
    show (ascii 'A').toNat = 65 from rfl, show (ascii 'Z').toNat = 90 from rfl,
    show (ascii 'a').toNat = 97 from rfl, show (ascii 'z').toNat = 122 from rfl,
    show (ascii '+').toNat = 43 from rfl, show (ascii '/').toNat = 47 from rfl]
  omega

theorem ne_pad_of_isBase64 (h : isBase64 c = true) : c ≠ ascii '=' := by
  rintro rfl
  exact pad_notMem (isBase64_iff.1 h)

theorem base64Chars_eq : base64Chars = alphabet := rfl

attribute [local irreducible] base64Chars alphabet

theorem base64Find_digit (h : n < 64) : base64Find (digit n) = UInt8.ofNat n := by
  have hidx : base64Chars.idxOf? (digit n) = some n := by
    rw [base64Chars_eq, List.idxOf?_eq_some_iff]
    refine ⟨length_alphabet ▸ h, (digit_eq _).symm, fun j hj heq => ?_⟩
    rw [digit_eq (length_alphabet ▸ h), nodup_alphabet.getElem_inj_iff] at heq
    omega
  rw [base64Find, hidx]

/-- The bits of a number below 64. -/
theorem bits_of_lt : ∀ n < 64, UInt8.ofNat n <<< 2 = UInt8.ofNat (n * 4) ∧
    (UInt8.ofNat n &&& 0x30) >>> 4 = UInt8.ofNat (n / 16) ∧
    (UInt8.ofNat n &&& 0xf) <<< 4 = UInt8.ofNat (n % 16 * 16) ∧
    (UInt8.ofNat n &&& 0x3c) >>> 2 = UInt8.ofNat (n / 4) ∧
    (UInt8.ofNat n &&& 0x3) <<< 6 = UInt8.ofNat (n % 4 * 64) := by
  decide

/-- The bits of a digit. -/
theorem digit_bits (n : Nat) (h : n < 64) : base64Find (digit n) = UInt8.ofNat n ∧
    UInt8.ofNat n <<< 2 = UInt8.ofNat (n * 4) ∧
    (UInt8.ofNat n &&& 0x30) >>> 4 = UInt8.ofNat (n / 16) ∧
    (UInt8.ofNat n &&& 0xf) <<< 4 = UInt8.ofNat (n % 16 * 16) ∧
    (UInt8.ofNat n &&& 0x3c) >>> 2 = UInt8.ofNat (n / 4) ∧
    (UInt8.ofNat n &&& 0x3) <<< 6 = UInt8.ofNat (n % 4 * 64) :=
  ⟨base64Find_digit h, bits_of_lt n h⟩

section Group

variable {a b d : UInt8}

theorem first_byte (ha : a ∈ alphabet) (hb : b ∈ alphabet) :
    (base64Find a <<< 2) + ((base64Find b &&& 0x30) >>> 4) =
      UInt8.ofNat ((value a * 64 + value b) / 16) := by
  obtain ⟨i, hi, rfl⟩ := exists_digit ha
  obtain ⟨j, hj, rfl⟩ := exists_digit hb
  obtain ⟨hi₁, hi₂, -⟩ := digit_bits i hi
  obtain ⟨hj₁, -, hj₂, -⟩ := digit_bits j hj
  rw [hi₁, hi₂, hj₁, hj₂, value_digit hi, value_digit hj, ← UInt8.ofNat_add]
  refine congrArg UInt8.ofNat ?_
  omega

theorem second_byte (hb : b ∈ alphabet) (hc : c ∈ alphabet) :
    ((base64Find b &&& 0xf) <<< 4) + ((base64Find c &&& 0x3c) >>> 2) =
      UInt8.ofNat ((value b * 64 + value c) / 4 % 256) := by
  obtain ⟨i, hi, rfl⟩ := exists_digit hb
  obtain ⟨j, hj, rfl⟩ := exists_digit hc
  obtain ⟨hi₁, -, -, hi₂, -⟩ := digit_bits i hi
  obtain ⟨hj₁, -, -, -, hj₂, -⟩ := digit_bits j hj
  rw [hi₁, hi₂, hj₁, hj₂, value_digit hi, value_digit hj, ← UInt8.ofNat_add]
  refine congrArg UInt8.ofNat ?_
  omega

theorem third_byte (hc : c ∈ alphabet) (hd : d ∈ alphabet) :
    ((base64Find c &&& 0x3) <<< 6) + base64Find d =
      UInt8.ofNat ((value c * 64 + value d) % 256) := by
  obtain ⟨i, hi, rfl⟩ := exists_digit hc
  obtain ⟨j, hj, rfl⟩ := exists_digit hd
  obtain ⟨hi₁, -, -, -, -, hi₂⟩ := digit_bits i hi
  obtain ⟨hj₁, -⟩ := digit_bits j hj
  rw [hi₁, hi₂, hj₁, value_digit hi, value_digit hj, ← UInt8.ofNat_add]
  refine congrArg UInt8.ofNat ?_
  omega

theorem base64Group_two (ha : a ∈ alphabet) (hb : b ∈ alphabet) :
    (base64Group [a, b, 0, 0]).take 1 = decode [a, b] :=
  congrArg (fun x => [x]) (first_byte ha hb)

theorem base64Group_three (ha : a ∈ alphabet) (hb : b ∈ alphabet) (hc : c ∈ alphabet) :
    (base64Group [a, b, c, 0]).take 2 = decode [a, b, c] := by
  have hvalue := value_lt hc
  refine congrArg₂ (fun x y => [x, y]) ((first_byte ha hb).trans ?_) ((second_byte hb hc).trans ?_)
  · congr 1
    omega
  · congr 1
    omega

theorem base64Group_four (ha : a ∈ alphabet) (hb : b ∈ alphabet) (hc : c ∈ alphabet)
    (hd : d ∈ alphabet) : base64Group [a, b, c, d] = decode [a, b, c, d] := by
  have hvalue := value_lt hc
  have hvalue' := value_lt hd
  rw [decode]
  refine congrArg₂ List.cons ((first_byte ha hb).trans (congrArg _ ?_))
    (congrArg₂ List.cons ((second_byte hb hc).trans (congrArg _ ?_))
      (congrArg₂ List.cons ((third_byte hc hd).trans (congrArg _ ?_)) decode.eq_1.symm))
  · omega
  · omega
  · omega

end Group

namespace Base64State

/-- What the groups of `w` add, and what is left of them. -/
theorem finish_foldl : ∀ (w ret : Text), (∀ c ∈ w, c ∈ alphabet) →
    (w.foldl push ⟨[], ret⟩).finish = ret ++ decode w
  | [], ret, _ | [_], ret, _ => by
    simp [push, finish, decode]
  | [a, b], ret, h => by
    simp only [List.forall_mem_cons] at h
    simp [push, finish, base64Group_two h.1 h.2.1]
  | [a, b, c], ret, h => by
    simp only [List.forall_mem_cons] at h
    simp [push, finish, base64Group_three h.1 h.2.1 h.2.2.1]
  | a :: b :: c :: d :: w, ret, h => by
    simp only [List.forall_mem_cons] at h
    have hgroup : [a, b, c, d].foldl push ⟨[], ret⟩ = ⟨[], ret ++ decode [a, b, c, d]⟩ := by
      simp [push, base64Group_four h.1 h.2.1 h.2.2.1 h.2.2.2.1]
    rw [show a :: b :: c :: d :: w = [a, b, c, d] ++ w from rfl, List.foldl_append, hgroup,
      finish_foldl w _ h.2.2.2.2, List.append_assoc]
    simp only [decode, List.cons_append, List.nil_append]

/-- The loop with a count that is not negative. -/
theorem loop_of_nonneg : ∀ (rest : Text) (m : Nat) (st : Base64State),
    loop m st rest = some (((rest.takeWhile isBase64).take m).foldl push st)
  | rest, 0, st => by
    unfold loop
    simp
  | [], m + 1, st => by
    unfold loop
    rw [if_neg (by omega), if_neg (by omega)]
    simp
  | c :: rest, m + 1, st => by
    unfold loop
    rw [if_neg (by omega), if_neg (by omega)]
    by_cases hc : isBase64 c
    · have hpred : ((m + 1 : Nat) : Int) - 1 = m := by omega
      rw [List.takeWhile_cons_of_pos hc, List.take_succ_cons, List.foldl_cons,
        ← loop_of_nonneg rest m (st.push c), ← hpred]
      exact if_pos ⟨ne_pad_of_isBase64 hc, hc⟩
    · rw [List.takeWhile_cons_of_neg hc]
      exact if_neg fun h => hc h.2

/-- The loop with a negative count, which ends when the characters do or when it overflows. -/
theorem loop_of_neg : ∀ (rest : Text) (m : Int) (st : Base64State), -2 ^ 31 ≤ m → m < 0 →
    loop m st rest = if ((rest.takeWhile isBase64).length : Int) < m + 2 ^ 31 then
      some ((rest.takeWhile isBase64).foldl push st) else none
  | [], m, st, hlo, hneg => by
    unfold loop
    rw [if_neg (by omega), List.takeWhile_nil, List.length_nil]
    by_cases hm : m = -2 ^ 31
    · rw [if_pos hm, if_neg (by omega)]
    · rw [if_neg hm, if_pos (by omega)]
      rfl
  | c :: rest, m, st, hlo, hneg => by
    unfold loop
    rw [if_neg (by omega)]
    by_cases hm : m = -2 ^ 31
    · rw [if_pos hm, if_neg (by omega)]
    · rw [if_neg hm]
      by_cases hc : isBase64 c
      · rw [List.takeWhile_cons_of_pos hc]
        refine (if_pos ⟨ne_pad_of_isBase64 hc, hc⟩).trans ?_
        rw [loop_of_neg rest (m - 1) (st.push c) (by omega) (by omega), List.length_cons]
        exact if_congr (by omega) rfl rfl
      · rw [List.takeWhile_cons_of_neg hc, List.length_nil, if_pos (by omega)]
        exact if_neg fun h => hc h.2

end Base64State

theorem base64InLen_eq (hs : s.length = n) : base64InLen s = Int.bmod n (2 ^ 32) := by
  rw [← hs]
  rfl

theorem base64InLen_ge (s : Text) : -2 ^ 31 ≤ base64InLen s := Int.le_bmod (by decide)

theorem base64InLen_of_lt (h : s.length < 2 ^ 31) : base64InLen s = s.length :=
  Int.bmod_eq_of_le (by omega) (by omega)

theorem bmod_le (h : 2 ^ 31 ≤ n) : Int.bmod n (2 ^ 32) ≤ n - 2 ^ 32 := by
  rw [Int.bmod_def]
  split
  · omega
  · omega

theorem base64InLen_le (h : 2 ^ 31 ≤ s.length) : base64InLen s ≤ s.length - 2 ^ 32 := bmod_le h

/-- The number of bytes of the string, kept in an `int`, lasts for the characters to decode. -/
def CountLasts (s : Text) : Prop :=
  let count := base64InLen s
  let n := (s.takeWhile isBase64).length
  (0 ≤ count → n ≤ count ∨ count % 4 = 0 ∧ n = count + 1) ∧ (count < 0 → n < count + 2 ^ 31)

theorem countLasts_iff (hm : base64InLen s = m) : CountLasts s ↔
    (0 ≤ m → (s.takeWhile isBase64).length ≤ m ∨
      m % 4 = 0 ∧ (s.takeWhile isBase64).length = m + 1) ∧
    (m < 0 → (s.takeWhile isBase64).length < m + 2 ^ 31) := by
  rw [← hm]
  exact Iff.rfl

theorem countLasts_of_lt (h : s.length < 2 ^ 31) : CountLasts s := by
  have hle := (List.takeWhile_prefix (l := s) isBase64).length_le
  rw [countLasts_iff (base64InLen_of_lt h)]
  omega

/-- Taking too few of the characters is no harm where the next one starts a group and is the
last. -/
theorem decode_take_iff : decode (w.take n) = decode w ↔
    w.length ≤ n ∨ n % 4 = 0 ∧ w.length = n + 1 := by
  rcases Nat.lt_or_ge n w.length with hlt | hge
  · refine ⟨fun h => ?_, fun h => ?_⟩
    · have hlen := congrArg List.length h
      rw [length_decode, length_decode, List.length_take, Nat.min_eq_left hlt.le] at hlen
      have hnext : w.length = n + 1 := by omega
      exact .inr ⟨by omega, hnext⟩
    · obtain ⟨hmod, hlen⟩ := h.resolve_left (by omega)
      obtain ⟨u, c, rfl⟩ : ∃ u c, w = u ++ [c] :=
        ⟨w.dropLast, w.getLast (by rintro rfl; simp at hlen), (List.dropLast_append_getLast _).symm⟩
      rw [List.length_append, List.length_singleton, Nat.add_right_cancel_iff] at hlen
      subst hlen
      rw [List.take_left, decode_concat hmod]
  · rw [List.take_of_length_le hge]
    simp [hge]

theorem base64Decode_eq (s : Text) : base64Decode s = some (decode (s.takeWhile isBase64)) ↔
    CountLasts s := by
  have hlo := base64InLen_ge s
  have hmem : ∀ c ∈ s.takeWhile isBase64, c ∈ alphabet :=
    fun c hc => isBase64_iff.1 (List.mem_takeWhile_imp hc)
  unfold base64Decode
  generalize hm : base64InLen s = m at hlo
  rw [countLasts_iff hm]
  by_cases hneg : m < 0
  · rw [Base64State.loop_of_neg s _ _ hlo hneg]
    split_ifs with h
    · rw [Option.map_some, Base64State.finish_foldl _ _ hmem]
      exact iff_of_true rfl ⟨fun hpos => absurd hpos (Int.not_le.2 hneg), fun _ => h⟩
    · exact iff_of_false (fun hnone => nomatch hnone) fun hlasts => h (hlasts.2 hneg)
  · obtain ⟨k, rfl⟩ := Int.eq_ofNat_of_zero_le (Int.not_lt.1 hneg)
    rw [Base64State.loop_of_nonneg, Option.map_some, Option.some.injEq,
      Base64State.finish_foldl _ _ fun c hc => hmem c (List.mem_of_mem_take hc), List.nil_append,
      decode_take_iff]
    omega

theorem takeWhile_isBase64 (s : Text) : s.takeWhile isBase64 = s.takeWhile (· ∈ alphabet) := by
  congr 1
  funext c
  rw [Bool.eq_iff_iff, isBase64_iff, decide_eq_true_eq]

theorem countLasts_encode (x : Text) : CountLasts (encode x) ↔ (encode x).length < 2 ^ 31 := by
  refine ⟨fun h => ?_, fun h => countLasts_of_lt (s := encode x) h⟩
  by_contra hge
  have hlen := length_encode x
  have hcount := base64InLen_le (Nat.not_lt.1 hge)
  rw [countLasts_iff rfl, takeWhile_isBase64] at h
  omega

/-- `base64_decode` decodes an encoding as long as its length is an `int`, and any string as long
as the `int` lasts. -/
theorem base64Decode_iff (x s : Text) :
    (base64Decode (encode x) = some x ↔ (encode x).length < 2 ^ 31) ∧
    (base64Decode s = some (decode (s.takeWhile (· ∈ alphabet))) ↔ CountLasts s) := by
  have hx := base64Decode_eq (encode x)
  rw [takeWhile_isBase64, decode_encode, countLasts_encode] at hx
  rw [← takeWhile_isBase64]
  exact ⟨hx, base64Decode_eq s⟩

theorem replicate_not_countLasts (hn : 1 < n) (hzero : Int.bmod n (2 ^ 32) = 0) :
    ¬CountLasts (List.replicate n (ascii 'A')) := by
  have hwhile : (List.replicate n (ascii 'A')).takeWhile isBase64 = List.replicate n (ascii 'A') := by
    rw [List.takeWhile_replicate]
    rfl
  have hlen := (base64InLen_eq (List.length_replicate (n := n) (a := ascii 'A'))).trans hzero
  rw [countLasts_iff hlen, hwhile, List.length_replicate]
  omega

/-- A string whose length is 0 as an `int` is not decoded. -/
theorem not_base64Decode : base64Decode (List.replicate (2 ^ 32) (ascii 'A')) ≠
    some (decode ((List.replicate (2 ^ 32) (ascii 'A')).takeWhile (· ∈ alphabet))) := by
  rw [← takeWhile_isBase64, ne_eq, base64Decode_eq]
  exact replicate_not_countLasts (by decide) (by decide)

end LamaServer
