import Mathlib.Data.List.Induction
import Mathlib.Order.Bounds.Basic
import Mathlib.Tactic.IntervalCases
import LamaServer.Generation
import LamaServer.Lib.Utf8

/-!
# Where a text may be sent

A text that is cut anywhere consists of whole characters and of the first bytes of one more.
`validate_utf8` sees at most four bytes from the end: the lead byte of the character that is cut off
is among them, and no lead byte of a whole character is taken for one.
-/

namespace LamaServer.Text

open Utf8

variable {b b' : UInt8} {i n : Nat} {text : Text}

/-- What `validate_utf8` tells bytes apart by. -/
theorem lead_tests : ∀ n < 256,
    (UInt8.ofNat n &&& 0xE0 = 0xC0 ↔ 0xC0 ≤ n ∧ n < 0xE0) ∧
    (UInt8.ofNat n &&& 0xF0 = 0xE0 ↔ 0xE0 ≤ n ∧ n < 0xF0) ∧
    (UInt8.ofNat n &&& 0xF8 = 0xF0 ↔ 0xF0 ≤ n ∧ n < 0xF8) := by
  decide +kernel

theorem isCutOff_iff : isCutOff b i ↔ 0xC0 ≤ b.toNat ∧ b.toNat < 0xE0 ∧ i < 2 ∨
    0xE0 ≤ b.toNat ∧ b.toNat < 0xF0 ∧ i < 3 ∨ 0xF0 ≤ b.toNat ∧ b.toNat < 0xF8 ∧ i < 4 := by
  obtain ⟨h1, h2, h3⟩ := lead_tests b.toNat b.toNat_lt
  rw [UInt8.ofNat_toNat] at h1 h2 h3
  unfold isCutOff
  split_ifs with h h' h''
  · rw [h1] at h
    simp only [decide_eq_true_eq]
    omega
  · rw [h2] at h'
    simp only [decide_eq_true_eq]
    omega
  · rw [h3] at h''
    simp only [decide_eq_true_eq]
    omega
  · rw [h1] at h
    rw [h2] at h'
    rw [h3] at h''
    simp only [false_iff]
    omega

theorem isCutOff_of_isLead (h : IsLead b n) (hi : 0 < i) : isCutOff b i ↔ i < n := by
  rw [isCutOff_iff]
  unfold IsLead at h
  omega

theorem not_isCutOff_of_isTail (h : IsTail b) : ¬isCutOff b i := by
  rw [isCutOff_iff]
  unfold IsTail at h
  omega

theorem isCutOff_mono {j : Nat} (h : isCutOff b i) (hj : j ≤ i) : isCutOff b j := by
  rw [isCutOff_iff] at h ⊢
  omega

/-- The bytes of a character seen from its last one. -/
theorem reverse_char {pre rest : Text} (hrest : ∀ x ∈ rest, IsTail x) {j : Nat}
    (hj : (pre ++ b :: rest).reverse[j]? = some b') :
    j < rest.length ∧ IsTail b' ∨ j = rest.length ∧ b' = b ∨
      rest.length < j ∧ pre.reverse[j - (rest.length + 1)]? = some b' := by
  rw [List.reverse_append, List.reverse_cons, List.append_assoc, List.singleton_append] at hj
  rcases Nat.lt_trichotomy j rest.length with hlt | rfl | hgt
  · rw [List.getElem?_append_left (by simpa using hlt)] at hj
    exact .inl ⟨hlt, hrest b' (List.mem_reverse.1 (List.mem_of_getElem? hj))⟩
  · rw [List.getElem?_append_right (by simp)] at hj
    simp only [List.length_reverse, Nat.sub_self, List.getElem?_cons_zero, Option.some.injEq] at hj
    exact .inr (.inl ⟨rfl, hj.symm⟩)
  · rw [List.getElem?_append_right (by simp; omega), List.length_reverse,
      List.getElem?_cons, if_neg (by omega), Nat.sub_sub] at hj
    exact .inr (.inr ⟨hgt, hj⟩)

/-- No lead byte of a whole character is taken for one that is cut off. -/
theorem not_isCutOff_encode (s : List Char) : ∀ {j : Nat}, (encode s).reverse[j]? = some b →
    ¬isCutOff b (j + 1) := by
  induction s using List.reverseRecOn with
  | nil => simp
  | append_singleton t c ih =>
    intro j hj
    obtain ⟨b₀, rest, hc, hlead, hrest⟩ := encodeChar_shape c
    rw [encode_append, encode_cons, encode_nil, List.append_nil, hc] at hj
    rcases reverse_char hrest hj with ⟨-, htail⟩ | ⟨rfl, rfl⟩ | ⟨hgt, hb⟩
    · exact not_isCutOff_of_isTail htail
    · rw [isCutOff_of_isLead hlead (Nat.succ_pos _)]
      exact Nat.lt_irrefl _
    · exact fun h => ih hb (isCutOff_mono h (by omega))

theorem validateUtf8_eq_length (h : ∀ j b, text.reverse[j]? = some b → ¬isCutOff b (j + 1)) :
    validateUtf8 text = text.length := by
  have hnone : [1, 2, 3, 4].find? (fun i => (text.reverse[i - 1]?).any (isCutOff · i)) = none := by
    rw [List.find?_eq_none]
    intro i hi hany
    rw [Option.any_eq_true] at hany
    obtain ⟨b, hb, hcut⟩ := hany
    have hpos : i - 1 + 1 = i := by
      simp only [List.mem_cons, List.not_mem_nil, or_false] at hi
      omega
    exact h (i - 1) b hb (hpos ▸ hcut)
  rw [validateUtf8, hnone]

theorem validateUtf8_eq_sub (hi : i < 4) (hb : text.reverse[i]? = some b)
    (hcut : isCutOff b (i + 1)) (h : ∀ j < i, ∀ b, text.reverse[j]? = some b → ¬isCutOff b (j + 1)) :
    validateUtf8 text = text.length - (i + 1) := by
  have hsome : [1, 2, 3, 4].find? (fun i => (text.reverse[i - 1]?).any (isCutOff · i)) =
      some (i + 1) := by
    have hget {j : Nat} (hj : j < [1, 2, 3, 4].length) : [1, 2, 3, 4][j] = j + 1 := by
      simp only [List.length_cons, List.length_nil] at hj
      interval_cases j <;> rfl
    rw [List.find?_eq_some_iff_getElem]
    refine ⟨by simp [hb, hcut], i, hi, hget hi, fun j hj => ?_⟩
    rw [hget (Nat.lt_trans hj hi), Bool.not_eq_true', ← Bool.not_eq_true, Option.any_eq_true]
    rintro ⟨x, hx, hcut⟩
    exact h j hj x hx hcut
  rw [validateUtf8, hsome]

/-- The bytes of a character that is cut off end a text. -/
theorem validateUtf8_cut (s : List Char) {c : Char} {p : Text} (hp : p <+: String.utf8EncodeChar c)
    (hlen : p.length < (String.utf8EncodeChar c).length) :
    validateUtf8 (encode s ++ p) = (encode s).length := by
  rcases p with _ | ⟨b, p⟩
  · rw [List.append_nil]
    exact validateUtf8_eq_length fun j b => not_isCutOff_encode s
  · obtain ⟨b₀, rest, hc, hlead, hrest⟩ := encodeChar_shape c
    rw [hc, List.cons_prefix_cons] at hp
    obtain ⟨rfl, hp⟩ := hp
    rw [hc, List.length_cons, List.length_cons] at hlen
    have htail (x : UInt8) (hx : x ∈ p) : IsTail x := hrest x (hp.subset hx)
    have hfour : rest.length + 1 ≤ 4 := by
      unfold IsLead at hlead
      omega
    rw [validateUtf8_eq_sub (i := p.length) (b := b) (by omega)]
    · simp
    · simp
    · rw [isCutOff_of_isLead hlead (Nat.succ_pos _)]
      exact hlen
    · intro j hj x hx
      rcases reverse_char htail hx with ⟨-, htail⟩ | ⟨rfl, -⟩ | ⟨hgt, -⟩
      · exact not_isCutOff_of_isTail htail
      · omega
      · omega

/-- `validate_utf8` finds the last boundary at or before the cut. -/
theorem validateUtf8_take (s : List Char) (k : Nat) (hk : k ≤ (encode s).length) :
    IsGreatest {b | IsBoundary s b ∧ b ≤ k} (validateUtf8 ((encode s).take k)) := by
  obtain ⟨i, p, htake, hle, hp⟩ := encode_take s k hk
  rcases hp with rfl | ⟨c, rest, hrest, hprefix, hlen⟩
  · have hk' : (encode (s.take i)).length = k := by
      have hlen := congrArg List.length htake
      rw [List.append_nil, List.length_take, Nat.min_eq_left hk] at hlen
      exact hlen.symm
    rw [htake, List.append_nil,
      validateUtf8_eq_length fun j b => not_isCutOff_encode (s.take i), hk']
    exact ⟨⟨⟨i, hk'.symm⟩, Nat.le_refl k⟩, fun b hb => hb.2⟩
  · have hsum := congrArg List.length htake
    rw [List.length_take, Nat.min_eq_left hk, List.length_append] at hsum
    rw [htake, validateUtf8_cut _ hprefix hlen]
    exact ⟨⟨⟨i, rfl⟩, hle⟩, fun b hb => hb.1.le_of_cut hrest (by omega) hb.2⟩

/-- `é` cut after its first byte. -/
theorem validateUtf8_take_cut : IsGreatest {b | IsBoundary ['a', 'é', 'b'] b ∧ b ≤ 2}
    (validateUtf8 ((encode ['a', 'é', 'b']).take 2)) :=
  validateUtf8_take ['a', 'é', 'b'] 2 (by decide)

end LamaServer.Text
