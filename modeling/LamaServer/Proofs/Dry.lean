import Mathlib.Data.List.DropRight
import LamaServer.Dry
import LamaServer.Lib.ZBox

/-!
# Repeat counts

Step 2 computes the longest matches of the last tokens with what stands before them. What it stores
is cut off at a limit, and read again as if it were not: a match that was cut off still shows that
the limit is reached.
-/

namespace LamaServer

open ZBox

namespace LlamaSamplerDry

variable {rat : ℕ → Option Token} {u : ℕ → Token} {N limit k n : ℕ} {s : ZState}

/-! ## Step 2 -/

section Matching

variable (hrat : ∀ i < N, rat i = some (u i))

include hrat in
theorem extendMatch_spec : ∀ {left n : ℕ}, n + k + left = N → Matches u k n →
    ∃ z ≥ n, extendMatch rat k left n = some z ∧ IsLongest u N k z
  | 0, n, hN, hn => ⟨n, le_rfl, rfl, by omega, hn, fun h => by omega⟩
  | left + 1, n, hN, hn => by
    unfold extendMatch
    rw [hrat n (by omega), hrat (n + k) (by omega)]
    by_cases h : u n = u (n + k)
    · obtain ⟨z, hle, hz, hlongest⟩ : ∃ z ≥ n + 1, extendMatch rat k left (n + 1) = some z ∧
          IsLongest u N k z :=
        extendMatch_spec (by omega) (hn.succ (by rw [Nat.add_comm, h]))
      refine ⟨z, by omega, ?_, hlongest⟩
      simp [h, hz]
    · refine ⟨n, le_rfl, by simp [h], by omega, hn, fun _ heq => h ?_⟩
      rw [← heq, Nat.add_comm]

theorem exists_isLongest (hn : Matches u k n) (hle : n + k ≤ N) :
    ∃ z ≥ n, IsLongest u N k z := by
  have hrat : ∀ i < N, (fun i => some (u i)) i = some (u i) := fun _ _ => rfl
  obtain ⟨z, hge, -, hz⟩ := extendMatch_spec hrat (Nat.add_sub_cancel' hle) hn
  exact ⟨z, hge, hz⟩

/-- What holds before the round of `k`: the counts of the smaller shifts are there, and the box is
a match. -/
structure ZInv (u : ℕ → Token) (N limit k : ℕ) (s : ZState) : Prop where
  length : s.dryRepeatCount.length = N
  count : ∀ {j z}, 1 ≤ j → j < k → IsLongest u N j z →
    s.dryRepeatCount[N - 1 - j]? = some (min z limit)
  box : s.rt = 0 ∨ 1 ≤ s.lt ∧ s.lt < k ∧ s.lt ≤ s.rt ∧ s.rt < N ∧
    Matches u s.lt (s.rt - s.lt + 1)

/-- The count of `k` is written, and the box is kept or moved. -/
theorem ZInv.write (h : ZInv u N limit k s) (hk : k < N) {z c lt rt : ℕ}
    (hz : IsLongest u N k z) (hc : c = min z limit)
    (hbox : rt = 0 ∨ 1 ≤ lt ∧ lt < k + 1 ∧ lt ≤ rt ∧ rt < N ∧ Matches u lt (rt - lt + 1)) :
    ZInv u N limit (k + 1) ⟨s.dryRepeatCount.set (N - 1 - k) c, lt, rt⟩ where
  length := by rw [List.length_set, h.length]
  count {j z'} hj hjk hz' := by
    have hlen := h.length
    rcases Nat.lt_succ_iff_lt_or_eq.1 hjk with hlt | rfl
    · rw [List.getElem?_set_ne (by omega)]
      exact h.count hj hlt hz'
    · rw [List.getElem?_set_self (by omega), hc, hz.unique hz']
  box := hbox

include hrat in
theorem zStep_inv (hk : 1 ≤ k) (hkN : k < N) (h : ZInv u N limit k s) :
    ∃ s', zStep rat N limit s k = some s' ∧ ZInv u N limit (k + 1) s' := by
  unfold zStep
  by_cases hout : k > s.rt
  · obtain ⟨z, -, hz, hlongest⟩ : ∃ z ≥ 0, extendMatch rat k (N - k) 0 = some z ∧
        IsLongest u N k z :=
      extendMatch_spec hrat (by omega) (fun i hi => absurd hi (Nat.not_lt_zero i))
    have hle := hlongest.le
    rw [if_pos hout, hz]
    by_cases hpos : z > 0
    · refine ⟨_, by simp only [Option.bind_eq_bind, Option.bind_some, if_pos hpos]; rfl,
        h.write hkN hlongest rfl (.inr ⟨hk, by omega, by omega, by omega, ?_⟩)⟩
      exact hlongest.agree.mono (by omega)
    · refine ⟨_, by simp only [Option.bind_eq_bind, Option.bind_some, if_neg hpos]; rfl,
        h.write hkN hlongest rfl (h.box.imp_right fun hbox => ?_)⟩
      exact ⟨hbox.1, by omega, hbox.2.2⟩
  · obtain ⟨hlt, hltk, hle, hrt, hbox⟩ := h.box.resolve_left (by omega)
    obtain ⟨zp, -, hzp⟩ := exists_isLongest (N := N) (k := k - s.lt) (matches_zero u _) (by omega)
    have hpk : s.lt + (k - s.lt) = k := by omega
    -- what is known of the match at `k` when that of its pair reaches the end of the box
    have hreach (hge : s.rt - k + 1 ≤ zp) : Matches u k (s.rt - k + 1) := by
      have hm := hbox.box (hzp.agree.mono hge) (by omega)
      rwa [hpk] at hm
    rw [if_neg hout]
    dsimp only
    rw [h.count (by omega) (by omega) hzp]
    by_cases hshort : min zp limit < s.rt - k + 1
    · refine ⟨_, by simp only [Option.bind_eq_bind, Option.bind_some, if_pos hshort]; rfl, ?_⟩
      have hbox' : s.rt = 0 ∨ 1 ≤ s.lt ∧ s.lt < k + 1 ∧ s.lt ≤ s.rt ∧ s.rt < N ∧
          Matches u s.lt (s.rt - s.lt + 1) := .inr ⟨hlt, by omega, hle, hrt, hbox⟩
      by_cases hinside : zp < s.rt - k + 1
      · refine h.write hkN (hpk ▸ hzp.copy hbox (by omega) (by omega)) ?_ hbox'
        rw [min_assoc, min_self]
      · -- the count of the pair was cut off, so that of `k` is
        obtain ⟨z, hge, hz⟩ := exists_isLongest (N := N) (hreach (by omega)) (by omega)
        exact h.write hkN hz (by omega) hbox'
    · obtain ⟨z, hge, hz, hlongest⟩ : ∃ z ≥ s.rt + 1 - k,
          extendMatch rat k (N - (s.rt + 1)) (s.rt + 1 - k) = some z ∧ IsLongest u N k z :=
        extendMatch_spec hrat (by omega) ((hreach (by omega)).mono (by omega))
      have hle' := hlongest.le
      refine ⟨_, by simp only [Option.bind_eq_bind, Option.bind_some, if_neg hshort, hz]; rfl,
        h.write hkN hlongest rfl (.inr ⟨hk, by omega, by omega, by omega, ?_⟩)⟩
      exact hlongest.agree.mono (by omega)

include hrat in
theorem zSteps_inv : ∀ {n k : ℕ} {s : ZState}, 1 ≤ k → n = 0 ∨ k + n ≤ N →
    ZInv u N limit k s → ∃ s', (List.range' k n).foldlM (zStep rat N limit) s = some s' ∧
      ZInv u N limit (k + n) s'
  | 0, k, s, _, _, h => ⟨s, rfl, h⟩
  | n + 1, k, s, hk, hn, h => by
    obtain ⟨s', hs', h'⟩ := zStep_inv hrat hk (by omega) h
    obtain ⟨s'', hs'', h''⟩ := zSteps_inv (n := n) (k := k + 1) (by omega) (by omega) h'
    rw [List.range'_succ, List.foldlM_cons, hs']
    exact ⟨s'', hs'', by rwa [← Nat.succ_add_eq_add_succ] at *⟩

include hrat in
/-- The counts are the longest matches, cut off at the limit. -/
theorem zLoop_spec (limit : ℕ) : ∃ s, zLoop rat N limit = some s ∧ s.dryRepeatCount.length = N ∧
    ∀ {k z}, 1 ≤ k → k < N → IsLongest u N k z →
        s.dryRepeatCount[N - 1 - k]? = some (min z limit) := by
  have hinit : ZInv u N limit 1 ⟨List.replicate N 0, 0, 0⟩ :=
    ⟨List.length_replicate, fun hj hj1 => by omega, .inl rfl⟩
  obtain ⟨s, hs, h⟩ := zSteps_inv (n := N - 1) hrat le_rfl (by omega) hinit
  exact ⟨s, hs, h.length, fun hk hkN hz => h.count hk (by omega) hz⟩

end Matching

/-! ## Step 3 -/

/-- The map has for each token the greatest of its lengths, and nothing where there are none. -/
def RecordsMax (m : Token → Option ℕ) (lengths : Token → Set ℕ) : Prop :=
  ∀ token, (m token = none → lengths token = ∅) ∧
    ∀ n, m token = some n → IsGreatest (lengths token) n

section Recording

variable {counts : List ℕ} {allowed : Int} {m : Token → Option ℕ} {lengths : Token → Set ℕ}

theorem recordsMax_none : RecordsMax (fun _ => none) fun _ => ∅ :=
  fun _ => ⟨fun _ => rfl, nofun⟩

/-- One more length that counts for a token. -/
theorem recordRepeat_spec (allowed : Int) {i c : ℕ} {t : Token} (hc : counts[i]? = some c)
    (ht : rat (N - 2 - i) = some t) (h : RecordsMax m lengths) :
    ∃ m', recordRepeat rat N allowed counts m i = some m' ∧
      RecordsMax m' fun token => lengths token ∪ {n | n = c ∧ allowed ≤ c ∧ token = t} := by
  unfold recordRepeat
  rw [hc]
  by_cases hallowed : allowed ≤ c
  · obtain ⟨hnone, hsome⟩ := h t
    have hother {token : Token} (hne : token ≠ t) :
        lengths token ∪ {n | n = c ∧ allowed ≤ c ∧ token = t} = lengths token := by
      simp [hne]
    have hset : {n | n = c ∧ allowed ≤ c ∧ t = t} = ({c} : Set ℕ) := by
      simp [hallowed]
    by_cases hless : (m t).all (· < c)
    · refine ⟨Function.update m t (some c), by simp [hallowed, ht, hless], fun token => ?_⟩
      by_cases htoken : token = t
      · subst htoken
        dsimp only
        rw [Function.update_self, hset]
        refine ⟨nofun, fun n hn => ?_⟩
        obtain rfl := Option.some.inj hn
        refine ⟨.inr rfl, fun n' hn' => hn'.elim (fun hmem => ?_) le_of_eq⟩
        rcases hm : m token with _ | n
        · rw [hnone hm] at hmem
          exact hmem.elim
        · have hlt : n < c := by simpa [hm] using hless
          exact ((hsome n hm).2 hmem).trans hlt.le
      · dsimp only
        rw [Function.update_of_ne htoken, hother htoken]
        exact h token
    · refine ⟨m, by simp [hallowed, ht, hless], fun token => ?_⟩
      by_cases htoken : token = t
      · subst htoken
        dsimp only
        rw [hset]
        rcases hm : m token with _ | n
        · simp [hm] at hless
        · have hle : c ≤ n := by simpa [hm] using hless
          refine ⟨nofun, fun n' hn' => ?_⟩
          obtain rfl := Option.some.inj hn'
          refine ⟨.inl (hsome n hm).1, fun n' hn' => hn'.elim (fun hmem => (hsome n hm).2 hmem) ?_⟩
          rintro rfl
          exact hle
      · dsimp only
        rw [hother htoken]
        exact h token
  · refine ⟨m, by simp [hallowed], fun token => ?_⟩
    simpa [hallowed] using h token

theorem recordRepeats_spec (allowed : Int) (hlen : counts.length = N) (hrat : ∀ i < N, rat i = some (u i)) :
    ∀ n ≤ N - 1, ∃ m, (List.range n).foldlM (recordRepeat rat N allowed counts)
        (fun _ => none) = some m ∧
      RecordsMax m fun token =>
        {c | ∃ i < n, counts[i]? = some c ∧ allowed ≤ c ∧ u (N - 2 - i) = token}
  | 0, _ => ⟨_, rfl, by simpa using recordsMax_none⟩
  | n + 1, hn => by
    obtain ⟨m, hm, h⟩ := recordRepeats_spec allowed hlen hrat n (by omega)
    have hc := List.getElem?_eq_getElem (l := counts) (i := n) (by omega)
    obtain ⟨m', hm', h'⟩ := recordRepeat_spec allowed hc
      (hrat (N - 2 - n) (by omega)) h
    have hlengths : (fun token =>
        {c | ∃ i < n + 1, counts[i]? = some c ∧ allowed ≤ c ∧ u (N - 2 - i) = token}) =
        fun token => {c | ∃ i < n, counts[i]? = some c ∧ allowed ≤ c ∧ u (N - 2 - i) = token} ∪
          {c | c = counts[n] ∧ allowed ≤ counts[n] ∧ token = u (N - 2 - n)} := by
      funext token
      ext c
      constructor
      · rintro ⟨i, hi, hci, hle, hu⟩
        rcases Nat.lt_succ_iff_lt_or_eq.1 hi with hlt | rfl
        · exact .inl ⟨i, hlt, hci, hle, hu⟩
        · obtain rfl := Option.some.inj (hc.symm.trans hci)
          exact .inr ⟨rfl, hle, hu.symm⟩
      · rintro (⟨i, hi, hci⟩ | ⟨rfl, hle, hu⟩)
        · exact ⟨i, by omega, hci⟩
        · exact ⟨n, by omega, hc, hle, hu.symm⟩
    refine ⟨m', ?_, hlengths ▸ h'⟩
    rw [List.range_succ, List.foldlM_append, hm]
    simpa using hm'

end Recording

/-! ## The last tokens -/

/-- The length of the longest common suffix of a window and the window without its last `k` tokens,
cut off at a limit. -/
def repeatLength (w : List Token) (limit k : ℕ) : ℕ :=
  min limit (commonSuffix w (w.take (w.length - k)))

/-- The lengths of the repetitions in a window that a token would continue. -/
def continued (w : List Token) (limit : ℕ) (token : Token) : Set ℕ :=
  {n | ∃ k, 1 ≤ k ∧ k < w.length ∧ w[w.length - k]? = some token ∧ n = repeatLength w limit k}

def CountsRepeats (w : List Token) (limit : ℕ) (counts : List ℕ) : Prop :=
  counts.length = w.length ∧
    ∀ k, 1 ≤ k → k < w.length → counts[w.length - 1 - k]? = some (repeatLength w limit k)

section Window

variable {r : SizedRing Token}

theorem length_rtake (hN : N ≤ r.sz) : (r.toList.rtake N).length = N := by
  rw [List.rtake, List.length_drop, r.length_toList]
  omega

theorem rat_eq_rtake {i : ℕ} (hi : i < N) : r.rat i = (r.toList.rtake N).reverse[i]? := by
  rw [r.rat_eq, List.rtake_eq_reverse_take_reverse, List.reverse_reverse,
    List.getElem?_take_of_lt hi]

/-- The counts of step 2 are exact, and step 3 has for each token the greatest of the lengths from
the allowed one on. -/
theorem dry_repeats (hN : N ≤ r.sz) (limit : ℕ) (allowed : Int) :
    ∃ s m, zLoop r.rat N limit = some s ∧
      maxTokenRepeat r.rat N allowed s.dryRepeatCount = some m ∧
      CountsRepeats (r.toList.rtake N) limit s.dryRepeatCount ∧
      RecordsMax m fun token => {n ∈ continued (r.toList.rtake N) limit token | allowed ≤ n} := by
  have hlen := length_rtake hN
  generalize hw : r.toList.rtake N = w at hlen
  let u := fun i => w.reverse.getD i 0
  have hu (i : ℕ) (hi : i < N) : w.reverse[i]? = some (u i) := by
    have hi' : i < w.reverse.length := by rwa [List.length_reverse, hlen]
    simp [u, List.getElem?_eq_getElem hi']
  have hrat (i : ℕ) (hi : i < N) : r.rat i = some (u i) := by
    rw [rat_eq_rtake hi, hw, hu i hi]
  have hlongest {k : ℕ} (hk : k ≤ N) :
      IsLongest u N k (commonSuffix w (w.take (w.length - k))) := by
    have h := isLongest_commonPrefix (by rw [List.length_reverse, hlen]) hu hk
    rwa [commonSuffix, List.reverse_take, hlen, Nat.sub_sub_self hk]
  obtain ⟨s, hs, hcounts, hcount⟩ := zLoop_spec hrat limit
  have hrepeat {k : ℕ} (hk : 1 ≤ k) (hkN : k < N) :
      s.dryRepeatCount[N - 1 - k]? = some (repeatLength w limit k) := by
    rw [hcount hk hkN (hlongest hkN.le), repeatLength, min_comm]
  obtain ⟨m, hm, hmax⟩ := recordRepeats_spec allowed hcounts hrat (N - 1) le_rfl
  have hnext {k : ℕ} (hk : 1 ≤ k) (hkN : k < N) : w[N - k]? = some (u (k - 1)) := by
    rw [← hu _ (by omega), List.getElem?_reverse (by omega), hlen]
    congr 1
    omega
  refine ⟨s, m, hs, hm, ⟨hcounts.trans hlen.symm, fun k hk hkN => ?_⟩, ?_⟩
  · rw [hlen] at hkN ⊢
    exact hrepeat hk hkN
  · convert hmax using 2 with token
    ext c
    constructor
    · rintro ⟨⟨k, hk, hkN, htoken, rfl⟩, hle⟩
      rw [hlen] at hkN htoken
      refine ⟨N - 1 - k, by omega, hrepeat hk hkN, hle, ?_⟩
      rw [show N - 2 - (N - 1 - k) = k - 1 by omega]
      exact Option.some.inj ((hnext hk hkN).symm.trans htoken)
    · rintro ⟨i, hi, hc, hle, rfl⟩
      have hrep := hrepeat (k := N - 1 - i) (by omega) (by omega)
      rw [show N - 1 - (N - 1 - i) = i by omega] at hrep
      refine ⟨⟨N - 1 - i, by omega, by omega, ?_, Option.some.inj (hc.symm.trans hrep)⟩, hle⟩
      rw [hlen, hnext (by omega) (by omega)]
      congr 2
      omega

end Window

/-- The tokens 1, 2, 3, 1, after which the token 2 would continue a repetition of one token. -/
def repeatedOnce : SizedRing Token :=
  ((((SizedRing.new 4 0).pushBack (by decide) 1).pushBack (by decide) 2).pushBack (by decide)
    3).pushBack (by decide) 1

theorem dry_repeats_repeatedOnce : 4 ≤ repeatedOnce.sz ∧
    ∃ s m, zLoop repeatedOnce.rat 4 4 = some s ∧
      maxTokenRepeat repeatedOnce.rat 4 2 s.dryRepeatCount = some m ∧
      CountsRepeats (repeatedOnce.toList.rtake 4) 4 s.dryRepeatCount ∧
      RecordsMax m fun token =>
        {n ∈ continued (repeatedOnce.toList.rtake 4) 4 token | (2 : Int) ≤ n} :=
  have hN : 4 ≤ repeatedOnce.sz := by decide
  ⟨hN, dry_repeats hN 4 2⟩

/-- A length below the allowed one is not recorded. -/
theorem not_records_continued : ¬ ∀ (r : SizedRing Token) (N limit : ℕ) (allowed : Int),
    N ≤ r.sz → limit ≤ N → ∃ s m, zLoop r.rat N limit = some s ∧
      maxTokenRepeat r.rat N allowed s.dryRepeatCount = some m ∧
      CountsRepeats (r.toList.rtake N) limit s.dryRepeatCount ∧
      RecordsMax m (continued (r.toList.rtake N) limit) := by
  intro h
  obtain ⟨s, m, hs, hm, -, hmax⟩ := h repeatedOnce 4 4 2 (by decide) le_rfl
  have hnone : ((zLoop repeatedOnce.rat 4 4).bind fun s =>
      maxTokenRepeat repeatedOnce.rat 4 2 s.dryRepeatCount).map (· 2) = some none := by decide
  rw [hs, Option.bind_some, hm, Option.map_some, Option.some.injEq] at hnone
  have hcontinued : repeatLength (repeatedOnce.toList.rtake 4) 4 3 ∈
      continued (repeatedOnce.toList.rtake 4) 4 2 :=
    ⟨3, by decide, by decide, by decide, rfl⟩
  rw [(hmax 2).1 hnone] at hcontinued
  exact hcontinued

end LlamaSamplerDry

end LamaServer
