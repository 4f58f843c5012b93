import LamaServer.Lib.Except
import LamaServer.ServerTokens
import Mathlib.Order.Bounds.Basic

/-!
# The two views of a prompt stay in step

The images of the map are disjoint blocks of null tokens, and there are no other null tokens. The
operations keep this as long as an image has a position, no null token is inserted as text and no
images are left behind by `clear`. Then `get_common_prefix` is the largest cut that both prompts
agree on and that cuts no image, and `keep_first` makes that cut unless an image of several
positions ends there.
-/

namespace LamaServer

namespace ServerTokens

/-- The images of the map are disjoint blocks inside the tokens, and they hold all the null
tokens. -/
structure WellFormed (s : ServerTokens) : Prop where
  block : ∀ pos chunk, s.mapPosToImage pos = some chunk → 0 < chunk.nPos ∧
    pos + chunk.nPos ≤ s.tokens.length ∧
    ∀ j, pos ≤ j → j < pos + chunk.nPos → s.tokens[j]? = some tokenNull
  covered : ∀ j, s.tokens[j]? = some tokenNull → ∃ pos chunk,
    s.mapPosToImage pos = some chunk ∧ pos ≤ j ∧ j < pos + chunk.nPos
  disjoint : ∀ pos chunk pos' chunk', s.mapPosToImage pos = some chunk →
    s.mapPosToImage pos' = some chunk' → pos < pos' → pos + chunk.nPos ≤ pos'

/-- No image is cut at `n`. -/
def CutsNoImage (s : ServerTokens) (n : Nat) : Prop :=
  ∀ pos chunk, s.mapPosToImage pos = some chunk → pos < n → pos + chunk.nPos ≤ n

/-- Two prompts have the same tokens and the same images before `n`, and none is cut there. -/
structure Agree (a b : ServerTokens) (n : Nat) : Prop where
  le_left : n ≤ a.tokens.length
  le_right : n ≤ b.tokens.length
  tokens : ∀ i < n, a.tokens[i]? = b.tokens[i]?
  images : ∀ i < n, a.mapPosToImage i = b.mapPosToImage i
  cut : a.CutsNoImage n

/-- The first `n` tokens with the images that lie in them. -/
def firstPart (s : ServerTokens) (n : Nat) : ServerTokens :=
  { s with
    tokens := s.tokens.take n
    mapPosToImage := fun pos => if n ≤ pos then none else s.mapPosToImage pos }

/-- An image of several positions ends at `n`. -/
def EndsImage (s : ServerTokens) (n : Nat) : Prop :=
  ∃ pos chunk, s.mapPosToImage pos = some chunk ∧ 1 < chunk.nPos ∧ pos + chunk.nPos = n

inductive Op where
  | pushBack (tok : Int)
  | pushBackImage (chunk : ImageChunk)
  | pushBackText (toks : List Int)
  | insert (inpTokens : List Int)
  | clear

/-- The value after an operation, which an exception leaves unchanged but in a text chunk; `none`
where an assertion fails. -/
def afterwards (s : ServerTokens) : Except TokensError ServerTokens → Option ServerTokens
  | .ok s => some s
  | .error (.thrown _) => some s
  | .error .aborted => none

def step (s : ServerTokens) : Op → Option ServerTokens
  | .pushBack tok => s.afterwards (s.pushBack tok)
  | .pushBackImage chunk => s.afterwards (s.pushBackImage chunk)
  | .pushBackText toks => some (s.pushBackText toks).1
  | .insert inpTokens => s.afterwards (s.insert inpTokens)
  | .clear => some s.clear

/-- The values that the operations lead to, from `ok` steps and from cuts at the common prefix with
another such value. -/
inductive Reachable (ok : ServerTokens → Op → Prop) : ServerTokens → Prop where
  | init (hasMtmd : Bool) : Reachable ok { hasMtmd := hasMtmd }
  | step {s s' : ServerTokens} {op : Op} : Reachable ok s → ok s op → s.step op = some s' →
      Reachable ok s'
  | keepCommon {s b s' : ServerTokens} {n : Nat} : Reachable ok s → Reachable ok b →
      s.getCommonPrefix b = .ok n → s.afterwards (s.keepFirst n) = some s' → Reachable ok s'

/-- An image has a position, no null token is inserted, and there is no image to clear. -/
def Op.Settled (s : ServerTokens) : Op → Prop
  | .pushBackImage chunk => 0 < chunk.nPos
  | .insert inpTokens => tokenNull ∉ inpTokens
  | .clear => ∀ pos, s.mapPosToImage pos = none
  | _ => True

/-! ## The operations -/

variable {s a b : ServerTokens}

theorem wellFormed_init (hasMtmd : Bool) : WellFormed { hasMtmd := hasMtmd } where
  block _ _ h := by simp at h
  covered _ h := by simp at h
  disjoint _ _ _ _ h := by simp at h

/-- Text behind the tokens. -/
theorem WellFormed.appendText (h : s.WellFormed) {toks : List Int} (hn : tokenNull ∉ toks) :
    WellFormed { s with tokens := s.tokens ++ toks } where
  block pos chunk hp := by
    obtain ⟨h0, hle, hnull⟩ := h.block pos chunk hp
    refine ⟨h0, by simp; omega, fun j h1 h2 => ?_⟩
    rw [List.getElem?_append_left (by omega)]
    exact hnull j h1 h2
  covered j hj := by
    by_cases hlt : j < s.tokens.length
    · rw [List.getElem?_append_left hlt] at hj
      exact h.covered j hj
    · rw [List.getElem?_append_right (not_lt.1 hlt)] at hj
      exact absurd (List.mem_of_getElem? hj) hn
  disjoint := h.disjoint

theorem WellFormed.lt_length (h : s.WellFormed) {pos : Nat} {chunk : ImageChunk}
    (hp : s.mapPosToImage pos = some chunk) : pos < s.tokens.length := by
  have := h.block pos chunk hp
  omega

/-- An image behind the tokens. -/
theorem WellFormed.appendImage (h : s.WellFormed) {chunk : ImageChunk} (h0 : 0 < chunk.nPos) :
    WellFormed { s with
      tokens := s.tokens ++ List.replicate chunk.nPos tokenNull
      mapPosToImage := Function.update s.mapPosToImage s.tokens.length (some chunk) } := by
  have hmap : ∀ pos c, Function.update s.mapPosToImage s.tokens.length (some chunk) pos = some c ↔
      s.mapPosToImage pos = some c ∨ pos = s.tokens.length ∧ c = chunk := by
    intro pos c
    by_cases hpos : pos = s.tokens.length
    · subst hpos
      rw [Function.update_self]
      refine ⟨fun hc => .inr ⟨rfl, (Option.some.inj hc).symm⟩, ?_⟩
      rintro (hc | ⟨-, rfl⟩)
      · exact absurd (h.lt_length hc) (lt_irrefl _)
      · rfl
    · simp [hpos]
  have hnull : ∀ j, s.tokens.length ≤ j → j < s.tokens.length + chunk.nPos →
      (s.tokens ++ List.replicate chunk.nPos tokenNull)[j]? = some tokenNull := by
    intro j h1 h2
    rw [List.getElem?_append_right h1, List.getElem?_replicate_of_lt (by omega)]
  refine ⟨fun pos c hc => ?_, fun j hj => ?_, fun pos c pos' c' hc hc' hlt => ?_⟩
  · simp only [List.length_append, List.length_replicate]
    rcases (hmap pos c).1 hc with hc | ⟨rfl, rfl⟩
    · obtain ⟨hc0, hle, hj⟩ := h.block pos c hc
      refine ⟨hc0, by omega, fun j h1 h2 => ?_⟩
      rw [List.getElem?_append_left (by omega)]
      exact hj j h1 h2
    · exact ⟨h0, le_rfl, hnull⟩
  · by_cases hlt : j < s.tokens.length
    · rw [List.getElem?_append_left hlt] at hj
      obtain ⟨pos, c, hc, h1, h2⟩ := h.covered j hj
      exact ⟨pos, c, (hmap pos c).2 (.inl hc), h1, h2⟩
    · have := (List.getElem?_eq_some_iff.1 hj).1
      simp only [List.length_append, List.length_replicate] at this
      exact ⟨_, chunk, (hmap _ _).2 (.inr ⟨rfl, rfl⟩), not_lt.1 hlt, this⟩
  · rcases (hmap pos c).1 hc with hc | ⟨rfl, rfl⟩
    · rcases (hmap pos' c').1 hc' with hc' | ⟨rfl, -⟩
      · exact h.disjoint pos c pos' c' hc hc' hlt
      · exact (h.block pos c hc).2.1
    · rcases (hmap pos' c').1 hc' with hc' | ⟨rfl, -⟩
      · have := h.lt_length hc'
        omega
      · omega

theorem WellFormed.firstPart (h : s.WellFormed) {n : Nat} (hcut : s.CutsNoImage n) :
    (s.firstPart n).WellFormed := by
  have hmap : ∀ pos c, (s.firstPart n).mapPosToImage pos = some c ↔
      pos < n ∧ s.mapPosToImage pos = some c := by
    intro pos c
    simp only [ServerTokens.firstPart]
    split_ifs with hn
    · simp [not_lt.2 hn]
    · simp [not_le.1 hn]
  refine ⟨fun pos c hc => ?_, fun j hj => ?_, fun pos c pos' c' hc hc' => ?_⟩
  · obtain ⟨hn, hc⟩ := (hmap pos c).1 hc
    obtain ⟨h0, hle, hnull⟩ := h.block pos c hc
    have hend := hcut pos c hc hn
    refine ⟨h0, by simp [ServerTokens.firstPart]; omega, fun j h1 h2 => ?_⟩
    simp only [ServerTokens.firstPart]
    rw [List.getElem?_take_of_lt (by omega)]
    exact hnull j h1 h2
  · simp only [ServerTokens.firstPart, List.getElem?_take] at hj
    split_ifs at hj with hn
    obtain ⟨pos, c, hc, h1, h2⟩ := h.covered j hj
    exact ⟨pos, c, (hmap pos c).2 ⟨by omega, hc⟩, h1, h2⟩
  · exact h.disjoint pos c pos' c' ((hmap pos c).1 hc).2 ((hmap pos' c').1 hc').2

/-! ## The common prefix -/

/-- Where an image of a value starts that is not cut there. -/
theorem WellFormed.starts (h : s.WellFormed) {i : Nat} (hcut : s.CutsNoImage i)
    (hnull : s.tokens[i]? = some tokenNull) : ∃ chunk, s.mapPosToImage i = some chunk := by
  obtain ⟨pos, chunk, hp, h1, h2⟩ := h.covered i hnull
  rcases h1.lt_or_eq with hlt | rfl
  · have := hcut pos chunk hp hlt
    omega
  · exact ⟨chunk, hp⟩

theorem Agree.cut_right {n : Nat} (h : a.Agree b n) : b.CutsNoImage n := fun pos chunk hp hlt =>
  h.cut pos chunk ((h.images pos hlt).trans hp) hlt

theorem WellFormed.noImage (h : s.WellFormed) {i : Nat} {tok : Int}
    (htok : s.tokens[i]? = some tok) (hne : tok ≠ tokenNull) : s.mapPosToImage i = none := by
  by_contra hsome
  obtain ⟨chunk, hchunk⟩ := Option.ne_none_iff_exists'.1 hsome
  have hblock := h.block i chunk hchunk
  rw [hblock.2.2 i le_rfl (by omega)] at htok
  exact hne (Option.some.inj htok).symm

/-- One more text token that is the same. -/
theorem Agree.succ (ha : a.WellFormed) (hb : b.WellFormed) {i : Nat} (h : a.Agree b i) {tok : Int}
    (hai : a.tokens[i]? = some tok) (hbi : b.tokens[i]? = some tok) (hne : tok ≠ tokenNull) :
    a.Agree b (i + 1) where
  le_left := (List.getElem?_eq_some_iff.1 hai).1
  le_right := (List.getElem?_eq_some_iff.1 hbi).1
  tokens j hj := by
    rcases Nat.lt_succ_iff_lt_or_eq.1 hj with hj | rfl
    · exact h.tokens j hj
    · exact hai.trans hbi.symm
  images j hj := by
    rcases Nat.lt_succ_iff_lt_or_eq.1 hj with hj | rfl
    · exact h.images j hj
    · rw [ha.noImage hai hne, hb.noImage hbi hne]
  cut pos chunk hp hlt := by
    rcases Nat.lt_succ_iff_lt_or_eq.1 hlt with hlt | rfl
    · exact (h.cut pos chunk hp hlt).trans (Nat.le_succ i)
    · simp [ha.noImage hai hne] at hp

/-- One more image that is the same. -/
theorem Agree.image (ha : a.WellFormed) (hb : b.WellFormed) {i : Nat} (h : a.Agree b i)
    {chunk : ImageChunk} (hai : a.mapPosToImage i = some chunk)
    (hbi : b.mapPosToImage i = some chunk) : a.Agree b (i + chunk.nPos) := by
  obtain ⟨h0, hlea, hnulla⟩ := ha.block i chunk hai
  obtain ⟨-, hleb, hnullb⟩ := hb.block i chunk hbi
  have hnone {s : ServerTokens} (hs : s.WellFormed) (hsi : s.mapPosToImage i = some chunk)
      {j : Nat} (h1 : i < j) (h2 : j < i + chunk.nPos) : s.mapPosToImage j = none := by
    by_contra hsome
    obtain ⟨c, hc⟩ := Option.ne_none_iff_exists'.1 hsome
    have := hs.disjoint i chunk j c hsi hc h1
    omega
  refine ⟨hlea, hleb, fun j hj => ?_, fun j hj => ?_, fun pos c hp hlt => ?_⟩
  · by_cases hji : j < i
    · exact h.tokens j hji
    · rw [hnulla j (not_lt.1 hji) hj, hnullb j (not_lt.1 hji) hj]
  · rcases lt_trichotomy j i with hji | rfl | hij
    · exact h.images j hji
    · exact hai.trans hbi.symm
    · rw [hnone ha hai hij hj, hnone hb hbi hij hj]
  · rcases lt_trichotomy pos i with hpi | rfl | hip
    · exact (h.cut pos c hp hpi).trans (Nat.le_add_right i _)
    · exact (congrArg (pos + ImageChunk.nPos ·) (Option.some.inj (hp.symm.trans hai))).le
    · simp [hnone ha hai hip hlt] at hp

/-- The loop stops at the largest cut, from any cut that the values agree on. -/
theorem commonPrefixFrom_spec (ha : a.WellFormed) (hb : b.WellFormed)
    (hm : ∀ pos, a.mapPosToImage pos ≠ none → a.hasMtmd) : ∀ {r i : Nat}, a.Agree b i →
      min a.tokens.length b.tokens.length < r + i →
      ∃ n, commonPrefixFrom a b r i = .ok n ∧ IsGreatest {n | a.Agree b n} n
  | 0, i, h, hr => by
    have := h.le_left
    have := h.le_right
    omega
  | r + 1, i, h, hr => by
    -- what the values differ in at `i` bounds every cut
    have hstop (hdiff : a.tokens[i]? ≠ b.tokens[i]? ∨ a.mapPosToImage i ≠ b.mapPosToImage i) :
        IsGreatest {n | a.Agree b n} i := by
      refine ⟨h, fun n hn => not_lt.1 fun hlt => ?_⟩
      rcases hdiff with hdiff | hdiff
      · exact hdiff (hn.tokens i hlt)
      · exact hdiff (hn.images i hlt)
    have hend (hmin : min a.tokens.length b.tokens.length = i) :
        IsGreatest {n | a.Agree b n} (min a.tokens.length b.tokens.length) :=
      ⟨by rwa [hmin], fun n hn => le_min hn.le_left hn.le_right⟩
    have hla := h.le_left
    have hlb := h.le_right
    rw [commonPrefixFrom]
    cases hai : a.tokens[i]? with
    | none =>
      have := List.getElem?_eq_none_iff.1 hai
      exact ⟨_, rfl, hend (by omega)⟩
    | some ai =>
      cases hbi : b.tokens[i]? with
      | none =>
        have := List.getElem?_eq_none_iff.1 hbi
        exact ⟨_, rfl, hend (by omega)⟩
      | some bi =>
        dsimp only
        split_ifs with hnull hmtmd heq
        · obtain ⟨rfl, rfl⟩ := hnull
          obtain ⟨chunk, hchunk⟩ := ha.starts h.cut hai
          simp [hm i (by simp [hchunk])] at hmtmd
        · obtain ⟨rfl, rfl⟩ := hnull
          obtain ⟨ca, hca⟩ := ha.starts h.cut hai
          obtain ⟨cb, hcb⟩ := hb.starts h.cut_right hbi
          simp only [findChunk, hca, hcb, Except.ok_bind_eq]
          split_ifs with hsame hzero
          · exact absurd hzero (ha.block i ca hca).1.ne'
          · have hcab : ca = cb := by
              cases ca
              cases cb
              simpa using hsame
            refine commonPrefixFrom_spec ha hb hm (h.image ha hb hca (hcab ▸ hcb)) ?_
            have := (ha.block i ca hca).1
            omega
          · refine ⟨i, rfl, hstop (.inr fun hmap => hsame ?_)⟩
            rw [hca, hcb] at hmap
            rw [Option.some.inj hmap]
            exact ⟨rfl, rfl⟩
        · subst heq
          exact commonPrefixFrom_spec ha hb hm (h.succ ha hb hai hbi fun h0 => hnull ⟨h0, h0⟩)
            (by omega)
        · exact ⟨i, rfl, hstop (.inl (by simpa [hai, hbi] using heq))⟩

theorem agree_zero (a b : ServerTokens) : a.Agree b 0 where
  le_left := Nat.zero_le _
  le_right := Nat.zero_le _
  tokens _ h := absurd h (Nat.not_lt_zero _)
  images _ h := absurd h (Nat.not_lt_zero _)
  cut _ _ _ h := absurd h (Nat.not_lt_zero _)

theorem getCommonPrefix_spec (ha : a.WellFormed) (hb : b.WellFormed)
    (hm : ∀ pos, a.mapPosToImage pos ≠ none → a.hasMtmd) :
    ∃ n, a.getCommonPrefix b = .ok n ∧ IsGreatest {n | a.Agree b n} n :=
  commonPrefixFrom_spec ha hb hm (agree_zero a b) (by omega)

/-! ## Cuts -/

/-- The check refuses the end of an image of several positions. -/
theorem checkCut_eq (h : s.WellFormed) (hm : ∀ pos, s.mapPosToImage pos ≠ none → s.hasMtmd)
    {n : Nat} (hcut : s.CutsNoImage n) :
    (s.checkCut n = .ok () ∧ ¬ s.EndsImage n) ∨
      (s.checkCut n = .error (.thrown "Chunk not found") ∧ s.EndsImage n) := by
  unfold checkCut
  split_ifs with hlast
  · obtain ⟨-, h0, hnull⟩ := hlast
    obtain ⟨pos, chunk, hp, h1, h2⟩ := h.covered _ hnull
    have hle := hcut pos chunk hp (by omega)
    by_cases hone : chunk.nPos = 1
    · obtain rfl : pos = n - 1 := by omega
      refine .inl ⟨by simp [findChunk, hp, Except.ok_bind_eq], ?_⟩
      rintro ⟨pos', chunk', hp', hmany, hends⟩
      have := h.disjoint pos' chunk' (n - 1) chunk hp' hp (by omega)
      omega
    · have hnone : s.mapPosToImage (n - 1) = none := by
        by_contra hsome
        obtain ⟨c, hc⟩ := Option.ne_none_iff_exists'.1 hsome
        have := h.disjoint pos chunk (n - 1) c hp hc (by omega)
        omega
      exact .inr ⟨by simp [findChunk, hnone, bind, Except.bind], pos, chunk, hp, by omega, by omega⟩
  · refine .inl ⟨rfl, ?_⟩
    rintro ⟨pos, chunk, hp, hmany, rfl⟩
    exact hlast ⟨hm pos (by simp [hp]), by omega,
      (h.block pos chunk hp).2.2 _ (by omega) (by omega)⟩

theorem keepFirst_eq (h : s.WellFormed) (hm : ∀ pos, s.mapPosToImage pos ≠ none → s.hasMtmd)
    {n : Nat} (hn : n ≤ s.tokens.length) (hcut : s.CutsNoImage n) :
    (s.keepFirst n = .ok (s.firstPart n) ∧ ¬ s.EndsImage n) ∨
      (s.keepFirst n = .error (.thrown "Chunk not found") ∧ s.EndsImage n) := by
  have hmap : (if s.hasMtmd then fun pos => if n ≤ pos then none else s.mapPosToImage pos
      else s.mapPosToImage) = fun pos => if n ≤ pos then none else s.mapPosToImage pos := by
    split_ifs with hmtmd
    · rfl
    · funext pos
      have : s.mapPosToImage pos = none := by
        by_contra hsome
        exact hmtmd (hm pos hsome)
      simp [this]
  unfold keepFirst
  rw [if_neg (not_lt.2 hn), hmap]
  rcases checkCut_eq h hm hcut with ⟨hc, he⟩ | ⟨hc, he⟩ <;> rw [hc]
  · exact .inl ⟨rfl, he⟩
  · exact .inr ⟨rfl, he⟩

/-! ## Runs -/

structure Consistent (s : ServerTokens) : Prop where
  wellFormed : s.WellFormed
  hasMtmd : ∀ pos, s.mapPosToImage pos ≠ none → s.hasMtmd

theorem afterwards_eq_some {s s' : ServerTokens} {r : Except TokensError ServerTokens}
    (h : s.afterwards r = some s') : r = .ok s' ∨ s' = s := by
  rcases r with (m | -) | s₁ <;> simp only [afterwards, Option.some.injEq] at h
  · exact .inr h.symm
  · simp at h
  · exact .inl (h ▸ rfl)

theorem Consistent.appendText (h : s.Consistent) {toks : List Int} (hn : tokenNull ∉ toks) :
    Consistent { s with tokens := s.tokens ++ toks } :=
  ⟨h.wellFormed.appendText hn, h.hasMtmd⟩

theorem Consistent.pushBack {s s' : ServerTokens} (h : s.Consistent) {tok : Int}
    (hs : s.pushBack tok = .ok s') : s'.Consistent := by
  unfold ServerTokens.pushBack at hs
  split_ifs at hs with htok
  exact Except.ok.inj hs ▸ h.appendText (by simpa using Ne.symm htok)

theorem Consistent.pushBackText : ∀ (toks : List Int) {s : ServerTokens}, s.Consistent →
    (s.pushBackText toks).1.Consistent
  | [], _, h => h
  | tok :: toks, s, h => by
    rw [ServerTokens.pushBackText]
    cases hs : s.pushBack tok with
    | ok s' => exact Consistent.pushBackText toks (h.pushBack hs)
    | error e => exact h

theorem Consistent.pushBackImage {s s' : ServerTokens} (h : s.Consistent) {chunk : ImageChunk}
    (h0 : 0 < chunk.nPos) (hs : s.pushBackImage chunk = .ok s') : s'.Consistent := by
  unfold ServerTokens.pushBackImage at hs
  split_ifs at hs with hmtmd
  exact Except.ok.inj hs ▸ ⟨h.wellFormed.appendImage h0, fun _ _ => by simpa using hmtmd⟩

theorem step_consistent {s s' : ServerTokens} {op : Op} (h : s.Consistent) (hok : op.Settled s)
    (hs : s.step op = some s') : s'.Consistent := by
  cases op with
  | pushBack tok =>
    rcases afterwards_eq_some hs with hs | rfl
    · exact h.pushBack hs
    · exact h
  | pushBackImage chunk =>
    rcases afterwards_eq_some hs with hs | rfl
    · exact h.pushBackImage hok hs
    · exact h
  | pushBackText toks => exact Option.some.inj hs ▸ Consistent.pushBackText toks h
  | insert inpTokens =>
    rcases afterwards_eq_some hs with hs | rfl
    · unfold ServerTokens.insert at hs
      split_ifs at hs
      exact Except.ok.inj hs ▸ h.appendText hok
    · exact h
  | clear =>
    have hnone : ∀ pos, s.mapPosToImage pos = none := hok
    refine Option.some.inj hs ▸ ⟨⟨fun pos c hp => ?_, fun j hj => ?_, fun pos c _ _ hp => ?_⟩,
      h.hasMtmd⟩
    · simp [clear, hnone] at hp
    · simp [clear] at hj
    · simp [clear, hnone] at hp

theorem keepCommon_consistent {s b s' : ServerTokens} {n : Nat} (h : s.Consistent)
    (hb : b.Consistent) (hn : s.getCommonPrefix b = .ok n)
    (hs : s.afterwards (s.keepFirst n) = some s') : s'.Consistent := by
  obtain ⟨n', hn', hgreat⟩ := getCommonPrefix_spec h.wellFormed hb.wellFormed h.hasMtmd
  obtain rfl := Except.ok.inj (hn.symm.trans hn')
  rcases afterwards_eq_some hs with hs | rfl
  · rcases keepFirst_eq h.wellFormed h.hasMtmd hgreat.1.le_left hgreat.1.cut with ⟨hk, -⟩ | ⟨hk, -⟩
    · obtain rfl := Except.ok.inj (hk.symm.trans hs)
      refine ⟨h.wellFormed.firstPart hgreat.1.cut, fun pos hp => h.hasMtmd pos fun hnone => hp ?_⟩
      simp [ServerTokens.firstPart, hnone]
    · simp [hk] at hs
  · exact h

theorem Reachable.consistent (h : Reachable (fun s op => op.Settled s) s) : s.Consistent := by
  induction h with
  | init hasMtmd => exact ⟨wellFormed_init hasMtmd, fun _ h => by simp at h⟩
  | step _ hok hs ih => exact step_consistent ih hok hs
  | keepCommon _ _ hn hs ih ihb => exact keepCommon_consistent ih ihb hn hs

/-! ## The law and where it fails -/

/-- Every value is well formed, and its common prefix with another is the largest cut that both
agree on; what `cuts` says of it is what `keep_first` does there. -/
def Lawful (cuts : ServerTokens → Nat → Prop) (s b : ServerTokens) : Prop :=
  s.WellFormed ∧ ∃ n, s.getCommonPrefix b = .ok n ∧ IsGreatest {n | s.Agree b n} n ∧ cuts s n

/-- `keep_first` returns the first part. -/
def Keeps (s : ServerTokens) (n : Nat) : Prop := s.keepFirst n = .ok (s.firstPart n)

def TokensLaw : Prop :=
  ∀ s b : ServerTokens, Reachable (fun _ _ => True) s → Reachable (fun _ _ => True) b →
    Lawful Keeps s b

/-- In runs of settled steps the law holds, but for the cuts where an image of several positions
ends, which `keep_first` refuses. -/
theorem lawful_of_settled (hs : Reachable (fun s op => op.Settled s) s)
    (hb : Reachable (fun s op => op.Settled s) b) :
    Lawful (fun s n => s.Keeps n ↔ ¬ s.EndsImage n) s b := by
  have h := hs.consistent
  obtain ⟨n, hn, hgreat⟩ := getCommonPrefix_spec h.wellFormed hb.consistent.wellFormed h.hasMtmd
  refine ⟨h.wellFormed, n, hn, hgreat, ?_⟩
  rcases keepFirst_eq h.wellFormed h.hasMtmd hgreat.1.le_left hgreat.1.cut with ⟨hk, he⟩ | ⟨hk, he⟩
  · exact iff_of_true hk he
  · exact iff_of_false (by simp [Keeps, hk]) (not_not.2 he)

/-- A text token and an image of the given number of positions. -/
def withImage (nPos : Nat) : ServerTokens where
  hasMtmd := true
  mapPosToImage := Function.update (fun _ => none) 1 (some ⟨"image", nPos⟩)
  tokens := 7 :: List.replicate nPos tokenNull

theorem reachable_withImage {ok : ServerTokens → Op → Prop} {nPos : Nat}
    (hok : ∀ s tok, ok s (.pushBack tok)) (himage : ∀ s id, ok s (.pushBackImage ⟨id, nPos⟩)) :
    Reachable ok (withImage nPos) :=
  .step (.step (.init true) (hok _ 7) rfl) (himage _ "image") rfl

theorem lawful_of_settled_image : Lawful (fun s n => s.Keeps n ↔ ¬ s.EndsImage n)
    (withImage 2) (withImage 2) := by
  have h : Reachable (fun s op => op.Settled s) (withImage 2) :=
    reachable_withImage (fun _ _ => trivial) fun _ _ => Nat.two_pos
  exact lawful_of_settled h h

/-- The common prefix of a prompt with itself ends behind its image, where `keep_first` throws. -/
theorem not_tokensLaw : ¬ TokensLaw := by
  intro h
  have hr : Reachable (fun _ _ => True) (withImage 2) :=
    reachable_withImage (fun _ _ => trivial) fun _ _ => trivial
  obtain ⟨-, n, hn, -, hkeeps⟩ := h _ _ hr hr
  have h3 : (withImage 2).getCommonPrefix (withImage 2) = .ok 3 := by decide
  obtain rfl := Except.ok.inj (hn.symm.trans h3)
  have hthrow : ((withImage 2).keepFirst 3).toOption.isNone := by decide
  rw [hkeeps] at hthrow
  simp [Except.toOption] at hthrow

end ServerTokens

end LamaServer
