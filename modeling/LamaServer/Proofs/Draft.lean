import LamaServer.Draft
import LamaServer.Lib.Transition
import LamaServer.Proofs.Prompt

/-!
# The prompt of the draft model and its context

Every call leaves the tokens of the prompt in the sequence at their positions, as long as
`llama_decode` does not fail; and what was drafted stays behind the rest of the prompt. What is
passed back instead of being drafted is a draft for the tokens in front of it, whatever the target
prompt is, and only where it was drafted.
-/

namespace LamaServer

open Transition

/-! ## The sequence -/

section Cells

variable {ts as bs : List Token} {p k n : Nat}

theorem placeFrom_append : ∀ (as bs : List Token) (p : Nat),
    placeFrom p (as ++ bs) = placeFrom p as ++ placeFrom (p + as.length) bs
  | [], bs, p => rfl
  | a :: as, bs, p => by
    rw [List.cons_append, placeFrom, placeFrom, placeFrom_append as bs, List.cons_append,
      List.length_cons, Nat.add_right_comm, ← Nat.add_assoc]

theorem pos_of_mem_placeFrom : ∀ {ts : List Token} {p : Nat} {cell : Int × Token},
    cell ∈ placeFrom p ts → (p : Int) ≤ cell.1 ∧ cell.1 < p + ts.length
  | _ :: ts, p, cell, h => by
    rw [List.length_cons]
    rcases List.mem_cons.1 h with rfl | h
    · exact ⟨le_refl _, by push_cast; omega⟩
    · have hpos := pos_of_mem_placeFrom h
      push_cast at hpos ⊢
      omega

theorem seqRm_append (p0 p1 : Int) (as bs : List (Int × Token)) :
    seqRmCells p0 p1 (as ++ bs) = seqRmCells p0 p1 as ++ seqRmCells p0 p1 bs :=
  List.filter_append _ _

/-- Cells inside of the range are removed. -/
theorem seqRm_inside {p0 p1 : Int} (hfrom : p0 ≤ p) (hto : p1 < 0 ∨ (p + ts.length : Int) ≤ p1) :
    seqRmCells p0 p1 (placeFrom p ts) = [] := by
  refine List.filter_eq_nil_iff.2 fun cell hcell => ?_
  have hpos := pos_of_mem_placeFrom hcell
  simp only [inSeqRange, Bool.not_eq_true', decide_eq_false_iff_not]
  omega

/-- Cells in front of the range and behind it stay. -/
theorem seqRm_outside {p0 p1 : Int}
    (hout : (p + ts.length : Int) ≤ p0 ∨ 0 ≤ p1 ∧ p1 ≤ (p : Int)) :
    seqRmCells p0 p1 (placeFrom p ts) = placeFrom p ts := by
  refine List.filter_eq_self.2 fun cell hcell => ?_
  have hpos := pos_of_mem_placeFrom hcell
  simp only [inSeqRange, Bool.not_eq_true', decide_eq_false_iff_not]
  omega

theorem seqRm_front (has : as.length = k) (bs : List Token) :
    seqRmCells 0 k (placeFrom 0 (as ++ bs)) = placeFrom k bs := by
  rw [placeFrom_append, seqRm_append, seqRm_inside (by omega) (by omega), Nat.zero_add, has,
    seqRm_outside (by omega), List.nil_append]

theorem seqRm_back (has : as.length = n) (bs : List Token) :
    seqRmCells n (-1) (placeFrom 0 (as ++ bs)) = placeFrom 0 as := by
  rw [placeFrom_append, seqRm_append, seqRm_outside (by omega), Nat.zero_add, has,
    seqRm_inside (by omega) (by omega), List.append_nil]

/-- All cells are moved to the front. -/
theorem seqAdd_placeFrom (k : Nat) : ∀ (ts : List Token) (p : Nat),
    seqAddCells k (-1) (-k) (placeFrom (k + p) ts) = placeFrom p ts
  | [], p => rfl
  | t :: ts, p => by
    have hin : inSeqRange k (-1) (((k + p : Nat) : Int), t) = true := by
      simp only [inSeqRange, decide_eq_true_iff]
      omega
    have hpos : ¬ ((k + p : Nat) : Int) + -k < 0 := by omega
    have hmove : ((k + p : Nat) : Int) + -k = p := by omega
    have ih := seqAdd_placeFrom k ts (p + 1)
    rw [seqAddCells] at ih ⊢
    rw [placeFrom, List.filterMap_cons, if_pos hin, if_neg hpos, hmove, Nat.add_assoc, ih]
    rfl

end Cells

/-! ## Continuations -/

/-- A greedy continuation of a context. -/
def Greedy (env : DraftEnv) : List Token → List Token → Prop
  | _, [] => True
  | context, token :: tokens =>
    token = (env.best (placeFrom 0 context)).1 ∧ Greedy env (context ++ [token]) tokens

theorem greedy_append {env : DraftEnv} : ∀ {as bs context : List Token},
    Greedy env context (as ++ bs) ↔ Greedy env context as ∧ Greedy env (context ++ as) bs
  | [], bs, context => by simp [Greedy]
  | a :: as, bs, context => by
    rw [List.cons_append, Greedy, Greedy, greedy_append, List.append_assoc, List.singleton_append,
      and_assoc]

/-- The tokens are a greedy continuation of a suffix of the target prompt and the last token. -/
def DraftCall.Continued (call : DraftCall) (env : DraftEnv) (result : List Token) : Prop :=
  ∃ context, context <:+ call.promptTgt ∧ Greedy env (context ++ [call.idLast]) result

/-- The prompt lists what is stored in the sequence. -/
def CommonSpeculative.Mirrors (s : CommonSpeculative) : Prop := s.cells = placeFrom 0 s.prompt

namespace CommonSpeculative

/-- What holds between the calls. -/
structure Inv (env : DraftEnv) (s : CommonSpeculative) : Prop where
  mirrors : s.Mirrors
  drafted : Greedy env (s.prompt.take s.given) (s.prompt.drop s.given)

theorem inv_init (env : DraftEnv) : Inv env {} := ⟨rfl, trivial⟩

end CommonSpeculative

/-! ## What is used again -/

section Reuse

variable {env : DraftEnv} {call : DraftCall} {s : CommonSpeculative} {reuse : ReuseWindow}

theorem getCommonPrefix_take : ∀ as bs : List Token,
    as.take (getCommonPrefix as bs) = bs.take (getCommonPrefix as bs)
  | [], bs => by simp [getCommonPrefix]
  | a :: as, [] => by simp [getCommonPrefix]
  | a :: as, b :: bs => by
    rw [getCommonPrefix]
    split_ifs with h
    · rw [List.take_succ_cons, List.take_succ_cons, getCommonPrefix_take as bs, h]
    · rfl

/-- What is used again is a part of the old prompt with which the new one starts. -/
structure DraftCall.Reuses (call : DraftCall) (env : DraftEnv) (prompt : List Token)
    (reuse : ReuseWindow) : Prop where
  take_eq : (prompt.drop reuse.i).take reuse.n =
    (call.promptTgt.drop (call.iStart env)).take reuse.n
  le_prompt : reuse.i + reuse.n ≤ prompt.length
  le_target : reuse.n ≤ (call.promptTgt.drop (call.iStart env)).length

theorem findReuse_spec (call : DraftCall) (env : DraftEnv) (prompt : List Token) :
    call.Reuses env prompt (call.findReuse env prompt) := by
  rw [DraftCall.findReuse]
  refine List.foldlRecOn _ _ ⟨rfl, Nat.zero_le _, Nat.zero_le _⟩ fun reuse h i hi => ?_
  dsimp only
  split_ifs
  · obtain ⟨hle, hle'⟩ := getCommonPrefix_le (call.promptTgt.drop (call.iStart env))
      (prompt.drop i)
    have hlt := List.mem_range.1 hi
    rw [List.length_drop] at hle'
    exact ⟨(getCommonPrefix_take _ _).symm, by dsimp only; omega, hle⟩
  · exact h

theorem dropFront_spec {i : Nat} (h : s.Mirrors) (hi : i ≤ s.prompt.length) :
    (s.dropFront i).Mirrors ∧ (s.dropFront i).prompt = s.prompt.drop i := by
  rw [CommonSpeculative.dropFront]
  split_ifs with hpos
  · have hcells : seqAddCells i (-1) (-i) (seqRmCells 0 i s.cells) =
        placeFrom 0 (s.prompt.drop i) := by
      rw [h, ← List.take_append_drop i s.prompt,
        seqRm_front (List.length_take_of_le hi), List.take_append_drop]
      exact seqAdd_placeFrom i _ 0
    exact ⟨hcells, rfl⟩
  · rw [Nat.eq_zero_of_not_pos hpos]
    exact ⟨h, rfl⟩

theorem cutBack_spec {n : Nat} (h : s.Mirrors) :
    (s.cutBack n).Mirrors ∧ (s.cutBack n).prompt = s.prompt.take n := by
  rw [CommonSpeculative.cutBack]
  split_ifs with hlt
  · have hcells : seqRmCells n (-1) s.cells = placeFrom 0 (s.prompt.take n) := by
      rw [h, ← List.take_append_drop n s.prompt,
        seqRm_back (List.length_take_of_le (Nat.le_of_lt hlt)), List.take_append_drop]
    exact ⟨hcells, rfl⟩
  · exact ⟨h, (List.take_of_length_le (Nat.not_lt.1 hlt)).symm⟩

/-- What is kept of the old prompt is mirrored. -/
theorem keep_spec (h : s.Mirrors) (hreuse : call.Reuses env s.prompt reuse) :
    (s.keep reuse).Mirrors ∧
    (s.keep reuse).prompt = (call.promptTgt.drop (call.iStart env)).take reuse.n := by
  have hle := hreuse.le_prompt
  rw [← hreuse.take_eq, CommonSpeculative.keep]
  split_ifs with hn
  · rw [hn]
    exact ⟨rfl, List.take_zero.symm⟩
  · obtain ⟨hfront, hdrop⟩ := dropFront_spec h (show reuse.i ≤ s.prompt.length by omega)
    obtain ⟨hback, htake⟩ := cutBack_spec (n := reuse.n) hfront
    exact ⟨hback, htake.trans (congrArg _ hdrop)⟩

end Reuse

/-! ## Drafting -/

section Draft

variable {env : DraftEnv} {call : DraftCall} {s s' : CommonSpeculative}
  {base result : List Token}

/-- What holds in the loop that samples, `base` being the tokens in front of the draft. -/
structure Drafting (env : DraftEnv) (base : List Token) (s : CommonSpeculative)
    (result : List Token) : Prop where
  mirrors : s.Mirrors
  fresh : s.fresh = true
  prompt_eq : s.prompt = base ++ result
  given_eq : s.given = base.length
  drafted : Greedy env base result

theorem Drafting.inv (h : Drafting env base s result) : s.Inv env where
  mirrors := h.mirrors
  drafted := by
    rw [h.given_eq, h.prompt_eq, List.take_left, List.drop_left]
    exact h.drafted

/-- The token that is sampled continues the draft. -/
theorem Drafting.candidate (h : Drafting env base s result) :
    Greedy env base (result ++ [(s.candidate env).1]) := by
  refine greedy_append.2 ⟨h.drafted, ?_, trivial⟩
  rw [CommonSpeculative.candidate, if_pos h.fresh, h.mirrors, h.prompt_eq]

/-- A token is decoded behind the others. -/
theorem mirrors_decode (h : s.Mirrors) {n : Nat} (hn : s.prompt.length = n) (tokens : List Token) :
    ({ s.decode true (placeFrom n tokens) with prompt := s.prompt ++ tokens } :
      CommonSpeculative).Mirrors := by
  rw [CommonSpeculative.Mirrors, placeFrom_append, Nat.zero_add, hn]
  exact congrArg (· ++ placeFrom n tokens) h

theorem draft_spec (hdec : ∀ n, call.decodes n = true) {nPast : Nat}
    (hbase : base.length = nPast + 1) : ∀ (rounds : Nat) {s : CommonSpeculative}
    {result : List Token}, Drafting env base s result →
    (s.draft env call nPast rounds result).1.Inv env ∧
    Greedy env base (s.draft env call nPast rounds result).2
  | 0, s, result, h => ⟨h.inv, h.drafted⟩
  | rounds + 1, s, result, h => by
    rw [CommonSpeculative.draft]
    dsimp only
    split_ifs
    · exact ⟨h.inv, h.candidate⟩
    · have hlen : s.prompt.length = nPast + (result ++ [(s.candidate env).1]).length := by
        rw [h.prompt_eq, List.length_append, List.length_append, List.length_singleton]
        omega
      rw [hdec]
      exact draft_spec hdec hbase rounds ⟨mirrors_decode h.mirrors hlen [_], rfl,
        (congrArg (· ++ [_]) h.prompt_eq).trans (List.append_assoc _ _ _), h.given_eq,
        h.candidate⟩

/-- The tokens that are passed back are some of those that there are. -/
theorem passBack_prefix (nDraft : Int) : ∀ tokens result : List Token,
    ∃ passed, passBack nDraft result tokens = result ++ passed ∧ passed <+: tokens
  | [], result => ⟨[], (List.append_nil result).symm, List.prefix_rfl⟩
  | token :: tokens, result => by
    rw [passBack]
    split_ifs
    · exact ⟨[token], rfl, List.prefix_append [token] tokens⟩
    · obtain ⟨passed, heq, hpre⟩ := passBack_prefix nDraft tokens (result ++ [token])
      exact ⟨token :: passed, by rw [heq, List.append_assoc]; rfl,
        List.cons_prefix_cons.2 ⟨rfl, hpre⟩⟩

/-- The rest of the prompt is decoded behind what is kept of the old one. -/
theorem decodePrompt_spec (h : s.Mirrors) {n : Nat} (hn : s.prompt.length = n)
    (tokens : List Token) : (s.decodePrompt true n tokens).Mirrors := by
  rw [CommonSpeculative.decodePrompt]
  split_ifs with hne
  · exact mirrors_decode h hn tokens
  · rw [not_not.1 hne, List.append_nil]
    exact h

theorem decodeLast_spec (h : s.Mirrors) (env : DraftEnv) (idLast : Token) :
    Drafting env (s.prompt ++ [idLast]) (s.decodeLast true idLast) [] where
  mirrors := mirrors_decode h rfl [idLast]
  fresh := rfl
  prompt_eq := (List.append_nil _).symm
  given_eq := by
    rw [List.length_append]
    rfl
  drafted := trivial

/-- A call that drafts. -/
theorem genDraft_drafts (hdec : ∀ n, call.decodes n = true) (h : s.Inv env)
    (hpass : ¬ call.PassesBack env s) (hcall : s.genDraft env call = .ok (s', result)) :
    s'.Inv env ∧ call.Continued env result := by
  have hreuse := findReuse_spec call env s.prompt
  obtain ⟨hkeep, hprompt⟩ := keep_spec h.mirrors hreuse
  have hlen := (congrArg List.length hprompt).trans (List.length_take_of_le hreuse.le_target)
  have hmirrors := decodePrompt_spec hkeep hlen
    (call.promptTgt.drop (call.iStart env + (call.findReuse env s.prompt).n))
  have hcontext : (s.keep (call.findReuse env s.prompt)).prompt ++
      call.promptTgt.drop (call.iStart env + (call.findReuse env s.prompt).n) =
        call.promptTgt.drop (call.iStart env) := by
    rw [hprompt, ← List.drop_drop, List.take_append_drop]
  rw [CommonSpeculative.genDraft] at hcall
  dsimp only at hcall
  rw [if_neg hpass, hdec, hdec] at hcall
  split_ifs at hcall
  have hdraft := draft_spec hdec List.length_append call.params.nDraft.toNat
    (decodeLast_spec hmirrors env call.idLast)
  rw [Except.ok.inj hcall] at hdraft
  refine ⟨hdraft.1, call.promptTgt.drop (call.iStart env), List.drop_suffix _ _, ?_⟩
  rw [← hcontext]
  exact hdraft.2

/-- Behind what was given, the prompt is a greedy continuation of itself. -/
theorem CommonSpeculative.Inv.greedy (h : s.Inv env) {n : Nat} (hn : s.given ≤ n) :
    Greedy env (s.prompt.take n) (s.prompt.drop n) := by
  obtain ⟨k, rfl⟩ := Nat.exists_eq_add_of_le hn
  have hdrafted := h.drafted
  rw [← List.take_append_drop k (s.prompt.drop s.given), greedy_append, ← List.take_add,
    List.drop_drop] at hdrafted
  exact hdrafted.2

/-- What is passed back was drafted for the tokens in front of it, if they are a suffix of the
target prompt and nothing behind them was given. -/
theorem passesBack_continued {n : Nat}
    (hn : (call.findReuse env s.prompt).i + (call.findReuse env s.prompt).n = n) (h : s.Inv env)
    (hpass : call.PassesBack env s) (hsuffix : s.prompt.take n <:+ call.promptTgt)
    (hgiven : s.given ≤ n + 1) (hcall : s.genDraft env call = .ok (s', result)) :
    call.Continued env result := by
  have hlast : s.prompt.take (n + 1) = s.prompt.take n ++ [call.idLast] := by
    rw [List.take_add_one, ← hn, hpass.2]
    rfl
  rw [CommonSpeculative.genDraft] at hcall
  dsimp only at hcall
  rw [if_pos hpass, hn] at hcall
  split_ifs at hcall
  obtain ⟨passed, hpassed, rest, hrest⟩ := passBack_prefix call.params.nDraft
    (s.prompt.drop (n + 1)) []
  cases hcall
  refine ⟨s.prompt.take n, hsuffix, ?_⟩
  have hgreedy := h.greedy hgiven
  rw [hlast, ← hrest, greedy_append] at hgreedy
  rw [hpassed]
  exact hgreedy.1

end Draft

/-! ## Runs -/

/-- One call. -/
def DraftStep (env : DraftEnv) (s : CommonSpeculative) (call : DraftCall)
    (s' : CommonSpeculative) : Prop :=
  ∃ result, s.call env call = some (s', result)

/-- `llama_decode` does not fail, and what is passed back was drafted behind a suffix of the target
prompt. -/
def DraftCall.Sound (env : DraftEnv) (s : CommonSpeculative) (call : DraftCall) : Prop :=
  let reuse := call.findReuse env s.prompt
  (∀ n, call.decodes n = true) ∧
    (call.PassesBack env s →
      s.prompt.take (reuse.i + reuse.n) <:+ call.promptTgt ∧ s.given ≤ reuse.i + reuse.n + 1)

namespace CommonSpeculative

variable {env : DraftEnv} {call : DraftCall} {s s' : CommonSpeculative} {result : List Token}

theorem call_cases (h : s.call env call = some (s', result)) :
    s.genDraft env call = .ok (s', result) ∨ s' = s ∧ result = [] := by
  rw [CommonSpeculative.call] at h
  rcases hgen : s.genDraft env call with e | r
  · rw [hgen] at h
    cases e with
    | lengthError =>
      cases h
      exact .inr ⟨rfl, rfl⟩
    | abort => cases h
  · rw [hgen] at h
    exact .inl (congrArg _ (Option.some.inj h))

theorem genDraft_passesBack (hpass : call.PassesBack env s)
    (h : s.genDraft env call = .ok (s', result)) : s' = s := by
  rw [genDraft] at h
  dsimp only at h
  rw [if_pos hpass] at h
  split_ifs at h
  cases h
  rfl

/-- A call keeps the invariant and returns a draft. -/
theorem call_spec (h : s.Inv env) (hsound : call.Sound env s)
    (hcall : s.call env call = some (s', result)) : s'.Inv env ∧ call.Continued env result := by
  rcases call_cases hcall with hgen | ⟨rfl, rfl⟩
  · by_cases hpass : call.PassesBack env s
    · obtain ⟨hsuffix, hgiven⟩ := hsound.2 hpass
      have hdraft := passesBack_continued rfl h hpass hsuffix hgiven hgen
      rw [genDraft_passesBack hpass hgen]
      exact ⟨h, hdraft⟩
    · exact genDraft_drafts hsound.1 h hpass hgen
  · exact ⟨h, [], List.nil_suffix, trivial⟩

theorem run_inv {calls : List DraftCall}
    (hrun : Run (Guarded (fun s call => call.Sound env s) (DraftStep env)) {} calls s) :
    s.Inv env := by
  refine hrun.invariant (I := Inv env) (fun s call s' h hstep => ?_) (inv_init env)
  obtain ⟨hsound, result, hcall⟩ := hstep
  exact (call_spec h hsound hcall).1

end CommonSpeculative

open CommonSpeculative

/-- After every call of every run the prompt lists what is stored in the sequence, and what the
call returns is a draft. -/
def DraftLaw : Prop :=
  ∀ (env : DraftEnv) (calls : List DraftCall) (s : CommonSpeculative) (call : DraftCall)
    (s' : CommonSpeculative) (result : List Token), Run (DraftStep env) {} calls s →
    s.call env call = some (s', result) → s'.Mirrors ∧ call.Continued env result

/-- A draft model that always continues with 9. -/
def nines : DraftEnv where
  nCtx := 4096
  nBatch := 512
  best := fun _ => (9, 1)
  stale := fun _ => (0, 0)

/-- What a call for the target prompt `1 2 3` and the last token 4 leaves behind. -/
def firstDraft : CommonSpeculative where
  prompt := [1, 2, 3, 4, 9, 9]
  cells := placeFrom 0 [1, 2, 3, 4, 9, 9]
  fresh := true
  given := 4

def firstCall : DraftCall := { params := { nDraft := 3 }, promptTgt := [1, 2, 3], idLast := 4 }

theorem firstCall_eq :
    CommonSpeculative.call nines {} firstCall = some (firstDraft, [9, 9, 9]) := by
  decide +kernel

/-- The target model has taken the first of the tokens that were drafted. -/
def nextCall : DraftCall := { promptTgt := [1, 2, 3, 4], idLast := 9 }

end LamaServer
