import LamaServer.Proofs.GrammarParser

/-!
# The check for left recursion

A rule may be empty if it has an empty alternative, but also if an alternative consists of rules
that may be empty. The check looks only for the first. So it misses left recursion behind a rule
of the second kind, and then advancing a stack goes on for ever.
-/

namespace LamaServer

/-- Advancing comes to an end on every stack that accepting characters reaches. -/
def Terminates (rules : List GrammarRule) (start : Nat) : Prop :=
  ∀ chrs, ∃ fuel, acceptAll rules fuel start chrs ≠ .error .outOfFuel

/-- No rule that comes up in a derivation is left-recursive. -/
def NoLeftRecursion (rules : List GrammarRule) (start : Nat) : Prop :=
  ∀ i, (grammarOf rules).ComesUp [.rule start] i → ¬ (grammarOf rules).LeftRecursive i

/-- A grammar that is accepted does not make the sampler recurse for ever. -/
def LeftRecursionLaw : Prop :=
  ∀ (src grammarRoot : Text) (rules : List GrammarRule) (start : Nat),
    acceptGrammar src grammarRoot = some (rules, start) → Terminates rules start

section Terminates

variable {rules : List GrammarRule} {start i : Nat}

theorem alts_of_ge (hi : rules.length ≤ i) : (grammarOf rules).alts i = [] := by
  simp [grammarOf, List.getElem?_eq_none hi]

theorem terminates_of_valid (hrules : RulesValid rules) :
    Terminates rules start ↔ NoLeftRecursion rules start := by
  by_cases hstart : start < rules.length
  · rw [NoLeftRecursion, ← acceptAll_iff hrules hstart]
    refine forall_congr' fun chrs => exists_congr fun fuel => ?_
    cases h : acceptAll rules fuel start chrs with
    | ok out => exact ⟨fun _ => ⟨out, rfl⟩, fun _ h => by cases h⟩
    | error e =>
      obtain rfl : e = .outOfFuel := (acceptAll_ends hrules hstart chrs).of_error h
      exact ⟨fun h => absurd rfl h, fun ⟨_, h⟩ => by cases h⟩
  · -- nothing is derived from a rule that is not there
    have hnone := alts_of_ge (Nat.le_of_not_lt hstart)
    refine iff_of_true (fun chrs => ⟨0, ?_⟩) ?_
    · rw [acceptAll, initStacks, List.getElem?_eq_none (Nat.le_of_not_lt hstart)]
      exact fun h => by cases h
    · rintro i ⟨w, r, hr⟩ ⟨r', hrec⟩
      generalize hp : [Cfg.Sym.rule start] = p at hr
      cases hr with
      | refl =>
        cases hp
        obtain ⟨q, hstep, -⟩ := Relation.TransGen.head'_iff.1 hrec
        cases hstep with
        | mk _ hq => simp [hnone] at hq
      | read => cases hp
      | expand hq =>
        cases hp
        simp [hnone] at hq

theorem terminates_iff (src grammarRoot : Text) (rules : List GrammarRule) (start : Nat)
    (h : acceptGrammar src grammarRoot = some (rules, start)) :
    Terminates rules start ↔ NoLeftRecursion rules start :=
  terminates_of_valid (acceptGrammar_valid h).1

/-- In `root ::= "a"` no rule is left-recursive. -/
theorem notLeftRecursive_literal (i : Nat) :
    ¬ (grammarOf [[.char 97, .endRule]]).LeftRecursive i := by
  refine not_leftRecursive_of_terminal fun q hmem => ?_
  cases i with
  | zero =>
    obtain rfl := List.mem_singleton.1 hmem
    exact terminal_char _ _
  | succ i => cases hmem

/-- `root ::= "a"` -/
theorem terminates_iff_literal : Terminates [[.char 97, .endRule]] 0 :=
  (terminates_iff ("root ::= \"a\"".toList.map ascii) ("root".toList.map ascii) _ _
    (by decide +kernel)).2 fun i _ => notLeftRecursive_literal i

/-- The rules of `root ::= ("a"?)*`: the group, rule 1, has no empty alternative, but rule 2, the
only symbol of its only alternative, has. -/
def optionalGroup : List GrammarRule :=
  [[.ruleRef 3, .endRule], [.ruleRef 2, .endRule], [.char 97, .alt, .endRule],
    [.ruleRef 1, .ruleRef 3, .alt, .endRule]]

theorem leftRecursive_optionalGroup : (grammarOf optionalGroup).LeftRecursive 3 := by
  refine ⟨[], .head (.mk (q := [.rule 1, .rule 3]) [] (by decide)) ?_⟩
  refine .head (.mk (q := [.rule 2]) [.rule 3] (by decide)) ?_
  exact .single (.mk (q := []) [.rule 3] (by decide))

theorem not_leftRecursionLaw : ¬ LeftRecursionLaw := by
  intro h
  have hgrammar : acceptGrammar ("root ::= (\"a\"?)*".toList.map ascii)
      ("root".toList.map ascii) = some (optionalGroup, 0) := by
    decide +kernel
  refine (terminates_of_valid (acceptGrammar_valid hgrammar).1).1 (h _ _ _ _ hgrammar) 3 ?_
    leftRecursive_optionalGroup
  exact ⟨[], [], .expand (q := [.rule 3]) (by decide) (.refl _)⟩

end Terminates

/-! ## What the check finds -/

section Detect

variable {rules : List GrammarRule} {st st' st'' : DetectState} {i j : Nat}

/-- The rule has an empty alternative. -/
def hasEmpty (rules : List GrammarRule) (i : Nat) : Bool := rules[i]?.any (hasEmptyAlternate true)

/-- The rules that the check recurses into. -/
def seenRefs (rules : List GrammarRule) : Bool → GrammarRule → List Nat
  | _, [] => []
  | true, .ruleRef j :: rest => j :: seenRefs rules (hasEmpty rules j) rest
  | _, e :: rest => seenRefs rules e.isEnd rest

def SeenCorner (rules : List GrammarRule) (i j : Nat) : Prop :=
  ∃ rule, rules[i]? = some rule ∧ j ∈ seenRefs rules true rule

/-- No way on from `i` comes back to itself or to a rule in progress. -/
inductive Clear (rules : List GrammarRule) : Set Nat → Nat → Prop
  | mk {S i} : i ∉ S → (∀ j, SeenCorner rules i j → Clear rules (insert i S) j) → Clear rules S i

theorem Clear.anti {S T : Set Nat} (h : Clear rules T i) (hST : S ⊆ T) : Clear rules S i := by
  induction h generalizing S with
  | mk hi _ ih =>
    exact .mk (fun hS => hi (hST hS)) fun j hj => ih j hj (Set.insert_subset_insert hST)

theorem Clear.notMem {S : Set Nat} (h : Clear rules S i)
    (hij : Relation.ReflTransGen (SeenCorner rules) i j) : j ∉ S := by
  induction h with
  | mk hi _ ih =>
    obtain rfl | ⟨k, hk, hkj⟩ := Relation.ReflTransGen.cases_head hij
    · exact hi
    · exact fun hj => ih k hk hkj (Set.mem_insert_of_mem _ hj)

theorem Clear.acyclic (h : Clear rules ∅ i) : ¬ Relation.TransGen (SeenCorner rules) i i := by
  intro hcycle
  obtain ⟨k, hk, hki⟩ := Relation.TransGen.head'_iff.1 hcycle
  cases h with
  | mk _ hnext => exact (hnext k hk).notMem hki (Set.mem_insert _ _)

namespace DetectState

def busy (st : DetectState) : Set Nat := {j | st.inProgress.getD j false = true}

theorem mem_busy : j ∈ st.busy ↔ st.inProgress.getD j false = true := Iff.rfl

/-- The flags are right where they are set. -/
structure Sound (rules : List GrammarRule) (st : DetectState) : Prop where
  inProgress : st.inProgress.length = rules.length
  mayBeEmpty : st.mayBeEmpty.length = rules.length
  empty : ∀ j, st.mayBeEmpty.getD j false = true → hasEmpty rules j = true
  visited : ∀ j, st.visited.getD j false = true → Clear rules ∅ j

/-- The check has passed for rules, and is where it was. -/
structure Passed (rules : List GrammarRule) (st st' : DetectState) (is : List Nat) : Prop where
  sound : st'.Sound rules
  inProgress : st'.inProgress = st.inProgress
  mono : ∀ j, st.mayBeEmpty.getD j false = true → st'.mayBeEmpty.getD j false = true
  clear : ∀ i ∈ is, Clear rules st.busy i
  empty : ∀ i ∈ is, hasEmpty rules i = true → st'.mayBeEmpty.getD i false = true

theorem Sound.passed (h : st.Sound rules) : Passed rules st st [] :=
  ⟨h, rfl, fun _ h => h, fun _ h => (by cases h), fun _ h => (by cases h)⟩

theorem Passed.append {is js : List Nat} (h : Passed rules st st' is)
    (h' : Passed rules st' st'' js) : Passed rules st st'' (is ++ js) where
  sound := h'.sound
  inProgress := h'.inProgress.trans h.inProgress
  mono j hj := h'.mono j (h.mono j hj)
  clear i hi := by
    obtain hi | hi := List.mem_append.1 hi
    · exact h.clear i hi
    · have hclear := h'.clear i hi
      rwa [busy, h.inProgress] at hclear
  empty i hi hempty := by
    obtain hi | hi := List.mem_append.1 hi
    · exact h'.mono i (h.empty i hi hempty)
    · exact h'.empty i hi hempty

end DetectState

/-- Returns, and has passed for the rules unless it found left recursion. -/
def Detects (rules : List GrammarRule) (st : DetectState) (is : List Nat)
    (x : Except GrammarError (Bool × DetectState)) : Prop :=
  x.Ends (fun _ => False) fun r => r.1 = false → st.Passed rules r.2 is

/-- The loop over a rule passes if each call does. -/
theorem detectElements_detects {P : List Bool}
    {detect : Nat → DetectState → Except GrammarError (Bool × DetectState)}
    (hdetect : ∀ j st, j < rules.length → st.Sound rules → st.inProgress = P →
      Detects rules st [j] (detect j st)) :
    ∀ {flag : Bool} {rest : GrammarRule} {st : DetectState},
      (∀ j, .ruleRef j ∈ rest → j < rules.length) → st.Sound rules → st.inProgress = P →
      Detects rules st (seenRefs rules flag rest) (detectElements detect flag rest st)
  | _, [], _, _, hst, _ => by
    rw [detectElements, seenRefs]
    exact fun _ => hst.passed
  | flag, e :: rest, st, hrefs, hst, hP => by
    have hrest := fun j hj => hrefs j (List.mem_cons_of_mem _ hj)
    by_cases hrec : flag = true ∧ ∃ j, e = .ruleRef j
    · obtain ⟨rfl, j, rfl⟩ := hrec
      rw [detectElements, seenRefs]
      refine (hdetect j st (hrefs j (List.mem_cons_self ..)) hst hP).bind fun r hr => ?_
      obtain ⟨found, st'⟩ := r
      cases found with
      | true => exact fun h => by cases h
      | false =>
        have hpassed := hr rfl
        have hflag : st'.mayBeEmpty.getD j false = hasEmpty rules j := by
          rw [Bool.eq_iff_iff]
          exact ⟨hpassed.sound.empty j, hpassed.empty j (List.mem_singleton_self j)⟩
        rw [← hflag]
        exact (detectElements_detects hdetect hrest hpassed.sound
          (hpassed.inProgress.trans hP)).mono fun r hr hfound => hpassed.append (hr hfound)
    · have hstep : detectElements detect flag (e :: rest) st =
          detectElements detect e.isEnd rest st ∧
          seenRefs rules flag (e :: rest) = seenRefs rules e.isEnd rest := by
        cases flag with
        | false => cases e <;> exact ⟨rfl, rfl⟩
        | true =>
          cases e with
          | ruleRef j => exact absurd ⟨rfl, j, rfl⟩ hrec
          | _ => exact ⟨rfl, rfl⟩
      rw [hstep.1, hstep.2]
      exact detectElements_detects hdetect hrest hst hP

theorem count_set_true : ∀ {l : List Bool} {i : Nat}, i < l.length → l.getD i false = false →
    (l.set i true).count false + 1 = l.count false
  | b :: l, 0, _, hb => by
    obtain rfl : b = false := hb
    rw [List.set_cons_zero, List.count_cons_self, List.count_cons_of_ne (by decide)]
  | b :: l, i + 1, hi, hl => by
    have ih := count_set_true (Nat.lt_of_succ_lt_succ hi) (show l.getD i false = false from hl)
    rw [List.set_cons_succ, List.count_cons, List.count_cons, ← ih]
    omega

theorem getD_set (l : List Bool) (i j : Nat) (b : Bool) : (l.set i b).getD j false =
    if i = j ∧ i < l.length then b else l.getD j false := by
  rw [List.getD_eq_getElem?_getD, List.getD_eq_getElem?_getD, List.getElem?_set]
  by_cases hij : i = j
  · subst hij
    by_cases hlt : i < l.length
    · simp [hlt]
    · simp [hlt]
  · simp [hij]

theorem set_set_self {l : List Bool} {i : Nat} (hi : i < l.length) (h : l.getD i false = false) :
    (l.set i true).set i false = l := by
  rw [List.getD_eq_getElem?_getD, List.getElem?_eq_getElem hi, Option.getD_some] at h
  calc (l.set i true).set i false = l.set i l[i] := by rw [List.set_set, h]
    _ = l := List.set_getElem_self hi

/-- The check puts the rule in progress. -/
theorem sound_start (hst : st.Sound rules) {rule : GrammarRule} (hrule : rules[i]? = some rule) :
    DetectState.Sound rules { st with
      inProgress := st.inProgress.set i true
      mayBeEmpty := if hasEmptyAlternate true rule then st.mayBeEmpty.set i true
        else st.mayBeEmpty } where
  inProgress := by
    rw [List.length_set]
    exact hst.inProgress
  mayBeEmpty := by
    dsimp only
    split_ifs
    · rw [List.length_set]
      exact hst.mayBeEmpty
    · exact hst.mayBeEmpty
  empty j hj := by
    dsimp only at hj
    split_ifs at hj with hempty
    · rw [getD_set] at hj
      split_ifs at hj with hij
      · obtain ⟨rfl, -⟩ := hij
        rw [hasEmpty, hrule]
        exact hempty
      · exact hst.empty j hj
    · exact hst.empty j hj
  visited := hst.visited

/-- The check of a rule that is not in progress passes if the loop over the rule does. -/
theorem detectLeftRecursion_detects (hrules : RulesValid rules) : ∀ {fuel i : Nat}
    {st : DetectState}, i < rules.length → st.Sound rules → st.inProgress.count false < fuel →
    Detects rules st [i] (detectLeftRecursion rules fuel i st)
  | 0, _, _, _, _, hfuel => absurd hfuel (Nat.not_lt_zero _)
  | fuel + 1, i, st, hi, hst, hfuel => by
    unfold detectLeftRecursion
    split_ifs with hbusy
    · exact fun h => by cases h
    · obtain ⟨rule, hrule⟩ : ∃ rule, rules[i]? = some rule := ⟨_, List.getElem?_eq_getElem hi⟩
      rw [Bool.not_eq_true] at hbusy
      have hlt : i < st.inProgress.length := by rw [hst.inProgress]; exact hi
      have hcount := count_set_true hlt hbusy
      have hstart := sound_start hst hrule
      rw [hrule]
      dsimp only
      refine (detectElements_detects (P := st.inProgress.set i true) (fun j st hj hst hP =>
        detectLeftRecursion_detects hrules hj hst (by rw [hP]; omega))
        (hrules rule (List.mem_of_getElem? hrule)).refs hstart rfl).bind fun r hr => ?_
      obtain ⟨found, st₁⟩ := r
      cases found with
      | true => exact fun h => by cases h
      | false =>
        have hpassed := hr rfl
        have hinProgress : st₁.inProgress = st.inProgress.set i true := hpassed.inProgress
        have hback : st₁.inProgress.set i false = st.inProgress := by
          rw [hinProgress, set_set_self hlt hbusy]
        have hclear : Clear rules st.busy i := by
          refine .mk (fun hmem => ?_) fun j hj => ?_
          · rw [DetectState.mem_busy, hbusy] at hmem
            cases hmem
          · obtain ⟨rule', hrule', hj⟩ := hj
            obtain rfl : rule = rule' := Option.some.inj (hrule.symm.trans hrule')
            refine (hpassed.clear j hj).anti fun k hk => ?_
            rw [DetectState.mem_busy]
            dsimp only
            rw [getD_set]
            obtain rfl | hk := hk
            · rw [if_pos ⟨rfl, hlt⟩]
            · split_ifs
              · rfl
              · exact hk
        refine fun _ => ⟨⟨?_, hpassed.sound.mayBeEmpty, hpassed.sound.empty, fun j hj => ?_⟩, hback,
          fun j hj => ?_, fun j hj => ?_, fun j hj hempty => ?_⟩
        · exact (congrArg List.length hback).trans hst.inProgress
        · dsimp only at hj
          rw [getD_set] at hj
          split_ifs at hj with hij
          · obtain ⟨rfl, -⟩ := hij
            exact hclear.anti (Set.empty_subset _)
          · exact hpassed.sound.visited j hj
        · refine hpassed.mono j ?_
          dsimp only
          split_ifs
          · rw [getD_set]
            split_ifs
            · rfl
            · exact hj
          · exact hj
        · obtain rfl := List.mem_singleton.1 hj
          exact hclear
        · obtain rfl := List.mem_singleton.1 hj
          rw [hasEmpty, hrule] at hempty
          refine hpassed.mono j ?_
          dsimp only
          have hlen : j < st.mayBeEmpty.length := by rw [hst.mayBeEmpty]; exact hi
          rw [if_pos (show hasEmptyAlternate true rule = true from hempty), getD_set,
            if_pos ⟨rfl, hlen⟩]

/-- The check comes to an end, and finds every cycle that it looks for. -/
theorem isLeftRecursive_spec (hrules : RulesValid rules) :
    (isLeftRecursive rules).Ends (fun _ => False) fun found =>
      found = false → ∀ i, ¬ Relation.TransGen (SeenCorner rules) i i := by
  unfold isLeftRecursive
  dsimp only
  refine Except.Ends.bind (Q := fun r => r.1 = false → ∀ i < rules.length, Clear rules ∅ i) ?_
    fun r hr hfound i hcycle => ?_
  · have hnone : ∀ j, (List.replicate rules.length false).getD j false = false := fun j => by
      rw [List.getD_eq_getElem?_getD, List.getElem?_replicate]
      split_ifs <;> rfl
    -- no rule is in progress between the calls
    refine Except.Ends.mono (Q := fun r => r.1 = false → r.2.Sound rules ∧
      r.2.inProgress = List.replicate rules.length false ∧
      ∀ i ∈ List.range rules.length, Clear rules ∅ i) ?_
      fun r hr hfound i hi => (hr hfound).2.2 i (List.mem_range.2 hi)
    refine Except.Ends.foldlM_induction (P := fun done (r : Bool × DetectState) =>
      r.1 = false → r.2.Sound rules ∧ r.2.inProgress = List.replicate rules.length false ∧
        ∀ i ∈ done, Clear rules ∅ i)
      (fun _ => ⟨⟨List.length_replicate, List.length_replicate, fun j hj => ?_, fun j hj => ?_⟩,
        rfl, fun _ h => by cases h⟩) fun done i hi r hr => ?_
    · rw [hnone] at hj
      cases hj
    · rw [hnone] at hj
      cases hj
    · obtain ⟨found, st⟩ := r
      dsimp only
      split_ifs with hskip
      · intro hfound
        obtain ⟨hst, hP, hdone⟩ := hr hfound
        refine ⟨hst, hP, List.forall_mem_append.2 ⟨hdone, List.forall_mem_singleton.2 ?_⟩⟩
        exact hst.visited i (hskip.resolve_left (by rw [show found = false from hfound]; decide))
      · obtain ⟨hfound, -⟩ := not_or.1 hskip
        obtain ⟨hst, hP, hdone⟩ := hr (Bool.eq_false_iff.2 hfound)
        have hfuel : st.inProgress.count false < rules.length + 1 := by
          rw [hP, List.count_replicate_self]
          exact Nat.lt_succ_self _
        refine (detectLeftRecursion_detects hrules (List.mem_range.1 hi) hst hfuel).mono
          fun r hr hfound => ?_
        have hpassed := hr hfound
        refine ⟨hpassed.sound, hpassed.inProgress.trans hP,
          List.forall_mem_append.2 ⟨hdone, List.forall_mem_singleton.2 ?_⟩⟩
        exact (hpassed.clear i (List.mem_singleton_self i)).anti (Set.empty_subset _)
  · obtain ⟨k, ⟨rule, hrule, -⟩, -⟩ := Relation.TransGen.head'_iff.1 hcycle
    exact (hr hfound i (List.getElem?_eq_some_iff.1 hrule).1).acyclic hcycle

/-! ## Where the check is complete -/

theorem mem_seenRefs_of_symbols
    (hempty : ∀ i, (grammarOf rules).Derives [.rule i] [] → hasEmpty rules i = true) {n : Nat}
    {r : Cfg.Form Nat CharClass} : ∀ {u : Cfg.Form Nat CharClass} {pos : GrammarPos}, pos.Valid n →
    pos.symbols = u ++ .rule j :: r → (grammarOf rules).Derives u [] → j ∈ seenRefs rules true pos
  | u, [], _, hu, _ => by simp [GrammarPos.symbols] at hu
  | u, e :: pos, hpos, hu, hderives => by
    obtain hend | ⟨i, rfl⟩ | ⟨c, rfl⟩ | ⟨c, rfl⟩ | rfl := hpos.head_cases
    · have hnil : GrammarPos.symbols (e :: pos) = [] :=
        GrammarPos.symbols_of_end (by simpa [GrammarPos.isEndOfSequence] using hend)
      rw [hnil] at hu
      simp at hu
    · have hnext : GrammarPos.Valid n pos :=
        hpos.toTail.valid (by simp) fun e' => by cases e' <;> rfl
      rw [seenRefs]
      cases u with
      | nil =>
        cases hu
        exact List.mem_cons_self ..
      | cons x u =>
        obtain ⟨rfl, hsymbols⟩ := List.cons.inj hu
        obtain ⟨v, w, hvw, hv, hw⟩ := Cfg.Grammar.derives_append_iff.1
          (show (grammarOf rules).Derives ([.rule i] ++ u) [] from hderives)
        obtain ⟨rfl, rfl⟩ := List.append_eq_nil_iff.1 hvw.symm
        rw [hempty i hv]
        exact List.mem_cons_of_mem _ (mem_seenRefs_of_symbols hempty hnext hsymbols hw)
    all_goals
      cases u with
      | nil => cases hu
      | cons x u =>
        obtain ⟨rfl, -⟩ := List.cons.inj hu
        cases hderives

theorem seenRefs_alternates {pos : GrammarPos} : ∀ {rule : GrammarRule} {flag : Bool},
    pos ∈ GrammarPos.laterAlternates rule → j ∈ seenRefs rules true pos →
    j ∈ seenRefs rules flag rule
  | [], _, hpos, _ => by cases hpos
  | e :: rule, flag, hpos, hj => by
    have ih : ∀ {flag}, pos ∈ GrammarPos.laterAlternates rule → j ∈ seenRefs rules flag rule :=
      fun hpos => seenRefs_alternates hpos hj
    cases e with
    | endRule => cases hpos
    | alt =>
      have hseen : seenRefs rules flag (.alt :: rule) = seenRefs rules true rule := by
        cases flag <;> rfl
      rw [hseen]
      obtain rfl | hpos := List.mem_cons.1 hpos
      · exact hj
      · exact ih hpos
    | ruleRef i =>
      cases flag with
      | false => exact ih hpos
      | true => exact List.mem_cons_of_mem _ (ih hpos)
    | _ => cases flag <;> exact ih hpos

/-- Where every rule that may be empty has an empty alternative, the check sees every corner. -/
theorem seenCorner_of_leftCorner (hrules : RulesValid rules)
    (hempty : ∀ i, (grammarOf rules).Derives [.rule i] [] → hasEmpty rules i = true)
    (h : (grammarOf rules).LeftCorner i j) : SeenCorner rules i j := by
  obtain ⟨u, r, hmem, hu⟩ := h
  by_cases hi : i < rules.length
  · obtain ⟨rule, hrule⟩ : ∃ rule, rules[i]? = some rule := ⟨_, List.getElem?_eq_getElem hi⟩
    obtain ⟨pos, hpos, hsymbols⟩ := (mem_alts hrule).1 hmem
    have hvalid := (hrules rule (List.mem_of_getElem? hrule)).alternates pos hpos
    have hseen := mem_seenRefs_of_symbols hempty hvalid hsymbols hu
    refine ⟨rule, hrule, ?_⟩
    obtain rfl | hpos := List.mem_cons.1 hpos
    · exact hseen
    · exact seenRefs_alternates hpos hseen
  · rw [alts_of_ge (Nat.le_of_not_lt hi)] at hmem
    cases hmem

/-- The check is complete for the grammars in which every rule that may be empty has an empty
alternative. -/
theorem terminates_of_emptyAlternates {src grammarRoot : Text} {start : Nat}
    (h : acceptGrammar src grammarRoot = some (rules, start))
    (hempty : ∀ i, (grammarOf rules).Derives [.rule i] [] → hasEmpty rules i = true) :
    Terminates rules start := by
  obtain ⟨hrules, hcheck⟩ := acceptGrammar_valid h
  refine (terminates_of_valid hrules).2 fun i _ hrec => ?_
  have hcycle := Cfg.Grammar.leftRecursive_iff.1 hrec
  exact (isLeftRecursive_spec hrules).of_ok hcheck rfl i
    (Relation.TransGen.mono (fun _ _ h => seenCorner_of_leftCorner hrules hempty h) i i hcycle)

end Detect

end LamaServer
