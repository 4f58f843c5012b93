import LamaServer.Proofs.Sbatch

/-!
# A whole batch is split

Every split takes at least one token, so that as many splits as there are tokens leave none. A
simple split keeps the order of the batch; the others compute shared prompts first.
-/

namespace LamaServer

variable {ι : Type} {b : LlamaBatch ι} {f : Nat → List Int} {p : Nat → Int} {logitsAll : Bool}

/-! ## The simple split -/

/-- The tokens `done` are in ubatches; they are the first ones. -/
structure Sbatch.Simple (b : LlamaBatch ι) (logitsAll : Bool) (sb : Sbatch ι) (done : List Nat) :
    Prop where
  of : sb.Of b logitsAll
  ids : sb.ids = List.range b.nTokens
  first : done = List.range done.length
  count : done.length + sb.nTokens = b.nTokens
  seq : sb.nTokens ≠ 0 →
    sb.seq = [{ seqId := [], offset := done.length, length := sb.nTokens }]
  out : sb.outIds = done.filter (b.requested logitsAll)

section Simple

variable {sb : Sbatch ι} {done : List Nat} {nUbatch : Nat}

theorem drop_take_range {n off L : Nat} (h : off + L ≤ n) :
    ((List.range n).drop off).take L = List.range' off L := by
  refine List.ext_getElem (by simp; omega) fun i hi hi' => ?_
  simp

/-- The ubatch that views `L` tokens of the batch. -/
def SplitUbatch.view (b : LlamaBatch ι) (logitsAll : Bool) (off L : Nat) : SplitUbatch ι :=
  { SplitUbatch.addSimple {} b { seqId := [], offset := off, length := L } L with
    equalSeqs := false
    output := (List.range' off L).map (b.outputFlag logitsAll)
    nSeqTokens := 1
    nTokens := L
    nSeqs := L }

theorem SplitUbatch.view_holds (off L : Nat) :
    b.Holds logitsAll (SplitUbatch.view b logitsAll off L) (List.range' off L) where
  nTokens := by simp [view]
  split := by simp [view]
  input := by simp [view, addSimple]
  pos := by simp [view, addSimple]
  seqId f hf r id hr := by
    simp only [view, addSimple, hf, Nat.div_one, List.getElem?_map, hr]
    exact ⟨rfl, rfl⟩
  output := rfl

theorem Sbatch.Simple.append (h : sb.Simple b logitsAll done) (L : Nat) :
    done ++ List.range' done.length L = List.range (done.length + L) := by
  conv_lhs => rw [h.first]
  rw [List.length_range, List.range_eq_range', List.range_eq_range', ← List.range'_append_1,
    Nat.zero_add]

theorem Sbatch.Simple.splitSimple (h : sb.Simple b logitsAll done) (hn : 0 < sb.nTokens)
    (hu : 0 < nUbatch) : ∃ r rows, sb.splitSimple nUbatch = some r ∧
      SplitStep b logitsAll (Sbatch.Simple b logitsAll) nUbatch done r rows := by
  obtain ⟨hL, hle, hub⟩ := min_pos hn hu hn
  have hcount := h.count
  have hseq := h.seq hn.ne'
  have hres : sb.reserve = sb := by
    rw [reserve, hseq, List.rdropWhile_singleton, if_neg (by simpa using hn.ne'), ← hseq]
  generalize hLdef : (if sb.nTokens < (if sb.nTokens < nUbatch then sb.nTokens else nUbatch) then
    sb.nTokens else (if sb.nTokens < nUbatch then sb.nTokens else nUbatch)) = L at hL hle hub
  have hhead : sb.head { seqId := [], offset := done.length, length := sb.nTokens } L =
      List.range' done.length L := by
    rw [head, h.ids, drop_take_range (by simp only; omega)]
  have hfit : done.length + L ≤ sb.ids.length := by
    rw [h.of.len]
    omega
  have hout := sb.addOutput_eq (u := { equalSeqs := false })
    { seqId := [], offset := done.length, length := sb.nTokens } L h.of hfit
    (.inr ⟨rfl, hhead.symm⟩)
  rw [hhead, List.nil_append] at hout
  refine ⟨({ sb with
      nTokens := sb.nTokens - L
      outIds := sb.outIds ++ (List.range' done.length L).filter (b.requested logitsAll)
      seq := [{ seqId := [], offset := done.length + L, length := sb.nTokens - L }] },
    .view b logitsAll done.length L), List.range' done.length L, ?_, ?_,
    SplitUbatch.view_holds _ _, ?_, ?_⟩
  · rw [Sbatch.splitSimple]
    simp only [hres, hseq, List.length_nil, true_and, not_true_eq_false, if_false, hLdef]
    rw [addSeqToUbatch, hseq]
    simp only [List.getElem?_cons_zero, hle, true_or, not_true_eq_false, if_false, hout]
    simp [copySeq, SplitUbatch.view, SplitUbatch.addSimple, h.of.batch]
  · refine ⟨⟨h.of.batch, h.of.logitsAll, h.of.len⟩, h.ids, ?_, ?_, fun _ => ?_, ?_⟩
    · rw [h.append, List.length_range]
    · simp only [List.length_append, List.length_range']
      omega
    · simp
    · simp [h.out]
  · simpa using hL
  · simpa using hub

end Simple

/-! ## All splits -/

/-- The splits of one mode: `I` is what holds of the tokens in ubatches. -/
structure Sbatch.Splits (b : LlamaBatch ι) (logitsAll : Bool) (mode : SplitMode) (nUbatch : Nat)
    (I : Sbatch ι → List Nat → Prop) : Prop where
  rest : ∀ sb done, I sb done →
    ∃ rest, rest.length = sb.nTokens ∧ (done ++ rest).Perm (List.range b.nTokens)
  out : ∀ sb done, I sb done → sb.outIds = done.filter (b.requested logitsAll)
  step : ∀ sb done, I sb done → 0 < sb.nTokens →
    ∃ r row, sb.split mode nUbatch = some r ∧ SplitStep b logitsAll I nUbatch done r row

section Splits

variable {sb : Sbatch ι} {done : List Nat} {mode : SplitMode} {nUbatch : Nat}
  {I : Sbatch ι → List Nat → Prop}

theorem Sbatch.Splits.count (hI : Splits b logitsAll mode nUbatch I) (h : I sb done) :
    done.length + sb.nTokens = b.nTokens := by
  obtain ⟨rest, hlen, hperm⟩ := hI.rest sb done h
  have := hperm.length_eq
  rwa [List.length_append, List.length_range, hlen] at this

theorem Sbatch.Splits.length_filter_le (hI : Splits b logitsAll mode nUbatch I) (h : I sb done) :
    (done.filter (b.requested logitsAll)).length ≤
      ((List.range b.nTokens).filter (b.requested logitsAll)).length := by
  obtain ⟨rest, -, hperm⟩ := hI.rest sb done h
  rw [← (hperm.filter _).length_eq, List.filter_append, List.length_append]
  exact Nat.le_add_right _ _

/-- Where no tokens are left, all are in ubatches. -/
theorem Sbatch.Splits.perm (hI : Splits b logitsAll mode nUbatch I) (h : I sb done)
    (hn : sb.nTokens = 0) : done.Perm (List.range b.nTokens) := by
  obtain ⟨rest, hlen, hperm⟩ := hI.rest sb done h
  rwa [List.length_eq_zero_iff.1 (hlen.trans hn), List.append_nil] at hperm

theorem Sbatch.Simple.splits (hu : 0 < nUbatch) :
    Splits b logitsAll .simple nUbatch (Sbatch.Simple b logitsAll) where
  rest sb done h := by
    refine ⟨List.range' done.length sb.nTokens, List.length_range', ?_⟩
    rw [h.append, h.count]
  out sb done h := h.out
  step sb done h hn := h.splitSimple hn hu

theorem Sbatch.Left.splits (hf : b.seqIds = some f) (hp : b.pos = some p) (hmode : mode ≠ .simple)
    (hu : 0 < nUbatch) : Splits b logitsAll mode nUbatch (Sbatch.Left b f p logitsAll) where
  rest sb done h := ⟨sb.rest, h.length_rest, h.perm⟩
  out sb done h := h.out
  step sb done h hn := by
    rcases mode with _ | _ | _
    · exact absurd rfl hmode
    · exact h.splitEqual hf hp hn hu
    · exact h.splitSeq hf hp hn hu

end Splits

/-- As many splits as there are tokens leave none, where each split does its part. -/
theorem Sbatch.splitAll_run {I : Sbatch ι → List Nat → Prop} {calls : Nat → SplitMode × Nat}
    (hI : ∀ k, Splits b logitsAll (calls k).1 (calls k).2 I) :
    ∀ {r k : Nat} {sb : Sbatch ι} {done : List Nat}, I sb done → sb.nTokens ≤ r →
      ∃ sb' us rows, sb.splitAll calls r k = some (sb', us) ∧ sb'.nTokens = 0 ∧
        I sb' (done ++ rows.flatten) ∧ List.Forall₂ (b.Holds logitsAll) us rows ∧
        ∀ j row, rows[j]? = some row → 0 < row.length ∧ row.length ≤ (calls (k + j)).2
  | 0, k, sb, done, h, hr => by
    refine ⟨sb, [], [], rfl, by omega, by simpa using h, .nil, fun j row hj => ?_⟩
    simp at hj
  | r + 1, k, sb, done, h, hr => by
    by_cases hn : sb.nTokens = 0
    · refine ⟨sb, [], [], by rw [splitAll, if_pos hn], hn, by simpa using h, .nil,
        fun j row hj => ?_⟩
      simp at hj
    · obtain ⟨⟨sb', u⟩, rows, hsplit, hleft, hholds, hpos, hle⟩ :=
        (hI k).step sb done h (Nat.pos_of_ne_zero hn)
      have hc := (hI k).count h
      have hc' : _ + sb'.nTokens = b.nTokens := (hI k).count hleft
      rw [List.length_append] at hc'
      obtain ⟨sb'', us, rows', hrun, hzero, hleft', hholds', hsizes⟩ :=
        splitAll_run hI (r := r) (k := k + 1) hleft (show sb'.nTokens ≤ r by omega)
      refine ⟨sb'', u :: us, rows :: rows', ?_, hzero, ?_, .cons hholds hholds', ?_⟩
      · rw [splitAll, if_neg hn, hsplit]
        simp [hrun]
      · rwa [List.flatten_cons, ← List.append_assoc]
      · rintro (_ | j) row hj
        · obtain rfl : rows = row := by simpa using hj
          exact ⟨hpos, hle⟩
        · have := hsizes j row (by simpa using hj)
          rwa [Nat.add_right_comm] at this

/-- The ubatches `us` hold the tokens `rows`. -/
structure LlamaBatch.Partition (b : LlamaBatch ι) (simpleSplit logitsAll : Bool)
    (calls : Nat → SplitMode × Nat) (sb : Sbatch ι) (us : List (SplitUbatch ι))
    (rows : List (List Nat)) : Prop where
  holds : List.Forall₂ (b.Holds logitsAll) us rows
  sizes : ∀ k row, rows[k]? = some row → 0 < row.length ∧ row.length ≤ (calls k).2
  done : sb.nTokens = 0
  once : rows.flatten.Perm (List.range b.nTokens)
  simple : simpleSplit → rows.flatten = List.range b.nTokens
  order : ¬ simpleSplit → ∀ f p, b.seqIds = some f → b.pos = some p →
    rows.flatten.Pairwise (Before f p)
  outputs : sb.outIds = rows.flatten.filter (b.requested logitsAll)

theorem LlamaBatch.sbatch_simple (S : StdSort) (b : LlamaBatch ι) (logitsAll : Bool) :
    ∃ sb, b.sbatch S true logitsAll = some sb ∧ sb.Simple b logitsAll [] := by
  refine ⟨_, rfl, ⟨rfl, rfl, by simp⟩, rfl, rfl, by simp, fun _ => rfl, rfl⟩

/-- Positions and sequences are there, and every token is of some sequence. -/
structure LlamaBatch.Sequenced (b : LlamaBatch ι) (f : Nat → List Int) (p : Nat → Int) : Prop where
  seqIds : b.seqIds = some f
  pos : b.pos = some p
  named : ∀ i < b.nTokens, f i ≠ []

/-- What the constructor makes of a batch with sequences. -/
structure LlamaBatch.Sorted (b : LlamaBatch ι) (f : Nat → List Int) (ids : List Nat)
    (groups seq : List SbatchSeq) : Prop where
  perm : ids.Perm (List.range b.nTokens)
  grouped : Grouped f ids ids.length groups
  seqPerm : seq.Perm groups
  seqSorted : seq.Pairwise fun s t => ¬ t.less s

theorem LlamaBatch.sbatch_sorted (hf : b.seqIds = some f) (S : StdSort) (logitsAll : Bool) :
    ∃ ids groups seq, b.sbatch S false logitsAll =
        some { batch := b, nTokens := b.nTokens, logitsAll, ids, seq } ∧
      b.Sorted f ids groups seq ∧
      ∀ p, b.pos = some p → ids.Pairwise fun a a' => f a = f a' → p a ≤ p a' := by
  generalize hids : S.sort b.tokenLess (List.range b.nTokens) = ids
  refine ⟨ids, initSeq f ids 0 [], S.sort SbatchSeq.less (initSeq f ids 0 []), ?_, ⟨?_, ?_,
    S.perm _ SbatchSeq.less_strictWeak, S.sorted _ SbatchSeq.less_strictWeak⟩, fun p hp => ?_⟩
  · simp only [LlamaBatch.sbatch, hf, hids, Bool.false_eq_true, if_false]
  · exact hids ▸ S.perm _ b.tokenLess_strictWeak
  · exact Grouped.initSeq (hids ▸ LlamaBatch.sorted_seqKey hf S _) rfl (Nat.zero_le _) .start
  · exact hids ▸ LlamaBatch.sorted_pos hf hp S _

section Sorted

variable {ids : List Nat} {groups seq : List SbatchSeq}

theorem LlamaBatch.Sorted.mem (h : b.Sorted f ids groups seq) {s : SbatchSeq} (hs : s ∈ seq) :
    s ∈ groups := h.seqPerm.mem_iff.1 hs

theorem LlamaBatch.Sorted.length_rows (h : b.Sorted f ids groups seq) {s : SbatchSeq}
    (hs : s ∈ seq) : (s.rows ids).length = s.length := by
  have := (h.grouped.fits s (h.mem hs)).2
  simp only [SbatchSeq.rows, List.length_take, List.length_drop]
  omega

theorem LlamaBatch.Sorted.rest (h : b.Sorted f ids groups seq) :
    (seq.flatMap (·.rows ids)).Perm ids := by
  have := h.seqPerm.flatMap_right fun s => s.rows ids
  rwa [h.grouped.flat, List.take_length] at this

theorem LlamaBatch.Sorted.count (h : b.Sorted f ids groups seq) :
    b.nTokens = (seq.map (·.length)).sum := by
  have hsum := h.rest.length_eq
  rw [List.length_flatMap, h.perm.length_eq, List.length_range] at hsum
  exact hsum.symm.trans (congrArg List.sum (List.map_congr_left fun s hs => h.length_rows hs))

/-- The sequences of the batch are sorted. -/
theorem LlamaBatch.Sequenced.sbatch (h : b.Sequenced f p) (S : StdSort) (logitsAll : Bool) :
    ∃ sb, b.sbatch S false logitsAll = some sb ∧ sb.Left b f p logitsAll [] := by
  obtain ⟨ids, groups, seq, hsb, hsort, hposs⟩ := LlamaBatch.sbatch_sorted h.seqIds S logitsAll
  have hsub : ∀ s : SbatchSeq, (s.rows ids).Sublist ids := fun s =>
    (List.take_sublist _ _).trans (List.drop_sublist _ _)
  have howns : ∀ s ∈ seq, ∀ id ∈ s.rows ids, f id = s.seqId := fun s hs =>
    hsort.grouped.owns s (hsort.mem hs)
  refine ⟨_, hsb, ⟨rfl, rfl, by rw [hsort.perm.length_eq, List.length_range]⟩,
    hsort.rest.trans hsort.perm, hsort.count, fun s hs => (hsort.grouped.fits s (hsort.mem hs)).2,
    fun s hs => ?_, howns, fun s hs => ?_, ?_, ?_, .nil, by simp, rfl⟩
  · have hrow : 0 < (s.rows ids).length := by
      rw [hsort.length_rows hs]
      exact (hsort.grouped.fits s (hsort.mem hs)).1
    obtain ⟨id, hid⟩ := List.exists_mem_of_length_pos hrow
    rw [← howns s hs id hid]
    exact h.named id (List.mem_range.1 (hsort.perm.mem_iff.1 ((hsub s).subset hid)))
  · refine ((hposs p h.pos).sublist (hsub s)).imp_of_mem fun {a a'} ha ha' hle => hle ?_
    rw [howns s hs a ha, howns s hs a' ha']
  · refine hsort.seqSorted.imp_of_mem fun {s t} hs ht hless => ?_
    rw [SbatchSeq.less_iff] at hless
    have := (hsort.grouped.fits s (hsort.mem hs)).1
    exact ⟨by omega, fun h0 => by omega⟩
  · refine ((hsort.seqPerm.map (·.seqId)).nodup_iff).2 ?_
    rw [List.Nodup, List.pairwise_map]
    exact hsort.grouped.keys.imp fun hkey heq => by simp [heq] at hkey

end Sorted

/-- Splitting a batch to the end is a partition of its tokens. -/
theorem LlamaBatch.splitAll_partition (S : StdSort) (b : LlamaBatch ι)
    (simpleSplit logitsAll : Bool) (calls : Nat → SplitMode × Nat)
    (hb : ¬ simpleSplit → ∃ f p, b.Sequenced f p)
    (hcalls : ∀ k, ((calls k).1 = .simple ↔ simpleSplit) ∧ 0 < (calls k).2) :
    ∃ sb sb' us rows, b.sbatch S simpleSplit logitsAll = some sb ∧
      sb.splitAll calls b.nTokens 0 = some (sb', us) ∧
      b.Partition simpleSplit logitsAll calls sb' us rows := by
  by_cases hs : simpleSplit
  · subst hs
    obtain ⟨sb, hsb, h⟩ := LlamaBatch.sbatch_simple S b logitsAll
    have hI : ∀ k, Sbatch.Splits b logitsAll (calls k).1 (calls k).2
        (Sbatch.Simple b logitsAll) := fun k =>
      (hcalls k).1.2 rfl ▸ Sbatch.Simple.splits (hcalls k).2
    obtain ⟨sb', us, rows, hrun, hzero, hsim, hholds, hsizes⟩ := Sbatch.splitAll_run hI (k := 0) h
      (Nat.le_of_eq (by simpa using h.count))
    rw [List.nil_append] at hsim
    refine ⟨sb, sb', us, rows, hsb, hrun, hholds, by simpa using hsizes, hzero,
      (hI 0).perm hsim hzero, fun _ => ?_, fun h => absurd rfl h, hsim.out⟩
    have hcount := hsim.count
    rw [hzero, Nat.add_zero] at hcount
    rw [hsim.first, hcount]
  · obtain ⟨f, p, hfp⟩ := hb hs
    rw [Bool.not_eq_true] at hs
    subst hs
    obtain ⟨sb, hsb, h⟩ := hfp.sbatch S logitsAll
    have hI : ∀ k, Sbatch.Splits b logitsAll (calls k).1 (calls k).2
        (Sbatch.Left b f p logitsAll) := fun k =>
      Sbatch.Left.splits hfp.seqIds hfp.pos (fun hmode => by simpa using (hcalls k).1.1 hmode)
        (hcalls k).2
    obtain ⟨sb', us, rows, hrun, hzero, hleft, hholds, hsizes⟩ := Sbatch.splitAll_run hI (k := 0) h
      (Nat.le_of_eq (by simpa using h.count_done))
    rw [List.nil_append] at hleft
    refine ⟨sb, sb', us, rows, hsb, hrun, hholds, by simpa using hsizes, hzero,
      (hI 0).perm hleft hzero, fun h => absurd h (by simp), fun _ f' p' hf' hp' => ?_, hleft.out⟩
    obtain rfl := Option.some.inj (hfp.seqIds.symm.trans hf')
    obtain rfl := Option.some.inj (hfp.pos.symm.trans hp')
    exact hleft.order

/-! ## Tokens of no sequence -/

/-- A sequence without ids has tokens left, which no ubatch of sequences takes. -/
structure Sbatch.Blocked (sb : Sbatch ι) : Prop where
  count : sb.nTokens = (sb.seq.map (·.length)).sum
  unnamed : ∃ s ∈ sb.seq, s.seqId = [] ∧ 0 < s.length

section Blocked

variable {sb sb' : Sbatch ι} {u u' : SplitUbatch ι} {i L : Nat}

theorem Sbatch.Blocked.nTokens_pos (h : sb.Blocked) : 0 < sb.nTokens := by
  obtain ⟨s, hs, -, hpos⟩ := h.unnamed
  obtain ⟨A, B, hsplit⟩ := List.append_of_mem hs
  rw [h.count, hsplit, List.map_append, List.map_cons, List.sum_append, List.sum_cons]
  omega

theorem Sbatch.Blocked.reserve (h : sb.Blocked) : sb.reserve.Blocked := by
  obtain ⟨s, hs, hid, hpos⟩ := h.unnamed
  obtain ⟨Z, hsplit, hempty⟩ := sb.reserve_split
  refine ⟨by rw [sb.sum_reserve]; exact h.count, s, ?_, hid, hpos⟩
  rw [hsplit, List.mem_append] at hs
  refine hs.resolve_right fun hZ => ?_
  have := hempty s hZ
  omega

theorem Sbatch.copySeq_equalSeqs {s : SbatchSeq} (h : sb.copySeq u s L = some u') :
    u'.equalSeqs = u.equalSeqs := by
  unfold copySeq at h
  split_ifs at h
  · obtain ⟨p, -, rfl⟩ := Option.map_eq_some_iff.1 h
    rfl
  · obtain rfl := Option.some.inj h
    rfl

/-- What a successful call does to the sequences. -/
theorem Sbatch.addSeqToUbatch_some (h : sb.addSeqToUbatch u i L = some (sb', u')) :
    ∃ s, sb.seq[i]? = some s ∧ L ≤ s.length ∧ (s.seqId.length ≠ 0 ↔ u.equalSeqs) ∧
      sb'.nTokens = sb.nTokens - L ∧ sb'.seq = sb.seq.set i (s.drop L) ∧
      u'.equalSeqs = u.equalSeqs := by
  unfold addSeqToUbatch at h
  rcases hs : sb.seq[i]? with _ | s
  · simp [hs] at h
  · rcases hcopy : sb.copySeq u s L with _ | v
    · simp [hs, hcopy] at h
    · simp only [hs, hcopy] at h
      have hv := Sbatch.copySeq_equalSeqs hcopy
      split_ifs at h with h1 h2 h3
      all_goals
        obtain ⟨rfl, rfl⟩ := Prod.mk.inj (Option.some.inj h)
        exact ⟨s, rfl, by tauto, by tauto, rfl, rfl, hv⟩

theorem Sbatch.Blocked.add (h : sb.Blocked) (hu : u.equalSeqs)
    (hadd : sb.addSeqToUbatch u i L = some (sb', u')) : sb'.Blocked ∧ u'.equalSeqs := by
  obtain ⟨s, hs, hle, heq, hn, hseq, hu'⟩ := Sbatch.addSeqToUbatch_some hadd
  obtain ⟨hi, hget⟩ := List.getElem?_eq_some_iff.1 hs
  have hsplit : sb.seq = sb.seq.take i ++ s :: sb.seq.drop (i + 1) := by
    rw [← hget, List.getElem_cons_drop, List.take_append_drop]
  have hset : sb'.seq = sb.seq.take i ++ s.drop L :: sb.seq.drop (i + 1) := by
    rw [hseq, List.set_eq_take_append_cons_drop, if_pos hi]
  refine ⟨⟨?_, ?_⟩, hu'.trans hu⟩
  · have hcount := h.count
    rw [hsplit] at hcount
    rw [hn, hset]
    simp only [List.map_append, List.map_cons, List.sum_append, List.sum_cons] at hcount ⊢
    have hdrop : (s.drop L).length = s.length - L := rfl
    omega
  · obtain ⟨t, ht, hid, hpos⟩ := h.unnamed
    have hne : t ≠ s := by
      rintro rfl
      exact heq.2 hu (by rw [hid]; rfl)
    refine ⟨t, ?_, hid, hpos⟩
    rw [hsplit] at ht
    rw [hset]
    simp only [List.mem_append, List.mem_cons, hne, false_or] at ht ⊢
    exact ht.imp_right .inr

theorem Sbatch.Blocked.equalLoop {n : Nat} : ∀ {i L k : Nat} {sb : Sbatch ι} {u : SplitUbatch ι},
    sb.Blocked → u.equalSeqs → sb.equalLoop n i L k u = some (sb', u') → sb'.Blocked
  | 0, _, _, sb, u, h, _, hrun => by
    obtain ⟨rfl, -⟩ := Prod.mk.inj (Option.some.inj hrun)
    exact h
  | i + 1, L, k, sb, u, h, hu, hrun => by
    rw [Sbatch.equalLoop] at hrun
    rcases hs : sb.seq[i]? with _ | s
    · simp [hs] at hrun
    · simp only [hs] at hrun
      by_cases hpos : 0 < s.length
      · rw [if_neg (not_not.2 hpos)] at hrun
        generalize (if L = 0 then if s.length < n then s.length else n else L) = L' at hrun
        rcases hadd : sb.addSeqToUbatch u i L' with _ | ⟨sb₁, u₁⟩
        · simp [hadd] at hrun
        · obtain ⟨h₁, hu₁⟩ := h.add hu hadd
          simp only [hadd] at hrun
          split_ifs at hrun
          · obtain ⟨rfl, -⟩ := Prod.mk.inj (Option.some.inj hrun)
            exact h₁
          · obtain ⟨rfl, -⟩ := Prod.mk.inj (Option.some.inj hrun)
            exact h₁
          · exact Sbatch.Blocked.equalLoop h₁ hu₁ hrun
      · rw [if_pos hpos] at hrun
        cases hrun

/-- A split by sequences does not take the tokens of no sequence. -/
theorem Sbatch.Blocked.split (h : sb.Blocked) {mode : SplitMode} (hmode : mode ≠ .simple)
    {nUbatch : Nat} (hsplit : sb.split mode nUbatch = some (sb', u')) : sb'.Blocked := by
  have hres := h.reserve
  rcases mode with _ | _ | _
  · exact absurd rfl hmode
  · simp only [Sbatch.split, Sbatch.splitEqual] at hsplit
    rcases hseq : sb.reserve.seq with _ | ⟨s, rest⟩
    · obtain ⟨s, hs, -⟩ := hres.unnamed
      rw [hseq] at hs
      simp at hs
    · simp only [hseq] at hsplit
      split_ifs at hsplit
      all_goals exact hres.equalLoop rfl hsplit
  · simp only [Sbatch.split, Sbatch.splitSeq] at hsplit
    rcases hlast : sb.reserve.seq.getLast? with _ | s
    · obtain ⟨s, hs, -⟩ := hres.unnamed
      rw [List.getLast?_eq_none_iff.1 hlast] at hs
      simp at hs
    · simp only [hlast] at hsplit
      by_cases hpos : 0 < s.seqId.length
      · rw [if_neg (not_not.2 hpos)] at hsplit
        exact (hres.add rfl hsplit).1
      · rw [if_pos hpos] at hsplit
        cases hsplit

/-- A token of no sequence blocks the batch. -/
theorem LlamaBatch.sbatch_blocked (hf : b.seqIds = some f) {id : Nat} (hid : id < b.nTokens)
    (hnone : f id = []) (S : StdSort) (logitsAll : Bool) :
    ∃ sb, b.sbatch S false logitsAll = some sb ∧ sb.Blocked := by
  obtain ⟨ids, groups, seq, hsb, hsort, -⟩ := LlamaBatch.sbatch_sorted hf S logitsAll
  refine ⟨_, hsb, hsort.count, ?_⟩
  have hmem : id ∈ seq.flatMap (·.rows ids) :=
    hsort.rest.mem_iff.2 (hsort.perm.mem_iff.2 (List.mem_range.2 hid))
  obtain ⟨s, hs, hids⟩ := List.mem_flatMap.1 hmem
  refine ⟨s, hs, ?_, (hsort.grouped.fits s (hsort.mem hs)).1⟩
  rw [← hsort.grouped.owns s (hsort.mem hs) id hids, hnone]

end Blocked

/-- A batch that `llama_batch_allocr` has filled can be split. -/
theorem LlamaBatch.alloc_sequenced {p0 : Int} {b' : LlamaBatch ι} (h : b.alloc p0 = some b')
    (hnamed : ∀ f, b.seqIds = some f → ∀ i < b.nTokens, f i ≠ []) :
    ∃ f p, b'.Sequenced f p := by
  unfold alloc at h
  split_ifs at h
  obtain rfl := Option.some.inj h
  refine ⟨_, _, rfl, rfl, fun i hi => ?_⟩
  rcases hf : b.seqIds with _ | f
  · simp
  · exact hnamed f hf i hi

/-- A token of one sequence, then one that this sequence shares. -/
def sharedLast : LlamaBatch Nat where
  nTokens := 2
  input i := i
  pos := some fun i => i
  seqIds := some fun i => if i = 0 then [0] else [0, 1]

theorem sharedLast_sequenced :
    sharedLast.Sequenced (fun i => if i = 0 then [0] else [0, 1]) (fun i => i) where
  seqIds := rfl
  pos := rfl
  named i _ := by split_ifs <;> simp

theorem splitAll_partition_sharedLast : ∃ sb sb' us rows,
    sharedLast.sbatch .insertion false false = some sb ∧
      sb.splitAll (fun _ => (.equal, 8)) sharedLast.nTokens 0 = some (sb', us) ∧
      sharedLast.Partition false false (fun _ => (.equal, 8)) sb' us rows :=
  LlamaBatch.splitAll_partition .insertion sharedLast false false (fun _ => (.equal, 8))
    (fun _ => ⟨_, _, sharedLast_sequenced⟩) fun _ => ⟨by simp, by decide⟩

/-- What would hold if two tokens of a sequence were never computed against both the order of the
batch and that of their positions. -/
def SplitOrderLaw : Prop :=
  ∀ (S : StdSort) (b : LlamaBatch Nat) (f : Nat → List Int) (p : Nat → Int) (logitsAll : Bool)
    (calls : Nat → SplitMode × Nat), b.Sequenced f p →
    (∀ k, (calls k).1 ≠ .simple ∧ 0 < (calls k).2) →
      ∃ sb sb' us rows, b.sbatch S false logitsAll = some sb ∧
        sb.splitAll calls b.nTokens 0 = some (sb', us) ∧
        List.Forall₂ (b.Holds logitsAll) us rows ∧
        rows.flatten.Pairwise fun a a' => ¬ (a' < a ∧ p a' < p a ∧ ∃ q, q ∈ f a ∧ q ∈ f a')

/-- The shared token goes first. And a token of no sequence fails an assertion. -/
theorem not_splitOrderLaw : ¬ SplitOrderLaw ∧
    (({ sharedLast with seqIds := some fun _ => [] } : LlamaBatch Nat).sbatch .insertion false
      false).bind (·.splitEqual 8) = none := by
  refine ⟨fun hlaw => ?_, rfl⟩
  obtain ⟨sb, sb', us, rows, hsb, hrun, hholds, horder⟩ := hlaw .insertion sharedLast _ _ false
    (fun _ => (.equal, 8)) sharedLast_sequenced fun _ => ⟨by simp, by decide⟩
  obtain rfl := Option.some.inj hsb
  obtain ⟨-, rfl⟩ := Prod.mk.inj (Option.some.inj hrun)
  rcases hholds with _ | @⟨_, r₁, _, _, h₁, hholds⟩
  rcases hholds with _ | @⟨_, r₂, _, _, h₂, hholds⟩
  rcases hholds with _ | _
  have hr₁ : [1] = r₁.map fun i => i := h₁.input
  have hr₂ : [0] = r₂.map fun i => i := h₂.input
  rw [List.map_id'] at hr₁ hr₂
  subst hr₁ hr₂
  revert horder
  simp

end LamaServer
