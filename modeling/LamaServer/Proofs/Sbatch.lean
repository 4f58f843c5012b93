import LamaServer.Proofs.SbatchInit

/-!
# The splits partition the batch

What a split takes from the sequences left and what stays behind make up the batch. The sequences
stay sorted, by a split of equal lengths as well, because it takes the same number of tokens off
the shortest ones.
-/

namespace LamaServer

variable {ι : Type} {b : LlamaBatch ι} {f : Nat → List Int} {p : Nat → Int} {logitsAll : Bool}

/-! ## What a ubatch holds -/

/-- The output flag of a token. -/
def LlamaBatch.outputFlag (b : LlamaBatch ι) (logitsAll : Bool) (id : Nat) : Int :=
  if logitsAll then 1
  else
    match b.logits with
    | some logits => logits id
    | none => if id = b.nTokens - 1 then 1 else 0

def LlamaBatch.requested (b : LlamaBatch ι) (logitsAll : Bool) (id : Nat) : Bool :=
  b.outputFlag logitsAll id ≠ 0

/-- The ubatch holds the tokens `rows` of the batch. -/
structure LlamaBatch.Holds (b : LlamaBatch ι) (logitsAll : Bool) (u : SplitUbatch ι)
    (rows : List Nat) : Prop where
  nTokens : u.nTokens = rows.length
  split : u.nTokens = u.nSeqTokens * u.nSeqs
  input : u.input = rows.map b.input
  pos : u.pos = b.pos.map rows.map
  seqId : ∀ f, b.seqIds = some f → ∀ r id, rows[r]? = some id →
    u.seqId[r / u.nSeqTokens]? = some (f id) ∧
      u.nSeqId[r / u.nSeqTokens]? = some (f id).length
  output : u.output = rows.map (b.outputFlag logitsAll)

/-- A token with more sequences goes first, and tokens of the same ones are in order. -/
def Before (f : Nat → List Int) (p : Nat → Int) (a a' : Nat) : Prop :=
  (f a').length ≤ (f a).length ∧ (f a = f a' → p a ≤ p a')

/-! ## Adding a sequence -/

/-- The batch and the ids that a split does not change. -/
structure Sbatch.Of (b : LlamaBatch ι) (logitsAll : Bool) (sb : Sbatch ι) : Prop where
  batch : sb.batch = b
  logitsAll : sb.logitsAll = logitsAll
  len : sb.ids.length = b.nTokens

theorem Sbatch.length_head {sb : Sbatch ι} {s : SbatchSeq} {length : Nat}
    (h : s.offset + length ≤ sb.ids.length) : (sb.head s length).length = length := by
  rw [head, List.length_take, List.length_drop]
  omega

theorem Sbatch.addOutput_eq {sb : Sbatch ι} {u : SplitUbatch ι} (s : SbatchSeq) (length : Nat)
    (h : sb.Of b logitsAll) (hlen : s.offset + length ≤ sb.ids.length)
    (hu : u.equalSeqs ∨ u.output = [] ∧ List.range' s.offset length = sb.head s length) :
    sb.addOutput u s length =
      (u.output ++ (sb.head s length).map (b.outputFlag logitsAll),
        sb.outIds ++ (sb.head s length).filter (b.requested logitsAll)) := by
  obtain ⟨rfl, rfl, hids⟩ := h
  have hrows := Sbatch.length_head hlen
  rw [addOutput]
  by_cases hall : sb.logitsAll
  · have hflag : sb.batch.outputFlag sb.logitsAll = fun _ => 1 := by
      funext id
      simp [LlamaBatch.outputFlag, hall]
    have hreq : sb.batch.requested sb.logitsAll = fun _ => true := by
      funext id
      simp [LlamaBatch.requested, hflag]
    rw [if_pos hall, hflag, hreq]
    simp [hrows, List.map_const']
  · rw [if_neg hall]
    have hreq : sb.batch.requested sb.logitsAll =
        fun id => sb.batch.outputFlag sb.logitsAll id ≠ 0 := rfl
    rcases hl : sb.batch.logits with _ | logits
    · have hflag : sb.batch.outputFlag sb.logitsAll =
          fun id => if id = sb.ids.length - 1 then 1 else 0 := by
        funext id
        simp [LlamaBatch.outputFlag, hall, hl, hids]
      simp [hreq, hflag]
    · have hflag : sb.batch.outputFlag sb.logitsAll = logits := by
        funext id
        simp [LlamaBatch.outputFlag, hall, hl]
      rcases hu with hu | ⟨hu, hrange⟩
      · simp [hreq, hflag, hu]
      · simp only [hreq, hflag, hu, hrange]
        split_ifs <;> simp

/-- A ubatch of sequences of `L` tokens each. -/
structure SplitUbatch.Loaded (b : LlamaBatch ι) (f : Nat → List Int) (logitsAll : Bool) (L : Nat)
    (u : SplitUbatch ι) (rows : List Nat) : Prop where
  equalSeqs : u.equalSeqs
  nTokens : u.nTokens = rows.length
  length : rows.length = u.nSeqs * L
  nSeqTokens : u.nSeqs ≠ 0 → u.nSeqTokens = L
  input : u.input = rows.map b.input
  pos : u.pos = b.pos.map rows.map
  nSeqId : u.nSeqId = u.seqId.map List.length
  seqs : u.seqId.length = u.nSeqs
  seqId : ∀ r id, rows[r]? = some id → u.seqId[r / L]? = some (f id)
  output : u.output = rows.map (b.outputFlag logitsAll)

theorem SplitUbatch.Loaded.start (hp : b.pos = some p) (L : Nat) :
    Loaded b f logitsAll L ({} : SplitUbatch ι) [] where
  equalSeqs := rfl
  nTokens := rfl
  length := by simp
  nSeqTokens h := absurd rfl h
  input := rfl
  pos := by rw [hp]; rfl
  nSeqId := rfl
  seqs := rfl
  seqId r id h := by simp at h
  output := rfl

theorem SplitUbatch.Loaded.holds {u : SplitUbatch ι} {rows : List Nat} {L : Nat}
    (h : u.Loaded b f logitsAll L rows) (hf : b.seqIds = some f) (hrows : rows ≠ []) :
    b.Holds logitsAll u rows := by
  have hseqs : u.nSeqs ≠ 0 := fun h0 => hrows (by
    rw [← List.length_eq_zero_iff, h.length, h0, Nat.zero_mul])
  refine ⟨h.nTokens, ?_, h.input, h.pos, fun f' hf' r id hr => ?_, h.output⟩
  · rw [h.nTokens, h.length, h.nSeqTokens hseqs, Nat.mul_comm]
  · obtain rfl := Option.some.inj (hf.symm.trans hf')
    have hid := h.seqId r id hr
    rw [h.nSeqTokens hseqs, h.nSeqId, List.getElem?_map, hid]
    exact ⟨rfl, rfl⟩

/-- A ubatch with the tokens `chunk` of one more sequence. -/
def SplitUbatch.more (u : SplitUbatch ι) (b : LlamaBatch ι) (p : Nat → Int) (logitsAll : Bool)
    (s : SbatchSeq) (chunk : List Nat) : SplitUbatch ι :=
  { u.addEqual b s chunk p with
    output := u.output ++ chunk.map (b.outputFlag logitsAll)
    nSeqTokens := if u.nTokens = 0 ∧ u.nSeqs = 0 then chunk.length else u.nSeqTokens
    nTokens := u.nTokens + chunk.length
    nSeqs := u.nSeqs + 1 }

section Add

variable {sb : Sbatch ι} {u : SplitUbatch ι} {A B : List SbatchSeq} {s : SbatchSeq} {i L : Nat}
  {rows chunk : List Nat}

theorem SplitUbatch.Loaded.nSeqTokens_more (h : u.Loaded b f logitsAll L rows) :
    (if u.nTokens = 0 ∧ u.nSeqs = 0 then L else u.nSeqTokens) = L := by
  split_ifs with h0
  · rfl
  · refine h.nSeqTokens fun hz => h0 ⟨?_, hz⟩
    rw [h.nTokens, h.length, hz, Nat.zero_mul]

theorem SplitUbatch.Loaded.more (h : u.Loaded b f logitsAll L rows) (hp : b.pos = some p)
    (hlen : chunk.length = L) (howns : ∀ id ∈ chunk, f id = s.seqId) :
    (u.more b p logitsAll s chunk).Loaded b f logitsAll L (rows ++ chunk) where
  equalSeqs := h.equalSeqs
  nTokens := by simp [SplitUbatch.more, h.nTokens]
  length := by simp [SplitUbatch.more, h.length, hlen, Nat.succ_mul]
  nSeqTokens _ := by
    rw [SplitUbatch.more, hlen]
    exact h.nSeqTokens_more
  input := by simp [SplitUbatch.more, addEqual, h.input]
  pos := by simp [SplitUbatch.more, addEqual, h.pos, hp]
  nSeqId := by simp [SplitUbatch.more, addEqual, h.nSeqId]
  seqs := by simp [SplitUbatch.more, addEqual, h.seqs]
  seqId r id hr := by
    simp only [SplitUbatch.more, addEqual]
    by_cases hlt : r < rows.length
    · rw [List.getElem?_append_left hlt] at hr
      have hid := h.seqId r id hr
      rw [List.getElem?_append_left (List.getElem?_eq_some_iff.1 hid).1]
      exact hid
    · -- the tokens of the new sequence
      rw [List.getElem?_append_right (not_lt.1 hlt)] at hr
      have hr' := (List.getElem?_eq_some_iff.1 hr).1
      have hdiv : r / L = u.seqId.length := by
        have := h.length
        rw [h.seqs]
        refine Nat.div_eq_of_lt_le (by omega) ?_
        rw [Nat.succ_mul]
        omega
      rw [hdiv, List.getElem?_concat_length, howns id (List.mem_of_getElem? hr)]
  output := by simp [SplitUbatch.more, h.output]

/-- The sequence after its first `length` tokens are taken. -/
def SbatchSeq.drop (s : SbatchSeq) (length : Nat) : SbatchSeq :=
  { s with offset := s.offset + length, length := s.length - length }

/-- The batch after the tokens `rows` are added to a ubatch. -/
def Sbatch.taken (sb : Sbatch ι) (logitsAll : Bool) (rows : List Nat) (seq : List SbatchSeq) :
    Sbatch ι :=
  { sb with
    nTokens := sb.nTokens - rows.length
    outIds := sb.outIds ++ rows.filter (sb.batch.requested logitsAll)
    seq := seq }

/-- The assertions hold where a sequence has tokens enough. -/
theorem Sbatch.addSeqToUbatch_equal (hof : sb.Of b logitsAll) (hp : b.pos = some p)
    (hseq : sb.seq = A ++ s :: B) (hi : A.length = i) (hle : L ≤ s.length)
    (hfit : s.offset + s.length ≤ sb.ids.length) (hne : s.seqId ≠ [])
    (hu : u.Loaded b f logitsAll L rows) :
    sb.addSeqToUbatch u i L =
      some (sb.taken logitsAll (sb.head s L) (A ++ s.drop L :: B),
        u.more b p logitsAll s (sb.head s L)) := by
  have hget : sb.seq[i]? = some s := by
    rw [hseq, ← hi, List.getElem?_append_right le_rfl, Nat.sub_self]
    rfl
  have hset : sb.seq.set i (s.drop L) = A ++ s.drop L :: B := by
    rw [hseq, ← hi, List.set_append_right _ _ le_rfl, Nat.sub_self]
    rfl
  have hlen : (sb.head s L).length = L := Sbatch.length_head (by omega)
  have hnseq : s.seqId.length ≠ 0 := fun h0 => hne (List.length_eq_zero_iff.1 h0)
  have heq : u.nSeqs = 0 ∨ L = u.nTokens / u.nSeqs := by
    refine or_iff_not_imp_left.2 fun h0 => ?_
    rw [hu.nTokens, hu.length, Nat.mul_div_cancel_left _ (Nat.pos_of_ne_zero h0)]
  have hprod : u.nTokens + L =
      (if u.nTokens = 0 ∧ u.nSeqs = 0 then L else u.nSeqTokens) * (u.nSeqs + 1) := by
    rw [hu.nSeqTokens_more, hu.nTokens, hu.length, Nat.mul_succ, Nat.mul_comm]
  have hout := sb.addOutput_eq (u := u) s L hof (by omega) (.inl hu.equalSeqs)
  have hbatch : sb.batch.pos = some p := by rw [hof.batch, hp]
  rw [addSeqToUbatch, hget]
  simp only [copySeq, hle, heq, hnseq, hu.equalSeqs, hbatch, false_or, not_true_eq_false,
    if_false, if_true,
    ne_eq, not_false_eq_true, Option.map_some, hout]
  rw [if_neg (not_not.2 hprod), taken, SplitUbatch.more, hlen, hof.batch, ← hset]
  rfl

end Add

/-! ## What is left -/

/-- The order of the sequences; those without tokens stand at the end. -/
def SbatchSeq.Over (s t : SbatchSeq) : Prop :=
  (s.seqId.length < t.seqId.length ∨ s.seqId.length = t.seqId.length ∧ t.length ≤ s.length) ∧
    (s.length = 0 → t.length = 0)

def Sbatch.rest (sb : Sbatch ι) : List Nat := sb.seq.flatMap (·.rows sb.ids)

/-- The tokens `done` are in ubatches, and the sequences hold the others. -/
structure Sbatch.Left (b : LlamaBatch ι) (f : Nat → List Int) (p : Nat → Int) (logitsAll : Bool)
    (sb : Sbatch ι) (done : List Nat) : Prop where
  of : sb.Of b logitsAll
  perm : (done ++ sb.rest).Perm (List.range b.nTokens)
  count : sb.nTokens = (sb.seq.map (·.length)).sum
  fits : ∀ s ∈ sb.seq, s.offset + s.length ≤ sb.ids.length
  named : ∀ s ∈ sb.seq, s.seqId ≠ []
  owns : ∀ s ∈ sb.seq, ∀ id ∈ s.rows sb.ids, f id = s.seqId
  inOrder : ∀ s ∈ sb.seq, (s.rows sb.ids).Pairwise fun a a' => p a ≤ p a'
  sorted : sb.seq.Pairwise SbatchSeq.Over
  distinct : (sb.seq.map (·.seqId)).Nodup
  order : done.Pairwise (Before f p)
  later : ∀ a ∈ done, ∀ s ∈ sb.seq, ∀ id ∈ s.rows sb.ids, Before f p a id
  out : sb.outIds = done.filter (b.requested logitsAll)

section Left

variable {sb : Sbatch ι} {done : List Nat} {A B : List SbatchSeq} {s : SbatchSeq} {L : Nat}

theorem SbatchSeq.rows_eq (ids : List Nat) (h : L ≤ s.length) :
    s.rows ids = (ids.drop s.offset).take L ++ (s.drop L).rows ids := by
  have hsplit := List.take_add (l := ids.drop s.offset) (i := L) (j := s.length - L)
  rw [Nat.add_sub_cancel' h, List.drop_drop] at hsplit
  exact hsplit

/-- What holds of all sequences and stays true when tokens are taken from one. -/
theorem forall_mem_drop {P : SbatchSeq → Prop} (h : ∀ t ∈ A ++ s :: B, P t)
    (hs : P s → P (s.drop L)) : ∀ t ∈ A ++ s.drop L :: B, P t := by
  intro t ht
  rcases List.mem_append.1 ht with ht | ht
  · exact h t (List.mem_append_left _ ht)
  · rcases List.mem_cons.1 ht with rfl | ht
    · exact hs (h s (by simp))
    · exact h t (by simp [ht])

/-- Taking the first tokens of a sequence with as many ids as any other. -/
theorem Sbatch.Left.take (h : sb.Left b f p logitsAll done) (hseq : sb.seq = A ++ s :: B)
    (hle : L ≤ s.length) (hmax : ∀ t ∈ A ++ s :: B, t.seqId.length ≤ s.seqId.length)
    (hsorted : (A ++ s.drop L :: B).Pairwise SbatchSeq.Over) :
    (sb.taken logitsAll (sb.head s L) (A ++ s.drop L :: B)).Left b f p logitsAll
      (done ++ sb.head s L) := by
  obtain ⟨hof, hperm, hcount, hfits, hnamed, howns, hord, -, hdist, horder, hlater, hout⟩ := h
  rw [Sbatch.rest] at hperm
  rw [hseq] at hperm hcount hfits hnamed howns hord hdist hlater
  have hrows := SbatchSeq.rows_eq (s := s) sb.ids hle
  have hs : s ∈ A ++ s :: B := by simp
  have hlen : (sb.head s L).length = L := Sbatch.length_head (by
    have := hfits s hs
    omega)
  have hhead : ∀ a ∈ sb.head s L, a ∈ s.rows sb.ids := fun a ha =>
    hrows ▸ List.mem_append_left _ ha
  have hdrop : ∀ id ∈ (s.drop L).rows sb.ids, id ∈ s.rows sb.ids := fun id hid =>
    hrows ▸ List.mem_append_right _ hid
  have hpos := hord s hs
  rw [hrows, List.pairwise_append] at hpos
  refine ⟨⟨hof.batch, hof.logitsAll, hof.len⟩, ?_, ?_, ?_, ?_, ?_, ?_, hsorted, ?_, ?_, ?_, ?_⟩
  · refine List.Perm.trans ?_ hperm
    simp only [Sbatch.rest, Sbatch.taken, List.flatMap_append, List.flatMap_cons, hrows,
      List.append_assoc]
    exact (List.perm_append_comm_assoc _ _ _).append_left done
  · simp only [Sbatch.taken, SbatchSeq.drop, hcount, hlen, List.map_append, List.map_cons,
      List.sum_append, List.sum_cons]
    omega
  · refine forall_mem_drop hfits fun hfit => ?_
    · have hfit : s.offset + s.length ≤ sb.ids.length := hfit
      show s.offset + L + (s.length - L) ≤ sb.ids.length
      omega
  · exact forall_mem_drop hnamed id
  · exact forall_mem_drop howns fun hown id hid => hown id (hdrop id hid)
  · exact forall_mem_drop hord fun _ => hpos.2.1
  · simpa [Sbatch.taken, SbatchSeq.drop] using hdist
  · refine List.pairwise_append.2 ⟨horder, hpos.1.imp_of_mem fun {a a'} ha ha' hle => ?_,
      fun a ha a' ha' => hlater a ha s hs a' (hhead a' ha')⟩
    rw [Before, howns s hs a (hhead a ha), howns s hs a' (hhead a' ha')]
    exact ⟨le_rfl, fun _ => hle⟩
  · intro a ha t ht id hid
    rcases List.mem_append.1 ha with ha | ha
    · revert hid
      refine forall_mem_drop (P := fun t => id ∈ t.rows sb.ids → Before f p a id)
        (fun t ht hid => hlater a ha t ht id hid) (fun hlat hid => hlat (hdrop id hid)) t ht
    · have hfa := howns s hs a (hhead a ha)
      have hne : ∀ t ∈ A ++ B, t.seqId ≠ s.seqId := by
        intro t ht heq
        have hperm : (A ++ s :: B).Perm (s :: (A ++ B)) := List.perm_middle
        have hnodup := (hperm.map (·.seqId)).nodup_iff.1 hdist
        rw [List.map_cons, List.nodup_cons] at hnodup
        exact hnodup.1 (List.mem_map.2 ⟨t, ht, heq⟩)
      have hother : ∀ t ∈ A ++ B, id ∈ t.rows sb.ids → Before f p a id := by
        intro t ht hid
        have htmem : t ∈ A ++ s :: B := by
          rcases List.mem_append.1 ht with ht | ht <;> simp [ht]
        rw [Before, hfa, howns t htmem id hid]
        exact ⟨hmax t htmem, fun heq => absurd heq.symm (hne t ht)⟩
      rcases List.mem_append.1 ht with ht | ht
      · exact hother t (by simp [ht]) hid
      · rcases List.mem_cons.1 ht with rfl | ht
        · rw [Before, hfa, howns s hs id (hdrop id hid)]
          exact ⟨le_rfl, fun _ => hpos.2.2 a ha id hid⟩
        · exact hother t (by simp [ht]) hid
  · simp [Sbatch.taken, hout, hof.batch]

theorem Sbatch.Left.length_rest (h : sb.Left b f p logitsAll done) :
    sb.rest.length = sb.nTokens := by
  rw [rest, List.length_flatMap, h.count]
  refine congrArg List.sum (List.map_congr_left fun s hs => ?_)
  exact Sbatch.length_head (h.fits s hs)

theorem Sbatch.Left.count_done (h : sb.Left b f p logitsAll done) :
    done.length + sb.nTokens = b.nTokens := by
  have := h.perm.length_eq
  rw [List.length_append, h.length_rest, List.length_range] at this
  exact this

/-- Clearing the empty sequences. -/
theorem Sbatch.reserve_split (sb : Sbatch ι) : ∃ Z, sb.seq = sb.reserve.seq ++ Z ∧
    ∀ s ∈ Z, s.length = 0 :=
  ⟨_, (List.rdropWhile_append_rtakeWhile (p := fun s : SbatchSeq => s.length = 0)
    (l := sb.seq)).symm, fun s hs => by simpa using List.mem_rtakeWhile_imp hs⟩

theorem Sbatch.sum_reserve (sb : Sbatch ι) :
    (sb.reserve.seq.map (·.length)).sum = (sb.seq.map (·.length)).sum := by
  obtain ⟨Z, hsplit, hempty⟩ := sb.reserve_split
  have hzero : (Z.map (·.length)).sum = 0 := by
    refine List.sum_eq_zero_iff_forall_eq_nat.2 fun n hn => ?_
    obtain ⟨s, hs, rfl⟩ := List.mem_map.1 hn
    exact hempty s hs
  rw [hsplit, List.map_append, List.sum_append, hzero, Nat.add_zero]

/-- Clearing the empty sequences keeps the others, and all that are left have tokens. -/
theorem Sbatch.Left.reserve (h : sb.Left b f p logitsAll done) :
    sb.reserve.Left b f p logitsAll done ∧ ∀ s ∈ sb.reserve.seq, 0 < s.length := by
  obtain ⟨Z, hsplit, hempty⟩ := sb.reserve_split
  have hsub : sb.reserve.seq.Sublist sb.seq := (List.rdropWhile_prefix _ _).sublist
  have hmem : ∀ s ∈ sb.reserve.seq, s ∈ sb.seq := fun s hs => hsub.subset hs
  have hrest : sb.reserve.rest = sb.rest := by
    have hnone : Z.flatMap (·.rows sb.ids) = [] :=
      List.flatMap_eq_nil_iff.2 fun s hs => by simp [SbatchSeq.rows, hempty s hs]
    rw [rest, rest, hsplit, List.flatMap_append, hnone, List.append_nil]
    rfl
  refine ⟨⟨⟨h.of.batch, h.of.logitsAll, h.of.len⟩, hrest ▸ h.perm, ?_, fun s hs =>
    h.fits s (hmem s hs), fun s hs => h.named s (hmem s hs), fun s hs => h.owns s (hmem s hs),
    fun s hs => h.inOrder s (hmem s hs), h.sorted.sublist hsub, h.distinct.sublist (hsub.map _),
    h.order, fun a ha s hs => h.later a ha s (hmem s hs), h.out⟩, fun s hs => ?_⟩
  · rw [sb.sum_reserve]
    exact h.count
  · rcases List.eq_nil_or_concat sb.reserve.seq with hnil | ⟨init, last, hlast⟩
    · rw [hnil] at hs
      simp at hs
    · rw [List.concat_eq_append] at hlast
      have hpos : last.length ≠ 0 := by
        have hne : sb.seq.rdropWhile (fun s => s.length = 0) ≠ [] := List.ne_nil_of_mem hs
        have := List.rdropWhile_last_not _ _ hne
        have hl : (sb.seq.rdropWhile fun s => s.length = 0).getLast hne = last := by
          have : sb.seq.rdropWhile (fun s => s.length = 0) = init ++ [last] := hlast
          simp [this]
        simpa [hl] using this
      have hsorted := h.sorted.sublist hsub
      rw [hlast, List.pairwise_append] at hsorted
      rw [hlast, List.mem_append, List.mem_singleton] at hs
      rcases hs with hs | rfl
      · exact Nat.pos_of_ne_zero fun h0 => hpos ((hsorted.2.2 s hs last (by simp)).2 h0)
      · exact Nat.pos_of_ne_zero hpos

/-! ## The splits by sequences -/

theorem SbatchSeq.Over.le {t : SbatchSeq} (h : s.Over t) : s.seqId.length ≤ t.seqId.length := by
  rcases h.1 with h | ⟨h, -⟩ <;> omega

/-- The last sequence can give some of its tokens. -/
theorem pairwise_over_last (h : (A ++ [s]).Pairwise SbatchSeq.Over)
    (hpos : ∀ t ∈ A, 0 < t.length) : (A ++ [s.drop L]).Pairwise SbatchSeq.Over := by
  rw [List.pairwise_append] at h ⊢
  refine ⟨h.1, List.pairwise_singleton _ _, fun t ht s' hs' => ?_⟩
  rw [List.mem_singleton.1 hs']
  have hover := (h.2.2 t ht s (by simp)).1
  have hlen : (s.drop L).length ≤ s.length := Nat.sub_le _ _
  have htpos := hpos t ht
  have hid : (s.drop L).seqId = s.seqId := rfl
  refine ⟨?_, fun h0 => by omega⟩
  rw [hid]
  omega

/-- What a split takes, where `I` is what holds between the splits. -/
structure SplitStep (b : LlamaBatch ι) (logitsAll : Bool) (I : Sbatch ι → List Nat → Prop)
    (nUbatch : Nat) (done : List Nat) (r : Sbatch ι × SplitUbatch ι) (rows : List Nat) : Prop where
  left : I r.1 (done ++ rows)
  holds : b.Holds logitsAll r.2 rows
  pos : 0 < rows.length
  le : rows.length ≤ nUbatch

theorem min_pos {n nUbatch length : Nat} (hn : 0 < n) (hu : 0 < nUbatch) (hs : 0 < length) :
    let k := if n < nUbatch then n else nUbatch
    let L := if length < k then length else k
    0 < L ∧ L ≤ length ∧ L ≤ nUbatch := by
  dsimp only
  split_ifs <;> omega

/-- Some sequence has tokens while tokens are left. -/
theorem Sbatch.Left.exists_last (h : sb.Left b f p logitsAll done) (hn : 0 < sb.nTokens) :
    ∃ A s, sb.reserve.seq = A ++ [s] := by
  rcases List.eq_nil_or_concat sb.reserve.seq with hnil | ⟨A, s, hA⟩
  · have hcount := h.reserve.1.count
    rw [hnil] at hcount
    have : sb.reserve.nTokens = sb.nTokens := rfl
    simp at hcount
    omega
  · exact ⟨A, s, by rw [hA, List.concat_eq_append]⟩

/-- Adding the first tokens of a sequence to a ubatch. -/
theorem Sbatch.Left.add {u : SplitUbatch ι} {rows : List Nat}
    (h : sb.Left b f p logitsAll done) (hp : b.pos = some p) (hseq : sb.seq = A ++ s :: B)
    (hle : L ≤ s.length) (hmax : ∀ t ∈ A ++ s :: B, t.seqId.length ≤ s.seqId.length)
    (hsorted : (A ++ s.drop L :: B).Pairwise SbatchSeq.Over)
    (hu : u.Loaded b f logitsAll L rows) :
    ∃ sb' u' chunk, sb.addSeqToUbatch u A.length L = some (sb', u') ∧
      sb'.seq = A ++ s.drop L :: B ∧ sb'.Left b f p logitsAll (done ++ chunk) ∧
      u'.Loaded b f logitsAll L (rows ++ chunk) ∧ chunk.length = L := by
  have hs : s ∈ sb.seq := by simp [hseq]
  have hfit := h.fits s hs
  have hlen : (sb.head s L).length = L := Sbatch.length_head (by omega)
  refine ⟨_, _, _, Sbatch.addSeqToUbatch_equal h.of hp hseq rfl hle hfit (h.named s hs) hu, rfl,
    h.take hseq hle hmax hsorted, hu.more hp hlen fun id hid => ?_, hlen⟩
  refine h.owns s hs id ?_
  rw [SbatchSeq.rows_eq _ hle]
  exact List.mem_append_left _ hid

theorem le_of_last (h : (A ++ [s]).Pairwise SbatchSeq.Over) :
    ∀ t ∈ A ++ [s], t.seqId.length ≤ s.seqId.length := by
  intro t ht
  rcases List.mem_append.1 ht with ht | ht
  · exact ((List.pairwise_append.1 h).2.2 t ht s (by simp)).le
  · rw [List.mem_singleton.1 ht]

theorem Sbatch.Left.splitSeq (h : sb.Left b f p logitsAll done) (hf : b.seqIds = some f)
    (hp : b.pos = some p) {nUbatch : Nat} (hn : 0 < sb.nTokens) (hu : 0 < nUbatch) :
    ∃ r rows, sb.splitSeq nUbatch = some r ∧
      SplitStep b logitsAll (Sbatch.Left b f p logitsAll) nUbatch done r rows := by
  obtain ⟨hres, hpos⟩ := h.reserve
  obtain ⟨A, s, hseq⟩ := h.exists_last hn
  have hs : s ∈ sb.reserve.seq := by simp [hseq]
  have hsorted : (A ++ [s]).Pairwise SbatchSeq.Over := hseq ▸ hres.sorted
  have hA : ∀ t ∈ A, 0 < t.length := fun t ht => hpos t (by simp [hseq, ht])
  obtain ⟨hL, hle, hub⟩ := min_pos hn hu (hpos s hs)
  generalize hLdef : (if s.length < (if sb.nTokens < nUbatch then sb.nTokens else nUbatch) then
    s.length else (if sb.nTokens < nUbatch then sb.nTokens else nUbatch)) = L at hL hle hub
  obtain ⟨sb', u', chunk, hadd, -, hleft, hload, hlen⟩ := hres.add hp hseq hle
    (le_of_last hsorted) (pairwise_over_last hsorted hA) (SplitUbatch.Loaded.start hp L)
  refine ⟨(sb', u'), chunk, ?_, hleft, hload.holds hf ?_, by omega, by omega⟩
  · have hlast : sb.reserve.seq.getLast? = some s := by simp [hseq]
    have hidx : sb.reserve.seq.length - 1 = A.length := by simp [hseq]
    have hne : 0 < s.seqId.length := List.length_pos_iff_ne_nil.2 (hres.named s hs)
    rw [Sbatch.splitSeq]
    simp only [hlast, hLdef, hidx, hne, not_true_eq_false, if_false]
    exact hadd
  · rw [List.nil_append, ← List.length_pos_iff_ne_nil]
    omega

/-- The sequences before those of the ubatch: as long, of one id each, and not yet touched. -/
structure Untouched (L : Nat) (A B : List SbatchSeq) : Prop where
  pos : ∀ a ∈ A, 0 < a.length
  single : ∀ t ∈ A ++ B, t.seqId.length = 1
  le : ∀ a ∈ A, L ≤ a.length
  longer : ∀ a ∈ A, ∀ t ∈ B, t.length + L ≤ a.length

/-- After the last untouched sequence gives its first tokens, the sequences are still sorted. -/
theorem Untouched.step (h : Untouched L (A ++ [s]) B)
    (hsorted : (A ++ [s] ++ B).Pairwise SbatchSeq.Over) :
    (A ++ s.drop L :: B).Pairwise SbatchSeq.Over ∧ Untouched L A (s.drop L :: B) := by
  have hs := h.le s (by simp)
  have hdrop : (s.drop L).length = s.length - L := rfl
  have hid : (s.drop L).seqId = s.seqId := rfl
  rw [List.append_assoc, List.singleton_append, List.pairwise_append, List.pairwise_cons] at hsorted
  obtain ⟨hA, ⟨-, hB⟩, hcross⟩ := hsorted
  have hsame : ∀ t ∈ A ++ [s] ++ B, t.seqId.length = s.seqId.length := fun t ht => by
    rw [h.single t ht, h.single s (by simp)]
  have hAs : ∀ a ∈ A, s.length ≤ a.length := fun a ha => by
    have hover := (hcross a ha s (by simp)).1
    have := hsame a (by simp [ha])
    omega
  refine ⟨?_, ⟨fun a ha => h.pos a (by simp [ha]), fun t ht => ?_, fun a ha =>
    h.le a (by simp [ha]), fun a ha t ht => ?_⟩⟩
  · rw [List.pairwise_append, List.pairwise_cons]
    refine ⟨hA, ⟨fun t ht => ?_, hB⟩, fun a ha t ht => ?_⟩
    · have hlonger := h.longer s (by simp) t ht
      have := hsame t (by simp [ht])
      exact ⟨.inr ⟨by rw [hid, this], by omega⟩, fun h0 => by omega⟩
    · rcases List.mem_cons.1 ht with rfl | ht
      · have hapos := h.pos a (by simp [ha])
        have hage := hAs a ha
        have := hsame a (by simp [ha])
        exact ⟨.inr ⟨by rw [hid, this], by omega⟩, fun h0 => by omega⟩
      · exact hcross a ha t (by simp [ht])
  · rcases List.mem_append.1 ht with ht | ht
    · exact h.single t (by simp [ht])
    · rcases List.mem_cons.1 ht with rfl | ht
      · exact h.single s (by simp)
      · exact h.single t (by simp [ht])
  · rcases List.mem_cons.1 ht with rfl | ht
    · have := hAs a ha
      omega
    · exact h.longer a (by simp [ha]) t ht

theorem Sbatch.Left.equalLoop (hp : b.pos = some p) {n : Nat} (hL : 0 < L) :
    ∀ {i k : Nat} {sb : Sbatch ι} {u : SplitUbatch ι} {A B : List SbatchSeq} {done rows : List Nat},
      sb.Left b f p logitsAll done → sb.seq = A ++ B → A.length = i → Untouched L A B →
      u.Loaded b f logitsAll L rows → rows.length = k → L + k ≤ n →
      ∃ sb' u' new, sb.equalLoop n i L k u = some (sb', u') ∧
        sb'.Left b f p logitsAll (done ++ new) ∧ u'.Loaded b f logitsAll L (rows ++ new) ∧
        (rows ++ new).length ≤ n
  | 0, k, sb, u, A, B, done, rows, h, hseq, hi, hun, hu, hk, hn => by
    refine ⟨sb, u, [], rfl, by rwa [List.append_nil], by rwa [List.append_nil], ?_⟩
    rw [List.append_nil]
    omega
  | i + 1, k, sb, u, A, B, done, rows, h, hseq, hi, hun, hu, hk, hn => by
    obtain ⟨A, s, rfl⟩ : ∃ A' s, A = A' ++ [s] := by
      rcases List.eq_nil_or_concat A with rfl | ⟨A', s, hA⟩
      · simp at hi
      · exact ⟨A', s, by rw [hA, List.concat_eq_append]⟩
    have hiA : A.length = i := by simpa using hi
    have hsorted := h.sorted
    rw [hseq] at hsorted
    obtain ⟨hsorted', hun'⟩ := hun.step hsorted
    have hseq' : sb.seq = A ++ s :: B := by simpa using hseq
    have hmax : ∀ t ∈ A ++ s :: B, t.seqId.length ≤ s.seqId.length := fun t ht => by
      rw [hun.single t (by simpa using ht), hun.single s (by simp)]
    obtain ⟨sb', u', chunk, hadd, hsb', hleft, hload, hlen⟩ :=
      h.add hp hseq' (hun.le s (by simp)) hmax hsorted' hu
    have hget : sb.seq[i]? = some s := by
      rw [hseq', ← hiA, List.getElem?_append_right le_rfl, Nat.sub_self]
      rfl
    have hone : ¬ 1 < s.seqId.length := by
      have := hun.single s (by simp)
      omega
    rw [Sbatch.equalLoop, hget]
    simp only [hun.pos s (by simp), not_true_eq_false, if_false, hL.ne', ← hiA, hadd, hone]
    split_ifs with hstop
    · refine ⟨sb', u', chunk, rfl, hleft, hload, ?_⟩
      rw [List.length_append]
      omega
    · obtain ⟨sb'', u'', new, hrun, hleft', hload', hle'⟩ :=
        Sbatch.Left.equalLoop hp (n := n) hL (i := A.length) (k := k + L) hleft hsb' rfl hun' hload
          (by rw [List.length_append]; omega) (by omega)
      refine ⟨sb'', u'', chunk ++ new, hrun, ?_, ?_, ?_⟩
      · rwa [← List.append_assoc]
      · rwa [← List.append_assoc]
      · rwa [← List.append_assoc]

/-- Where the last sequence has one id, all have one. -/
theorem Untouched.of_last (hsorted : (A ++ [s]).Pairwise SbatchSeq.Over)
    (hpos : ∀ a ∈ A, 0 < a.length) (hnamed : ∀ t ∈ A ++ [s], t.seqId ≠ [])
    (hone : ¬ 1 < s.seqId.length) (hle : L ≤ s.length) : Untouched L A [s.drop L] := by
  have hsingle : ∀ t ∈ A ++ [s], t.seqId.length = 1 := fun t ht => by
    have := le_of_last hsorted t ht
    have := List.length_pos_iff_ne_nil.2 (hnamed t ht)
    omega
  have hlonger : ∀ a ∈ A, s.length ≤ a.length := fun a ha => by
    have hover := ((List.pairwise_append.1 hsorted).2.2 a ha s (by simp)).1
    have := hsingle a (by simp [ha])
    have := hsingle s (by simp)
    omega
  refine ⟨hpos, fun t ht => ?_, fun a ha => hle.trans (hlonger a ha), fun a ha t ht => ?_⟩
  · rcases List.mem_append.1 ht with ht | ht
    · exact hsingle t (by simp [ht])
    · rw [List.mem_singleton.1 ht]
      exact hsingle s (by simp)
  · rw [List.mem_singleton.1 ht]
    have hdrop : (s.drop L).length = s.length - L := rfl
    have := hlonger a ha
    omega

theorem Sbatch.Left.splitEqual (h : sb.Left b f p logitsAll done) (hf : b.seqIds = some f)
    (hp : b.pos = some p) {nUbatch : Nat} (hn : 0 < sb.nTokens) (hu : 0 < nUbatch) :
    ∃ r rows, sb.splitEqual nUbatch = some r ∧
      SplitStep b logitsAll (Sbatch.Left b f p logitsAll) nUbatch done r rows := by
  obtain ⟨hres, hpos⟩ := h.reserve
  obtain ⟨A, s, hseq⟩ := h.exists_last hn
  have hs : s ∈ sb.reserve.seq := by simp [hseq]
  have hsorted : (A ++ [s]).Pairwise SbatchSeq.Over := hseq ▸ hres.sorted
  have hA : ∀ t ∈ A, 0 < t.length := fun t ht => hpos t (by simp [hseq, ht])
  have hnamed : ∀ t ∈ A ++ [s], t.seqId ≠ [] := fun t ht => hres.named t (hseq ▸ ht)
  obtain ⟨hL, hle, -⟩ := min_pos hn hu (hpos s hs)
  have hnu : (if sb.nTokens < nUbatch then sb.nTokens else nUbatch) ≤ nUbatch := by
    split_ifs <;> omega
  rw [Sbatch.splitEqual]
  generalize (if sb.nTokens < nUbatch then sb.nTokens else nUbatch) = n at hL hle hnu ⊢
  have hLn : (if s.length < n then s.length else n) ≤ n := by split_ifs <;> omega
  generalize hLdef : (if s.length < n then s.length else n) = L at hL hle hLn
  obtain ⟨sb', u', chunk, hadd, hsb', hleft, hload, hlen⟩ := hres.add hp hseq hle
    (le_of_last hsorted) (pairwise_over_last hsorted hA) (SplitUbatch.Loaded.start hp L)
  rw [List.nil_append] at hload
  have hloop : ∃ r, sb.reserve.equalLoop n sb.reserve.seq.length 0 0 {} = some r ∧
      ∃ rows, r.1.Left b f p logitsAll (done ++ rows) ∧ r.2.Loaded b f logitsAll L rows ∧
        0 < rows.length ∧ rows.length ≤ n := by
    have hlast : sb.reserve.seq.length = A.length + 1 := by simp [hseq]
    have hget : sb.reserve.seq[A.length]? = some s := by simp [hseq]
    rw [hlast, Sbatch.equalLoop, hget]
    simp only [hpos s hs, not_true_eq_false, if_false, if_true, hLdef, hadd, Nat.zero_add]
    split_ifs with hshared hfull
    · exact ⟨_, rfl, chunk, hleft, hload, by omega, by omega⟩
    · exact ⟨_, rfl, chunk, hleft, hload, by omega, by omega⟩
    · obtain ⟨sb'', u'', new, hrun, hleft', hload', hle'⟩ :=
        Sbatch.Left.equalLoop hp (n := n) hL hleft hsb' rfl
          (Untouched.of_last hsorted hA hnamed hshared hle) hload hlen (by omega)
      refine ⟨_, hrun, chunk ++ new, ?_, hload', ?_, hle'⟩
      · rwa [← List.append_assoc]
      · rw [List.length_append]
        omega
  obtain ⟨r, hr, rows, hleft, hload, hpos', hle'⟩ := hloop
  refine ⟨r, rows, ?_, hleft, hload.holds hf (List.length_pos_iff_ne_nil.1 hpos'), hpos',
    hle'.trans hnu⟩
  rcases hfirst : sb.reserve.seq with _ | ⟨s₀, rest⟩
  · rw [hfirst] at hs
    simp at hs
  · have hne : 0 < s₀.seqId.length :=
      List.length_pos_iff_ne_nil.2 (hres.named s₀ (by simp [hfirst]))
    rw [hfirst] at hr
    simp only [hne, not_true_eq_false, if_false]
    exact hr

end Left

end LamaServer
