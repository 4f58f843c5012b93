import LamaServer.Ingest
import LamaServer.Lib.Tiles
import Mathlib.Data.List.Perm.Basic
import Mathlib.Algebra.BigOperators.Group.List.Basic
import Mathlib.Algebra.Order.Field.Rat
import Mathlib.Tactic.NormNum

/-!
# Which chunks are inserted

The chunks of a document should be its windows of 300 tokens at the multiples of 200, as
`get_brutal_chunking` cuts them, each with the average of the embeddings of its tokens. They are for
a request of one prompt that is one piece, unless its last full window ends at the end of the
prompt: then the 100 tokens past the stride are inserted once more. Several pieces leave the last
window out, because `task_n` is never incremented, and are averaged in the order they arrive; of
several prompts only the first is inserted.
-/

namespace LamaServer

open Windows

/-- A tokenised document with the embeddings of its tokens. -/
abbrev Document := List (Token × Embedding)

variable (env : IngestEnv)

/-- The chunk of a window of a document. -/
def ragChunk (embeddingSz : Nat) (window : Document) : RagChunk where
  contents := env.detokenize (window.map Prod.fst)
  vector := chunkVector embeddingSz window.length (window.map Prod.snd)

/-- The chunks of a document. -/
def ragChunks (embeddingSz : Nat) (doc : Document) : List RagChunk :=
  (windows internalRagChunkSize stepSizeForBrutalChunking doc).map (ragChunk env embeddingSz)

/-- Whatever the embeddings of the tokens and the order in which they arrive, the chunks of the
documents are inserted and nothing else. -/
def IngestsWindows (prompts : List (List Token)) : Prop :=
  ∀ (embeddingSz : Nat) (docs : List Document) (order : List (List Embedding)) (s : Ingest),
    docs.map (·.map Prod.fst) = prompts → (∀ doc ∈ docs, ∀ t ∈ doc, t.2.length = embeddingSz) →
    order.Perm (embeddingChunks (docs.map (·.map Prod.snd))) →
    handleChunking env prompts (order.map .embd) = some s →
    s.inserted.Perm (docs.flatMap (ragChunks env embeddingSz))

/-- A prompt of one piece whose last full window does not end at its end. -/
def OneRaggedPiece (prompt : List Token) : Prop :=
  prompt.length ≤ idealStreamSize ∧ (prompt.length < internalRagChunkSize ∨
    (prompt.length - internalRagChunkSize) % stepSizeForBrutalChunking ≠ 0)

/-- What the callback's loop does with a full chunk before it goes on. -/
def insertFull (embeddingSz : Nat) (s : Ingest) : Ingest :=
  { s with
    inserted := s.inserted ++ [{
      contents := env.detokenize (s.allPrompt.take 300)
      vector := chunkVector embeddingSz 300 s.allEmbedding }]
    responses := s.responses ++ [(s.position, 300)]
    position := s.position + 200
    allEmbedding := s.allEmbedding.drop 200
    allPrompt := s.allPrompt.drop 200 }

theorem chunkSize_eq : internalRagChunkSize = 300 := rfl
theorem stepSize_eq : stepSizeForBrutalChunking = 200 := rfl
theorem streamSize_eq : idealStreamSize = 2048 := rfl
theorem overlap_eq : overlapForBrutalChunking = 100 := rfl

variable {env}

section Loop

variable (hins : ∀ k, env.inserts k = true)

include hins

theorem insertChunk_eq (embeddingSz chunkSz : Nat) (s : Ingest) :
    insertChunk env embeddingSz chunkSz s = { s with
      inserted := s.inserted ++ [{
        contents := env.detokenize (s.allPrompt.take chunkSz)
        vector := chunkVector embeddingSz chunkSz s.allEmbedding }]
      responses := s.responses ++ [(s.position, chunkSz)] } := by
  unfold insertChunk
  rw [if_pos (hins _)]

/-- The loop inserts one full chunk and goes on a step further. -/
theorem chunkLoop_full {nPieces embeddingSz : Nat} {s : Ingest}
    (hlen : 300 ≤ s.allEmbedding.length) (herror : s.error = false)
    (hlast : s.isLastBlock = false) :
    chunkLoop env nPieces embeddingSz s =
      chunkLoop env nPieces embeddingSz (insertFull env embeddingSz s) := by
  rw [chunkLoop, dif_pos (show internalRagChunkSize ≤ _ from hlen)]
  simp only [insertChunk_eq hins, herror, hlast, Bool.false_eq_true, if_false]
  simp only [insertFull, herror, hlast, chunkSize_eq, stepSize_eq]

omit hins in
/-- The loop waits for more results. -/
theorem chunkLoop_wait {nPieces embeddingSz : Nat} {s : Ingest}
    (hlen : s.allEmbedding.length < 300) (hn : s.taskN + 1 ≠ nPieces) :
    chunkLoop env nPieces embeddingSz s = s := by
  rw [chunkLoop, dif_neg (by rw [chunkSize_eq]; omega), if_neg hn]

/-- The loop inserts what is left. -/
theorem chunkLoop_last {nPieces embeddingSz : Nat} {s : Ingest}
    (hlen : s.allEmbedding.length < 300) (hn : s.taskN + 1 = nPieces) :
    (chunkLoop env nPieces embeddingSz s).inserted = s.inserted ++ [{
      contents := env.detokenize (s.allPrompt.take s.allEmbedding.length)
      vector := chunkVector embeddingSz s.allEmbedding.length s.allEmbedding }] := by
  rw [chunkLoop, dif_neg (by rw [chunkSize_eq]; omega), if_pos hn, insertChunk_eq hins]

/-- A document that is one piece is cut in its windows, if its last window is a remainder. -/
theorem chunkLoop_ragged {embeddingSz : Nat} :
    ∀ (n : Nat) (doc : Document) (s : Ingest), doc.length = n →
      (n < 300 ∨ (n - 300) % 200 ≠ 0) → s.allPrompt = doc.map Prod.fst →
      s.allEmbedding = doc.map Prod.snd → s.taskN = 0 → s.error = false →
      s.isLastBlock = false → (chunkLoop env 1 embeddingSz s).inserted =
        s.inserted ++ ragChunks env embeddingSz doc := by
  intro n
  induction n using Nat.strong_induction_on with
  | _ n ih =>
    intro doc s hn hragged hprompt hembedding htask herror hlast
    have hlen : s.allEmbedding.length = n := by rw [hembedding, List.length_map, hn]
    unfold ragChunks
    by_cases hfull : 300 ≤ n
    · rw [chunkLoop_full hins (by omega) herror hlast,
        ih (n - 200) (by omega) (doc.drop 200) (insertFull env embeddingSz s)
          (by rw [List.length_drop, hn]) (by omega) (by rw [List.map_drop, ← hprompt]; rfl)
          (by rw [List.map_drop, ← hembedding]; rfl) htask herror hlast,
        insertFull, chunkSize_eq, stepSize_eq, windows_of_lt (by decide) (by omega), List.map_cons,
        List.append_assoc, List.singleton_append]
      simp only [ragChunks, chunkSize_eq, stepSize_eq, ragChunk, List.map_take, hprompt,
        hembedding, chunkVector, List.take_take, List.length_take, hn, Nat.min_eq_left hfull,
        Nat.min_self]
    · rw [chunkLoop_last hins (by omega) (by rw [htask]), chunkSize_eq, stepSize_eq,
        windows_of_le (by decide) (by omega), hlen, hprompt, hembedding]
      simp only [ragChunk, List.map_cons, List.map_nil, hn]
      rw [List.take_of_length_le (by rw [List.length_map, hn])]

/-- A document that is one piece and ends with a full window gets one chunk too many. -/
theorem chunkLoop_even {embeddingSz : Nat} :
    ∀ (n : Nat) (doc : Document) (s : Ingest), doc.length = n → 300 ≤ n → (n - 300) % 200 = 0 →
      s.allEmbedding = doc.map Prod.snd → s.taskN = 0 → s.error = false →
      s.isLastBlock = false → (chunkLoop env 1 embeddingSz s).inserted.length =
        s.inserted.length + (ragChunks env embeddingSz doc).length + 1 := by
  intro n
  induction n using Nat.strong_induction_on with
  | _ n ih =>
    intro doc s hn hfull heven hembedding htask herror hlast
    have hlen : s.allEmbedding.length = n := by rw [hembedding, List.length_map, hn]
    unfold ragChunks
    rw [chunkLoop_full hins (by omega) herror hlast, List.length_map, chunkSize_eq, stepSize_eq]
    by_cases h : n = 300
    · have hrest : (insertFull env embeddingSz s).allEmbedding.length < 300 := by
        simp only [insertFull, List.length_drop]
        omega
      rw [chunkLoop_last hins hrest (by rw [insertFull, htask]),
        windows_of_le (by decide) (by omega)]
      simp only [insertFull, List.length_append, List.length_singleton]
    · have hlen' : (doc.drop 200).length = n - 200 := by rw [List.length_drop, hn]
      have hembedding' : (insertFull env embeddingSz s).allEmbedding =
          (doc.drop 200).map Prod.snd := by
        rw [List.map_drop, ← hembedding]
        rfl
      have hfull' : 300 ≤ n - 200 := by omega
      have heven' : (n - 200 - 300) % 200 = 0 := by
        rw [show n - 300 = n - 200 - 300 + 200 by omega, Nat.add_mod_right] at heven
        exact heven
      rw [ih (n - 200) (by omega) (doc.drop 200) (insertFull env embeddingSz s) hlen' hfull'
          heven' hembedding' htask herror hlast,
        windows_of_lt (by decide) (by omega)]
      simp only [insertFull, ragChunks, chunkSize_eq, stepSize_eq, List.length_map,
        List.length_append, List.length_cons, List.length_nil]
      omega

/-- What holds between two results of a request of several pieces: nothing but full chunks of the
first prompt, which has `n` tokens, was inserted. -/
structure FullChunks (n : Nat) (s : Ingest) : Prop where
  taskN : s.taskN = 0
  error : s.error = false
  notLast : s.isLastBlock = false
  length : 200 * s.inserted.length + s.allPrompt.length = n
  room : s.inserted ≠ [] → 100 ≤ s.allPrompt.length

omit hins in
theorem insertFull_fullChunks {n embeddingSz : Nat} {s : Ingest} (h : FullChunks n s)
    (hlen : 300 ≤ s.allPrompt.length) : FullChunks n (insertFull env embeddingSz s) where
  taskN := h.taskN
  error := h.error
  notLast := h.notLast
  length := by
    have := h.length
    simp only [insertFull, List.length_append, List.length_singleton, List.length_drop]
    omega
  room _ := by
    simp only [insertFull, List.length_drop]
    omega

theorem chunkLoop_fullChunks {n nPieces : Nat} (hn : nPieces ≠ 1) (embeddingSz : Nat) :
    ∀ (k : Nat) (s : Ingest), s.allEmbedding.length = k → FullChunks n s →
      s.allEmbedding.length ≤ s.allPrompt.length →
      FullChunks n (chunkLoop env nPieces embeddingSz s) ∧
        s.inserted <+: (chunkLoop env nPieces embeddingSz s).inserted := by
  intro k
  induction k using Nat.strong_induction_on with
  | _ k ih =>
    intro s hk h hle
    by_cases hfull : 300 ≤ s.allEmbedding.length
    · rw [chunkLoop_full hins hfull h.error h.notLast]
      have hembedding : (insertFull env embeddingSz s).allEmbedding.length = k - 200 := by
        simp only [insertFull, List.length_drop, hk]
      have hprompt : (insertFull env embeddingSz s).allPrompt.length =
          s.allPrompt.length - 200 := by
        simp only [insertFull, List.length_drop]
      obtain ⟨h1, h2⟩ := ih (k - 200) (by omega) _ hembedding
        (insertFull_fullChunks h (by omega)) (by omega)
      exact ⟨h1, (List.prefix_append _ _).trans h2⟩
    · rw [chunkLoop_wait (by omega) (by rw [h.taskN]; omega)]
      exact ⟨h, List.prefix_rfl⟩

omit hins in
theorem onResult_eq {nPieces : Nat} {s : Ingest} {embedding : List Embedding}
    (herror : s.error = false)
    (hlen : s.allEmbedding.length + embedding.length ≤ s.allPrompt.length) :
    onResult env nPieces s embedding =
      chunkLoop env nPieces ((s.allEmbedding ++ embedding).headD []).length
        { s with allEmbedding := s.allEmbedding ++ embedding } := by
  unfold onResult
  rw [herror, if_neg Bool.false_ne_true]
  dsimp only
  rw [if_neg (by rw [List.length_append]; omega)]

theorem onResult_fullChunks {n nPieces : Nat} (hn : nPieces ≠ 1) {s : Ingest} (h : FullChunks n s)
    (embedding : List Embedding) : FullChunks n (onResult env nPieces s embedding) ∧
      s.inserted <+: (onResult env nPieces s embedding).inserted := by
  unfold onResult
  rw [if_neg (by rw [h.error]; decide)]
  dsimp only
  split_ifs with hlen
  · exact ⟨⟨h.taskN, h.error, h.notLast, h.length, h.room⟩, List.prefix_rfl⟩
  · exact chunkLoop_fullChunks hins hn _ _ _ rfl ⟨h.taskN, h.error, h.notLast, h.length, h.room⟩
      (by dsimp only; omega)

theorem receiveStreamedResults_fullChunks {n nPieces : Nat} (hn : nPieces ≠ 1) :
    ∀ (order : List (List Embedding)) (s : Ingest), FullChunks n s →
      FullChunks n (receiveStreamedResults env nPieces s (order.map .embd)) ∧
        s.inserted <+: (receiveStreamedResults env nPieces s (order.map .embd)).inserted
  | [], _, h => ⟨h, List.prefix_rfl⟩
  | embedding :: order, s, h => by
    obtain ⟨h1, h2⟩ := onResult_fullChunks hins hn h embedding
    obtain ⟨h3, h4⟩ := receiveStreamedResults_fullChunks hn order _ h1
    exact ⟨h3, h2.trans h4⟩

/-- A request of several pieces inserts at most the full windows of the first prompt. -/
theorem length_inserted_le {nPieces : Nat} (hn : nPieces ≠ 1) (prompt : List Token)
    (order : List (List Embedding)) :
    let s := receiveStreamedResults env nPieces { allPrompt := prompt } (order.map .embd)
    s.inserted.length = 0 ∨ 200 * s.inserted.length + 100 ≤ prompt.length := by
  obtain ⟨h, -⟩ := receiveStreamedResults_fullChunks hins hn order { allPrompt := prompt }
    ⟨rfl, rfl, rfl, Nat.zero_add _, fun h => absurd rfl h⟩
  have hlen := h.length
  by_cases hs : (receiveStreamedResults env nPieces { allPrompt := prompt }
      (order.map .embd)).inserted = []
  · exact .inl (by rw [hs, List.length_nil])
  · have := h.room hs
    dsimp only at hlen
    exact .inr (by omega)

end Loop

/-! ## The pieces -/

section Pieces

variable {α : Type*}

/-- Cutting steps off stops at most a piece before the start, and cuts the step behind where it
stops last. -/
theorem cutSteps_spec (prompt : List α) : ∀ (pos : Nat) (chunks : List (List α)),
    let r := cutSteps prompt pos chunks
    chunks.length ≤ r.1.length ∧ (pos ≤ 2048 → r.2 = pos) ∧
      (2048 < pos → 1848 < r.2 ∧ r.2 ≤ 2048 ∧ r.2 + 200 ≤ pos ∧
        ∃ rest, r.1 = rest ++ [between prompt r.2 (r.2 + 200)]) := by
  intro pos
  induction pos using Nat.strong_induction_on with
  | _ pos ih =>
    intro chunks
    dsimp only
    rw [cutSteps]
    by_cases h : 2048 < pos
    · rw [dif_pos (show idealStreamSize < pos from h)]
      obtain ⟨h1, h2, h3⟩ := ih (pos - 200) (by omega)
        (chunks ++ [between prompt (pos - 200) pos])
      rw [stepSize_eq]
      refine ⟨?_, fun hle => absurd h (by omega), fun _ => ?_⟩
      · rw [List.length_append] at h1
        omega
      · by_cases hstop : pos - 200 ≤ 2048
        · have hpos := h2 hstop
          refine ⟨by omega, by omega, by omega, chunks, ?_⟩
          have hstop' : ¬ idealStreamSize < pos - 200 := by
            rw [streamSize_eq]
            omega
          rw [hpos, cutSteps, dif_neg hstop', Nat.sub_add_cancel (by omega)]
        · obtain ⟨hlow, hhigh, hle, hrest⟩ := h3 (by omega)
          exact ⟨hlow, hhigh, by omega, hrest⟩
    · rw [dif_neg (show ¬ idealStreamSize < pos from h)]
      exact ⟨le_refl _, fun _ => rfl, fun hlt => absurd hlt h⟩

theorem promptPieces_short {prompt : List α} (h : prompt.length ≤ 2048) :
    promptPieces prompt = [prompt] := by
  unfold promptPieces
  rw [if_pos (show prompt.length ≤ idealStreamSize from h)]

/-- A prompt longer than one piece makes several. -/
theorem two_le_promptPieces {prompt : List α} (h : 2048 < prompt.length) :
    2 ≤ (promptPieces prompt).length := by
  unfold promptPieces
  rw [if_neg (show ¬ prompt.length ≤ idealStreamSize by rw [streamSize_eq]; omega), chunkSize_eq,
    overlap_eq]
  dsimp only
  set last := (prompt.length - 300) % 100 with hlast
  have hlt : last < 100 := Nat.mod_lt _ (by decide)
  obtain ⟨h1, h2, h3⟩ := cutSteps_spec prompt (prompt.length - last)
    (if last ≠ 0 then [between prompt (prompt.length - last) prompt.length] else [])
  set r := cutSteps prompt (prompt.length - last)
    (if last ≠ 0 then [between prompt (prompt.length - last) prompt.length] else []) with hr
  have hpos : r.2 ≠ 0 := by
    rcases Nat.lt_or_ge 2048 (prompt.length - last) with hlong | hshort
    · have := (h3 hlong).1
      omega
    · have := h2 hshort
      omega
  have hcut : 1 ≤ r.1.length := by
    by_cases h0 : last = 0
    · obtain ⟨-, -, -, rest, hrest⟩ := h3 (by omega)
      rw [hrest, List.length_append, List.length_singleton]
      omega
    · rw [if_pos h0, List.length_singleton] at h1
      exact h1
  rw [if_pos hpos, List.length_reverse, List.length_append, List.length_singleton]
  omega

/-- A long prompt of full windows starts with a long piece and a step. -/
theorem promptPieces_even (prompt : List α) (h : 2048 < prompt.length)
    (heven : (prompt.length - 300) % 100 = 0) : ∃ pos rest, 1848 < pos ∧
      pos + 200 ≤ prompt.length ∧ promptPieces prompt =
        between prompt 0 pos :: between prompt pos (pos + 200) :: rest := by
  unfold promptPieces
  rw [if_neg (show ¬ prompt.length ≤ idealStreamSize by rw [streamSize_eq]; omega), chunkSize_eq,
    overlap_eq, heven]
  dsimp only
  rw [Nat.sub_zero, if_neg (show ¬ (0 ≠ 0) from fun h => h rfl)]
  obtain ⟨-, -, h3⟩ := cutSteps_spec prompt prompt.length []
  obtain ⟨hlow, -, hle, rest, hrest⟩ := h3 h
  refine ⟨_, rest.reverse, hlow, hle, ?_⟩
  rw [if_pos (by omega), hrest]
  simp only [List.reverse_append, List.reverse_cons, List.reverse_nil, List.nil_append,
    List.cons_append]

theorem one_le_promptPieces (prompt : List α) : 1 ≤ (promptPieces prompt).length := by
  rcases Nat.lt_or_ge 2048 prompt.length with h | h
  · exact (Nat.le_succ 1).trans (two_le_promptPieces h)
  · rw [promptPieces_short h, List.length_singleton]

end Pieces

/-! ## Which requests are ingested as they should -/

theorem count_eq (n : Nat) : count internalRagChunkSize stepSizeForBrutalChunking n =
    (n - 300 + 199) / 200 + 1 := rfl

theorem length_ragChunks (embeddingSz : Nat) (doc : Document) :
    (ragChunks env embeddingSz doc).length = (doc.length - 300 + 199) / 200 + 1 := by
  rw [ragChunks, List.length_map, length_windows, count_eq]

theorem handleChunking_eq (env : IngestEnv) {prompt : List Token} {prompts : List (List Token)}
    (h : [] ∉ prompt :: prompts) (arrivals : List Arrival) :
    handleChunking env (prompt :: prompts) arrivals = some (receiveStreamedResults env
      (embeddingChunks (prompt :: prompts)).length { allPrompt := prompt } arrivals) := by
  unfold handleChunking
  dsimp only
  rw [if_neg h]

/-- The documents of some prompts whose embeddings are all zero. -/
def zeroDocs (prompts : List (List Token)) : List Document :=
  prompts.map fun prompt => prompt.map fun t => (t, [0])

theorem zeroDocs_prompts (prompts : List (List Token)) :
    (zeroDocs prompts).map (·.map Prod.fst) = prompts := by
  simp [zeroDocs, Function.comp_def]

theorem zeroDocs_length (prompts : List (List Token)) :
    ∀ doc ∈ zeroDocs prompts, ∀ t ∈ doc, t.2.length = 1 := by
  intro doc hdoc t ht
  obtain ⟨prompt, -, rfl⟩ := List.mem_map.1 hdoc
  obtain ⟨_, -, rfl⟩ := List.mem_map.1 ht
  rfl

section Requests

variable (hins : ∀ k, env.inserts k = true)

include hins

omit hins in
/-- A request of one piece inserts what one result makes the callback insert. -/
theorem handleChunking_onePiece {doc : Document} (hne : doc ≠ []) (hlen : doc.length ≤ 2048)
    {embeddingSz : Nat} (hsz : ∀ t ∈ doc, t.2.length = embeddingSz)
    {order : List (List Embedding)} {s : Ingest}
    (horder : order.Perm (embeddingChunks [doc.map Prod.snd]))
    (hs : handleChunking env [doc.map Prod.fst] (order.map .embd) = some s) :
    s = chunkLoop env 1 embeddingSz
      { allPrompt := doc.map Prod.fst, allEmbedding := doc.map Prod.snd } := by
  have hfst : [] ∉ [doc.map Prod.fst] := by simpa using Ne.symm hne
  simp only [embeddingChunks, List.flatMap_cons, List.flatMap_nil, List.append_nil] at horder
  rw [promptPieces_short (by rw [List.length_map]; exact hlen), List.perm_singleton] at horder
  rw [horder, handleChunking_eq env hfst] at hs
  simp only [embeddingChunks, List.flatMap_cons, List.flatMap_nil, List.append_nil] at hs
  rw [promptPieces_short (by rw [List.length_map]; exact hlen)] at hs
  obtain rfl := Option.some.inj hs
  have hhead : ((doc.map Prod.snd).headD []).length = embeddingSz := by
    obtain ⟨t, doc, rfl⟩ := List.exists_cons_of_ne_nil hne
    exact hsz t List.mem_cons_self
  simp only [List.map_cons, List.map_nil, receiveStreamedResults, onResult, Bool.false_eq_true,
    if_false, List.nil_append, List.length_map, lt_irrefl, hhead, List.length_singleton]

theorem ingestsWindows_of_ragged {prompt : List Token} (hne : prompt ≠ [])
    (h : OneRaggedPiece prompt) : IngestsWindows env [prompt] := by
  intro embeddingSz docs order s hdocs hsz horder hs
  obtain ⟨doc, rfl⟩ : ∃ doc, docs = [doc] := by
    obtain ⟨doc, docs, rfl, -, hnil⟩ := List.map_eq_cons_iff.1 hdocs
    exact ⟨doc, by rw [List.map_eq_nil_iff.1 hnil]⟩
  obtain rfl : doc.map Prod.fst = prompt := List.cons.inj hdocs |>.1
  obtain ⟨hlen, hragged⟩ := h
  rw [List.length_map] at hlen hragged
  have hdoc : doc ≠ [] := fun h => hne (by rw [h, List.map_nil])
  rw [handleChunking_onePiece hdoc hlen (hsz doc List.mem_cons_self) horder hs,
    chunkLoop_ragged hins doc.length doc _ rfl hragged rfl rfl rfl rfl rfl]
  simp

/-- A prompt that is one piece and ends with a full window gets one chunk too many. -/
theorem not_ingestsWindows_of_even {prompt : List Token} (hlen : prompt.length ≤ 2048)
    (hfull : 300 ≤ prompt.length) (heven : (prompt.length - 300) % 200 = 0) :
    ¬ IngestsWindows env [prompt] := by
  intro h
  obtain ⟨doc, rfl, hsz⟩ : ∃ doc : Document, doc.map Prod.fst = prompt ∧
      ∀ t ∈ doc, t.2.length = 1 :=
    ⟨prompt.map fun t => (t, [0]), by simp [Function.comp_def],
      zeroDocs_length [prompt] _ List.mem_cons_self⟩
  rw [List.length_map] at hlen hfull heven
  have hne : doc ≠ [] := List.ne_nil_of_length_pos (by omega)
  have hprompt : [] ∉ [doc.map Prod.fst] := by
    rw [List.mem_singleton]
    exact fun h => hne (List.map_eq_nil_iff.1 h.symm)
  have hs := handleChunking_eq env hprompt ((embeddingChunks [doc.map Prod.snd]).map .embd)
  have hperm := h 1 [doc] _ _ (by rw [List.map_singleton])
    (fun d hd => by rwa [List.mem_singleton.1 hd]) (List.Perm.refl _) hs
  rw [handleChunking_onePiece hne hlen hsz (List.Perm.refl _) hs] at hperm
  have hcount := hperm.length_eq
  rw [chunkLoop_even hins doc.length doc _ rfl hfull heven rfl rfl rfl rfl] at hcount
  simp at hcount

/-- A request of several pieces whose documents have too many windows leaves some out. -/
theorem not_ingestsWindows_of_count {prompt : List Token} {prompts : List (List Token)}
    (hne : [] ∉ prompt :: prompts) (hpieces : (embeddingChunks (prompt :: prompts)).length ≠ 1)
    (hcount : prompts ≠ [] ∨ 300 < prompt.length ∧ (prompt.length - 300) % 200 ≠ 0) :
    ¬ IngestsWindows env (prompt :: prompts) := by
  intro h
  set order := embeddingChunks ((zeroDocs (prompt :: prompts)).map (·.map Prod.snd))
  have hs := handleChunking_eq env hne (order.map .embd)
  have hperm := h 1 _ _ _ (zeroDocs_prompts _) (zeroDocs_length _) (List.Perm.refl _) hs
  have hlength := hperm.length_eq
  have hle := length_inserted_le hins hpieces prompt order
  dsimp only at hle
  have hspec : ((zeroDocs (prompt :: prompts)).flatMap (ragChunks env 1)).length =
      (prompt.length - 300 + 199) / 200 + 1 +
        ((zeroDocs prompts).flatMap (ragChunks env 1)).length := by
    simp only [zeroDocs, List.map_cons, List.flatMap_cons, List.length_append, length_ragChunks,
      List.length_map]
  have hrest : prompts ≠ [] → 1 ≤ ((zeroDocs prompts).flatMap (ragChunks env 1)).length := by
    intro hp
    obtain ⟨q, qs, rfl⟩ := List.exists_cons_of_ne_nil hp
    simp only [zeroDocs, List.map_cons, List.flatMap_cons, List.length_append, length_ragChunks]
    omega
  rw [hspec] at hlength
  rcases hcount with hp | ⟨hlong, hodd⟩
  · have := hrest hp
    omega
  · omega

end Requests

section Order

/-- An embedding with nothing in it. -/
def blank : Embedding := [0]

theorem sum_getD_blank {w : List Embedding} (h : ∀ e ∈ w, e = blank) :
    (w.map (·.getD 0 0)).sum = 0 := by
  refine List.sum_eq_zero fun x hx => ?_
  obtain ⟨e, he, rfl⟩ := List.mem_map.1 hx
  rw [h e he]
  rfl

theorem chunkVector_one (n : Nat) (w : List Embedding) :
    chunkVector 1 n w = [((w.take n).map (·.getD 0 0)).sum / (n : Rat)] := rfl

/-- A chunk of blank embeddings is blank. -/
theorem chunkVector_blank {n : Nat} {w : List Embedding} (h : ∀ e ∈ w, e = blank) :
    chunkVector 1 n w = blank := by
  rw [chunkVector_one, sum_getD_blank fun e he => h e (List.mem_of_mem_take he), zero_div, blank]

/-- A chunk whose embeddings are blank but for one is not. -/
theorem chunkVector_mark {xs ys : List Embedding} (hxs : ∀ e ∈ xs, e = blank)
    (hys : ∀ e ∈ ys, e = blank) (hlen : xs.length < 300) :
    chunkVector 1 300 (xs ++ [1] :: ys) ≠ blank := by
  obtain ⟨m, hm⟩ : ∃ m, 300 - xs.length = m + 1 := ⟨299 - xs.length, by omega⟩
  rw [chunkVector_one, List.take_append, List.take_of_length_le hlen.le, hm, List.take_succ_cons,
    List.map_append, List.sum_append, sum_getD_blank hxs, List.map_cons, List.sum_cons,
    sum_getD_blank fun e he => hys e (List.mem_of_mem_take he), blank]
  norm_num

/-- Only the first chunk of a document is marked when only its first token is. -/
theorem countP_ragChunks_mark (env : IngestEnv) {doc : Document} (hlen : 300 < doc.length)
    (h : ∀ t ∈ doc.drop 200, t.2 = blank) :
    (ragChunks env 1 doc).countP (·.vector ≠ blank) ≤ 1 := by
  rw [ragChunks, chunkSize_eq, stepSize_eq, windows_of_lt (by decide) hlen, List.map_cons,
    List.countP_cons]
  have hrest : ((windows 300 200 (doc.drop 200)).map (ragChunk env 1)).countP
      (·.vector ≠ blank) = 0 := by
    rw [List.countP_eq_zero]
    intro c hc
    obtain ⟨w, hw, rfl⟩ := List.mem_map.1 hc
    obtain ⟨k, -, rfl⟩ := List.mem_map.1 hw
    rw [decide_eq_true_eq, not_not]
    refine chunkVector_blank fun e he => ?_
    obtain ⟨t, ht, rfl⟩ := List.mem_map.1 he
    exact h t (List.mem_of_mem_drop (List.mem_of_mem_take ht))
  rw [hrest]
  split_ifs <;> simp

/-- The second piece, arriving before the first, moves the first token into two chunks. -/
theorem secondPieceFirst (hins : ∀ k, env.inserts k = true) {nPieces : Nat} (hn : nPieces ≠ 1)
    (prompt : List Token) {r₁ ys : List Embedding} (hr₁ : ∀ e ∈ r₁, e = blank)
    (hys : ∀ e ∈ ys, e = blank) (hlen₁ : r₁.length = 200) (hlenYs : 300 ≤ ys.length)
    (hlen : ys.length + 201 ≤ prompt.length) (order : List (List Embedding)) :
    2 ≤ (receiveStreamedResults env nPieces { allPrompt := prompt }
      ((r₁ :: ([1] :: ys) :: order).map .embd)).inserted.countP (·.vector ≠ blank) := by
  -- the first result is too short for a chunk
  have hfirst : onResult env nPieces { allPrompt := prompt } r₁ =
      { allPrompt := prompt, allEmbedding := r₁ } := by
    rw [onResult_eq rfl (by rw [hlen₁, List.length_nil]; dsimp only; omega), List.nil_append,
      chunkLoop_wait (by dsimp only; omega) (by dsimp only; omega)]
  set s₁ : Ingest := { allPrompt := prompt, allEmbedding := r₁ ++ [1] :: ys } with hs₁
  have hs₁len : s₁.allEmbedding.length = ys.length + 201 := by
    rw [hs₁, List.length_append, List.length_cons, hlen₁]
    omega
  have hs₁prompt : s₁.allPrompt.length = prompt.length := rfl
  have hp₁ : FullChunks prompt.length s₁ :=
    ⟨rfl, rfl, rfl, Nat.zero_add _, fun h => absurd rfl h⟩
  set s₂ := insertFull env 1 (insertFull env 1 s₁) with hs₂
  have hs₂len : s₂.allEmbedding.length = s₁.allEmbedding.length - 400 := by
    rw [hs₂, insertFull, insertFull, List.length_drop, List.length_drop, Nat.sub_sub]
  have hs₂prompt : s₂.allPrompt.length = s₁.allPrompt.length - 400 := by
    rw [hs₂, insertFull, insertFull, List.length_drop, List.length_drop, Nat.sub_sub]
  have hp₂ : FullChunks prompt.length s₂ := by
    refine insertFull_fullChunks (insertFull_fullChunks hp₁ (by omega)) ?_
    rw [insertFull, List.length_drop]
    omega
  -- the second makes two chunks that the first token is in
  have hsecond : onResult env nPieces { allPrompt := prompt, allEmbedding := r₁ } ([1] :: ys) =
      chunkLoop env nPieces 1 s₂ := by
    have hsz : ((r₁ ++ [1] :: ys).headD []).length = 1 := by
      obtain ⟨e, es, rfl⟩ := List.exists_cons_of_ne_nil (List.ne_nil_of_length_pos
        (by omega : 0 < r₁.length))
      rw [List.cons_append, List.headD_cons, hr₁ e List.mem_cons_self]
      rfl
    rw [onResult_eq rfl (by rw [hlen₁, List.length_cons]; dsimp only; omega), hsz,
      chunkLoop_full hins (by rw [← hs₁]; omega) rfl rfl, chunkLoop_full hins _ rfl rfl]
    rw [insertFull, List.length_drop, ← hs₁]
    omega
  have hcount : s₂.inserted.countP (·.vector ≠ blank) = 2 := by
    have hdrop : s₁.allEmbedding.drop 200 = [] ++ [1] :: ys := by
      rw [hs₁, List.nil_append]
      exact List.drop_left' hlen₁
    have h1 : chunkVector 1 300 s₁.allEmbedding ≠ blank :=
      chunkVector_mark hr₁ hys (by omega)
    have h2 : chunkVector 1 300 (s₁.allEmbedding.drop 200) ≠ blank := by
      rw [hdrop]
      exact chunkVector_mark (by simp) hys (by decide)
    have hinserted : s₂.inserted.map (·.vector) =
        [chunkVector 1 300 s₁.allEmbedding, chunkVector 1 300 (s₁.allEmbedding.drop 200)] := rfl
    have hmap := List.countP_map (p := fun v => decide (v ≠ blank)) (f := (·.vector))
      (l := s₂.inserted)
    rw [hinserted, List.countP_cons_of_pos (by simpa using h1),
      List.countP_cons_of_pos (by simpa using h2)] at hmap
    exact hmap.symm
  obtain ⟨hp₃, hpre₃⟩ := chunkLoop_fullChunks hins hn 1 _ s₂ rfl hp₂ (by omega)
  obtain ⟨-, hpre₄⟩ := receiveStreamedResults_fullChunks hins hn order _ hp₃
  rw [← hcount]
  refine (hpre₃.trans hpre₄).sublist.countP_le.trans (le_of_eq ?_)
  simp only [List.map_cons, receiveStreamedResults, hfirst, hsecond]

/-- A long prompt of full windows is averaged wrongly in another order. -/
theorem not_ingestsWindows_of_order (hins : ∀ k, env.inserts k = true) {prompt : List Token}
    (hlong : 2048 < prompt.length) (heven : (prompt.length - 300) % 200 = 0) :
    ¬ IngestsWindows env [prompt] := by
  intro h
  obtain ⟨zs, hzs⟩ : ∃ zs, zs = List.replicate (prompt.length - 1) blank := ⟨_, rfl⟩
  have hzsBlank : ∀ e ∈ zs, e = blank := fun e he => List.eq_of_mem_replicate (hzs ▸ he)
  have hzsLen : zs.length = prompt.length - 1 := by rw [hzs, List.length_replicate]
  have heslen : ([1] :: zs).length = prompt.length := by
    rw [List.length_cons]
    omega
  set doc : Document := prompt.zip ([1] :: zs) with hdoc
  have hfst : doc.map Prod.fst = prompt := List.map_fst_zip (by omega)
  have hsnd : doc.map Prod.snd = [1] :: zs := List.map_snd_zip (by omega)
  have hdoclen : doc.length = prompt.length := by rw [← List.length_map Prod.fst, hfst]
  have hsz : ∀ t ∈ doc, t.2.length = 1 := by
    intro t ht
    have : t.2 ∈ [1] :: zs := hsnd ▸ List.mem_map_of_mem ht
    rcases List.mem_cons.1 this with h1 | h1
    · rw [h1]
      rfl
    · rw [hzsBlank _ h1]
      rfl
  obtain ⟨pos, rest, hlow, hle, hpieces⟩ := promptPieces_even ([1] :: zs) (by omega)
    (by rw [heslen]; omega)
  have hfirst : between ([1] :: zs) 0 pos = [1] :: zs.take (pos - 1) := by
    rw [between, List.drop_zero, Nat.sub_zero, List.take_cons (by omega)]
  have hsecond : between ([1] :: zs) pos (pos + 200) = (zs.drop (pos - 1)).take 200 := by
    rw [between, Nat.add_sub_cancel_left, show pos = pos - 1 + 1 by omega, List.drop_succ_cons,
      Nat.add_sub_cancel]
  rw [hfirst, hsecond] at hpieces
  set r₁ := (zs.drop (pos - 1)).take 200
  set ys := zs.take (pos - 1)
  have hprompt : [] ∉ [prompt] := by
    rw [List.mem_singleton]
    rintro rfl
    exact absurd hlong (by decide)
  have hn : (embeddingChunks [prompt]).length ≠ 1 := by
    have := two_le_promptPieces hlong
    simp only [embeddingChunks, List.flatMap_cons, List.flatMap_nil, List.append_nil]
    omega
  have hperm := h 1 [doc] (r₁ :: ([1] :: ys) :: rest) _ (by rw [List.map_singleton, hfst])
    (fun d hd => by rwa [List.mem_singleton.1 hd]) (by
      simp only [List.map_singleton, hsnd, embeddingChunks, List.flatMap_cons, List.flatMap_nil,
        List.append_nil, hpieces]
      exact List.Perm.swap _ _ _) (handleChunking_eq env hprompt _)
  have hcode := secondPieceFirst hins hn prompt
    (fun e (he : e ∈ r₁) => hzsBlank e (List.mem_of_mem_drop (List.mem_of_mem_take he)))
    (fun e (he : e ∈ ys) => hzsBlank e (List.mem_of_mem_take he))
    (by rw [List.length_take, List.length_drop]; omega) (by rw [List.length_take]; omega)
    (by rw [List.length_take]; omega) rest
  have hspec := countP_ragChunks_mark env (by omega) fun t (ht : t ∈ doc.drop 200) => by
    have : t.2 ∈ ([1] :: zs).drop 200 := by
      rw [← hsnd, ← List.map_drop]
      exact List.mem_map_of_mem ht
    rw [List.drop_succ_cons] at this
    exact hzsBlank _ (List.mem_of_mem_drop this)
  rw [hperm.countP_eq, List.flatMap_singleton] at hcode
  omega

end Order

/-- The chunks of the documents are inserted for every order of the results exactly for a request
of one prompt that is one piece and whose last full window does not end at its end. -/
theorem ingestsWindows_iff (hins : ∀ k, env.inserts k = true) {prompts : List (List Token)}
    (hne : prompts ≠ []) (hnil : [] ∉ prompts) :
    IngestsWindows env prompts ↔ ∃ prompt, prompts = [prompt] ∧ OneRaggedPiece prompt := by
  constructor
  · intro h
    obtain ⟨prompt, rest, rfl⟩ := List.exists_cons_of_ne_nil hne
    by_cases hrest : rest = []
    · subst hrest
      refine ⟨prompt, rfl, ?_⟩
      by_contra hcond
      unfold OneRaggedPiece at hcond
      rw [streamSize_eq, chunkSize_eq, stepSize_eq] at hcond
      by_cases hshort : prompt.length ≤ 2048
      · exact not_ingestsWindows_of_even hins hshort (by omega) (by omega) h
      · by_cases heven : (prompt.length - 300) % 200 = 0
        · exact not_ingestsWindows_of_order hins (by omega) heven h
        · refine not_ingestsWindows_of_count hins hnil ?_ (.inr ⟨by omega, heven⟩) h
          have : 2 ≤ (promptPieces prompt).length := two_le_promptPieces (by omega)
          simp only [embeddingChunks, List.flatMap_cons, List.flatMap_nil, List.append_nil]
          omega
    · refine absurd h (not_ingestsWindows_of_count hins hnil ?_ (.inl hrest))
      obtain ⟨q, qs, rfl⟩ := List.exists_cons_of_ne_nil hrest
      have h1 := one_le_promptPieces prompt
      have h2 := one_le_promptPieces q
      simp only [embeddingChunks, List.flatMap_cons, List.length_append]
      omega
  · rintro ⟨prompt, rfl, h⟩
    refine ingestsWindows_of_ragged hins (fun hp => ?_) h
    rw [hp] at hnil
    exact hnil List.mem_cons_self

/-- Every token of a document is in one of its chunks' windows. -/
theorem windows_cover_document {doc : Document} {i : Nat} (hi : i < doc.length) :
    ∃ k < (windows internalRagChunkSize stepSizeForBrutalChunking doc).length,
      k * stepSizeForBrutalChunking ≤ i ∧
        i < k * stepSizeForBrutalChunking + internalRagChunkSize := by
  rw [length_windows]
  exact covered (by decide) (by decide) hi

section Example

/-- A database that takes every entry. -/
def allInserted : IngestEnv where
  detokenize tokens := tokens.map fun t => UInt8.ofNat t.toNat
  inserts _ := true

theorem ingestsWindows_iff_single : IngestsWindows allInserted [[1]] ↔
    ∃ prompt, [[1]] = [prompt] ∧ OneRaggedPiece prompt :=
  ingestsWindows_iff (fun _ => rfl) (by simp) (by simp)

/-- Of two prompts of one token neither is inserted. -/
theorem not_ingestsWindows_two : ¬ IngestsWindows allInserted [[1], [2]] :=
  not_ingestsWindows_of_count (fun _ => rfl) (by simp)
    (by simp [embeddingChunks, promptPieces, idealStreamSize]) (.inl (by simp))

end Example

end LamaServer
