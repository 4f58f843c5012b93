import LamaServer.Lib.Transition
import LamaServer.ModelLoader

/-!
# Uploads bring every byte

A copy in the stream has the event of its buffer behind it, so a buffer whose event was waited for
is not read any more, and what is read into it next does not change what a copy brings. A byte that
the loader is done with is at its place or is brought by a copy in the stream, in every state; when
the events were waited for at the end, the stream has no copies (`uploads_of_run`).
-/

namespace LamaServer

open Transition (Run exec run_of_exec)

variable {T B : Type}

/-! ## The stream -/

/-- Behind each copy is the event of its buffer, but for the buffers that satisfy `p`. -/
def Fenced (p : ℕ → Prop) : List (UploadOp T) → Prop
  | [] => True
  | .tensorSet _ buffer _ _ :: rest => (.eventRecord buffer ∈ rest ∨ p buffer) ∧ Fenced p rest
  | .eventRecord _ :: rest => Fenced p rest

/-- No copy from the buffer is in the stream. -/
def FreeBuffer (stream : List (UploadOp T)) (buffer : ℕ) : Prop :=
  ∀ cur offset size, .tensorSet cur buffer offset size ∉ stream

section Stream

variable {p q : ℕ → Prop} {stream : List (UploadOp T)} {buffer : ℕ} {op : UploadOp T}

theorem Fenced.tail (h : Fenced p (op :: stream)) : Fenced p stream := by
  cases op with
  | tensorSet => exact h.2
  | eventRecord => exact h

theorem Fenced.imp (h : Fenced p stream) (hp : ∀ b, p b → q b) : Fenced q stream := by
  induction stream with
  | nil => exact trivial
  | cons op stream ih =>
    cases op with
    | tensorSet => exact ⟨h.1.imp_right (hp _), ih h.2⟩
    | eventRecord => exact ih h

theorem Fenced.concat_set {cur : T} {offset size : ℕ} (h : Fenced p stream) (hp : ∀ b, p b → q b)
    (hq : q buffer) : Fenced q (stream ++ [.tensorSet cur buffer offset size]) := by
  induction stream with
  | nil => exact ⟨.inr hq, trivial⟩
  | cons op stream ih =>
    cases op with
    | tensorSet => exact ⟨h.1.imp (List.mem_append_left _) (hp _), ih h.2⟩
    | eventRecord => exact ih h

theorem Fenced.concat_record (h : Fenced p stream) (hp : ∀ b, p b → b = buffer ∨ q b) :
    Fenced q (stream ++ [.eventRecord buffer]) := by
  induction stream with
  | nil => exact trivial
  | cons op stream ih =>
    cases op with
    | tensorSet cur b =>
      refine ⟨?_, ih h.2⟩
      rcases h.1 with h | h
      · exact .inl (List.mem_append_left _ h)
      · exact (hp b h).imp_left fun h => by simp [h]
    | eventRecord => exact ih h

/-- A buffer whose event is not in the stream is free. -/
theorem Fenced.free (h : Fenced p stream) (hevent : .eventRecord buffer ∉ stream)
    (hp : ¬ p buffer) : FreeBuffer stream buffer := by
  induction stream with
  | nil => simp [FreeBuffer]
  | cons op stream ih =>
    rw [List.mem_cons, not_or] at hevent
    cases op with
    | tensorSet cur b offset size =>
      intro cur' offset' size' hmem
      rcases List.mem_cons.1 hmem with heq | hmem
      · cases heq
        exact h.1.elim hevent.2 hp
      · exact ih h.2 hevent.2 cur' offset' size' hmem
    | eventRecord event =>
      intro cur' offset' size' hmem
      exact ih h hevent.2 cur' offset' size' (by simpa using hmem)

theorem FreeBuffer.mono {l l' : List (UploadOp T)} {b : ℕ} (h : FreeBuffer l b) (hsub : l' ⊆ l) :
    FreeBuffer l' b := fun cur offset size hmem => h cur offset size (hsub hmem)

theorem all_ne_event : (stream.all fun op => match op with
    | .eventRecord event => decide (event ≠ buffer)
    | _ => true) = true ↔ .eventRecord buffer ∉ stream := by
  rw [List.all_eq_true]
  refine ⟨fun h hmem => by simpa using h _ hmem, fun h op hop => ?_⟩
  cases op with
  | tensorSet => rfl
  | eventRecord event =>
    have : event ≠ buffer := fun heq => h (heq ▸ hop)
    simpa using this

end Stream

namespace UploadJob

variable {job : UploadJob T B} {tensors : List T} {data₀ : T → ℕ → B} {s s' : UploadState T B}

/-- The first tensor is read up to `bytesRead`, and the file is `ahead` bytes behind that. -/
def ReadsHead (job : UploadJob T B) (s : UploadState T B) (ahead : T → ℕ) : Prop :=
  ∃ cur rest, s.todo = cur :: rest ∧ s.bytesRead < (job.tensor cur).nbytes ∧
    s.pos = (job.tensor cur).offs + s.bytesRead + ahead cur

/-- What holds where the loader is. -/
def AtPhase (job : UploadJob T B) (s : UploadState T B) : Prop :=
  match s.phase with
  | .nextTensor => True
  | .loop => ∃ cur rest, s.todo = cur :: rest ∧ s.bytesRead ≤ (job.tensor cur).nbytes ∧
      s.pos = (job.tensor cur).offs + s.bytesRead
  | .synchronize => ReadsHead job s fun _ => 0
  | .readRaw => ReadsHead job s (fun _ => 0) ∧ FreeBuffer s.stream s.bufferIdx
  | .setAsync => ReadsHead job s (job.readIteration · s.bytesRead) ∧
      ∀ cur ∈ s.todo.head?, ∀ j < job.readIteration cur s.bytesRead,
        s.hostPtrs s.bufferIdx j = job.src cur (s.bytesRead + j)
  | .record => ReadsHead job s (job.readIteration · s.bytesRead)
  | .finalSynchronize event => s.todo = [] ∧ event < job.nBuffers ∧
      ∀ b < event, FreeBuffer s.stream b
  | .finished => s.todo = [] ∧ ∀ b < job.nBuffers, FreeBuffer s.stream b

/-- How much of the first tensor is in the stream, or was. -/
def issuedBytes (job : UploadJob T B) (s : UploadState T B) (cur : T) : ℕ :=
  match s.phase with
  | .nextTensor | .finalSynchronize _ | .finished => 0
  | .record => s.bytesRead + job.readIteration cur s.bytesRead
  | _ => s.bytesRead

/-- The byte is in the stream, or was. -/
def Issued (job : UploadJob T B) (tensors : List T) (s : UploadState T B) (cur : T) (x : ℕ) :
    Prop :=
  cur ∈ tensors ∧ x < (job.tensor cur).nbytes ∧
    (cur ∉ s.todo ∨ s.todo.head? = some cur ∧ x < job.issuedBytes s cur)

theorem Issued.trans {cur : T} {x : ℕ} (h : Issued job tensors s cur x) (htodo : s'.todo = s.todo)
    (hlt : s.todo.head? = some cur → x < job.issuedBytes s cur → x < job.issuedBytes s' cur) :
    Issued job tensors s' cur x := by
  obtain ⟨hmem, hx, hout⟩ := h
  rw [← htodo] at hlt hout
  exact ⟨hmem, hx, hout.imp_right fun ⟨hhead, hbytes⟩ => ⟨hhead, hlt hhead hbytes⟩⟩

/-- What holds in every state of an upload. -/
structure Uploading (job : UploadJob T B) (tensors : List T) (data₀ : T → ℕ → B)
    (s : UploadState T B) : Prop where
  buffer : s.bufferIdx < job.nBuffers
  todo : s.todo <:+ tensors
  phase : AtPhase job s
  fenced : Fenced (fun b => s.phase = .record ∧ b = s.bufferIdx) s.stream
  copies : ∀ cur b offset size, .tensorSet cur b offset size ∈ s.stream → b < job.nBuffers ∧
    cur ∈ tensors ∧ offset + size ≤ (job.tensor cur).nbytes ∧
    ∀ j < size, s.hostPtrs b j = job.src cur (offset + j)
  issued : ∀ cur x, Issued job tensors s cur x → s.data cur x = job.src cur x ∨
    ∃ b offset size, .tensorSet cur b offset size ∈ s.stream ∧ offset ≤ x ∧ x < offset + size
  others : ∀ cur x, cur ∉ tensors ∨ (job.tensor cur).nbytes ≤ x → s.data cur x = data₀ cur x

theorem uploading_start (hostPtrs : ℕ → ℕ → B) :
    Uploading job tensors data₀ (start tensors hostPtrs data₀) := by
  refine ⟨job.nBuffers_pos, List.suffix_rfl, trivial, trivial, by simp [start], ?_,
    fun _ _ _ => rfl⟩
  rintro cur x ⟨hmem, -, h | h⟩
  · exact absurd hmem h
  · simp [issuedBytes, start] at h

/-! ## A step of the stream -/

theorem AtPhase.dequeue {stream : List (UploadOp T)} {data : T → ℕ → B} (h : AtPhase job s)
    (hsub : stream ⊆ s.stream) : AtPhase job { s with stream := stream, data := data } := by
  unfold AtPhase at h ⊢
  rcases hphase : s.phase <;> simp only [hphase] at h ⊢
  case readRaw => exact ⟨h.1, h.2.mono hsub⟩
  case finalSynchronize event => exact ⟨h.1, h.2.1, fun b hb => (h.2.2 b hb).mono hsub⟩
  case finished => exact ⟨h.1, fun b hb => (h.2 b hb).mono hsub⟩
  all_goals exact h

theorem Uploading.streamStep [DecidableEq T] (h : Uploading job tensors data₀ s)
    (hs : streamStep s = some s') : Uploading job tensors data₀ s' := by
  obtain ⟨hbuffer, htodo, hphase, hfenced, hcopies, hissued, hothers⟩ := h
  unfold UploadJob.streamStep at hs
  rcases hstream : s.stream with _ | ⟨op, rest⟩ <;> rw [hstream] at hs hfenced hcopies hissued
  · cases hs
  · have hsub : rest ⊆ s.stream := hstream ▸ List.subset_cons_self op rest
    have hcopies' : ∀ cur b offset size, .tensorSet cur b offset size ∈ rest → _ :=
      fun cur b offset size hmem => hcopies cur b offset size (List.mem_cons_of_mem _ hmem)
    rcases op with ⟨cur, buffer, offset, size⟩ | event
    · obtain ⟨-, hmem, hend, hbytes⟩ := hcopies cur buffer offset size List.mem_cons_self
      cases hs
      have hdata : ∀ cur' x, ¬ (cur' = cur ∧ offset ≤ x ∧ x < offset + size) →
          Function.update s.data cur (fun x => if offset ≤ x ∧ x < offset + size then
            s.hostPtrs buffer (x - offset) else s.data cur x) cur' x = s.data cur' x := by
        intro cur' x hin
        by_cases hcur : cur' = cur
        · subst hcur
          rw [Function.update_self, if_neg fun h => hin ⟨rfl, h⟩]
        · rw [Function.update_of_ne hcur]
      refine ⟨hbuffer, htodo, hphase.dequeue hsub, hfenced.tail, hcopies', fun cur' x hx => ?_,
        fun cur' x hx => ?_⟩
      · by_cases hin : cur' = cur ∧ offset ≤ x ∧ x < offset + size
        · obtain ⟨rfl, hle, hlt⟩ := hin
          left
          dsimp only
          rw [Function.update_self, if_pos ⟨hle, hlt⟩, hbytes (x - offset) (by omega)]
          congr 1
          omega
        · dsimp only
          rw [hdata cur' x hin]
          refine (hissued cur' x hx).imp_right fun ⟨b, o, n, hop, hle, hlt⟩ =>
            ⟨b, o, n, ?_, hle, hlt⟩
          refine (List.mem_cons.1 hop).resolve_left fun heq => hin ?_
          cases heq
          exact ⟨rfl, hle, hlt⟩
      · dsimp only
        rw [hdata cur' x, hothers cur' x hx]
        rintro ⟨rfl, -, hlt⟩
        rcases hx with hx | hx
        · exact hx hmem
        · omega
    · cases hs
      refine ⟨hbuffer, htodo, hphase.dequeue hsub, hfenced.tail, hcopies', fun cur x hx => ?_,
        hothers⟩
      refine (hissued cur x hx).imp_right fun ⟨b, o, n, hop, hin⟩ => ⟨b, o, n, ?_, hin⟩
      simpa using hop

/-! ## A step of the loader -/

theorem readIteration_le {cur : T} {bytesRead : ℕ} (h : bytesRead ≤ (job.tensor cur).nbytes) :
    bytesRead + job.readIteration cur bytesRead ≤ (job.tensor cur).nbytes := by
  unfold readIteration
  omega

/-- A step that leaves the stream and the buffers as they are. -/
theorem Uploading.move {phase : UploadPhase} {todo : List T} {bytesRead pos : ℕ}
    (h : Uploading job tensors data₀ s) (hne : s.phase ≠ .record) (htodo : todo <:+ tensors)
    (hphase : AtPhase job
      { s with phase := phase, todo := todo, bytesRead := bytesRead, pos := pos })
    (hissued : ∀ cur x, Issued job tensors
      { s with phase := phase, todo := todo, bytesRead := bytesRead, pos := pos } cur x →
        Issued job tensors s cur x) :
    Uploading job tensors data₀
      { s with phase := phase, todo := todo, bytesRead := bytesRead, pos := pos } where
  buffer := h.buffer
  todo := htodo
  phase := hphase
  fenced := h.fenced.imp fun _ hb => absurd hb.1 hne
  copies := h.copies
  issued cur x hx := h.issued cur x (hissued cur x hx)
  others := h.others

theorem Uploading.hostStep (h : Uploading job tensors data₀ s)
    (hs : job.hostStep s = some s') : Uploading job tensors data₀ s' := by
  obtain ⟨todo, phase, bytesRead, bufferIdx, pos, hostPtrs, stream, data⟩ := s
  have hat := h.phase
  have hcur := h.todo
  dsimp only at hcur
  rcases phase <;> simp only [hostStep, AtPhase] at hs hat
  case nextTensor =>
    rcases todo with _ | ⟨cur, rest⟩ <;> cases hs
    · refine h.move (by simp) hcur ⟨rfl, job.nBuffers_pos, by simp⟩ fun c x hx => ?_
      simpa [Issued] using hx
    · refine h.move (by simp) hcur ⟨cur, rest, rfl, Nat.zero_le _, rfl⟩ fun c x hx => ?_
      simpa [Issued, issuedBytes] using hx
  case loop =>
    obtain ⟨cur, rest, rfl, hle, hpos⟩ := hat
    dsimp only at hs
    split_ifs at hs with hlt <;> cases hs
    · exact h.move (by simp) hcur ⟨cur, rest, rfl, hlt, hpos⟩ fun c x hx => hx
    · refine h.move (by simp) ((List.suffix_cons cur rest).trans hcur) trivial fun c x hx => ?_
      obtain ⟨hmem, hx, hout | ⟨-, hzero⟩⟩ := hx
      · refine ⟨hmem, hx, ?_⟩
        by_cases hc : c = cur
        · subst hc
          exact .inr ⟨rfl, by simp only [issuedBytes]; omega⟩
        · exact .inl (by simpa [hc] using hout)
      · simp [issuedBytes] at hzero
  case synchronize =>
    split_ifs at hs with hall
    cases hs
    refine h.move (by simp) hcur ⟨hat, ?_⟩ fun c x hx => hx
    exact h.fenced.free (all_ne_event.1 hall) fun hb => by simp at hb
  case readRaw =>
    obtain ⟨⟨cur, rest, rfl, hlt, hpos⟩, hfree⟩ := hat
    cases hs
    refine ⟨h.buffer, h.todo, ⟨⟨cur, rest, rfl, hlt, by dsimp only at hpos ⊢; omega⟩, ?_⟩,
      h.fenced.imp fun _ hb => by simp at hb, fun c b o n hop => ?_, h.issued, h.others⟩
    · rintro c ⟨⟩ j hj
      dsimp only at hpos hj ⊢
      rw [Function.update_self, if_pos hj, hpos, src]
      congr 1
      omega
    · obtain ⟨hb, hmem, hend, hbytes⟩ := h.copies c b o n hop
      have hne : b ≠ bufferIdx := by
        rintro rfl
        exact hfree c o n hop
      refine ⟨hb, hmem, hend, fun j hj => ?_⟩
      dsimp only at hbytes ⊢
      rw [Function.update_of_ne hne]
      exact hbytes j hj
  case setAsync =>
    obtain ⟨⟨cur, rest, rfl, hlt, hpos⟩, hbytes⟩ := hat
    cases hs
    have hle : bytesRead + job.readIteration cur bytesRead ≤ (job.tensor cur).nbytes :=
      readIteration_le (Nat.le_of_lt hlt)
    refine ⟨h.buffer, h.todo, ⟨cur, rest, rfl, hlt, hpos⟩,
      h.fenced.concat_set (fun _ hb => by simp at hb) ⟨rfl, rfl⟩, fun c b o n hop => ?_,
      fun c x hx => ?_, h.others⟩
    · rcases List.mem_append.1 hop with hop | hop
      · exact h.copies c b o n hop
      · cases List.mem_singleton.1 hop
        exact ⟨h.buffer, hcur.subset List.mem_cons_self, hle, hbytes cur rfl⟩
    · by_cases hnew : c = cur ∧ bytesRead ≤ x
      · obtain ⟨rfl, hge⟩ := hnew
        refine .inr ⟨bufferIdx, bytesRead, _, List.mem_append_right _ (List.mem_singleton_self _),
          hge, ?_⟩
        rcases hx.2.2 with hout | hout
        · exact absurd List.mem_cons_self hout
        · exact hout.2
      · refine (h.issued c x (hx.trans rfl fun hhead _ => ?_)).imp_right
          fun ⟨b, o, n, hop, hin⟩ => ⟨b, o, n, List.mem_append_left _ hop, hin⟩
        obtain rfl : cur = c := by simpa using hhead
        exact Nat.lt_of_not_le fun hge => hnew ⟨rfl, hge⟩
  case record =>
    obtain ⟨cur, rest, rfl, hlt, hpos⟩ := hat
    cases hs
    refine ⟨Nat.mod_lt _ job.nBuffers_pos, h.todo,
      ⟨cur, rest, rfl, readIteration_le (Nat.le_of_lt hlt), by dsimp only at hpos ⊢; omega⟩,
      h.fenced.concat_record fun b hb => .inl hb.2, fun c b o n hop => ?_, fun c x hx => ?_,
      h.others⟩
    · exact h.copies c b o n (by simpa using hop)
    · refine (h.issued c x (hx.trans rfl fun hhead hlt => ?_)).imp_right
        fun ⟨b, o, n, hop, hin⟩ => ⟨b, o, n, List.mem_append_left _ hop, hin⟩
      obtain rfl : cur = c := by simpa using hhead
      exact hlt
  case finalSynchronize event =>
    obtain ⟨htodo, hevent, hfree⟩ := hat
    split_ifs at hs with hall hmore <;> cases hs
    all_goals
      have hthis : FreeBuffer stream event :=
        h.fenced.free (all_ne_event.1 hall) fun hb => by simp at hb
      have hbelow : ∀ b < event + 1, FreeBuffer stream b := fun b hb =>
        (Nat.lt_succ_iff_lt_or_eq.1 hb).elim (hfree b) fun heq => heq ▸ hthis
    · refine h.move (by simp) hcur ⟨htodo, hmore, hbelow⟩ fun c x hx => ?_
      simpa [Issued, issuedBytes] using hx
    · refine h.move (by simp) hcur ⟨htodo, fun b hb => hbelow b (by omega)⟩ fun c x hx => ?_
      simpa [Issued, issuedBytes] using hx
  case finished => cases hs

theorem Uploading.step [DecidableEq T] {turn : Turn} (h : Uploading job tensors data₀ s)
    (hs : job.step s turn = some s') : Uploading job tensors data₀ s' := by
  cases turn with
  | loader => exact h.hostStep hs
  | stream => exact h.streamStep hs

/-! ## The loader and the stream get done -/

/-- How many steps are left, at most. -/
def weight (job : UploadJob T B) (s : UploadState T B) : ℕ :=
  let left := (s.todo.map fun cur => 10 * ((job.tensor cur).nbytes + 1)).sum + job.nBuffers
  s.stream.length + match s.phase with
    | .nextTensor => left + 10
    | .loop => left - 10 * s.bytesRead + 9
    | .synchronize => left - 10 * s.bytesRead + 8
    | .readRaw => left - 10 * s.bytesRead + 7
    | .setAsync => left - 10 * s.bytesRead + 6
    | .record => left - 10 * s.bytesRead + 4
    | .finalSynchronize event => job.nBuffers - event
    | .finished => 0

theorem weight_streamStep [DecidableEq T] (hs : UploadJob.streamStep s = some s') :
    job.weight s' < job.weight s := by
  unfold UploadJob.streamStep at hs
  rcases hstream : s.stream with _ | ⟨_ | _, rest⟩ <;> rw [hstream] at hs <;> cases hs <;>
    · simp only [weight, hstream, List.length_cons]
      omega

theorem weight_hostStep (hat : AtPhase job s) (hs : job.hostStep s = some s') :
    job.weight s' < job.weight s := by
  obtain ⟨todo, phase, bytesRead, bufferIdx, pos, hostPtrs, stream, data⟩ := s
  rcases phase <;> simp only [UploadJob.hostStep, AtPhase, ReadsHead] at hs hat
  case nextTensor =>
    rcases todo with _ | ⟨cur, rest⟩ <;> cases hs <;> simp [weight]
  case loop =>
    obtain ⟨cur, rest, rfl, hle, -⟩ := hat
    dsimp only at hs
    split_ifs at hs <;> cases hs <;> simp only [weight, List.map_cons, List.sum_cons] <;> omega
  case synchronize =>
    split_ifs at hs
    cases hs
    simp [weight]
  case readRaw =>
    obtain ⟨⟨cur, rest, rfl, -⟩, -⟩ := hat
    cases hs
    simp [weight]
  case setAsync =>
    obtain ⟨⟨cur, rest, rfl, -⟩, -⟩ := hat
    cases hs
    simp only [weight, List.length_append, List.length_singleton]
    omega
  case record =>
    obtain ⟨cur, rest, rfl, hlt, -⟩ := hat
    cases hs
    -- a chunk has a byte at least
    have hpos : 0 < job.readIteration cur bytesRead :=
      Nat.lt_min.2 ⟨job.bufferSize_pos, Nat.sub_pos_of_lt hlt⟩
    have hle : bytesRead + job.readIteration cur bytesRead ≤ (job.tensor cur).nbytes :=
      readIteration_le (Nat.le_of_lt hlt)
    simp only [weight, List.length_append, List.length_singleton, List.map_cons, List.sum_cons]
    omega
  case finalSynchronize event =>
    obtain ⟨-, hevent, -⟩ := hat
    split_ifs at hs <;> cases hs <;> simp only [weight] <;> omega
  case finished => cases hs

theorem Uploading.weight_lt [DecidableEq T] {turn : Turn} (h : Uploading job tensors data₀ s)
    (hs : job.step s turn = some s') : job.weight s' < job.weight s := by
  cases turn with
  | loader => exact weight_hostStep h.phase hs
  | stream => exact weight_streamStep hs

/-- Where the loader waits, the stream has something to do. -/
theorem Uploading.exists_step [DecidableEq T] (h : Uploading job tensors data₀ s)
    (hne : s.phase ≠ .finished) : ∃ turn s', job.step s turn = some s' := by
  by_cases hempty : s.stream = []
  · refine ⟨.loader, Option.ne_none_iff_exists'.1 ?_⟩
    have hat := h.phase
    obtain ⟨todo, phase, bytesRead, bufferIdx, pos, hostPtrs, stream, data⟩ := s
    cases hempty
    rcases phase <;> simp only [UploadJob.step, UploadJob.hostStep, AtPhase, ReadsHead] at hat ⊢
    case nextTensor => cases todo <;> simp
    case loop =>
      obtain ⟨cur, rest, rfl, -⟩ := hat
      dsimp only
      split_ifs <;> simp
    case finished => exact absurd rfl hne
    case synchronize | finalSynchronize => simp
    case record =>
      obtain ⟨cur, rest, rfl, -⟩ := hat
      simp
    case readRaw | setAsync =>
      obtain ⟨⟨cur, rest, rfl, -⟩, -⟩ := hat
      simp
  · obtain ⟨op, rest, hstream⟩ := List.exists_cons_of_ne_nil hempty
    refine ⟨.stream, ?_⟩
    simp only [UploadJob.step, UploadJob.streamStep, hstream]
    cases op <;> simp

/-- What is in memory when the events were waited for. -/
theorem Uploading.data_of_finished (h : Uploading job tensors data₀ s) (hfin : s.phase = .finished)
    (cur : T) (x : ℕ) : (cur ∈ tensors ∧ x < (job.tensor cur).nbytes →
      s.data cur x = job.src cur x) ∧
    (¬ (cur ∈ tensors ∧ x < (job.tensor cur).nbytes) → s.data cur x = data₀ cur x) := by
  have hat := h.phase
  simp only [AtPhase, hfin] at hat
  refine ⟨fun ⟨hmem, hx⟩ => ?_, fun hout => h.others cur x (by
    rcases Classical.em (cur ∈ tensors) with hmem | hmem
    · exact .inr (Nat.le_of_not_lt fun hx => hout ⟨hmem, hx⟩)
    · exact .inl hmem)⟩
  refine (h.issued cur x ⟨hmem, hx, .inl (by simp [hat.1])⟩).resolve_right ?_
  rintro ⟨b, offset, size, hop, -⟩
  exact hat.2 b (h.copies cur b offset size hop).1 cur offset size hop

/-- In whatever order the loader and the stream take turns, they stop after a number of steps, and
not before the loader is finished; then each tensor has its bytes, and nothing else was written. -/
theorem uploads_of_run [DecidableEq T] {hostPtrs : ℕ → ℕ → B} {turns : List Turn}
    (h : Run (fun s turn s' => job.step s turn = some s') (start tensors hostPtrs data₀) turns s) :
    turns.length ≤
      (tensors.map fun cur => 10 * ((job.tensor cur).nbytes + 1)).sum + job.nBuffers + 10 ∧
    (s.phase ≠ .finished → ∃ turn s', job.step s turn = some s') ∧
    (s.phase = .finished → ∀ cur x, (cur ∈ tensors ∧ x < (job.tensor cur).nbytes →
        s.data cur x = job.src cur x) ∧
      (¬ (cur ∈ tensors ∧ x < (job.tensor cur).nbytes) → s.data cur x = data₀ cur x)) := by
  have hup : Uploading job tensors data₀ s :=
    h.invariant (fun _ _ _ hup hs => hup.step hs) (uploading_start hostPtrs)
  refine ⟨?_, hup.exists_step, fun hfin => hup.data_of_finished hfin⟩
  have hstart : Uploading job tensors data₀ (start tensors hostPtrs data₀) :=
    uploading_start hostPtrs
  have hlen := h.length_le (fun _ _ _ hup hs => ⟨hup.step hs, hup.weight_lt hs⟩) hstart
  simp only [weight, start, List.length_nil] at hlen
  omega

/-- Three bytes and one byte, for two buffers of two bytes. -/
def pairJob : UploadJob Bool ℕ :=
  ⟨2, 2, Nat.two_pos, Nat.two_pos, fun cur => bif cur then ⟨0, 3, 1⟩ else ⟨1, 0, 3⟩,
    fun idx x => 10 * idx + x⟩

/-- The third chunk waits for the first. -/
theorem uploads_of_run_pair :
    ∃ turns s, Run (fun s turn s' => pairJob.step s turn = some s')
      (start [false, true] (fun _ _ => 0) fun _ _ => 0) turns s ∧
      s.phase = .finished ∧ ∀ x < 3, s.data false x = 10 + x := by
  obtain ⟨s, hexec, hfin⟩ : ∃ s, exec pairJob.step
      (start [false, true] (fun _ _ => 0) fun _ _ => 0)
      ([0, 0, 0, 0, 0, 0, 1, 0, 0, 0, 1, 0, 0, 0, 1, 0, 0, 0, 1, 0, 0, 0, 1, 0, 0, 1, 0, 0].map
        fun turn => bif turn == 0 then .loader else .stream) = some s ∧ s.phase = .finished := by
    refine ⟨_, rfl, ?_⟩
    rfl
  have hrun := run_of_exec hexec
  refine ⟨_, s, hrun, hfin, fun x hx => ?_⟩
  rw [((uploads_of_run hrun).2.2 hfin false x).1 ⟨by simp, hx⟩]
  simp [src, pairJob]

end UploadJob

end LamaServer
