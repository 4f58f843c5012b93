import LamaServer.Proofs.Store

/-!
# Which document a description stands for

`createOrRetrieveDocument` finds a document by the hash of its joined description. The ghost `made`
lists the calls that made the rows of the document table, row by row. Where no two of the joined
descriptions have the same hash, the row a call finds is the one that the first call with the same
joined description made, so what comes back is what the columns kept of that call.
-/

namespace LamaServer

variable {V D : Type} (env : Env V D)

/-- What `createOrRetrieveDocument` is asked for. -/
@[ext]
structure DocumentTuple where
  date : Bytes
  version : Bytes
  contentType : Bytes
  url : Bytes
  length : Int
  deriving DecidableEq

/-- `unique_string_for_hash`. -/
def DocumentTuple.joined (t : DocumentTuple) : Bytes :=
  t.url ++ t.date ++ t.version ++ t.contentType ++ decimal t.length

def DocumentEntry.tuple (e : DocumentEntry) : DocumentTuple :=
  ⟨e.date, e.version, e.contentType, e.url, e.length⟩

/-- A call, with the number that the database reads through the pointer to the length. -/
structure DocumentCall where
  tuple : DocumentTuple
  lengthText : Option Int
  deriving DecidableEq

def DocumentCall.answer (call : DocumentCall) (db : Database V) :
    Except String DocumentEntry × Database V :=
  createOrRetrieveDocument env db call.tuple.date call.tuple.version call.tuple.contentType
    call.tuple.url call.tuple.length call.lengthText

/-- The id of the document a call asks for. -/
def DocumentCall.id (call : DocumentCall) : Bytes := computeSha256HexString env call.tuple.joined

inductive DocumentOp (V : Type) where
  | createOrRetrieve (call : DocumentCall)
  | insertRagEntry (call : EntryCall V)
  | delete (documentId : Bytes)
  /-- `destroySchema` and `createSchema` -/
  | recreate

structure Documents (V : Type) where
  db : Database V := {}
  /-- ghost: the calls that made the rows of the document table -/
  made : List DocumentCall := []

def documentStep (s : Documents V) : DocumentOp V → Documents V
  | .createOrRetrieve call =>
    let db := (call.answer env s.db).2
    { db, made := if db.documents = s.db.documents then s.made else s.made ++ [call] }
  | .insertRagEntry call =>
    { s with db := (insertRagEntry env s.db call.documentIdHash call.embedding call.contents
        call.controllerPublicKey call.recipientPrivateKey).2 }
  | .delete documentId =>
    let r := deleteDocument s.db documentId
    { db := r.2
      made := match r.1 with
        | .ok _ => s.made.filter fun call => !charEq (call.id env) (cStr documentId)
        | .error _ => s.made }
  | .recreate => {}

def DocumentsReachable : Documents V → Prop :=
  Transition.Reachable (· = {}) fun s op s' => documentStep env s op = s'

/-- The columns keep the texts of a call as the given ones. -/
structure KeptAs (call : DocumentCall) (t : DocumentTuple) : Prop where
  date : env.varchar (cStr call.tuple.date) = some t.date
  version : env.varchar (cStr call.tuple.version) = some t.version
  contentType : env.varchar (cStr call.tuple.contentType) = some t.contentType
  url : cStr call.tuple.url = t.url
  length : call.lengthText = some t.length

/-- The columns take the texts of a call. -/
def DocumentCall.Taken (call : DocumentCall) : Prop :=
  ∃ t, KeptAs env call t ∧ -2 ^ 31 ≤ t.length ∧ t.length < 2 ^ 31

/-- Where a row of the store was made for the same joined description, it keeps just what is asked
for now; where there is none the columns take it. -/
def Agrees (s : Documents V) (call : DocumentCall) : Prop :=
  match s.made.find? (·.tuple.joined = call.tuple.joined) with
  | some first => KeptAs env first call.tuple
  | none => call.Taken env

/-- Two calls return what they were asked for, and the same document just where that is the
same. -/
def DocumentIdentity (s : Documents V) (call : DocumentCall) (s' : Documents V)
    (call' : DocumentCall) : Prop :=
  ∃ e e', (call.answer env s.db).1 = .ok e ∧ (call'.answer env s'.db).1 = .ok e' ∧
    e.tuple = call.tuple ∧ e'.tuple = call'.tuple ∧
    (e.documentId = e'.documentId ↔ call.tuple = call'.tuple)

/-! ## The rows and the calls that made them -/

/-- The row that a call makes. -/
def Made (row : DocumentEntry) (call : DocumentCall) : Prop :=
  insertDocument env (call.id env) call.tuple.date call.tuple.version call.tuple.contentType
    call.tuple.url call.lengthText = .ok row

theorem Made.documentId {row : DocumentEntry} {call : DocumentCall} (h : Made env row call) :
    row.documentId = call.id env := by
  have hid := insertDocument_documentId env h
  rw [DocumentCall.id, charN_computeSha256HexString] at hid
  exact (Except.ok.inj hid).symm

/-- What an insertion keeps. -/
theorem made_iff {call : DocumentCall} {row : DocumentEntry} :
    Made env row call ↔ row.documentId = call.id env ∧ KeptAs env call row.tuple ∧
      -2 ^ 31 ≤ row.length ∧ row.length < 2 ^ 31 := by
  constructor
  · intro h
    refine ⟨h.documentId, ?_⟩
    simp only [Made, insertDocument, Except.bind_eq_ok, Except.ofOption_eq_ok, Except.pure_eq_ok,
      int4] at h
    obtain ⟨id, -, date, hdate, version, hversion, ct, hct, n, hn, n', hn', rfl⟩ := h
    split_ifs at hn' with hrange
    obtain rfl := Except.ok.inj hn'
    exact ⟨⟨hdate, hversion, hct, rfl, hn⟩, hrange⟩
  · rintro ⟨hid, ⟨hdate, hversion, hct, hurl, hn⟩, hrange⟩
    simp only [Made, insertDocument, Except.bind_eq_ok, Except.ofOption_eq_ok, Except.pure_eq_ok,
      int4]
    refine ⟨row.documentId, ?_, row.date, hdate, row.version, hversion, row.contentType, hct,
      row.length, hn, row.length, if_pos hrange, ?_⟩
    · rw [hid, DocumentCall.id, charN_computeSha256HexString]
    · rw [hurl]
      rfl

theorem forall₂_filter {α β : Type} {R : α → β → Prop} {p : α → Bool} {q : β → Bool}
    (h : ∀ a b, R a b → p a = q b) : ∀ {as : List α} {bs : List β}, List.Forall₂ R as bs →
      List.Forall₂ R (as.filter p) (bs.filter q)
  | [], [], .nil => .nil
  | a :: as, b :: bs, .cons hab hrest => by
    rw [List.filter_cons, List.filter_cons, h a b hab]
    split_ifs
    · exact .cons hab (forall₂_filter h hrest)
    · exact forall₂_filter h hrest

/-! ## What a call returns -/

/-- A call finds a row, or makes one, or is refused. -/
theorem answer_cases (db : Database V) (call : DocumentCall) :
    (∃ row, db.documents.find? (·.documentId = call.id env) = some row ∧
      call.answer env db = (.ok row, db)) ∨
    db.documents.find? (·.documentId = call.id env) = none ∧
      ((∃ row, Made env row call ∧ call.answer env db =
        (.ok ⟨row.documentId, call.tuple.date, call.tuple.version, call.tuple.contentType,
          call.tuple.url, call.tuple.length⟩, { db with documents := db.documents ++ [row] })) ∨
      (∀ row, ¬ Made env row call) ∧ ∃ e, call.answer env db = (.error e, db)) := by
  cases hfind : db.documents.find? (·.documentId = call.id env) with
  | some row =>
    refine .inl ⟨row, rfl, ?_⟩
    rw [DocumentCall.id, DocumentTuple.joined] at hfind
    simp only [DocumentCall.answer, createOrRetrieveDocument, hfind]
  | none =>
    refine .inr ⟨rfl, ?_⟩
    cases hrow : insertDocument env (call.id env) call.tuple.date call.tuple.version
        call.tuple.contentType call.tuple.url call.lengthText with
    | ok row =>
      refine .inl ⟨row, hrow, ?_⟩
      rw [DocumentCall.id, DocumentTuple.joined] at hfind hrow
      simp only [DocumentCall.answer, createOrRetrieveDocument, hfind, hrow]
    | error e =>
      refine .inr ⟨fun row h => by simp [Made, hrow] at h, e, ?_⟩
      rw [DocumentCall.id, DocumentTuple.joined] at hfind hrow
      simp only [DocumentCall.answer, createOrRetrieveDocument, hfind, hrow]

theorem answer_documentId {db : Database V} {call : DocumentCall} {e : DocumentEntry}
    (h : (call.answer env db).1 = .ok e) : e.documentId = call.id env := by
  rcases answer_cases env db call with ⟨row, hrow, ha⟩ | ⟨-, ⟨row, hrow, ha⟩ | ⟨-, e', ha⟩⟩ <;>
    rw [ha] at h
  · obtain rfl := Except.ok.inj h
    simpa using List.find?_some hrow
  · obtain rfl := Except.ok.inj h
    exact hrow.documentId
  · simp at h

theorem documentStep_made {s : Documents V} (h : List.Forall₂ (Made env) s.db.documents s.made)
    (op : DocumentOp V) :
    List.Forall₂ (Made env) (documentStep env s op).db.documents (documentStep env s op).made := by
  cases op with
  | createOrRetrieve call =>
    simp only [documentStep]
    rcases answer_cases env s.db call with ⟨row, -, ha⟩ | ⟨-, ⟨row, hrow, ha⟩ | ⟨-, e, ha⟩⟩ <;>
      simp only [ha]
    · simpa using h
    · simpa using List.rel_append h (.cons hrow .nil)
    · simpa using h
  | insertRagEntry call =>
    simp only [documentStep, insertRagEntry]
    split <;> exact h
  | delete documentId =>
    simp only [documentStep, deleteDocument]
    split_ifs
    · exact h
    · exact forall₂_filter (fun _ _ hrow => by rw [hrow.documentId]) h
  | recreate => exact .nil

theorem DocumentsReachable.made {s : Documents V} (h : DocumentsReachable env s) :
    List.Forall₂ (Made env) s.db.documents s.made := by
  refine Transition.Reachable.invariant
    (I := fun s : Documents V => List.Forall₂ (Made env) s.db.documents s.made) ?_ ?_ h
  · rintro _ rfl
    exact .nil
  · rintro s op _ hs rfl
    exact documentStep_made env hs op

/-- The row found by a hash is the one that the first call with that joined description made. -/
theorem find_made {x : Bytes} : ∀ {rows : List DocumentEntry} {made : List DocumentCall},
    List.Forall₂ (Made env) rows made →
    NoCollision env (made.map (·.tuple.joined) ++ [x]) →
    Option.Rel (Made env) (rows.find? (·.documentId = computeSha256HexString env x))
      (made.find? (·.tuple.joined = x))
  | [], [], .nil, _ => .none
  | row :: rows, call :: made, .cons hrow hrest, hsha => by
    have hiff : row.documentId = computeSha256HexString env x ↔ call.tuple.joined = x := by
      rw [hrow.documentId]
      refine ⟨fun h => ?_, congrArg _⟩
      exact hsha _ (by simp) _ (by simp) (computeSha256HexString_inj env h)
    have hsha' : NoCollision env (made.map (·.tuple.joined) ++ [x]) :=
      fun c hc c' hc' => hsha c (List.mem_cons_of_mem _ hc) c' (List.mem_cons_of_mem _ hc')
    simp only [List.find?_cons, hiff]
    by_cases hx : call.tuple.joined = x
    · simpa [hx] using hrow
    · simpa [hx] using find_made hrest hsha'

theorem answer_iff_agrees {s : Documents V} (h : DocumentsReachable env s) {call : DocumentCall}
    (hsha : NoCollision env (s.made.map (·.tuple.joined) ++ [call.tuple.joined])) :
    (∃ e, (call.answer env s.db).1 = .ok e ∧ e.tuple = call.tuple) ↔ Agrees env s call := by
  have hrel := find_made env (h.made env) hsha
  rw [show computeSha256HexString env call.tuple.joined = call.id env from rfl] at hrel
  unfold Agrees
  rcases answer_cases env s.db call with ⟨row, hrow, ha⟩ | ⟨hnone, hcase⟩
  · rw [hrow] at hrel
    cases hfirst : s.made.find? (·.tuple.joined = call.tuple.joined) with
    | none => simp [hfirst] at hrel
    | some first =>
      rw [hfirst, Option.rel_some_some] at hrel
      have hkept := ((made_iff env).1 hrel).2.1
      simp only [ha, Except.ok.injEq, exists_eq_left']
      refine ⟨fun htuple => htuple ▸ hkept, fun hcall => ?_⟩
      have hdate := Option.some.inj (hkept.date.symm.trans hcall.date)
      have hversion := Option.some.inj (hkept.version.symm.trans hcall.version)
      have hct := Option.some.inj (hkept.contentType.symm.trans hcall.contentType)
      have hlength := Option.some.inj (hkept.length.symm.trans hcall.length)
      have hurl := hkept.url.symm.trans hcall.url
      exact DocumentTuple.ext hdate hversion hct hurl hlength
  · rw [hnone] at hrel
    cases hfirst : s.made.find? (·.tuple.joined = call.tuple.joined) with
    | some first => simp [hfirst] at hrel
    | none =>
      rcases hcase with ⟨row, hrow, ha⟩ | ⟨hno, e, ha⟩
      · obtain ⟨-, hkept, hrange⟩ := (made_iff env).1 hrow
        simp only [ha, Except.ok.injEq, exists_eq_left']
        exact ⟨fun _ => ⟨row.tuple, hkept, hrange⟩, fun _ => rfl⟩
      · simp only [ha, reduceCtorEq, false_and, exists_false, false_iff]
        rintro ⟨t, hkept, hrange⟩
        exact hno ⟨call.id env, t.date, t.version, t.contentType, t.url, t.length⟩
          ((made_iff env).2 ⟨rfl, hkept, hrange⟩)

/-- In any two stores that can be reached, two calls return what they were asked for, and the same
document just where that is the same, if and only if the rows they find were kept for it and the
two descriptions are not different splits of one text. -/
theorem documentIdentity_iff {s s' : Documents V} (h : DocumentsReachable env s)
    (h' : DocumentsReachable env s') {call call' : DocumentCall}
    (hsha : NoCollision env
      ((s.made ++ s'.made ++ [call, call']).map (·.tuple.joined))) :
    DocumentIdentity env s call s' call' ↔ Agrees env s call ∧ Agrees env s' call' ∧
      (call.tuple.joined = call'.tuple.joined → call.tuple = call'.tuple) := by
  have hof {l : List Bytes} (hl : ∀ c ∈ l,
      c ∈ (s.made ++ s'.made ++ [call, call']).map (·.tuple.joined)) : NoCollision env l :=
    fun c hc c' hc' => hsha c (hl c hc) c' (hl c' hc')
  rw [← answer_iff_agrees env h (hof fun c hc => ?_),
    ← answer_iff_agrees env h' (hof fun c hc => ?_)]
  · have hid : call.id env = call'.id env ↔ call.tuple.joined = call'.tuple.joined :=
      ⟨fun heq => hsha _ (by simp) _ (by simp) (computeSha256HexString_inj env heq),
        congrArg (computeSha256HexString env)⟩
    constructor
    · rintro ⟨e, e', he, he', ht, ht', hiff⟩
      rw [answer_documentId env he, answer_documentId env he', hid] at hiff
      exact ⟨⟨e, he, ht⟩, ⟨e', he', ht'⟩, hiff.1⟩
    · rintro ⟨⟨e, he, ht⟩, ⟨e', he', ht'⟩, hsplit⟩
      refine ⟨e, e', he, he', ht, ht', ?_⟩
      rw [answer_documentId env he, answer_documentId env he', hid]
      exact ⟨hsplit, congrArg _⟩
  all_goals
    simp only [List.map_append, List.map_cons, List.map_nil, List.mem_append, List.mem_cons,
      List.not_mem_nil, or_false] at hc ⊢
    tauto

/-- In every store that can be reached every two calls return what they are asked for, and the same
document just where that is the same. -/
def DocumentIdentityLaw : Prop :=
  ∀ (s s' : Documents V) (call call' : DocumentCall), DocumentsReachable env s →
    DocumentsReachable env s' →
    NoCollision env ((s.made ++ s'.made ++ [call, call']).map (·.tuple.joined)) →
    DocumentIdentity env s call s' call'

section Example

/-- The hashes of `0` and of `10`. -/
def tenEnv : Env (List Int) Int :=
  { exampleEnv with sha256 := fun bytes => if bytes = [49, 48] then
    ⟨[74, 68, 220, 21, 54, 66, 4, 168, 15, 232, 14, 144, 57, 69, 92, 193, 96, 130, 129, 130,
    15, 226, 178, 79, 30, 82, 51, 173, 230, 175, 29, 213], rfl⟩
    else exampleEnv.sha256 bytes }

/-- A document of which the URL and the length are known. -/
def urlCall (url : Bytes) (length : Int) : DocumentCall := ⟨⟨[], [], [], url, length⟩, some length⟩

def urlStore : Documents (List Int) :=
  documentStep tenEnv {} (.createOrRetrieve (urlCall [] 10))

theorem documentsReachable_empty : DocumentsReachable tenEnv {} := ⟨{}, [], rfl, .nil⟩

theorem documentsReachable_urlStore : DocumentsReachable tenEnv urlStore :=
  ⟨{}, _, rfl, .cons rfl .nil⟩

/-- A document is found again. -/
theorem documentIdentity_iff_again :
    DocumentIdentity tenEnv {} (urlCall [] 10) urlStore (urlCall [] 10) := by
  have hsha : NoCollision tenEnv
      ((([] : List DocumentCall) ++ urlStore.made ++ [urlCall [] 10, urlCall [] 10]).map
        (·.tuple.joined)) := by
    have hmem : ∀ c ∈ (([] : List DocumentCall) ++ urlStore.made ++
        [urlCall [] 10, urlCall [] 10]).map (·.tuple.joined), c = [49, 48] := by decide
    intro c hc c' hc' _
    rw [hmem c hc, hmem c' hc']
  refine (documentIdentity_iff tenEnv documentsReachable_empty documentsReachable_urlStore
    hsha).2 ⟨⟨⟨[], [], [], [], 10⟩, ⟨rfl, rfl, rfl, rfl, rfl⟩, by decide, by decide⟩, ?_,
      fun _ => rfl⟩
  show KeptAs tenEnv (urlCall [] 10) _
  exact ⟨rfl, rfl, rfl, rfl, rfl⟩

/-- The empty URL and length 10 read as the URL `1` and length 0. -/
theorem not_documentIdentityLaw : ¬ DocumentIdentityLaw tenEnv := by
  intro hlaw
  have hsha : NoCollision tenEnv
      ((([] : List DocumentCall) ++ urlStore.made ++ [urlCall [] 10, urlCall [49] 0]).map
        (·.tuple.joined)) := by
    have hmem : ∀ c ∈ (([] : List DocumentCall) ++ urlStore.made ++
        [urlCall [] 10, urlCall [49] 0]).map (·.tuple.joined), c = [49, 48] := by decide
    intro c hc c' hc' _
    rw [hmem c hc, hmem c' hc']
  obtain ⟨e, e', he, he', -, -, hiff⟩ := hlaw {} urlStore (urlCall [] 10) (urlCall [49] 0)
    documentsReachable_empty documentsReachable_urlStore hsha
  have hid : (urlCall [] 10).id tenEnv = (urlCall [49] 0).id tenEnv := by decide
  rw [answer_documentId tenEnv he, answer_documentId tenEnv he', hid] at hiff
  exact absurd (hiff.1 rfl) (by decide)

end Example

end LamaServer
