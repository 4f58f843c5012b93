import LamaServer.Lib.Transition
import LamaServer.Store
import Mathlib.Data.List.TakeWhile

/-!
# What was stored is what is found

A history is a run of calls to `createOrRetrieveDocument` and `insertRagEntry`. The entry table
lists the calls that succeeded, each entry with the hash of its contents; the content table has one
row for each hash, and where no two of the contents have the same hash that row holds the contents.
So the join makes one row of each entry, and `ORDER BY` and a `LIMIT` that is large enough only
permute them.
-/

namespace LamaServer

variable {V D : Type} (env : Env V D)

/-- A call of `insertRagEntry`. -/
structure EntryCall (V : Type) where
  documentIdHash : Bytes
  embedding : V
  contents : Bytes
  controllerPublicKey : Ecc256PublicKey
  recipientPrivateKey : Ecc256PrivateKey

inductive StoreCall (V : Type) where
  | createOrRetrieveDocument (date version contentType url : Bytes) (length : Int)
      (lengthText : Option Int)
  | insertRagEntry (call : EntryCall V)

structure Store (V : Type) where
  db : Database V := {}
  /-- the calls of `insertRagEntry` that succeeded -/
  calls : List (EntryCall V) := []
  /-- the contents of all calls of `insertRagEntry` -/
  offered : List Bytes := []

def storeCall (s : Store V) : StoreCall V → Store V
  | .createOrRetrieveDocument date version contentType url length lengthText =>
    { s with db :=
        (createOrRetrieveDocument env s.db date version contentType url length lengthText).2 }
  | .insertRagEntry call =>
    let r := insertRagEntry env s.db call.documentIdHash call.embedding call.contents
      call.controllerPublicKey call.recipientPrivateKey
    { db := r.2
      calls := match r.1 with
        | .ok _ => s.calls ++ [call]
        | .error _ => s.calls
      offered := s.offered ++ [call.contents] }

/-- The histories of calls. -/
def History : Store V → List (StoreCall V) → Store V → Prop :=
  Transition.Run fun s call s' => storeCall env s call = s'

/-- The entry that a call of `insertRagEntry` makes. -/
structure EntryOf (e : RagRow V) (call : EntryCall V) : Prop where
  documentId : charN 64 (cStr call.documentIdHash) = .ok e.documentId
  hash : e.hash = computeSha256HexString env call.contents
  controller : e.controllerPublicKey = bytesToHex call.controllerPublicKey.toList
  recipient : e.encryptionPublicKey =
    bytesToHex (env.computePublicKey call.recipientPrivateKey).toList

/-- The row of the content table for some contents. -/
def storedContent (contents : Bytes) : ContentRow :=
  contentRow (computeSha256HexString env contents) (noEncryption contents)

structure StoreInv (s : Store V) : Prop where
  documents_nodup : (s.db.documents.map (·.documentId)).Nodup
  documents_hash : ∀ d ∈ s.db.documents, ∃ data, d.documentId = computeSha256HexString env data
  contents_nodup : (s.db.contents.map (·.hash)).Nodup
  contents_of : ∀ row ∈ s.db.contents, ∃ c ∈ s.offered, row = storedContent env c
  entries_of : List.Forall₂ (EntryOf env) s.db.entries s.calls
  entries_document : ∀ e ∈ s.db.entries, ∃ d ∈ s.db.documents, e.documentId = d.documentId
  entries_content : ∀ e ∈ s.db.entries, ∃ row ∈ s.db.contents, e.hash = row.hash
  calls_offered : ∀ call ∈ s.calls, call.contents ∈ s.offered

/-- No two of the contents have the same hash. -/
def NoCollision (offered : List Bytes) : Prop :=
  ∀ c ∈ offered, ∀ c' ∈ offered, env.sha256 c = env.sha256 c' → c = c'

/-! ## Columns -/

theorem cStr_eq {s : Bytes} (h : ∀ c ∈ s, c ≠ 0) : cStr s = s := by
  unfold cStr
  rw [List.takeWhile_eq_self_iff]
  exact fun c hc => by simpa using h c hc

theorem charN_eq {n : Nat} {s : Bytes} (h : s.length = n) : charN n s = .ok s := by
  unfold charN
  rw [if_pos h.le, h, Nat.sub_self, List.replicate_zero, List.append_nil]

/-- A hash fills its column. -/
theorem charN_computeSha256HexString (data : Bytes) :
    charN 64 (cStr (computeSha256HexString env data)) = .ok (computeSha256HexString env data) := by
  unfold computeSha256HexString
  rw [cStr_eq fun c hc => (mem_bytesToHex hc).1]
  exact charN_eq (by rw [length_bytesToHex, List.Vector.toList_length])

theorem computeSha256HexString_inj {c c' : Bytes}
    (h : computeSha256HexString env c = computeSha256HexString env c') :
    env.sha256 c = env.sha256 c' :=
  List.Vector.toList_injective (bytesToHex_inj h)

/-- A column of digits reads as the array it was written from. -/
theorem hexToArray_bytesToHex {n : Nat} (v : List.Vector UInt8 n) :
    hexToArray env n (bytesToHex v.toList) = .ok v := by
  rw [hexToArray, Except.bind_eq_ok]
  exact ⟨v.toList, hexToBytes_bytesToHex _, congrArg Except.ok (dif_pos v.toList_length)⟩

/-- The bytes of a `BYTEA` column are read back from its text. -/
theorem hexToBytes_byteaText (bytes : Bytes) :
    hexToBytes (if [92, 120].isPrefixOf (byteaText (if bytes = [] then none else some bytes)) then
      (byteaText (if bytes = [] then none else some bytes)).drop 2
      else byteaText (if bytes = [] then none else some bytes)) = .ok bytes := by
  by_cases h : bytes = []
  · subst h
    rfl
  · simp only [if_neg h, byteaText, List.isPrefixOf, beq_self_eq_true, Bool.and_true, if_true,
      List.drop_succ_cons, List.drop_zero, hexToBytes_bytesToHex]

/-! ## The invariant -/

theorem storeInv_empty : StoreInv env ({} : Store V) where
  documents_nodup := List.nodup_nil
  documents_hash d h := absurd h (by simp)
  contents_nodup := List.nodup_nil
  contents_of row h := absurd h (by simp)
  entries_of := .nil
  entries_document e h := absurd h (by simp)
  entries_content e h := absurd h (by simp)
  calls_offered call h := absurd h (by simp)

theorem insertDocument_documentId {documentId date version contentType url : Bytes}
    {lengthText : Option Int} {row : DocumentEntry}
    (h : insertDocument env documentId date version contentType url lengthText = .ok row) :
    charN 64 (cStr documentId) = .ok row.documentId := by
  simp only [insertDocument, Except.bind_eq_ok, Except.pure_eq_ok] at h
  obtain ⟨id, hid, -, -, -, -, -, -, -, -, -, -, rfl⟩ := h
  exact hid

theorem ragRow_spec {documents : List DocumentEntry} {documentIdHash : Bytes} {embedding : V}
    {contentHash controller recipient : Bytes} {length : Nat} {row : RagRow V}
    (h : ragRow env documents documentIdHash embedding contentHash length controller recipient =
      .ok row) :
    charN 64 (cStr documentIdHash) = .ok row.documentId ∧ row.hash = contentHash ∧
      row.controllerPublicKey = controller ∧ row.encryptionPublicKey = recipient ∧
      ∃ d ∈ documents, row.documentId = d.documentId := by
  simp only [ragRow, Except.bind_eq_ok] at h
  obtain ⟨id, hid, _, -, _, -, h⟩ := h
  split_ifs at h with hfk
  · simp only [Except.pure_eq_ok] at h
    subst h
    simp only [not_forall, not_not] at hfk
    obtain ⟨d, hd, heq⟩ := hfk
    exact ⟨hid, rfl, rfl, rfl, d, hd, heq.symm⟩

/-- The content table after an insertion has one row for each hash, the inserted row's too. -/
theorem insertContent_spec {contents : List ContentRow} (row : ContentRow)
    (h : (contents.map (·.hash)).Nodup) :
    ((insertContent contents row).map (·.hash)).Nodup ∧
      (∀ r ∈ contents, r ∈ insertContent contents row) ∧
      (∀ r ∈ insertContent contents row, r ∈ contents ∨ r = row) ∧
      ∃ r ∈ insertContent contents row, row.hash = r.hash := by
  unfold insertContent
  split_ifs with hex
  · obtain ⟨r, hr, heq⟩ := hex
    exact ⟨h, fun r hr => hr, fun r hr => .inl hr, r, hr, heq.symm⟩
  · refine ⟨?_, fun r hr => List.mem_append_left _ hr, fun r hr => ?_,
      row, List.mem_append_right _ (List.mem_singleton_self _), rfl⟩
    · rw [List.map_append, List.nodup_append]
      refine ⟨h, List.nodup_singleton _, fun x hx y hy hxy => hex ?_⟩
      obtain ⟨r, hr, rfl⟩ := List.mem_map.1 hx
      rw [List.map_singleton, List.mem_singleton] at hy
      exact ⟨r, hr, hxy.trans hy⟩
    · rcases List.mem_append.1 hr with hr | hr
      · exact .inl hr
      · exact .inr (List.mem_singleton.1 hr)

theorem storeInv_createOrRetrieveDocument {s : Store V} (h : StoreInv env s)
    (date version contentType url : Bytes) (length : Int) (lengthText : Option Int) :
    StoreInv env (storeCall env s
      (.createOrRetrieveDocument date version contentType url length lengthText)) := by
  simp only [storeCall, createOrRetrieveDocument]
  split
  · exact h
  rename_i hnone
  split
  · exact h
  rename_i row hrow
  have hid := insertDocument_documentId env hrow
  rw [charN_computeSha256HexString] at hid
  refine { h with documents_nodup := ?_, documents_hash := fun d hd => ?_
                  entries_document := fun e he => ?_ }
  · rw [List.map_append, List.nodup_append]
    refine ⟨h.documents_nodup, List.nodup_singleton _, fun x hx y hy hxy => ?_⟩
    obtain ⟨d, hd, rfl⟩ := List.mem_map.1 hx
    rw [List.map_singleton, List.mem_singleton] at hy
    have hne := List.find?_eq_none.1 hnone d hd
    rw [Except.ok.inj hid, ← hy, ← hxy] at hne
    simp at hne
  · rcases List.mem_append.1 hd with hd | hd
    · exact h.documents_hash d hd
    · rw [List.mem_singleton.1 hd]
      exact ⟨_, (Except.ok.inj hid).symm⟩
  · obtain ⟨d, hd, heq⟩ := h.entries_document e he
    exact ⟨d, List.mem_append_left _ hd, heq⟩

/-- Contents may be offered in vain. -/
theorem StoreInv.offer {s : Store V} (h : StoreInv env s) (contents : Bytes) :
    StoreInv env { s with offered := s.offered ++ [contents] } :=
  { h with
    contents_of := fun row hr => by
      obtain ⟨c, hc, heq⟩ := h.contents_of row hr
      exact ⟨c, List.mem_append_left _ hc, heq⟩
    calls_offered := fun c hc => List.mem_append_left _ (h.calls_offered c hc) }

/-- The content row of a call may be there without its entry. -/
theorem storeInv_insertContent {s : Store V} (h : StoreInv env s) (contents : Bytes) :
    StoreInv env { s with
      db := { s.db with contents := insertContent s.db.contents (storedContent env contents) }
      offered := s.offered ++ [contents] } := by
  obtain ⟨hnd, hold, hnew, -⟩ := insertContent_spec (storedContent env contents) h.contents_nodup
  have h' := h.offer env contents
  refine { h' with
    contents_nodup := hnd
    contents_of := fun row hr => ?_
    entries_content := fun e he => ?_ }
  · rcases hnew row hr with hr | rfl
    · exact h'.contents_of row hr
    · exact ⟨contents, List.mem_append_right _ (List.mem_singleton_self _), rfl⟩
  · obtain ⟨row, hr, heq⟩ := h.entries_content e he
    exact ⟨row, hold row hr, heq⟩

theorem storeInv_insertRagEntry {s : Store V} (h : StoreInv env s) (call : EntryCall V) :
    StoreInv env (storeCall env s (.insertRagEntry call)) := by
  have h' := storeInv_insertContent env h call.contents
  obtain ⟨-, -, -, hrow⟩ :=
    insertContent_spec (storedContent env call.contents) h.contents_nodup
  simp only [storeCall, insertRagEntry]
  split
  · exact h'
  rename_i row hr
  obtain ⟨hid, hhash, hcontroller, hrecipient, hfk⟩ := ragRow_spec env hr
  exact { h' with
    entries_of := List.rel_append h.entries_of
      (.cons ⟨hid, hhash, hcontroller, hrecipient⟩ .nil)
    entries_document := fun e he => by
      rcases List.mem_append.1 he with he | he
      · exact h.entries_document e he
      · rw [List.mem_singleton.1 he]
        exact hfk
    entries_content := fun e he => by
      rcases List.mem_append.1 he with he | he
      · exact h'.entries_content e he
      · rw [List.mem_singleton.1 he, hhash]
        exact hrow
    calls_offered := fun c hc => by
      rcases List.mem_append.1 hc with hc | hc
      · exact h'.calls_offered c hc
      · rw [List.mem_singleton.1 hc]
        exact List.mem_append_right _ (List.mem_singleton_self _) }

theorem history_inv {calls : List (StoreCall V)} {s : Store V} (h : History env {} calls s) :
    StoreInv env s :=
  h.invariant (I := StoreInv env) (fun s call s' hs hstep => by
    subst hstep
    cases call with
    | createOrRetrieveDocument => exact storeInv_createOrRetrieveDocument env hs ..
    | insertRagEntry call => exact storeInv_insertRagEntry env hs call) (storeInv_empty env)

/-- The document ids `createOrRetrieveDocument` returns are hashes. -/
theorem createOrRetrieveDocument_documentId {s : Store V} (h : StoreInv env s)
    {date version contentType url : Bytes} {length : Int} {lengthText : Option Int}
    {entry : DocumentEntry} (hentry : (createOrRetrieveDocument env s.db date version contentType
      url length lengthText).1 = .ok entry) :
    ∃ data, entry.documentId = computeSha256HexString env data := by
  unfold createOrRetrieveDocument at hentry
  dsimp only at hentry
  split at hentry
  · rename_i row hrow
    obtain rfl := Except.ok.inj hentry
    exact h.documents_hash row (List.mem_of_find?_eq_some hrow)
  split at hentry
  · exact absurd hentry (by simp)
  · rename_i row hrow
    obtain rfl := Except.ok.inj hentry
    have hid := insertDocument_documentId env hrow
    rw [charN_computeSha256HexString] at hid
    exact ⟨_, (Except.ok.inj hid).symm⟩

/-! ## The search -/

/-- The one row of a table with a given key. -/
theorem filter_key_eq {α β : Type} [DecidableEq β] {key : α → β} {x : α} :
    ∀ {l : List α}, (l.map key).Nodup → x ∈ l → l.filter (key x = key ·) = [x]
  | a :: l, hnd, hx => by
    rw [List.map_cons, List.nodup_cons] at hnd
    rcases List.mem_cons.1 hx with rfl | hx
    · rw [List.filter_cons_of_pos (by simp), List.filter_eq_nil_iff.2]
      intro b hb heq
      rw [decide_eq_true_eq] at heq
      exact hnd.1 (heq ▸ List.mem_map_of_mem hb)
    · rw [List.filter_cons_of_neg, filter_key_eq hnd.2 hx]
      intro heq
      rw [decide_eq_true_eq] at heq
      exact hnd.1 (heq ▸ List.mem_map_of_mem hx)

/-- A row of the join is an entry that a call made, with the contents of the call. -/
def JoinedOf (row : RagRow V × DocumentEntry × ContentRow) (call : EntryCall V) : Prop :=
  EntryOf env row.1 call ∧ row.2.2 = storedContent env call.contents

theorem content_of_hash {s : Store V} (h : StoreInv env s) (hsha : NoCollision env s.offered)
    {e : RagRow V} {call : EntryCall V} (he : e ∈ s.db.entries) (hcall : call ∈ s.calls)
    (hof : EntryOf env e call) : storedContent env call.contents ∈ s.db.contents ∧
      e.hash = (storedContent env call.contents).hash := by
  obtain ⟨row, hrow, hhash⟩ := h.entries_content e he
  obtain ⟨c, hc, rfl⟩ := h.contents_of row hrow
  have heq : call.contents = c := by
    refine hsha _ (h.calls_offered call hcall) _ hc (computeSha256HexString_inj env ?_)
    rw [← hof.hash, hhash]
    rfl
  rw [heq]
  exact ⟨hrow, hhash⟩

/-- The join makes one row of each entry. -/
theorem joinedRows_forall₂ {s : Store V} (h : StoreInv env s) (hsha : NoCollision env s.offered) :
    List.Forall₂ (JoinedOf env) (joinedRows s.db) s.calls := by
  have key : ∀ {entries : List (RagRow V)} {calls : List (EntryCall V)},
      List.Forall₂ (EntryOf env) entries calls → (∀ e ∈ entries, e ∈ s.db.entries) →
      (∀ call ∈ calls, call ∈ s.calls) →
      List.Forall₂ (JoinedOf env) (entries.flatMap fun r =>
        (s.db.documents.filter (r.documentId = ·.documentId)).flatMap fun d =>
          (s.db.contents.filter (r.hash = ·.hash)).map fun ec => (r, d, ec)) calls := by
    intro entries calls hof
    induction hof with
    | nil => exact fun _ _ => .nil
    | @cons e call entries calls he hrest ih =>
      intro hentries hcalls
      have hmem := hentries e List.mem_cons_self
      obtain ⟨d, hd, hdoc⟩ := h.entries_document e hmem
      obtain ⟨hc, hhash⟩ :=
        content_of_hash env h hsha hmem (hcalls call List.mem_cons_self) he
      rw [List.flatMap_cons, hdoc, filter_key_eq h.documents_nodup hd, hhash,
        filter_key_eq h.contents_nodup hc]
      exact .cons ⟨he, rfl⟩ (ih (fun e he => hentries e (List.mem_cons_of_mem _ he))
        fun call hcall => hcalls call (List.mem_cons_of_mem _ hcall))
  exact key h.entries_of (fun _ he => he) fun _ hcall => hcall

/-- What a row of the search says of a call: its document as the `CHAR(64)` column keeps it, which
is the document of the call where that is a hash, its keys and its contents. -/
structure Carries (row : NearestResult V D) (call : EntryCall V) : Prop where
  documentId : charN 64 (cStr call.documentIdHash) = .ok row.documentId
  documentId_hash : ∀ data, call.documentIdHash = computeSha256HexString env data →
    row.documentId = call.documentIdHash
  controller : row.controllerPublicKey = call.controllerPublicKey
  recipient : row.encryptionPublicKey = env.computePublicKey call.recipientPrivateKey
  content : recoverContent env call.recipientPrivateKey row = call.contents

theorem readRow_joinedOf (query : V) {row : RagRow V × DocumentEntry × ContentRow}
    {call : EntryCall V} (h : JoinedOf env row call) :
    ∃ r, readRow env query row = .ok r ∧ Carries env r call := by
  obtain ⟨e, d, ec⟩ := row
  obtain ⟨he, hec⟩ := h
  obtain rfl : ec = storedContent env call.contents := hec
  refine ⟨{
    documentId := e.documentId, embedding := e.embedding, hash := e.hash, offset := e.loffset
    length := e.length, controllerPublicKey := call.controllerPublicKey
    encryptionPublicKey := env.computePublicKey call.recipientPrivateKey
    docDate := d.date, docVersion := d.version, docContentType := d.contentType, docUrl := d.url
    docLength := d.length, encryptedContent := call.contents, tag := zeroBytes 16
    nonce := zeroBytes 12, ephemeralPublicKey := zeroBytes 33
    distance := env.distance e.embedding query }, ?_, he.documentId, ?_, rfl, rfl, ?_⟩
  · have hcontroller := he.controller
    have hrecipient := he.recipient
    dsimp only at hcontroller hrecipient
    simp only [readRow, hcontroller, hrecipient, storedContent, contentRow, noEncryption,
      hexToArray_bytesToHex, Except.bind_eq_ok]
    exact ⟨_, rfl, _, rfl, _, hexToBytes_byteaText call.contents, _, rfl, _, rfl, _, rfl, rfl⟩
  · intro data hdata
    have hid := he.documentId
    rw [hdata, charN_computeSha256HexString] at hid
    rw [hdata]
    exact (Except.ok.inj hid).symm
  · exact if_pos rfl

theorem readRows_joinedOf (query : V) {rows : List (RagRow V × DocumentEntry × ContentRow)}
    {calls : List (EntryCall V)} (h : List.Forall₂ (JoinedOf env) rows calls) :
    ∃ results, rows.mapM (readRow env query) = .ok results ∧
      List.Forall₂ (Carries env) results calls := by
  simp only [Except.mapM_eq_ok]
  induction h with
  | nil => exact ⟨[], .nil, .nil⟩
  | cons hrow _ ih =>
    obtain ⟨results, hresults, hcarries⟩ := ih
    obtain ⟨r, hr, hc⟩ := readRow_joinedOf env query hrow
    exact ⟨r :: results, .cons hr hresults, .cons hc hcarries⟩

/-- A limit that is large enough leaves one row for each call. -/
theorem searchNearest_carries {s : Store V} (h : StoreInv env s)
    (hsha : NoCollision env s.offered) {q query : V} {n : Int} (hq : env.vector q = some query)
    (hn : (s.calls.length : Int) ≤ n) :
    ∃ rows calls, searchNearest env s.db q n = .ok rows ∧ calls.Perm s.calls ∧
      List.Forall₂ (Carries env) rows calls := by
  have hjoin := joinedRows_forall₂ env h hsha
  let sorted := (joinedRows s.db).mergeSort fun a b =>
    env.distanceLe (env.distance a.1.embedding query) (env.distance b.1.embedding query)
  obtain ⟨calls, hsorted, hperm⟩ :=
    List.perm_comp_forall₂ (List.mergeSort_perm (joinedRows s.db) _ : sorted.Perm _) hjoin
  obtain ⟨rows, hrows, hcarries⟩ := readRows_joinedOf env query hsorted
  refine ⟨rows, calls, ?_, hperm, hcarries⟩
  have hlen : sorted.length ≤ n.toNat := by
    rw [hsorted.length_eq, hperm.length_eq]
    omega
  rw [searchNearest, Except.bind_eq_ok]
  refine ⟨query, Except.ofOption_eq_ok.2 hq, ?_⟩
  rw [if_neg (by omega)]
  dsimp only
  rw [List.take_of_length_le hlen]
  exact hrows

/-- After any history whose contents do not collide, a search whose limit is large enough finds one
row for each entry that was inserted, and it finds them for every query the vector type takes. -/
theorem searchNearest_finds {history : List (StoreCall V)} {s : Store V}
    (h : History env {} history s) (hsha : NoCollision env s.offered) {q : V} {n : Int}
    (hn : (s.calls.length : Int) ≤ n) :
    (∀ rows, searchNearest env s.db q n = .ok rows →
      ∃ calls, calls.Perm s.calls ∧ List.Forall₂ (Carries env) rows calls) ∧
    (env.vector q ≠ none → ∃ rows, searchNearest env s.db q n = .ok rows) := by
  have hinv := history_inv env h
  refine ⟨fun rows hrows => ?_, fun hq => ?_⟩
  · have hrows' := hrows
    rw [searchNearest, Except.bind_eq_ok] at hrows'
    obtain ⟨query, hq, -⟩ := hrows'
    obtain ⟨rows', calls, hrows', hperm, hcarries⟩ :=
      searchNearest_carries env hinv hsha (Except.ofOption_eq_ok.1 hq) hn
    rw [hrows] at hrows'
    obtain rfl := Except.ok.inj hrows'
    exact ⟨calls, hperm, hcarries⟩
  · obtain ⟨query, hq⟩ := Option.ne_none_iff_exists'.1 hq
    obtain ⟨rows, -, hrows, -⟩ := searchNearest_carries env hinv hsha hq hn
    exact ⟨rows, hrows⟩

/-- The search finds exactly what was inserted, the document ids as they were passed. -/
def StoreLaw : Prop :=
  ∀ (history : List (StoreCall V)) (s : Store V) (q : V) (n : Int)
    (rows : List (NearestResult V D)),
    History env {} history s → NoCollision env s.offered → (s.calls.length : Int) ≤ n →
    searchNearest env s.db q n = .ok rows →
    ∃ calls, calls.Perm s.calls ∧ List.Forall₂ (fun row call =>
      row.documentId = call.documentIdHash ∧
      row.controllerPublicKey = call.controllerPublicKey ∧
      row.encryptionPublicKey = env.computePublicKey call.recipientPrivateKey ∧
      recoverContent env call.recipientPrivateKey row = call.contents) rows calls

section Example

/-- The hashes of `0` and of `a` and the public key of the private key 1; vectors at distance 0. -/
def exampleEnv : Env (List Int) Int where
  sha256 bytes := if bytes = [97] then
    ⟨[202, 151, 129, 18, 202, 27, 189, 202, 250, 194, 49, 179, 154, 35, 220, 77, 167, 134, 239,
      248, 20, 124, 78, 114, 185, 128, 119, 133, 175, 238, 72, 187], rfl⟩
    else
    ⟨[95, 236, 235, 102, 255, 200, 111, 56, 217, 82, 120, 108, 109, 105, 108, 121, 194, 219, 194,
      57, 221, 78, 145, 180, 103, 41, 215, 58, 39, 251, 87, 233], rfl⟩
  computePublicKey _ :=
    ⟨[3, 107, 23, 209, 242, 225, 44, 66, 71, 248, 188, 230, 229, 99, 164, 64, 242, 119, 3, 125,
      129, 45, 235, 51, 160, 244, 161, 57, 69, 216, 152, 194, 150], rfl⟩
  computeEcdhSharedSecretSha256 _ _ := zeroBytes 32
  aes256GcmDecrypt _ _ _ _ := none
  varchar text := some text
  vector v := some v
  distance _ _ := 0
  distanceLe a b := a ≤ b
  uninitialised n := zeroBytes n

/-- An entry with the contents `a` for the document of the given id. -/
def exampleCall (documentIdHash : Bytes) : EntryCall (List Int) where
  documentIdHash := documentIdHash
  embedding := [1]
  contents := [97]
  controllerPublicKey := exampleEnv.computePublicKey (zeroBytes 32)
  recipientPrivateKey := ⟨List.replicate 31 0 ++ [1], rfl⟩

/-- The id of the document without a date, version, type or URL and of length 0. -/
def exampleId : Bytes := computeSha256HexString exampleEnv [48]

/-- The store after that document was created and an entry inserted under the given id. -/
def exampleStore (documentIdHash : Bytes) : Store (List Int) :=
  storeCall exampleEnv (storeCall exampleEnv {}
    (.createOrRetrieveDocument [] [] [] [] 0 (some 0)))
    (.insertRagEntry (exampleCall documentIdHash))

theorem history_exampleStore (documentIdHash : Bytes) : History exampleEnv {}
    [.createOrRetrieveDocument [] [] [] [] 0 (some 0),
      .insertRagEntry (exampleCall documentIdHash)] (exampleStore documentIdHash) :=
  .cons rfl (.cons rfl .nil)

theorem noCollision_exampleStore (documentIdHash : Bytes) :
    NoCollision exampleEnv (exampleStore documentIdHash).offered := by
  intro c hc c' hc' _
  rw [List.mem_singleton.1 hc, List.mem_singleton.1 hc']

theorem searchNearest_finds_example : (exampleStore exampleId).calls.length = 1 ∧
    (∀ rows, searchNearest exampleEnv (exampleStore exampleId).db [1] 1 = .ok rows →
      ∃ calls, calls.Perm (exampleStore exampleId).calls ∧
        List.Forall₂ (Carries exampleEnv) rows calls) ∧
    (exampleEnv.vector [1] ≠ none →
      ∃ rows, searchNearest exampleEnv (exampleStore exampleId).db [1] 1 = .ok rows) :=
  have hlen : (exampleStore exampleId).calls.length = 1 := by decide
  ⟨hlen, searchNearest_finds exampleEnv (history_exampleStore exampleId)
    (noCollision_exampleStore exampleId) (by rw [hlen]; exact le_refl _)⟩

/-- The column drops a blank behind the document id. -/
theorem not_storeLaw : ¬ StoreLaw exampleEnv := by
  intro hlaw
  have hh := history_exampleStore (exampleId ++ [32])
  have hsha := noCollision_exampleStore (exampleId ++ [32])
  have hlen : (exampleStore (exampleId ++ [32])).calls.length = 1 := by decide
  have hcalls : (exampleStore (exampleId ++ [32])).calls = [exampleCall (exampleId ++ [32])] := rfl
  have hn : ((exampleStore (exampleId ++ [32])).calls.length : Int) ≤ 1 := by
    rw [hlen]
    exact le_refl _
  obtain ⟨rows, calls, hrows, hperm, hcarries⟩ := searchNearest_carries exampleEnv
    (history_inv exampleEnv hh) hsha (q := [1]) rfl hn
  obtain ⟨calls', hperm', hlaw⟩ := hlaw _ _ [1] 1 rows hh hsha hn hrows
  rw [hcalls, List.perm_singleton] at hperm hperm'
  subst hperm hperm'
  obtain ⟨row, _, hrow, -, rfl⟩ := List.forall₂_cons_right_iff.1 hcarries
  obtain ⟨_, _, hrow', -, heq⟩ := List.forall₂_cons_right_iff.1 hlaw
  obtain ⟨rfl, -⟩ := List.cons.inj heq
  have hid : charN 64 (cStr (exampleId ++ [32])) = .ok exampleId := by decide
  have := hrow.documentId.symm.trans hid
  have hid' := hrow'.1
  rw [Except.ok.inj this] at hid'
  exact absurd hid' (by decide)

end Example

end LamaServer
