import LamaServer.Proofs.Store

/-!
# What a failed insertion leaves

The two statements of `insertRagEntry` are committed each by itself, the content first. So an entry
never lacks its content, but an insertion that fails at its second statement leaves the content,
under its hash, without an entry.
-/

namespace LamaServer

variable {V D : Type} (env : Env V D)

/-- A call over a connection. -/
def EntryCall.run (call : EntryCall V) (conn : EntryConnection) (db : Database V) :
    Except String Unit × Database V :=
  insertRagEntryOver env conn db call.documentIdHash call.embedding call.contents
    call.controllerPublicKey call.recipientPrivateKey

/-- The content and an entry that refers to it are there. -/
def EntryCall.Stored (call : EntryCall V) (db : Database V) : Prop :=
  (∃ row ∈ db.contents, row.hash = computeSha256HexString env call.contents) ∧
    ∃ e ∈ db.entries, e.hash = computeSha256HexString env call.contents

/-- The call leaves the tables alone or stores both of its rows. -/
def EntryCall.Atomic (call : EntryCall V) (conn : EntryConnection) (db : Database V) : Prop :=
  match call.run env conn db with
  | (.error _, db') => db' = db
  | (.ok _, db') => call.Stored env db'

/-- The tables with the content of a call. -/
def EntryCall.contentIn (call : EntryCall V) (db : Database V) : Database V :=
  { db with contents := insertContent db.contents (storedContent env call.contents) }

theorem insertContent_hash (contents : List ContentRow) (row : ContentRow) :
    ∃ r ∈ insertContent contents row, r.hash = row.hash := by
  unfold insertContent
  split_ifs with hex
  · exact hex
  · exact ⟨row, List.mem_append_right _ (List.mem_singleton_self _), rfl⟩

/-- The first statement is carried out. -/
structure EntryConnection.Sends (conn : EntryConnection) : Prop where
  connected : conn.connected = true
  contentLost : conn.contentLost = none

/-- So is the second: the connection holds and the database takes the row. -/
structure EntryCall.Accepted (call : EntryCall V) (conn : EntryConnection) (db : Database V) :
    Prop where
  entryLost : conn.entryLost = none
  row : ∃ entry, ragRow env db.documents call.documentIdHash call.embedding
    (computeSha256HexString env call.contents) call.contents.length
    (bytesToHex call.controllerPublicKey.toList)
    (bytesToHex (env.computePublicKey call.recipientPrivateKey).toList) = .ok entry

/-- The three ends of a call: nothing happened, the content was inserted and the entry was not, or
both were. -/
theorem EntryCall.run_cases (call : EntryCall V) (conn : EntryConnection) (db : Database V) :
    (¬conn.Sends ∧ ∃ e, call.run env conn db = (.error e, db)) ∨
    (conn.Sends ∧ ¬call.Accepted env conn db ∧
      ∃ e, call.run env conn db = (.error e, call.contentIn env db)) ∨
    (conn.Sends ∧ call.Accepted env conn db ∧
      ∃ entry, entry.hash = computeSha256HexString env call.contents ∧
        call.run env conn db = (.ok (), { call.contentIn env db with
          entries := db.entries ++ [entry] })) := by
  unfold EntryCall.run insertRagEntryOver
  rcases hconn : conn.connected with _ | _
  · exact .inl ⟨fun h => by simp [h.connected] at hconn, _, rfl⟩
  rcases hcontent : conn.contentLost with _ | e
  · rcases hentry : conn.entryLost with _ | e
    · simp only [Bool.not_true, Bool.false_eq_true, if_false, insertRagEntry]
      split
      · rename_i e he
        refine .inr (.inl ⟨⟨hconn, hcontent⟩, fun h => ?_, _, rfl⟩)
        obtain ⟨row, hrow⟩ := h.row
        cases he.symm.trans hrow
      · rename_i row hrow
        exact .inr (.inr ⟨⟨hconn, hcontent⟩, ⟨hentry, row, hrow⟩, row,
          (ragRow_spec env hrow).2.1, rfl⟩)
    · exact .inr (.inl ⟨⟨hconn, hcontent⟩, fun h => by simp [h.entryLost] at hentry, _, rfl⟩)
  · exact .inl ⟨fun h => by simp [h.contentLost] at hcontent, _, rfl⟩

/-- The content of a call adds nothing if and only if its hash is there already. -/
theorem EntryCall.contentIn_eq_iff (call : EntryCall V) (db : Database V) :
    call.contentIn env db = db ↔
      ∃ row ∈ db.contents, row.hash = computeSha256HexString env call.contents := by
  unfold EntryCall.contentIn insertContent
  by_cases hex : ∃ row ∈ db.contents, row.hash = (storedContent env call.contents).hash
  · rw [if_pos hex]
    exact iff_of_true rfl hex
  · rw [if_neg hex]
    refine iff_of_false (fun h => ?_) hex
    have hlen := congrArg (fun db => db.contents.length) h
    simp only [List.length_append, List.length_singleton] at hlen
    omega

/-- A call is atomic if and only if neither statement is carried out, or both are, or the content
was there already. -/
theorem EntryCall.atomic_iff (call : EntryCall V) (conn : EntryConnection) (db : Database V) :
    call.Atomic env conn db ↔ ¬conn.Sends ∨ call.Accepted env conn db ∨
      ∃ row ∈ db.contents, row.hash = computeSha256HexString env call.contents := by
  unfold EntryCall.Atomic
  rcases call.run_cases env conn db with ⟨hno, e, h⟩ | ⟨hsends, hno, e, h⟩ |
    ⟨-, haccepted, entry, hentry, h⟩
  · rw [h]
    exact iff_of_true rfl (.inl hno)
  · rw [h, or_iff_right (not_not.2 hsends), or_iff_right hno]
    exact call.contentIn_eq_iff env db
  · rw [h]
    exact iff_of_true ⟨insertContent_hash _ _, entry, List.mem_append_right _
      (List.mem_singleton_self _), hentry⟩ (.inr (.inl haccepted))

/-! ## Runs -/

/-- A call to the store, over a connection that may be lost. -/
def storeCallOver (conn : EntryConnection) (s : Store V) : StoreCall V → Store V
  | .createOrRetrieveDocument date version contentType url length lengthText =>
    if conn.connected then
      storeCall env s (.createOrRetrieveDocument date version contentType url length lengthText)
    else s
  | .insertRagEntry call =>
    let r := call.run env conn s.db
    { db := r.2
      calls := match r.1 with
        | .ok _ => s.calls ++ [call]
        | .error _ => s.calls
      offered := s.offered ++ [call.contents] }

/-- Lost connections do no harm to the tables: contents stay unique and every entry refers to a
document and to its content. -/
theorem storeInv_storeCallOver {s : Store V} (h : StoreInv env s) (conn : EntryConnection) :
    ∀ call : StoreCall V, StoreInv env (storeCallOver env conn s call)
  | .createOrRetrieveDocument date version contentType url length lengthText => by
    unfold storeCallOver
    split_ifs
    · exact storeInv_createOrRetrieveDocument env h ..
    · exact h
  | .insertRagEntry call => by
    have hoffer := h.offer env call.contents
    have hcontent := storeInv_insertContent env h call.contents
    have hinsert := storeInv_insertRagEntry env h call
    unfold storeCallOver
    rcases conn with ⟨_ | _, _ | _, _ | _⟩
    · exact hoffer
    · exact hoffer
    · exact hoffer
    · exact hoffer
    · exact hinsert
    · exact hcontent
    · exact hoffer
    · exact hoffer

/-- The histories of calls over connections that may be lost. -/
def LossyHistory : Store V → List (EntryConnection × StoreCall V) → Store V → Prop :=
  Transition.Run fun s call s' => storeCallOver env call.1 s call.2 = s'

/-- Every call is atomic in every store that calls lead to. -/
def AtomicLaw (env : Env V D) : Prop :=
  ∀ (calls : List (EntryConnection × StoreCall V)) (s : Store V) (call : EntryCall V)
    (conn : EntryConnection), LossyHistory env {} calls s → call.Atomic env conn s.db

end LamaServer
