import LamaServer.Proofs.KvCache

/-!
# A saved sequence is the sequence that is loaded

The bytes of a sequence are the count, the positions and the rows of its cells, as `SeqStream`
lists them. `state_write` writes the stream of the sequence's cells. `state_read` takes a stream off
the front of its input, gives its cells the first window of free cells and fills in the rows; what
it accepts begins with a stream.
-/

namespace LamaServer

open Format

variable {m : KvParams} {size : Nat}

/-! ## Reading one value -/

theorem readTo_write {α : Type} {f : Format α} {a : α} (h : f.Valid a) (rest : Bytes) :
    readTo f (f.write a ++ rest) = .ok (a, rest) := by
  simp [readTo, f.read_write h]

theorem readTo_eq_ok {α : Type} {f : Format α} {a : α} {bs rest : Bytes} :
    readTo f bs = .ok (a, rest) ↔ f.Valid a ∧ bs = f.write a ++ rest := by
  constructor
  · intro h
    rw [readTo, Except.ofOption_eq_ok] at h
    exact ⟨f.valid_of_read h, f.write_of_read h⟩
  · rintro ⟨hv, rfl⟩
    exact readTo_write hv rest

theorem expect_eq_ok {α : Type} [DecidableEq α] {f : Format α} {a : α} (hv : f.Valid a)
    {bs rest : Bytes} : expect f a bs = .ok rest ↔ bs = f.write a ++ rest := by
  rw [expect, Except.bind_eq_ok]
  constructor
  · rintro ⟨⟨b, r⟩, hr, h⟩
    split_ifs at h with hne
    cases h
    exact not_not.1 hne ▸ (readTo_eq_ok.1 hr).2
  · rintro rfl
    exact ⟨(a, rest), readTo_write hv rest, by simp⟩

theorem zero_valid : u32.Valid 0 := by simp [u32, unsigned]

theorem readPositions_eq_ok : ∀ {n : Nat} {bs rest : Bytes} {ps : List Int},
    readPositions n bs = .ok (ps, rest) ↔ ps.length = n ∧ (∀ p ∈ ps, i32.Valid p) ∧
      bs = ps.flatMap (fun p => i32.write p ++ u32.write 0) ++ rest
  | 0, bs, rest, ps => by
    simp only [readPositions, Except.ok.injEq, Prod.mk.injEq, List.length_eq_zero_iff]
    constructor
    · rintro ⟨rfl, rfl⟩
      simp
    · rintro ⟨rfl, -, rfl⟩
      simp
  | n + 1, bs, rest, ps => by
    simp only [readPositions, Except.bind_eq_ok, Prod.exists, readTo_eq_ok,
      expect_eq_ok zero_valid, readPositions_eq_ok (n := n), Except.ok.injEq, Prod.mk.injEq]
    constructor
    · rintro ⟨p, r, ⟨hp, rfl⟩, _, rfl, ps, _, ⟨rfl, hps, rfl⟩, rfl, rfl⟩
      exact ⟨rfl, by simpa using ⟨hp, hps⟩, by simp⟩
    · rintro ⟨hlen, hv, rfl⟩
      obtain _ | ⟨p, ps⟩ := ps
      · simp at hlen
      · rw [List.forall_mem_cons] at hv
        refine ⟨p, _, ⟨hv.1, ?_⟩, _, rfl, ps, rest, ⟨by simpa using hlen, hv.2, rfl⟩, rfl, rfl⟩
        simp

/-! ## Reading the rows -/

theorem Loading.bind_eq_ok {r : Loading m size} {f : KvCache m size → Bytes → Loading m size}
    {c : KvCache m size} {bs : Bytes} : r.bind f = (c, .ok bs) ↔
      ∃ c₁ bs₁, r = (c₁, .ok bs₁) ∧ f c₁ bs₁ = (c, .ok bs) := by
  obtain ⟨c₁, e | bs₁⟩ := r <;> simp [Loading.bind]

/-- Rounds that read a record each: the loop reads the records one after another. -/
theorem readEach_eq_ok {ι : Type} [DecidableEq ι] {X : ι → Type} [∀ a, Inhabited (X a)]
    {f : ι → KvCache m size → Bytes → Loading m size} {V : ∀ a, X a → Prop} {w : ∀ a, X a → Bytes}
    (upd : ∀ a, X a → KvCache m size → KvCache m size)
    (hf : ∀ a c bs c' rest, f a c bs = (c', .ok rest) ↔
      ∃ x, V a x ∧ bs = w a x ++ rest ∧ c' = upd a x c) :
    ∀ {as : List ι} (c c' : KvCache m size) (bs rest : Bytes), as.Nodup →
      (readEach f as c bs = (c', .ok rest) ↔ ∃ xs : ∀ a, X a, (∀ a ∈ as, V a (xs a)) ∧
        bs = (as.flatMap fun a => w a (xs a)) ++ rest ∧
        c' = as.foldl (fun c a => upd a (xs a) c) c)
  | [], c, c', bs, rest, _ => by
    simp only [readEach, Prod.mk.injEq, Except.ok.injEq]
    constructor
    · rintro ⟨rfl, rfl⟩
      exact ⟨fun _ => default, by simp⟩
    · rintro ⟨-, -, rfl, rfl⟩
      simp
  | a :: as, c, c', bs, rest, hnd => by
    rw [List.nodup_cons] at hnd
    simp only [readEach, Loading.bind_eq_ok, hf, readEach_eq_ok upd hf _ _ _ _ hnd.2]
    constructor
    · rintro ⟨_, _, ⟨x, hx, rfl, rfl⟩, xs, hxs, rfl, rfl⟩
      have hne : ∀ b ∈ as, b ≠ a := fun b hb hba => hnd.1 (hba ▸ hb)
      refine ⟨Function.update xs a x, ?_, ?_, ?_⟩
      · intro b hb
        rcases List.mem_cons.1 hb with rfl | hb
        · simpa using hx
        · simpa [hne b hb] using hxs b hb
      · rw [List.flatMap_cons, Function.update_self, List.append_assoc]
        congr 2
        exact List.flatMap_congr fun b hb => by rw [Function.update_of_ne (hne b hb)]
      · rw [List.foldl_cons, Function.update_self]
        exact List.foldl_ext _ _ _ fun _ b hb => by rw [Function.update_of_ne (hne b hb)]
    · rintro ⟨xs, hxs, rfl, rfl⟩
      rw [List.forall_mem_cons] at hxs
      exact ⟨_, _, ⟨xs a, hxs.1, by simp, rfl⟩, xs, hxs.2, rfl, rfl⟩

/-- What stands before the keys of a layer. -/
def keyHeader (m : KvParams) (il : Fin m.nLayer) : Bytes :=
  i32.write (m.kType il) ++ u64.write (m.kSizeRow il)

def blockBytes {w : Nat} (rows : List (Block w)) : Bytes := rows.flatMap (·.1)

theorem readTo_blocks {w n : Nat} {bs rest : Bytes} {rows : List (Block w)} :
    readTo (many (block w) n) bs = .ok (rows, rest) ↔
      rows.length = n ∧ bs = blockBytes rows ++ rest := by
  rw [readTo_eq_ok]
  simp [many, block, blockBytes]

theorem readKeyHeader_eq_ok {il : Fin m.nLayer} {bs rest : Bytes} :
    readKeyHeader m il bs = .ok rest ↔ bs = keyHeader m il ++ rest := by
  simp only [readKeyHeader, Except.bind_eq_ok, expect_eq_ok (f := i32) (m.kType_valid il),
    expect_eq_ok (f := u64) (m.kSizeRow_lt il), keyHeader]
  simp

theorem readValueHeader_eq_ok {il : Fin m.nLayer} {bs rest : Bytes} :
    readValueHeader m il bs = .ok rest ↔ bs = writeValueHeader m il ++ rest := by
  simp only [readValueHeader, writeValueHeader, Except.bind_eq_ok,
    expect_eq_ok (f := i32) (m.vType_valid il)]
  cases m.vTrans
  · simp [expect_eq_ok (f := u64) (m.vSizeRow_lt il)]
  · simp [Except.bind_eq_ok, expect_eq_ok (f := u32) (m.vSizeEl_lt il),
      expect_eq_ok (f := u32) (m.nEmbdVGqa_lt il)]

namespace KvCache

def setKeys (il : Fin m.nLayer) (rows : List (Block (m.kSizeRow il))) (c : KvCache m size) :
    KvCache m size :=
  { c with k := Function.update c.k il (setRows c.head rows (c.k il)) }

def setValueRow (il : Fin m.nLayer) (j : Fin (m.vRows il)) (rows : List (Block (m.vPiece il)))
    (c : KvCache m size) : KvCache m size :=
  { c with
    v := Function.update c.v il
      (Function.update (c.v il) j (setRows c.head rows (c.v il j))) }

def setValues (il : Fin m.nLayer) (rows : Fin (m.vRows il) → List (Block (m.vPiece il)))
    (c : KvCache m size) : KvCache m size :=
  { c with v := Function.update c.v il fun j => setRows c.head (rows j) (c.v il j) }

theorem readKeys_eq_ok {count : Nat} {il : Fin m.nLayer} {c c' : KvCache m size} {bs rest : Bytes} :
    c.readKeys count il bs = (c', .ok rest) ↔ ∃ rows, rows.length = count ∧
      bs = (keyHeader m il ++ blockBytes rows) ++ rest ∧ c' = c.setKeys il rows := by
  have hread : ∀ rows r, (readKeyHeader m il bs >>=
      readTo (many (block (m.kSizeRow il)) count)) = .ok (rows, r) ↔
        rows.length = count ∧ bs = (keyHeader m il ++ blockBytes rows) ++ r := by
    intro rows r
    simp [Except.bind_eq_ok, readKeyHeader_eq_ok, readTo_blocks, and_comm]
  unfold readKeys
  constructor
  · intro h
    split at h
    · simp at h
    · rename_i rows r hr
      simp only [Prod.mk.injEq, Except.ok.injEq] at h
      obtain ⟨rfl, rfl⟩ := h
      obtain ⟨hlen, hbs⟩ := (hread _ _).1 hr
      exact ⟨rows, hlen, hbs, rfl⟩
  · rintro ⟨rows, hlen, hbs, rfl⟩
    rw [(hread rows rest).2 ⟨hlen, hbs⟩]
    rfl

theorem readValueRow_eq_ok {count : Nat} {il : Fin m.nLayer} {j : Fin (m.vRows il)}
    {c c' : KvCache m size} {bs rest : Bytes} :
    c.readValueRow count il j bs = (c', .ok rest) ↔ ∃ rows, rows.length = count ∧
      bs = blockBytes rows ++ rest ∧ c' = c.setValueRow il j rows := by
  unfold readValueRow
  constructor
  · intro h
    split at h
    · simp at h
    · rename_i rows r hr
      simp only [Prod.mk.injEq, Except.ok.injEq] at h
      obtain ⟨rfl, rfl⟩ := h
      obtain ⟨hlen, hbs⟩ := readTo_blocks.1 hr
      exact ⟨rows, hlen, hbs, rfl⟩
  · rintro ⟨rows, hlen, hbs, rfl⟩
    rw [readTo_blocks.2 ⟨hlen, hbs⟩]
    rfl

theorem foldl_setValueRow (il : Fin m.nLayer) (rows : Fin (m.vRows il) → List (Block (m.vPiece il)))
    : ∀ (js : List (Fin (m.vRows il))) (c : KvCache m size),
      js.foldl (fun c j => c.setValueRow il j (rows j)) c =
        { c with
          v := Function.update c.v il
            (js.foldl (fun v j => Function.update v j (setRows c.head (rows j) (v j))) (c.v il)) }
  | [], c => by simp
  | j :: js, c => by
    rw [List.foldl_cons, foldl_setValueRow il rows js]
    simp [setValueRow]

theorem foldl_setValueRow_finRange (il : Fin m.nLayer)
    (rows : Fin (m.vRows il) → List (Block (m.vPiece il))) (c : KvCache m size) :
    (List.finRange (m.vRows il)).foldl (fun c j => c.setValueRow il j (rows j)) c =
      c.setValues il rows := by
  rw [foldl_setValueRow, Index.foldl_update (fun j => setRows c.head (rows j)) _
    (List.nodup_finRange _)]
  simp [setValues]

theorem readValues_eq_ok {count : Nat} {il : Fin m.nLayer} {c c' : KvCache m size}
    {bs rest : Bytes} :
    c.readValues count il bs = (c', .ok rest) ↔
      ∃ rows : Fin (m.vRows il) → List (Block (m.vPiece il)), (∀ j, (rows j).length = count) ∧
        bs = (writeValueHeader m il ++
          (List.finRange (m.vRows il)).flatMap fun j => blockBytes (rows j)) ++ rest ∧
        c' = c.setValues il rows := by
  have heach (bs : Bytes) := readEach_eq_ok (f := KvCache.readValueRow count il) (fun j rows c =>
    c.setValueRow il j rows) (fun _ _ _ _ _ => readValueRow_eq_ok) c c' bs rest
    (List.nodup_finRange (m.vRows il))
  simp only [foldl_setValueRow_finRange, List.mem_finRange, true_implies] at heach
  unfold readValues
  constructor
  · intro h
    split at h
    · simp at h
    · rename_i r hr
      obtain ⟨rows, hlen, rfl, rfl⟩ := (heach r).1 h
      exact ⟨rows, hlen, by rw [readValueHeader_eq_ok.1 hr, List.append_assoc], rfl⟩
  · rintro ⟨rows, hlen, hbs, rfl⟩
    rw [List.append_assoc] at hbs
    rw [readValueHeader_eq_ok.2 hbs]
    exact (heach _).2 ⟨rows, hlen, rfl, rfl⟩

theorem foldl_setKeys (keys : ∀ il, List (Block (m.kSizeRow il))) :
    ∀ (ils : List (Fin m.nLayer)) (c : KvCache m size),
      ils.foldl (fun c il => c.setKeys il (keys il)) c =
        { c with
          k := ils.foldl (fun k il => Function.update k il (setRows c.head (keys il) (k il))) c.k }
  | [], c => rfl
  | il :: ils, c => by
    rw [List.foldl_cons, foldl_setKeys keys ils]
    simp [setKeys]

theorem foldl_setValues (values : ∀ il, Fin (m.vRows il) → List (Block (m.vPiece il))) :
    ∀ (ils : List (Fin m.nLayer)) (c : KvCache m size),
      ils.foldl (fun c il => c.setValues il (values il)) c =
        { c with
          v := ils.foldl (fun v il =>
            Function.update v il fun j => setRows c.head (values il j) (v il j)) c.v }
  | [], c => rfl
  | il :: ils, c => by
    rw [List.foldl_cons, foldl_setValues values ils]
    simp [setValues]

theorem foldl_setKeys_finRange (keys : ∀ il, List (Block (m.kSizeRow il))) (c : KvCache m size) :
    (List.finRange m.nLayer).foldl (fun c il => c.setKeys il (keys il)) c =
      { c with k := fun il => setRows c.head (keys il) (c.k il) } := by
  rw [foldl_setKeys, Index.foldl_update (fun il => setRows c.head (keys il)) _
    (List.nodup_finRange _)]
  simp

theorem foldl_setValues_finRange
    (values : ∀ il, Fin (m.vRows il) → List (Block (m.vPiece il))) (c : KvCache m size) :
    (List.finRange m.nLayer).foldl (fun c il => c.setValues il (values il)) c =
      { c with v := fun il j => setRows c.head (values il j) (c.v il j) } := by
  have hupd := Index.foldl_update (β := fun il => Fin (m.vRows il) → Nat → Block (m.vPiece il))
    (fun il v j => setRows c.head (values il j) (v j)) c.v (List.nodup_finRange m.nLayer)
  rw [foldl_setValues, hupd]
  simp

/-- The rows of a stream in the cells from the head on. -/
def fillRows (c : KvCache m size) (keys : ∀ il, List (Block (m.kSizeRow il)))
    (values : ∀ il, Fin (m.vRows il) → List (Block (m.vPiece il))) (rots : List Int) :
    KvCache m size :=
  { c with
    k := fun il => setRows c.head (keys il) (c.k il)
    v := fun il j => setRows c.head (values il j) (c.v il j)
    rot := setRows c.head rots c.rot }

end KvCache

theorem readDataHeader_eq_ok {count : Nat} {bs rest : Bytes} :
    readDataHeader m size count bs = .ok rest ↔ count ≤ size ∧ ∃ vTrans, u32.Valid vTrans ∧
      m.vTrans = decide (vTrans ≠ 0) ∧ bs = u32.write vTrans ++ u32.write m.nLayer ++ rest := by
  simp only [readDataHeader, Except.bind_eq_ok, Prod.exists, readTo_eq_ok]
  constructor
  · rintro ⟨vTrans, _, ⟨hv, rfl⟩, nLayer, r, ⟨-, rfl⟩, h⟩
    split_ifs at h with h1 h2 h3
    cases h
    exact ⟨not_lt.1 h2, vTrans, hv, not_not.1 h3, by rw [not_not.1 h1, List.append_assoc]⟩
  · rintro ⟨hcount, vTrans, hv, ht, rfl⟩
    refine ⟨vTrans, _, ⟨hv, List.append_assoc _ _ _⟩, m.nLayer, rest, ⟨m.nLayer_lt, rfl⟩, ?_⟩
    simp [not_lt.2 hcount, ← ht]

/-- What `state_write_data` writes, with the flag for a transposed V. -/
def dataBytes (m : KvParams) (vTrans : Nat) (keys : ∀ il, List (Block (m.kSizeRow il)))
    (values : ∀ il, Fin (m.vRows il) → List (Block (m.vPiece il))) : Bytes :=
  u32.write vTrans ++ u32.write m.nLayer ++
    ((List.finRange m.nLayer).flatMap fun il => keyHeader m il ++ blockBytes (keys il)) ++
    (List.finRange m.nLayer).flatMap fun il => writeValueHeader m il ++
      (List.finRange (m.vRows il)).flatMap fun j => blockBytes (values il j)

/-- `state_read_data` reads the rows off a stream and puts them in place. -/
theorem KvCache.stateReadData_eq_ok {c c' : KvCache m size} {count : Nat} {rots : List Int}
    {bs rest : Bytes} : c.stateReadData count rots bs = (c', .ok rest) ↔ count ≤ size ∧
      ∃ vTrans keys values, u32.Valid vTrans ∧ m.vTrans = decide (vTrans ≠ 0) ∧
        (∀ il, (keys il).length = count) ∧ (∀ il j, (values il j).length = count) ∧
        bs = dataBytes m vTrans keys values ++ rest ∧
        c' = c.fillRows keys values (rots.take count) := by
  have hkeys (c c' : KvCache m size) (bs rest : Bytes) := readEach_eq_ok
    (f := KvCache.readKeys count) (fun il keys c => c.setKeys il keys)
    (fun _ _ _ _ _ => readKeys_eq_ok) c c' bs rest (List.nodup_finRange m.nLayer)
  have hvalues (c c' : KvCache m size) (bs rest : Bytes) := readEach_eq_ok
    (f := KvCache.readValues count) (fun il values c => c.setValues il values)
    (fun _ _ _ _ _ => readValues_eq_ok) c c' bs rest (List.nodup_finRange m.nLayer)
  simp only [foldl_setKeys_finRange, List.mem_finRange, true_implies] at hkeys
  simp only [foldl_setValues_finRange, List.mem_finRange, true_implies] at hvalues
  simp only [stateReadData, Loading.bind_eq_ok, Prod.mk.injEq, hkeys, hvalues,
    readDataHeader_eq_ok]
  constructor
  · rintro ⟨_, _, ⟨rfl, hcount, vTrans, hv, ht, rfl⟩, _, _, ⟨keys, hk, rfl, rfl⟩, values, hvs, rfl,
      rfl⟩
    exact ⟨hcount, vTrans, keys, values, hv, ht, hk, hvs, by simp [dataBytes], rfl⟩
  · rintro ⟨hcount, vTrans, keys, values, hv, ht, hk, hvs, rfl, rfl⟩
    refine ⟨c, _, ⟨rfl, hcount, vTrans, hv, ht, ?_⟩, _, _, ⟨keys, hk, rfl, rfl⟩, values, hvs, rfl,
      rfl⟩
    simp [dataBytes]

theorem setRows_add {α : Type} {head i : Nat} {rows : List α} {old : Nat → α}
    (hi : i < rows.length) : setRows head rows old (head + i) = rows[i] := by
  simp [setRows, hi]

theorem setRows_of_notMem {α : Type} {head i : Nat} {rows : List α} {old : Nat → α}
    (hi : ¬ (head ≤ i ∧ i < head + rows.length)) : setRows head rows old i = old i := by
  unfold setRows
  split_ifs
  · rw [List.getD_eq_getElem?_getD, List.getElem?_eq_none (by omega)]
    rfl
  · rfl

/-! ## Streams -/

/-- What the bytes of a saved sequence hold. Any number but `0` flags a transposed V. -/
structure SeqStream (m : KvParams) where
  positions : List Int
  vTrans : Nat
  keys : ∀ il, List (Block (m.kSizeRow il))
  values : ∀ il, Fin (m.vRows il) → List (Block (m.vPiece il))
  length_valid : u32.Valid positions.length
  positions_valid : ∀ p ∈ positions, i32.Valid p
  vTrans_valid : u32.Valid vTrans
  vTrans_eq : m.vTrans = decide (vTrans ≠ 0)
  length_keys : ∀ il, (keys il).length = positions.length
  length_values : ∀ il j, (values il j).length = positions.length

def SeqStream.bytes (st : SeqStream m) : Bytes :=
  u32.write st.positions.length ++ st.positions.flatMap (fun p => i32.write p ++ u32.write 0) ++
    dataBytes m st.vTrans st.keys st.values

namespace KvCache

variable {c c' : KvCache m size}

theorem pos_valid_of_sound {cell : KvCell} (h : cell.Sound) : i32.Valid cell.pos := by
  have h0 : cell.pos < 0 → cell.pos = -1 := fun hlt => (h.blank hlt).1
  have h1 := h.lt
  simp only [posMax] at h1
  simp only [i32, signed]
  omega

/-- The stream of a sequence. -/
def stream (c : KvCache m size) (hc : c.Sound) (seqId : Int) : SeqStream m where
  positions := (c.written seqId).map fun i => (c.cells i).pos
  vTrans := m.vTrans.toNat
  keys il := (c.written seqId).map (c.k il)
  values il j := (c.written seqId).map (c.v il j)
  length_valid := by
    have hle := List.length_filter_le (fun i =>
      decide ((seqId = -1 ∧ (c.cells i).seqId ≠ ∅) ∨ seqId ∈ (c.cells i).seqId)) (List.range size)
    have hlt := c.size_lt
    rw [List.length_range] at hle
    simp only [List.length_map, u32, unsigned, written]
    omega
  positions_valid p hp := by
    obtain ⟨i, -, rfl⟩ := List.mem_map.1 hp
    exact pos_valid_of_sound (hc i)
  vTrans_valid := by cases m.vTrans <;> simp [u32, unsigned]
  vTrans_eq := by cases m.vTrans <;> simp
  length_keys := by simp
  length_values := by simp

theorem stateWriteData_eq (c : KvCache m size) (ids : List Nat) : c.stateWriteData ids =
    dataBytes m m.vTrans.toNat (fun il => ids.map (c.k il)) fun il j => ids.map (c.v il j) := by
  have hkeys : c.writeKeys ids = fun il => keyHeader m il ++ blockBytes (ids.map (c.k il)) := by
    funext il
    simp [writeKeys, keyHeader, blockBytes, List.flatMap_map]
  have hvalues : c.writeValues ids = fun il => writeValueHeader m il ++
      (List.finRange (m.vRows il)).flatMap fun j => blockBytes (ids.map (c.v il j)) := by
    funext il
    simp [writeValues, blockBytes, List.flatMap_map]
  rw [stateWriteData, hkeys, hvalues]
  rfl

/-- `state_write` of one sequence writes its stream. -/
theorem stateWrite_eq (hc : c.Sound) {seqId : Int} (h : seqId ≠ -1) :
    c.stateWrite seqId = (c.stream hc seqId).bytes := by
  have hmeta : c.stateWriteMeta seqId (c.written seqId) =
      (c.stream hc seqId).positions.flatMap fun p => i32.write p ++ u32.write 0 := by
    simp [stateWriteMeta, stream, h, List.flatMap_map]
  rw [stateWrite, hmeta, stateWriteData_eq, SeqStream.bytes]
  simp [stream]

/-- The cache with the cells of a stream given to a sequence. -/
def withStream (c : KvCache m size) (dest : Int) (st : SeqStream m) (head : Nat) (rots : List Int) :
    KvCache m size :=
  (((c.seqRm dest (-1) (-1)).place (loadUbatch dest st.positions) head).commit).fillRows
    st.keys st.values (rots.take st.positions.length)

theorem place_loadUbatch_cells (c : KvCache m size) (dest : Int) {ps : List Int} (head : Nat)
    {i : Nat} (hi : i < ps.length) : (c.place (loadUbatch dest ps) head).cells (head + i) =
      { c.cells (head + i) with
        pos := ps[i]
        seqId := (c.cells (head + i)).seqId ∪ {dest} } := by
  rw [place_cells_of_mem (by rw [loadUbatch_nTokens]; omega)]
  simp [loadUbatch, hi]

theorem slotChecks_place (c : KvCache m size) (dest : Int) {ps : List Int} {head : Nat}
    (hps : ps ≠ []) (hsize : head + ps.length ≤ size) :
    (c.place (loadUbatch dest ps) head).commit.slotChecks dest ps := by
  have hlen : 0 < ps.length := List.length_pos_of_ne_nil hps
  have hfirst := place_loadUbatch_cells c dest head hlen
  have hlast := place_loadUbatch_cells c dest head (Nat.sub_one_lt hlen.ne')
  rw [Nat.add_zero] at hfirst
  rw [← Nat.add_sub_assoc hlen] at hlast
  have hhead : (c.place (loadUbatch dest ps) head).head = head := rfl
  refine ⟨hsize, ?_⟩
  simp only [commit, hhead, hfirst, hlast]
  simp [List.head?_eq_getElem?, List.getLast?_eq_getElem?, hlen]

/-- Reading a stream where there is room for it. -/
theorem stateRead_stream {dest : Int} (hdest : dest ≠ -1) (st : SeqStream m) (rest : Bytes)
    (rots : List Int) {head : Nat} (hps : st.positions ≠ [])
    (hslot : (c.seqRm dest (-1) (-1)).findSlot (loadUbatch dest st.positions) =
      ((c.seqRm dest (-1) (-1)).place (loadUbatch dest st.positions) head, true))
    (hsize : head + st.positions.length ≤ size) :
    c.stateRead dest (st.bytes ++ rest) rots = .loaded (c.withStream dest st head rots) rest := by
  have hpos : readPositions st.positions.length
      (st.positions.flatMap (fun p => i32.write p ++ u32.write 0) ++
        (dataBytes m st.vTrans st.keys st.values ++ rest)) =
      .ok (st.positions, dataBytes m st.vTrans st.keys st.values ++ rest) :=
    readPositions_eq_ok.2 ⟨rfl, st.positions_valid, rfl⟩
  have hdata : (((c.seqRm dest (-1) (-1)).place (loadUbatch dest st.positions) head).commit
      ).stateReadData st.positions.length rots (dataBytes m st.vTrans st.keys st.values ++ rest) =
      (c.withStream dest st head rots, .ok rest) :=
    stateReadData_eq_ok.2 ⟨by omega, st.vTrans, st.keys, st.values, st.vTrans_valid, st.vTrans_eq,
      st.length_keys, st.length_values, rfl, rfl⟩
  rw [stateRead, SeqStream.bytes, List.append_assoc, List.append_assoc,
    readTo_write st.length_valid]
  simp only [if_neg hdest, readMetaSeq, hpos, hslot, if_true, slotChecks_place _ _ hps hsize,
    Loading.bind, hdata, finishRead]

end KvCache

/-! ## Round trip -/

/-- What a saved sequence has for one cell: its position and its K and V rows. -/
@[ext] structure KvEntry (m : KvParams) where
  pos : Int
  k : ∀ il, Block (m.kSizeRow il)
  v : ∀ il, Fin (m.vRows il) → Block (m.vPiece il)

namespace KvCache

variable {c c' : KvCache m size}

def entry (c : KvCache m size) (i : Nat) : KvEntry m :=
  ⟨(c.cells i).pos, fun il => c.k il i, fun il j => c.v il j i⟩

/-- The cells of a sequence in order, with their rows. -/
def entries (c : KvCache m size) (seqId : Int) : List (KvEntry m) :=
  ((List.range size).filter fun i => seqId ∈ (c.cells i).seqId).map c.entry

/-- The other sequences have the same cells as before. -/
def OthersKept (c c' : KvCache m size) (dest : Int) : Prop :=
  ∀ i, ∀ t ≠ dest, (t ∈ (c'.cells i).seqId ↔ t ∈ (c.cells i).seqId) ∧
    (t ∈ (c.cells i).seqId → c'.entry i = c.entry i)

/-- A window of cells that are free, or become free when the sequence is removed. -/
def HasRoom (c : KvCache m size) (dest : Int) (n : Nat) : Prop :=
  ∃ h, h + n ≤ size ∧
    ∀ i, h ≤ i → i < h + n → (c.cells i).pos < 0 ∨ (c.cells i).seqId = {dest}

/-- Removing a sequence from a cell. -/
theorem rm_all {cell : KvCell} (h : cell.Sound) {dest : Int} (hd : 0 ≤ dest) :
    (cell.rm dest (-1) (-1)).cell.seqId = cell.seqId.erase dest ∧
    ((cell.rm dest (-1) (-1)).cell.pos =
      if cell.seqId = {dest} then -1 else cell.pos) := by
  have hrange : cell.inRange (-1) (-1) ↔ 0 ≤ cell.pos := by
    have := h.lt
    simp [KvCell.inRange, rangeStart, rangeEnd, this]
  have hneg : ¬ dest < 0 := not_lt.2 hd
  unfold KvCell.rm KvCell.without
  simp only [hrange, hneg, false_or, if_false]
  by_cases hmem : dest ∈ cell.seqId
  · have hpos : 0 ≤ cell.pos := by
      by_contra hlt
      rw [(h.blank (not_le.1 hlt)).2] at hmem
      simp at hmem
    have hiff : cell.seqId.erase dest = ∅ ↔ cell.seqId = {dest} := by
      rw [Finset.erase_eq_empty_iff]
      refine or_iff_right ?_
      rintro h0
      simp [h0] at hmem
    rw [if_pos ⟨hpos, hmem⟩]
    by_cases hone : cell.seqId = {dest}
    · simp [hone]
    · simp [mt hiff.1 hone, hone]
  · have hone : cell.seqId ≠ {dest} := fun h1 => hmem (by simp [h1])
    simp [hmem, hone]

theorem seqRm_cells (c : KvCache m size) (dest : Int) (i : Nat) :
    (c.seqRm dest (-1) (-1)).cells i = ((c.cells i).rm dest (-1) (-1)).cell := rfl

theorem room_seqRm_iff (hc : c.Sound) {dest : Int} (hd : 0 ≤ dest) {n : Nat} :
    (c.seqRm dest (-1) (-1)).Room n ↔ c.HasRoom dest n := by
  refine exists_congr fun h => and_congr_right fun _ => forall_congr' fun i =>
    imp_congr_right fun _ => imp_congr_right fun _ => ?_
  rw [seqRm_cells, (rm_all (hc i) hd).2]
  split_ifs with hone
  · simp [hone]
  · simp [hone]

/-- The cells below `size` in a window, in order. -/
theorem filter_window {h n : Nat} (hn : h + n ≤ size) {p : Nat → Bool}
    (hp : ∀ i < size, p i ↔ h ≤ i ∧ i < h + n) :
    (List.range size).filter p = (List.range n).map (h + ·) := by
  obtain ⟨b, rfl⟩ := Nat.exists_eq_add_of_le hn
  have hbelow : (List.range h).filter p = [] :=
    List.filter_eq_nil_iff.2 fun i hi => by
      have := List.mem_range.1 hi
      rw [hp i (by omega)]
      omega
  have hin : ((List.range n).map (h + ·)).filter p = (List.range n).map (h + ·) :=
    List.filter_eq_self.2 fun i hi => by
      obtain ⟨j, hj, rfl⟩ := List.mem_map.1 hi
      have := List.mem_range.1 hj
      rw [hp _ (by omega)]
      omega
  have habove : ((List.range b).map (h + n + ·)).filter p = [] :=
    List.filter_eq_nil_iff.2 fun i hi => by
      obtain ⟨j, hj, rfl⟩ := List.mem_map.1 hi
      have := List.mem_range.1 hj
      rw [hp _ (by omega)]
      omega
  rw [List.range_add, List.range_add, List.filter_append, List.filter_append, hbelow, hin, habove]
  simp

section Filled

variable {dest : Int} {st : SeqStream m} {head : Nat} {rots : List Int}

theorem withStream_cells_of_mem (hc : c.Sound)
    (hfree : ∀ i, head ≤ i → i < head + st.positions.length →
      ((c.seqRm dest (-1) (-1)).cells i).pos < 0) {i : Nat} (hi : i < st.positions.length) :
    ((c.withStream dest st head rots).cells (head + i)).seqId = {dest} ∧
      (c.withStream dest st head rots).entry (head + i) =
        ⟨st.positions[i], fun il => (st.keys il).get ⟨i, by rw [st.length_keys]; exact hi⟩,
          fun il j => (st.values il j).get ⟨i, by rw [st.length_values]; exact hi⟩⟩ := by
  have hcell : (c.withStream dest st head rots).cells (head + i) = _ :=
    place_loadUbatch_cells (c.seqRm dest (-1) (-1)) dest head hi
  have hblank := ((hc.seqRm dest (-1) (-1)) (head + i)).blank
    (hfree _ (Nat.le_add_right _ _) (by omega))
  refine ⟨by rw [hcell]; simp [hblank.2], ?_⟩
  have hk : ∀ il, i < (st.keys il).length := fun il => by rw [st.length_keys]; exact hi
  have hv : ∀ il j, i < (st.values il j).length := fun il j => by rw [st.length_values]; exact hi
  ext1
  · rw [entry, hcell]
  · exact funext fun il => setRows_add (hk il)
  · exact funext fun il => funext fun j => setRows_add (hv il j)

theorem withStream_of_notMem (c : KvCache m size) (dest : Int) (rots : List Int) {i : Nat}
    (hi : ¬ (head ≤ i ∧ i < head + st.positions.length)) :
    (c.withStream dest st head rots).cells i = (c.seqRm dest (-1) (-1)).cells i ∧
      (∀ il, (c.withStream dest st head rots).k il i = c.k il i) ∧
      ∀ il j, (c.withStream dest st head rots).v il j i = c.v il j i := by
  refine ⟨?_, fun il => ?_, fun il j => ?_⟩
  · exact place_cells_of_notMem (by rwa [loadUbatch_nTokens])
  · exact setRows_of_notMem (by rwa [st.length_keys])
  · exact setRows_of_notMem (by rwa [st.length_values])

/-- What a loaded stream leaves: its entries in the sequence, and the other sequences' cells. -/
theorem withStream_spec (hc : c.Sound) (rots : List Int) (hd : 0 ≤ dest)
    (hsize : head + st.positions.length ≤ size)
    (hfree : ∀ i, head ≤ i → i < head + st.positions.length →
      ((c.seqRm dest (-1) (-1)).cells i).pos < 0) :
    (c.withStream dest st head rots).entries dest =
        (List.range st.positions.length).map
          (fun i => (c.withStream dest st head rots).entry (head + i)) ∧
      OthersKept c (c.withStream dest st head rots) dest := by
  have hin : ∀ i, head ≤ i ∧ i < head + st.positions.length →
      ((c.withStream dest st head rots).cells i).seqId = {dest} := by
    rintro i ⟨h1, h2⟩
    obtain ⟨j, rfl⟩ := Nat.exists_eq_add_of_le h1
    exact (withStream_cells_of_mem hc hfree (by omega)).1
  constructor
  · rw [entries, filter_window (h := head) hsize, List.map_map]
    · rfl
    · intro i _
      rw [decide_eq_true_iff]
      by_cases hi : head ≤ i ∧ i < head + st.positions.length
      · simp [hin i hi, hi]
      · rw [(withStream_of_notMem _ _ _ hi).1, seqRm_cells, (rm_all (hc i) hd).1]
        simp [hi]
  · intro i t ht
    have hrm := rm_all (hc i) hd
    by_cases hi : head ≤ i ∧ i < head + st.positions.length
    · have hblank := ((hc.seqRm dest (-1) (-1)) i).blank (hfree i hi.1 hi.2)
      rw [seqRm_cells, hrm.1] at hblank
      have hnot : t ∉ (c.cells i).seqId := fun hmem => by
        have := Finset.mem_erase.2 ⟨ht, hmem⟩
        simp [hblank.2] at this
      simp [hin i hi, hnot, ht]
    · obtain ⟨hcell, hk, hv⟩ := withStream_of_notMem c dest rots hi
      have hids : ((c.withStream dest st head rots).cells i).seqId =
          (c.cells i).seqId.erase dest := by
        rw [hcell, seqRm_cells, hrm.1]
      refine ⟨by simp [hids, ht], fun hmem => ?_⟩
      have hone : (c.cells i).seqId ≠ {dest} := fun h1 => ht (by simpa [h1] using hmem)
      ext1
      · rw [entry, hcell, seqRm_cells, hrm.2, if_neg hone]
        rfl
      · exact funext hk
      · exact funext fun il => funext (hv il)

end Filled

/-- Saving a sequence of one cache and loading it into another, of the same model. -/
def RoundTrips {size' : Nat} (c₁ : KvCache m size) (s : Int) (c₂ : KvCache m size') (d : Int) :
    Prop :=
  ∀ rots, ∃ c', c₂.stateRead d (c₁.stateWrite s) rots = .loaded c' [] ∧
    c'.entries d = c₁.entries s ∧ OthersKept c₂ c' d

theorem length_entries (hc : c.Sound) {s : Int} (hs : s ≠ -1) :
    (c.stream hc s).positions.length = (c.entries s).length := by
  simp [stream, entries, written, hs]

theorem entries_eq (c : KvCache m size) {s : Int} (hs : s ≠ -1) :
    c.entries s = (c.written s).map c.entry := by
  simp [entries, written, hs]

/-- Loading an empty sequence runs into the assertions. -/
theorem readMetaSeq_zero (c : KvCache m size) (dest : Int) {count : Nat} {bs rest : Bytes}
    (hps : readPositions count bs = .ok ([], rest)) :
    c.readMetaSeq dest count bs = none := by
  have hroom : (c.seqRm dest (-1) (-1)).Room (loadUbatch dest []).nTokens :=
    ⟨0, by simp [loadUbatch_nTokens], fun i _ hi => by simp [loadUbatch_nTokens] at hi⟩
  simp [readMetaSeq, hps, findSlot_of_room hroom, slotChecks]

theorem roundTrips_iff {size' : Nat} {c₁ : KvCache m size} {c₂ : KvCache m size'} (h₁ : c₁.Sound)
    (h₂ : c₂.Sound) {s d : Int} (hs : 0 ≤ s) (hd : 0 ≤ d)
    (hroom : c₂.HasRoom d (c₁.entries s).length) :
    RoundTrips c₁ s c₂ d ↔ c₁.entries s ≠ [] := by
  have hs1 : s ≠ -1 := by omega
  have hd1 : d ≠ -1 := by omega
  have hlen := length_entries h₁ hs1
  constructor
  · intro h hnil
    obtain ⟨c', hload, -⟩ := h []
    have hps : (c₁.stream h₁ s).positions = [] := by
      rw [← List.length_eq_zero_iff, hlen, hnil]
      rfl
    rw [stateWrite_eq h₁ hs1, stateRead, SeqStream.bytes, List.append_assoc,
      readTo_write (c₁.stream h₁ s).length_valid] at hload
    have habort : c₂.readMetaSeq d 0 (dataBytes m (c₁.stream h₁ s).vTrans (c₁.stream h₁ s).keys
        (c₁.stream h₁ s).values) = none := readMetaSeq_zero c₂ d rfl
    simp [hd1, hps, habort] at hload
  · intro hne rots
    have hps : (c₁.stream h₁ s).positions ≠ [] := by
      rw [← List.length_pos_iff, hlen]
      exact List.length_pos_iff.2 hne
    have hr : (c₂.seqRm d (-1) (-1)).Room (loadUbatch d (c₁.stream h₁ s).positions).nTokens := by
      rw [loadUbatch_nTokens, hlen]
      exact (room_seqRm_iff h₂ hd).2 hroom
    rcases findSlot_cases (c₂.seqRm d (-1) (-1)) (loadUbatch d (c₁.stream h₁ s).positions) with
      ⟨head, hslot, hsize, hfree⟩ | ⟨head, hslot⟩
    · rw [loadUbatch_nTokens] at hsize hfree
      obtain ⟨hent, hothers⟩ := withStream_spec h₂ rots hd hsize hfree
      have hread := stateRead_stream hd1 (c₁.stream h₁ s) [] rots hps hslot hsize
      rw [List.append_nil, ← stateWrite_eq h₁ hs1] at hread
      refine ⟨_, hread, ?_, hothers⟩
      rw [hent, entries_eq c₁ hs1]
      refine List.ext_getElem (by simp [stream]) fun i hi hi' => ?_
      rw [List.getElem_map, List.getElem_range,
        (withStream_cells_of_mem h₂ hfree (by simpa using hi)).2]
      simp [stream, entry]
    · have := findSlot_of_room hr
      simp [hslot] at this

end KvCache

/-! ## Streams that are rejected -/

/-- A stream begins with a saved sequence of the model. -/
def WellFormed (m : KvParams) (bs : Bytes) : Prop := ∃ (st : SeqStream m) (rest : Bytes),
  bs = st.bytes ++ rest

/-- What `state_read_data` makes of a stream, apart from the cache. -/
def tensorVerdict (m : KvParams) (size count : Nat) (bs : Bytes) : Except ReadError Bytes := do
  let bs ← readDataHeader m size count bs
  let bs ← (List.finRange m.nLayer).foldlM (fun bs il => do
    let bs ← readKeyHeader m il bs
    let r ← readTo (many (block (m.kSizeRow il)) count) bs
    .ok r.2) bs
  (List.finRange m.nLayer).foldlM (fun bs il => do
    let bs ← readValueHeader m il bs
    (List.finRange (m.vRows il)).foldlM (fun bs _ => do
      let r ← readTo (many (block (m.vPiece il)) count) bs
      .ok r.2) bs) bs

theorem readEach_verdict {ι : Type} {f : ι → KvCache m size → Bytes → Loading m size}
    {g : Bytes → ι → Except ReadError Bytes} (hf : ∀ a c bs, (f a c bs).2 = g bs a) :
    ∀ (as : List ι) (c : KvCache m size) (bs : Bytes), (readEach f as c bs).2 = as.foldlM g bs
  | [], c, bs => rfl
  | a :: as, c, bs => by
    have ha := hf a c bs
    rw [readEach, List.foldlM_cons]
    rcases hfa : f a c bs with ⟨c₁, e | bs₁⟩ <;> rw [hfa] at ha <;> rw [← ha]
    · rfl
    · exact readEach_verdict hf as c₁ bs₁

theorem KvCache.stateReadData_verdict (c : KvCache m size) (count : Nat) (rots : List Int)
    (bs : Bytes) : (c.stateReadData count rots bs).2 = tensorVerdict m size count bs := by
  have hkeys := readEach_verdict (m := m) (f := @KvCache.readKeys m size count)
    (g := fun bs il => readKeyHeader m il bs >>= fun bs =>
      readTo (many (block (m.kSizeRow il)) count) bs >>= fun r => .ok r.2) fun il c bs => by
    rw [readKeys, ← bind_assoc]
    cases readKeyHeader m il bs >>= readTo (many (block (m.kSizeRow il)) count) <;> rfl
  have hrow := fun il => readEach_verdict (f := @KvCache.readValueRow m size count il)
    (g := fun bs _ => readTo (many (block (m.vPiece il)) count) bs >>= fun r => .ok r.2)
    fun j c bs => by
      rw [readValueRow]
      cases readTo (many (block (m.vPiece il)) count) bs <;> rfl
  have hvalues := readEach_verdict (f := @KvCache.readValues m size count)
    (g := fun bs il => readValueHeader m il bs >>= fun bs =>
      (List.finRange (m.vRows il)).foldlM (fun bs _ =>
        readTo (many (block (m.vPiece il)) count) bs >>= fun r => .ok r.2) bs) fun il c bs => by
    rw [readValues]
    cases readValueHeader m il bs with
    | error e => rfl
    | ok bs => exact hrow il _ c bs
  unfold stateReadData tensorVerdict
  cases readDataHeader m size count bs with
  | error e => rfl
  | ok bs₁ =>
    have hk := hkeys (List.finRange m.nLayer) c bs₁
    change _ = (List.foldlM _ bs₁ (List.finRange m.nLayer) >>= _)
    simp only [Loading.bind]
    rcases hr : readEach (KvCache.readKeys count) (List.finRange m.nLayer) c bs₁ with
      ⟨c₁, e | bs₂⟩ <;> rw [hr] at hk
    · rw [← hk]
      rfl
    · rw [← hk]
      exact hvalues _ _ bs₂

namespace KvCache

variable {c : KvCache m size}

def RejectsClean (c : KvCache m size) (d : Int) (bs : Bytes) : Prop :=
  ∀ rots, ∃ c', c.stateRead d bs rots = .failed c' ∧ ∀ i, d ∉ (c'.cells i).seqId

/-- When a rejected stream leaves nothing behind: it is cut off or refused before its cells get a
slot, or it has cells, with valid positions, and a check of the tensor data fails before the stream
ends. A stream without a count leaves the old cells of the sequence. -/
def CleansUp (c : KvCache m size) (d : Int) (bs : Bytes) : Prop :=
  match readTo u32 bs with
  | .error _ => ∀ i, d ∉ (c.cells i).seqId
  | .ok (count, bs) =>
    match readPositions count bs with
    | .error _ => True
    | .ok (positions, bs) => c.HasRoom d count →
      positions ≠ [] ∧ tensorVerdict m size count bs = .error .refused ∧
        ∀ p ∈ positions, ValidPos p

theorem notMem_seqRm (hc : c.Sound) {d : Int} (hd : 0 ≤ d) (i : Nat) :
    d ∉ ((c.seqRm d (-1) (-1)).cells i).seqId := by
  rw [seqRm_cells, (rm_all (hc i) hd).1]
  exact Finset.notMem_erase _ _

/-- A cell that was given a position is cleaned up if the position is valid. -/
theorem notMem_rm_iff {cell : KvCell} {d : Int} (hd : 0 ≤ d) (hids : cell.seqId = {d}) :
    d ∉ (cell.rm d (-1) (-1)).cell.seqId ↔ ValidPos cell.pos := by
  have hrange : cell.inRange (-1) (-1) ↔ ValidPos cell.pos := by
    simp [KvCell.inRange, rangeStart, rangeEnd, ValidPos]
  have hneg : ¬ d < 0 := not_lt.2 hd
  unfold KvCell.rm KvCell.without
  by_cases h : ValidPos cell.pos
  · simp [hrange, h, hids, hneg]
  · simp [hrange, h, hids]

/-- The cells of the slot of a load that was refused, after the clean-up. -/
theorem notMem_seqRm_place_iff (hc : c.Sound) {d : Int} (hd : 0 ≤ d) {ps : List Int} {head : Nat}
    {c₁ : KvCache m size}
    (hfree : ∀ i, head ≤ i → i < head + ps.length → ((c.seqRm d (-1) (-1)).cells i).pos < 0)
    (hcells : c₁.cells = ((c.seqRm d (-1) (-1)).place (loadUbatch d ps) head).cells) :
    (∀ i, d ∉ ((c₁.seqRm d (-1) (-1)).cells i).seqId) ↔ ∀ p ∈ ps, ValidPos p := by
  have hsound := hc.seqRm d (-1) (-1)
  have hin : ∀ j (hj : j < ps.length), (c₁.cells (head + j)).seqId = {d} ∧
      (c₁.cells (head + j)).pos = ps[j] := by
    intro j hj
    have hblank := (hsound (head + j)).blank (hfree _ (Nat.le_add_right _ _) (by omega))
    rw [hcells, place_loadUbatch_cells _ _ _ hj]
    simp [hblank.2]
  constructor
  · intro h p hp
    obtain ⟨j, hj, rfl⟩ := List.mem_iff_getElem.1 hp
    rw [← (hin j hj).2]
    exact (notMem_rm_iff hd (hin j hj).1).1 (h (head + j))
  · intro h i
    by_cases hi : head ≤ i ∧ i < head + ps.length
    · obtain ⟨j, rfl⟩ := Nat.exists_eq_add_of_le hi.1
      have hj : j < ps.length := by omega
      rw [seqRm_cells, notMem_rm_iff hd (hin j hj).1, (hin j hj).2]
      exact h _ (List.getElem_mem hj)
    · rw [seqRm_cells, hcells, place_cells_of_notMem (by rwa [loadUbatch_nTokens]),
        (rm_all (hsound i) hd).1]
      exact Finset.notMem_erase _ _

/-- A stream whose parts are all accepted is well-formed. -/
theorem wellFormed_of_accepted (c : KvCache m size) {count : Nat} {bs bs₁ bs₂ rest : Bytes}
    {ps : List Int} (hcount : readTo u32 bs = .ok (count, bs₁))
    (hpos : readPositions count bs₁ = .ok (ps, bs₂))
    (hv : tensorVerdict m size count bs₂ = .ok rest) : WellFormed m bs := by
  obtain ⟨hcv, rfl⟩ := readTo_eq_ok.1 hcount
  obtain ⟨rfl, hps, rfl⟩ := readPositions_eq_ok.1 hpos
  obtain ⟨-, vTrans, keys, values, hvt, ht, hk, hvs, rfl, -⟩ := stateReadData_eq_ok.1
    (Prod.ext rfl ((stateReadData_verdict c ps.length [] bs₂).trans hv))
  exact ⟨⟨ps, vTrans, keys, values, hcv, hps, hvt, ht, hk, hvs⟩, rest, by simp [SeqStream.bytes]⟩

theorem finishRead_short (seqId : Int) {r : Loading m size} (h : r.2 = .error .short) :
    finishRead seqId r = .failed r.1 := by
  obtain ⟨c, v⟩ := r
  obtain rfl : v = _ := h
  rfl

theorem finishRead_refused (seqId : Int) {r : Loading m size} (h : r.2 = .error .refused) :
    finishRead seqId r = .failed (if seqId = -1 then r.1.clear else r.1.seqRm seqId (-1) (-1)) := by
  obtain ⟨c, v⟩ := r
  obtain rfl : v = _ := h
  rfl

theorem rejectsClean_iff (hc : c.Sound) {d : Int} (hd : 0 ≤ d) {bs : Bytes}
    (hbad : ¬ WellFormed m bs) : c.RejectsClean d bs ↔ c.CleansUp d bs := by
  have hd1 : d ≠ -1 := by omega
  have hrm := notMem_seqRm hc hd
  have hrm2 := notMem_seqRm (hc.seqRm d (-1) (-1)) hd
  unfold RejectsClean CleansUp stateRead
  cases hcount : readTo u32 bs with
  | error e => simp
  | ok r =>
    obtain ⟨count, bs₁⟩ := r
    simp only [if_neg hd1]
    cases hpos : readPositions count bs₁ with
    | error e =>
      cases e <;> simp [readMetaSeq, hpos, Loading.bind, finishRead, hd1, hrm, hrm2]
    | ok r =>
      obtain ⟨ps, bs₂⟩ := r
      obtain ⟨hlen, hvalid, hbs₁⟩ := readPositions_eq_ok.1 hpos
      subst hlen
      rw [← room_seqRm_iff hc hd]
      rcases findSlot_cases (c.seqRm d (-1) (-1)) (loadUbatch d ps) with
        ⟨head, hslot, hsize, hfree⟩ | ⟨head, hslot⟩
      · rw [loadUbatch_nTokens] at hsize hfree
        have hroom : (c.seqRm d (-1) (-1)).Room ps.length := ⟨head, hsize, hfree⟩
        simp only [hroom, true_implies]
        rcases eq_or_ne ps [] with rfl | hps
        · simp only [readMetaSeq_zero _ _ hpos]
          simp
        · have hchecks := slotChecks_place (c.seqRm d (-1) (-1)) d hps hsize
          simp only [readMetaSeq, hpos, hslot, if_true, hchecks, Loading.bind]
          have hcells := fun rots => (stateReadData_sameMeta
            ((c.seqRm d (-1) (-1)).place (loadUbatch d ps) head).commit ps.length rots bs₂).cells
          have hverdict := fun rots => stateReadData_verdict
            ((c.seqRm d (-1) (-1)).place (loadUbatch d ps) head).commit ps.length rots bs₂
          cases hv : tensorVerdict m size ps.length bs₂ with
          | ok rest => exact absurd (wellFormed_of_accepted c hcount hpos hv) hbad
          | error e =>
            cases e with
            | short =>
              have hhead := place_loadUbatch_cells (c.seqRm d (-1) (-1)) d head
                (List.length_pos_of_ne_nil hps)
              simp only [fun rots => finishRead_short d ((hverdict rots).trans hv),
                Loaded.failed.injEq, exists_eq_left', hcells, Except.error.injEq, reduceCtorEq,
                false_and, and_false, iff_false, not_forall]
              exact ⟨[], head, by simpa [commit] using hhead ▸ by simp⟩
            | refused =>
              simp only [fun rots => finishRead_refused d ((hverdict rots).trans hv),
                if_neg hd1, Loaded.failed.injEq, exists_eq_left',
                fun rots => notMem_seqRm_place_iff hc hd hfree (hcells rots)]
              simp [hps]
      · have hroom : ¬ (c.seqRm d (-1) (-1)).Room ps.length := fun h => by
          rw [← loadUbatch_nTokens d ps] at h
          simpa [hslot] using findSlot_of_room h
        have hclean : ∀ i, d ∉ ((({ c.seqRm d (-1) (-1) with head := head } :
            KvCache m size).seqRm d (-1) (-1)).cells i).seqId := hrm2
        simp [readMetaSeq, hpos, hslot, Loading.bind, finishRead, hd1, hroom, hclean]

end KvCache

/-! ## The law and where it fails -/

/-- A saved sequence loads into any cache of the model with room for it, and a stream that is not a
saved sequence is rejected without a trace. -/
def SeqStateLaw : Prop :=
  ∀ (m : KvParams) (size size' : Nat) (c₁ : KvCache m size) (c₂ : KvCache m size') (s d : Int),
    KvReached m size c₁ → KvReached m size' c₂ → 0 ≤ s → 0 ≤ d →
      (c₂.HasRoom d (c₁.entries s).length → KvCache.RoundTrips c₁ s c₂ d) ∧
      ∀ bs, ¬ WellFormed m bs → c₂.RejectsClean d bs

/-- A sequence loads from its saved state if and only if it has a cell. A stream that is not a saved
sequence leaves nothing behind if and only if it is cut off or refused early enough. -/
theorem seqState_law {m : KvParams} {size size' : Nat} {c₁ : KvCache m size}
    {c₂ : KvCache m size'} (h₁ : KvReachable m size c₁) (h₂ : KvReachable m size' c₂) {s d : Int}
    (hs : 0 ≤ s) (hd : 0 ≤ d) :
    (c₂.HasRoom d (c₁.entries s).length →
      (KvCache.RoundTrips c₁ s c₂ d ↔ c₁.entries s ≠ [])) ∧
    ∀ bs, ¬ WellFormed m bs → (c₂.RejectsClean d bs ↔ c₂.CleansUp d bs) :=
  ⟨KvCache.roundTrips_iff h₁.sound h₂.sound hs hd,
    fun _ => KvCache.rejectsClean_iff h₂.sound hd⟩

/-- The cache after three tokens of sequence `0` were decoded. -/
def threeTokens : KvCache byteModel 4 :=
  (kvStep (emptyCache 4 four_lt)
    (.decode (decodeCall [(consecutive 0 0 3, .success)]))).getD (emptyCache 4 four_lt)

theorem threeTokens_reachable : KvReachable byteModel 4 threeTokens := by
  refine Transition.Reachable.next
    (a := .decode (decodeCall [(consecutive 0 0 3, .success)]))
    (s := emptyCache 4 four_lt) ⟨_, [], ⟨_, rfl⟩, .nil⟩ ⟨?_, rfl⟩
  intro g hg k hk
  simp only [decodeCall, List.map_cons, List.map_nil, List.mem_singleton] at hg
  subst hg
  have hk : k < 3 := hk
  simp only [consecutive, ValidPos, posMax]
  omega

theorem seqState_law_threeTokens :
    KvCache.RoundTrips threeTokens 0 (emptyCache 8 (by decide)) 1 ∧
      (emptyCache 8 (by decide)).RejectsClean 1 [] := by
  have hempty : KvReachable byteModel 8 (emptyCache 8 (by decide)) :=
    ⟨_, [], ⟨_, rfl⟩, .nil⟩
  have hlen : (threeTokens.entries 0).length = 3 := by decide
  obtain ⟨hload, hreject⟩ := seqState_law (s := 0) (d := 1) threeTokens_reachable hempty
    (by decide) (by decide)
  refine ⟨(hload ?_).2 ?_, (hreject [] ?_).2 ?_⟩
  · rw [hlen]
    exact ⟨0, by decide, fun i _ _ => .inl (by simp [emptyCache])⟩
  · intro hnil
    simp [hnil] at hlen
  · rintro ⟨st, rest, h⟩
    simp [SeqStream.bytes, u32, unsigned, toLE] at h
  · simp [KvCache.CleansUp, readTo, u32, unsigned, takeBytes, Except.ofOption, emptyCache]

/-- An empty sequence does not load. -/
theorem not_seqStateLaw : ¬ SeqStateLaw := by
  intro h
  have hreach : KvReached byteModel 4 (emptyCache 4 four_lt) := ⟨_, [], ⟨_, rfl⟩, .nil⟩
  have hsound : (emptyCache 4 four_lt).Sound := fun _ => KvCell.sound_blank 0
  obtain ⟨hload, -⟩ := h byteModel 4 4 _ _ 0 0 hreach hreach (by decide) (by decide)
  have hnil : (emptyCache 4 four_lt).entries 0 = [] := by simp [KvCache.entries, emptyCache]
  have hroom : (emptyCache 4 four_lt).HasRoom 0 0 := ⟨0, by decide, fun i _ _ => by omega⟩
  rw [hnil] at hload
  exact (KvCache.roundTrips_iff hsound hsound (by decide) (by decide)
    (by simpa [hnil] using hroom)).1 (hload hroom) hnil

end LamaServer
