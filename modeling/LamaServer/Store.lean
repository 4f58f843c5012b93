import LamaServer.Hex
import LamaServer.Lib.Except
import Mathlib.Data.List.DropRight
import Mathlib.Data.Vector.Basic

/-!
# The RAG store

`postgres_client` keeps documents, contents and entries in three tables. A table is the list of its
rows in the order they were inserted; a `CHAR`, `VARCHAR` or `TEXT` column is its bytes, an
`INTEGER` column an `Int`, a `BYTEA` column `none` where it is null. The primary and foreign keys,
`ON CONFLICT DO NOTHING`, the joins, `ORDER BY` and `LIMIT` do what PostgreSQL documents. The hash,
the keys, the cipher, the vector type and its distance are the fields of `Env`. A call that throws
is an `error`, with the tables as it leaves them.
-/

namespace LamaServer

abbrev Sha256Hash := List.Vector UInt8 32
abbrev Ecc256PrivateKey := List.Vector UInt8 32
abbrev Ecc256PublicKey := List.Vector UInt8 33
abbrev AesGcmTag := List.Vector UInt8 16
abbrev AesGcmNonce := List.Vector UInt8 12

/-- A value-initialised `std::array<uint8_t, n>`. -/
def zeroBytes (n : Nat) : List.Vector UInt8 n := List.Vector.replicate n 0

/-- What the store calls: OpenSSL and the vector extension. `V` is `std::vector<float>`, `D` the
type of a distance. -/
structure Env (V D : Type) where
  /-- `CryptoUtils::computeSha256Bytes` -/
  sha256 : Bytes → Sha256Hash
  computePublicKey : Ecc256PrivateKey → Ecc256PublicKey
  computeEcdhSharedSecretSha256 : Ecc256PrivateKey → Ecc256PublicKey → Sha256Hash
  /-- `aes256GcmDecrypt` without additional data; `none` where the tag does not match -/
  aes256GcmDecrypt : Bytes → AesGcmTag → Sha256Hash → AesGcmNonce → Option Bytes
  /-- what a `VARCHAR(255)` column keeps of a text in the database's encoding, if it takes it -/
  varchar : Bytes → Option Bytes
  /-- the vector a `VECTOR` column keeps of the text of an embedding, if it takes it -/
  vector : V → Option V
  distance : V → V → D
  distanceLe : D → D → Bool
  /-- what an `std::array` on the stack holds before it is assigned -/
  uninitialised : ∀ n, List.Vector UInt8 n

/-- `document_entry`, and a row of the document table. -/
structure DocumentEntry where
  documentId : Bytes
  date : Bytes
  version : Bytes
  contentType : Bytes
  url : Bytes
  length : Int
  deriving DecidableEq

/-- A row of the encrypted content table, keyed by `hash`. -/
structure ContentRow where
  hash : Bytes
  encryptedContent : Option Bytes
  tag : Bytes
  nonce : Bytes
  ephemeralPublicKey : Bytes
  deriving DecidableEq

/-- A row of the RAG table. -/
structure RagRow (V : Type) where
  documentId : Bytes
  embedding : V
  hash : Bytes
  loffset : Int
  length : Int
  controllerPublicKey : Bytes
  encryptionPublicKey : Bytes
  deriving DecidableEq

structure Database (V : Type) where
  documents : List DocumentEntry := []
  contents : List ContentRow := []
  entries : List (RagRow V) := []

/-- `encryption_result`. -/
structure EncryptionResult where
  ciphertext : Bytes
  tag : AesGcmTag
  nonce : AesGcmNonce
  ephemeralPublicKey : Ecc256PublicKey

/-- `rag_database::nearest_result`. -/
structure NearestResult (V D : Type) where
  documentId : Bytes
  embedding : V
  hash : Bytes
  offset : Int
  length : Int
  controllerPublicKey : Ecc256PublicKey
  encryptionPublicKey : Ecc256PublicKey
  docDate : Bytes
  docVersion : Bytes
  docContentType : Bytes
  docUrl : Bytes
  docLength : Int
  encryptedContent : Bytes
  tag : AesGcmTag
  nonce : AesGcmNonce
  ephemeralPublicKey : Ecc256PublicKey
  distance : D

/-- The text parameter that `c_str()` passes. -/
def cStr (s : Bytes) : Bytes := s.takeWhile (· ≠ 0)

/-- What a `CHAR(n)` column keeps of a text: blanks past the `n`th character are dropped, a shorter
text is padded with blanks. -/
def charN (n : Nat) (s : Bytes) : Except String Bytes :=
  if s.length ≤ n then .ok (s ++ List.replicate (n - s.length) 32)
  else if (s.drop n).all (· = 32) then .ok (s.take n)
  else .error "value too long for type character"

/-- What an `INTEGER` column keeps of a number. -/
def int4 (n : Int) : Except String Int :=
  if -2 ^ 31 ≤ n ∧ n < 2 ^ 31 then .ok n else .error "value out of range for type integer"

variable {V D : Type} (env : Env V D)

/-- `postgres_client::computeSha256HexString`. -/
def computeSha256HexString (data : Bytes) : Bytes := bytesToHex (env.sha256 data).toList

/-- `std::to_string`. -/
def decimal (n : Int) : Bytes :=
  (if n < 0 then [45] else []) ++
    (Nat.toDigits 10 n.natAbs).map fun c => UInt8.ofNat c.toNat

/-- The inserted row of `createOrRetrieveDocument`; the pointer it passes for the length dangles,
and `lengthText` is the number the database reads there, if it reads one. -/
def insertDocument (documentId date version contentType url : Bytes) (lengthText : Option Int) :
    Except String DocumentEntry := do
  let documentId ← charN 64 (cStr documentId)
  let date ← .ofOption "Failed to insert document: " (env.varchar (cStr date))
  let version ← .ofOption "Failed to insert document: " (env.varchar (cStr version))
  let contentType ← .ofOption "Failed to insert document: " (env.varchar (cStr contentType))
  let length ← .ofOption "Failed to insert document: " lengthText
  let length ← int4 length
  pure { documentId, date, version, contentType, url := cStr url, length }

/-- `postgres_client::createOrRetrieveDocument`. -/
def createOrRetrieveDocument (db : Database V) (date version contentType url : Bytes)
    (length : Int) (lengthText : Option Int) : Except String DocumentEntry × Database V :=
  let documentId := computeSha256HexString env (url ++ date ++ version ++ contentType ++
    decimal length)
  match db.documents.find? (·.documentId = documentId) with
  | some row => (.ok row, db)
  | none =>
    match insertDocument env documentId date version contentType url lengthText with
    | .error e => (.error e, db)
    | .ok row =>
      (.ok { documentId := row.documentId, date, version, contentType, url, length },
        { db with documents := db.documents ++ [row] })

/-- A `CHAR` column compares with a text as `=` does, blanks at the end apart. -/
def charEq (column text : Bytes) : Bool := column.rdropWhile (· = 32) = text.rdropWhile (· = 32)

/-- `postgres_client::deleteDocument`. -/
def deleteDocument (db : Database V) (documentId : Bytes) : Except String Unit × Database V :=
  if ∃ e ∈ db.entries, charEq e.documentId (cStr documentId) then
    (.error "update or delete on table violates foreign key constraint", db)
  else
    (.ok (), { db with documents :=
      db.documents.filter fun d => !charEq d.documentId (cStr documentId) })

/-- `no_encryption`. -/
def noEncryption (contents : Bytes) : EncryptionResult where
  ciphertext := contents
  tag := zeroBytes 16
  nonce := zeroBytes 12
  ephemeralPublicKey := zeroBytes 33

/-- The row `insertRagEntry` inserts for its contents; the data pointer of an empty vector is
null. -/
def contentRow (hash : Bytes) (enc : EncryptionResult) : ContentRow where
  hash := hash
  encryptedContent := if enc.ciphertext = [] then none else some enc.ciphertext
  tag := bytesToHex enc.tag.toList
  nonce := bytesToHex enc.nonce.toList
  ephemeralPublicKey := bytesToHex enc.ephemeralPublicKey.toList

/-- `INSERT .. ON CONFLICT (hash) DO NOTHING` into the encrypted content table. -/
def insertContent (contents : List ContentRow) (row : ContentRow) : List ContentRow :=
  if ∃ r ∈ contents, r.hash = row.hash then contents else contents ++ [row]

/-- The row `insertRagEntry` inserts into the RAG table. -/
def ragRow (documents : List DocumentEntry) (documentIdHash : Bytes) (embedding : V)
    (contentHash : Bytes) (length : Nat) (controllerPublicKey recipientPublicKey : Bytes) :
    Except String (RagRow V) := do
  let documentId ← charN 64 (cStr documentIdHash)
  let embedding ← .ofOption "Failed to insert rag entry: " (env.vector embedding)
  let length ← int4 length
  if ∀ d ∈ documents, d.documentId ≠ documentId then
    .error "insert or update violates foreign key constraint"
  else
    pure { documentId, embedding, hash := contentHash, loffset := 0, length, controllerPublicKey
           encryptionPublicKey := recipientPublicKey }

/-- `postgres_client::insertRagEntry`. -/
def insertRagEntry (db : Database V) (documentIdHash : Bytes) (embedding : V) (contents : Bytes)
    (controllerPublicKey : Ecc256PublicKey) (recipientPrivateKey : Ecc256PrivateKey) :
    Except String Unit × Database V :=
  let contentHash := computeSha256HexString env contents
  let recipientPublicKey := env.computePublicKey recipientPrivateKey
  -- `encrypt_ecies` with the recipient's key is commented out
  let encResult := noEncryption contents
  let db := { db with contents := insertContent db.contents (contentRow contentHash encResult) }
  match ragRow env db.documents documentIdHash embedding contentHash contents.length
      (bytesToHex controllerPublicKey.toList) (bytesToHex recipientPublicKey.toList) with
  | .error e => (.error e, db)
  | .ok row => (.ok (), { db with entries := db.entries ++ [row] })

/-- Whether the connection is there, and what it makes of the two statements of `insertRagEntry`
where it is lost. A statement that fails has no effect. -/
structure EntryConnection where
  connected : Bool := true
  contentLost : Option String := none
  entryLost : Option String := none

/-- `postgres_client::insertRagEntry` over a connection, each statement committed by itself. -/
def insertRagEntryOver (conn : EntryConnection) (db : Database V) (documentIdHash : Bytes)
    (embedding : V) (contents : Bytes) (controllerPublicKey : Ecc256PublicKey)
    (recipientPrivateKey : Ecc256PrivateKey) : Except String Unit × Database V :=
  if !conn.connected then (.error "Not connected to the database.", db)
  else match conn.contentLost with
    | some e => (.error ("Failed to insert encrypted content: " ++ e), db)
    | none =>
      match conn.entryLost with
      | some e =>
        let row := contentRow (computeSha256HexString env contents) (noEncryption contents)
        (.error ("Failed to insert rag entry: " ++ e),
          { db with contents := insertContent db.contents row })
      | none =>
        insertRagEntry env db documentIdHash embedding contents controllerPublicKey
          recipientPrivateKey

/-- The text `PQgetvalue` returns for a `BYTEA` column: `\x` and the digits, empty for null. -/
def byteaText : Option Bytes → Bytes
  | none => []
  | some bytes => 92 :: 120 :: bytesToHex bytes

/-- A column of digits copied into an array, which keeps what it held where the sizes differ. -/
def hexToArray (n : Nat) (text : Bytes) : Except String (List.Vector UInt8 n) := do
  let bytes ← hexToBytes text
  pure (if h : bytes.length = n then ⟨bytes, h⟩ else env.uninitialised n)

/-- The result `searchNearest` makes of one row of the join. -/
def readRow (query : V) (row : RagRow V × DocumentEntry × ContentRow) :
    Except String (NearestResult V D) := do
  let (r, d, ec) := row
  let controllerPublicKey ← hexToArray env 33 r.controllerPublicKey
  let encryptionPublicKey ← hexToArray env 33 r.encryptionPublicKey
  let text := byteaText ec.encryptedContent
  -- Remove the "\x" prefix if present
  let encryptedContent ← hexToBytes (if [92, 120].isPrefixOf text then text.drop 2 else text)
  let tag ← hexToArray env 16 ec.tag
  let nonce ← hexToArray env 12 ec.nonce
  let ephemeralPublicKey ← hexToArray env 33 ec.ephemeralPublicKey
  pure {
    documentId := r.documentId, embedding := r.embedding, hash := r.hash, offset := r.loffset
    length := r.length, controllerPublicKey, encryptionPublicKey
    docDate := d.date, docVersion := d.version, docContentType := d.contentType, docUrl := d.url
    docLength := d.length, encryptedContent, tag, nonce, ephemeralPublicKey
    distance := env.distance r.embedding query }

/-- The rows of the `FROM` clause with its two `JOIN`s. -/
def joinedRows (db : Database V) : List (RagRow V × DocumentEntry × ContentRow) :=
  db.entries.flatMap fun r =>
    (db.documents.filter (r.documentId = ·.documentId)).flatMap fun d =>
      (db.contents.filter (r.hash = ·.hash)).map fun ec => (r, d, ec)

/-- `postgres_client::searchNearest` without a filter clause. -/
def searchNearest (db : Database V) (queryEmbedding : V) (nRetrievals : Int) :
    Except String (List (NearestResult V D)) := do
  let query ← .ofOption "Nearest neighbor search failed: " (env.vector queryEmbedding)
  if nRetrievals < 0 then .error "Nearest neighbor search failed: "
  else
    let sorted := (joinedRows db).mergeSort fun a b =>
      env.distanceLe (env.distance a.1.embedding query) (env.distance b.1.embedding query)
    (sorted.take nRetrievals.toNat).mapM (readRow env query)

/-- `EciesUtils::decrypt_ecies`. -/
def decryptEcies (ciphertext : Bytes) (tag : AesGcmTag) (nonce : AesGcmNonce)
    (ephemeralPublicKey : Ecc256PublicKey) (recipientPrivateKey : Ecc256PrivateKey) : Bytes :=
  let aesKey := env.computeEcdhSharedSecretSha256 recipientPrivateKey ephemeralPublicKey
  (env.aes256GcmDecrypt ciphertext tag aesKey nonce).getD []

/-- How `handle_chat_completions` recovers a chunk from a row. -/
def recoverContent (recipientSk : Ecc256PrivateKey) (chunk : NearestResult V D) : Bytes :=
  if chunk.ephemeralPublicKey = zeroBytes 33 then chunk.encryptedContent
  else decryptEcies env chunk.encryptedContent chunk.tag chunk.nonce chunk.ephemeralPublicKey
    recipientSk

/-- The chunks `handle_chat_completions` keeps for the recipient of the given key. -/
def recoverDocuments (recipientSk : Ecc256PrivateKey) (nearestChunks : List (NearestResult V D)) :
    List Bytes :=
  (nearestChunks.filter (·.encryptionPublicKey = env.computePublicKey recipientSk)).map
    (recoverContent env recipientSk) |>.filter (· ≠ [])

end LamaServer
