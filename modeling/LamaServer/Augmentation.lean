import LamaServer.Store

/-!
# Augmenting a prompt

What `handle_completions_impl_with_rag` does with the rows nearest to a prompt: those that decrypt
are ranked, by a reranking task for each or in the order they were found, and put before the
question. A score is of a linearly ordered type, so it is no NaN; `std::sort` is any function that
sorts. The prompt, the documents and the delimiter are their bytes.
-/

namespace LamaServer

/-- The fields of a request. -/
structure AugmentParams where
  /-- `n_rag_chunks` -/
  numChunksToRetrieve : Int := 7
  /-- `n_max_augmentations` -/
  numMaxAugmentations : Int := 3
  useReranking : Bool := false

/-- A `std::tuple<int, float, std::string>`. -/
structure RankedDocument (S : Type) where
  index : Nat
  score : S
  content : Bytes

/-- `std::sort` by descending score; the order of equal ones is open. -/
structure ScoreSort (S : Type) [LinearOrder S] where
  sort : List (RankedDocument S) → List (RankedDocument S)
  perm : ∀ l, (sort l).Perm l
  sorted : ∀ l, (sort l).Pairwise fun a b => b.score ≤ a.score

/-- What the reranking tasks come to. -/
inductive RerankReply (S : Type) where
  /-- a result for each, with its index, in the order they arrive -/
  | results (arrivals : List (Nat × S))
  | failed (error : String)
  /-- the connection was closed, and no handler is called -/
  | closed

/-- `std::vector::resize`, to an `int`. -/
def resizeDocuments (documents : List Bytes) (n : Int) : Except String (List Bytes) :=
  if n < 0 then .error "vector::_M_default_append"
  else .ok (documents.take n.toNat ++ List.replicate (n.toNat - documents.length) [])

variable {S : Type}

/-- The slots that `receive_multi_results` files the results in. -/
def fileResults (n : Nat) (arrivals : List (Nat × S)) : List (Option (Nat × S)) :=
  arrivals.foldl (fun results result => results.set result.1 (some result))
    (List.replicate n none)

/-- The result handler. -/
def setScores (ranked : List (RankedDocument S)) (results : List (Option (Nat × S))) :
    List (RankedDocument S) :=
  results.foldl (fun ranked result =>
    match result with
    | some (index, score) => ranked.modify index fun d => { d with score }
    | none => ranked) ranked

/-- The last loop over the ranked documents. -/
def collectDocuments (numMaxAugmentations nAugmentations : Int) :
    List (RankedDocument S) → List Bytes
  | [] => []
  | d :: ds =>
    if numMaxAugmentations ≤ nAugmentations then []
    -- the counter is not incremented
    else d.content :: collectDocuments numMaxAugmentations nAugmentations ds

variable [LinearOrder S] [Zero S]

/-- The documents with their first score. -/
def rankDocuments (S : Type) [Zero S] (documents : List Bytes) : List (RankedDocument S) :=
  documents.mapIdx fun i content => { index := i, score := 0, content }

/-- The documents that are put before the question; `hasSep` tells that the model has a separator
token, without which it cannot rerank. -/
def selectDocuments (sorter : ScoreSort S) (params : AugmentParams) (hasSep : Bool)
    (documents : List Bytes) (reply : RerankReply S) : Except String (List Bytes) :=
  if !(params.useReranking && hasSep) then
    if params.numMaxAugmentations < params.numChunksToRetrieve then
      resizeDocuments documents params.numMaxAugmentations
    else .ok documents
  else if documents = [] then .ok []
  else
    let ranked := rankDocuments S documents
    match reply with
    | .failed error => .error error
    | .closed => .ok (collectDocuments params.numMaxAugmentations 0 (sorter.sort ranked))
    | .results arrivals =>
      let ranked := setScores ranked (fileResults documents.length arrivals)
      .ok (collectDocuments params.numMaxAugmentations 0 (sorter.sort ranked))

/-- `<|im_start|>user`. -/
def userDelimiter : Bytes := "<|im_start|>user".toUTF8.toList

/-- `std::string::rfind`. -/
def rfind (text word : Bytes) : Option Nat :=
  (List.range (text.length + 1)).reverse.find? fun p => word.isPrefixOf (text.drop p)

/-- The lines of the documents. -/
def contextText (documents : List Bytes) : Bytes :=
  if documents = [] then []
  else "Here is some relevant context to answer:\n".toUTF8.toList ++
    documents.flatMap fun document => "- ".toUTF8.toList ++ document ++ [10]

/-- The augmented prompt; what stands before the last turn of the user is left out. -/
def augmentPrompt (prompt : Bytes) (documents : List Bytes) : Except String Bytes :=
  match rfind prompt userDelimiter with
  | none => .ok (contextText documents ++ prompt)
  | some beginPos =>
    let turn := prompt.drop beginPos
    let headLength := userDelimiter.length + 1
    if turn.length < headLength then .error "basic_string::substr"
    else .ok (turn.take headLength ++ contextText documents ++ [10] ++ turn.drop headLength)

variable {V D : Type}

/-- Stage 3 of the handler, from the rows on. -/
def augmentRequest (env : Env V D) (sorter : ScoreSort S) (params : AugmentParams) (hasSep : Bool)
    (recipientSk : Ecc256PrivateKey) (nearestChunks : List (NearestResult V D))
    (reply : RerankReply S) (prompt : Bytes) : Except String Bytes := do
  let documents ← selectDocuments sorter params hasSep
    (recoverDocuments env recipientSk nearestChunks) reply
  augmentPrompt prompt documents

end LamaServer
