import LamaServer.Slot
import LamaServer.Hex
import Mathlib.Algebra.Field.Rat

/-!
# Ingesting documents

`handle_chunking` splits each tokenised prompt in pieces, posts an embedding task for each piece,
and inserts chunks in the database as the results arrive: each result appends the embeddings of its
tokens to `all_embedding`, and the chunks are averages of its first embeddings, with the text of the
first tokens of `all_prompt`. The callback's result is not used by `receive_streamed_results`.
Embeddings are vectors of rationals, so their averages are exact.
-/

namespace LamaServer

abbrev Embedding := List Rat

def idealStreamSize : Nat := 2048
def internalRagChunkSize : Nat := 300
def overlapForBrutalChunking : Nat := internalRagChunkSize / 3
def stepSizeForBrutalChunking : Nat := internalRagChunkSize - overlapForBrutalChunking

section Pieces

variable {α : Type*}

/-- The elements at `first`, .., `last - 1`. -/
def between (xs : List α) (first last : Nat) : List α := (xs.drop first).take (last - first)

/-- The loop that cuts pieces of one step off the end of a prompt. -/
def cutSteps (prompt : List α) (lastChunkPos : Nat) (chunks : List (List α)) :
    List (List α) × Nat :=
  if _h : idealStreamSize < lastChunkPos then
    cutSteps prompt (lastChunkPos - stepSizeForBrutalChunking)
      (chunks ++ [between prompt (lastChunkPos - stepSizeForBrutalChunking) lastChunkPos])
  else (chunks, lastChunkPos)
termination_by lastChunkPos
decreasing_by simp only [stepSizeForBrutalChunking, overlapForBrutalChunking,
  internalRagChunkSize, idealStreamSize] at *; omega

/-- The pieces of one prompt, in order. -/
def promptPieces (prompt : List α) : List (List α) :=
  if prompt.length ≤ idealStreamSize then [prompt]
  else
    let lastChunkSize := (prompt.length - internalRagChunkSize) % overlapForBrutalChunking
    let lastChunkPos := prompt.length - lastChunkSize
    let chunks := if lastChunkSize ≠ 0 then [between prompt lastChunkPos prompt.length] else []
    let (chunks, lastChunkPos) := cutSteps prompt lastChunkPos chunks
    let chunks := if lastChunkPos ≠ 0 then chunks ++ [between prompt 0 lastChunkPos] else chunks
    chunks.reverse

/-- `embedding_chunks`. -/
def embeddingChunks (prompts : List (List α)) : List (List α) := prompts.flatMap promptPieces

end Pieces

/-- What `insertRagEntry` is called with. -/
structure RagChunk where
  contents : Bytes
  vector : Embedding
  deriving DecidableEq

/-- What the handler's calls return. -/
structure IngestEnv where
  /-- `common_detokenize` -/
  detokenize : List Token → Bytes
  /-- whether `insertRagEntry` succeeds with so many chunks inserted before -/
  inserts : Nat → Bool

/-- The variables the callback captures. -/
structure Ingest where
  taskN : Nat := 0
  allPrompt : List Token
  allEmbedding : List Embedding := []
  position : Nat := 0
  isLastBlock : Bool := false
  error : Bool := false
  inserted : List RagChunk := []
  responses : List (Nat × Nat) := []
  deriving DecidableEq

/-- The average of the first embeddings. -/
def chunkVector (embeddingSz chunkSz : Nat) (allEmbedding : List Embedding) : Embedding :=
  (List.range embeddingSz).map fun dim =>
    ((allEmbedding.take chunkSz).map (·.getD dim 0)).sum / (chunkSz : Rat)

variable (env : IngestEnv)

/-- One chunk is inserted, unless the database refuses it. -/
def insertChunk (embeddingSz chunkSz : Nat) (s : Ingest) : Ingest :=
  if env.inserts s.inserted.length then
    { s with
      inserted := s.inserted ++ [{
        contents := env.detokenize (s.allPrompt.take chunkSz)
        vector := chunkVector embeddingSz chunkSz s.allEmbedding }]
      responses := s.responses ++ [(s.position, chunkSz)] }
  else { s with error := true }

/-- The callback's loop. -/
def chunkLoop (nPieces embeddingSz : Nat) (s : Ingest) : Ingest :=
  if _h : internalRagChunkSize ≤ s.allEmbedding.length then
    let s' := insertChunk env embeddingSz internalRagChunkSize s
    if s'.error then s'
    else if s.isLastBlock then s'
    else chunkLoop nPieces embeddingSz { s' with
      position := s.position + stepSizeForBrutalChunking
      allEmbedding := s.allEmbedding.drop stepSizeForBrutalChunking
      allPrompt := s.allPrompt.drop stepSizeForBrutalChunking }
  else if s.taskN + 1 = nPieces then
    insertChunk env embeddingSz s.allEmbedding.length { s with isLastBlock := true }
  else s
termination_by s.allEmbedding.length
decreasing_by simp only [stepSizeForBrutalChunking, overlapForBrutalChunking,
  internalRagChunkSize, List.length_drop] at *; omega

/-- The callback. -/
def onResult (nPieces : Nat) (s : Ingest) (embedding : List Embedding) : Ingest :=
  if s.error then s
  else
    let s := { s with allEmbedding := s.allEmbedding ++ embedding }
    if s.allPrompt.length < s.allEmbedding.length then s
    else chunkLoop env nPieces (s.allEmbedding.headD []).length s

/-- What the handler receives while it waits for a result. -/
inductive Arrival where
  | embd (embedding : List Embedding)
  | timeout
  | error
  | closed

/-- `server_context::receive_streamed_results`. -/
def receiveStreamedResults (nPieces : Nat) : Ingest → List Arrival → Ingest
  | s, [] => s
  | s, .closed :: _ => s
  | s, .error :: _ => { s with error := true }
  | s, .timeout :: arrivals => receiveStreamedResults nPieces s arrivals
  | s, .embd embedding :: arrivals =>
    receiveStreamedResults nPieces (onResult env nPieces s embedding) arrivals

/-- `handle_chunking` from the tokenised prompts on; `none` where it refuses them. -/
def handleChunking (prompts : List (List Token)) (arrivals : List Arrival) : Option Ingest :=
  match prompts with
  | [] => none
  | prompt :: _ =>
    if [] ∈ prompts then none
    else some (receiveStreamedResults env (embeddingChunks prompts).length { allPrompt := prompt }
      arrivals)

end LamaServer
