import LamaServer.Lib.Transition
import LamaServer.Lib.Except
import LamaServer.Lib.Format
import LamaServer.Lib.Index
import LamaServer.Lib.Leftmost
import LamaServer.Lib.Utf8
import LamaServer.Lib.Segments
import LamaServer.Slot
import LamaServer.Queue
import LamaServer.Generation
import LamaServer.Grammar
import LamaServer.Speculation
import LamaServer.Hex
import LamaServer.GrammarParser
import LamaServer.GrammarSampler
import LamaServer.Store
import LamaServer.Ingest
import LamaServer.ResultQueue
import LamaServer.RagConnection
import LamaServer.ServerTokens
import LamaServer.KvCache
import LamaServer.KvState
import LamaServer.Proofs.KvCache
import LamaServer.Proofs.KvState
import LamaServer.Proofs.Defrag
import LamaServer.Proofs.KvShift
import LamaServer.Proofs.KvAccount
import LamaServer.Proofs.KvSequences
import LamaServer.Proofs.ServerTokens
import LamaServer.Proofs.ResultQueue
import LamaServer.Proofs.RagConnection
import LamaServer.Proofs.Generation
import LamaServer.Proofs.Speculation
import LamaServer.Proofs.Grammar
import LamaServer.Proofs.GrammarParser
import LamaServer.Proofs.LeftRecursion
import LamaServer.Proofs.GrammarSampler
import LamaServer.Proofs.Queue
import LamaServer.Proofs.Cancel
import LamaServer.Proofs.Deferred
import LamaServer.Proofs.Store
import LamaServer.Proofs.Documents
import LamaServer.Proofs.Ingest
import LamaServer.KvRecurrent
import LamaServer.Proofs.GrammarMask
import LamaServer.Unicode
import LamaServer.Vocab
import LamaServer.Tokenizer
import LamaServer.Proofs.Unicode
import LamaServer.Proofs.Vocab
import LamaServer.Proofs.Tokenizer
import LamaServer.Proofs.Bpe
import LamaServer.Proofs.Spm
import LamaServer.Proofs.GgufReader
import LamaServer.Proofs.GgufRoundTrip
import LamaServer.Proofs.Log
import LamaServer.Proofs.StopWords
import LamaServer.Proofs.RpcServer
import LamaServer.Proofs.GraphReuse
import LamaServer.Proofs.Gbnf
import LamaServer.Proofs.Hex
import LamaServer.Proofs.Prompt
import LamaServer.Proofs.ModelAction
import LamaServer.Proofs.Augmentation
import LamaServer.Proofs.StoreAtomicity
import LamaServer.Proofs.FindSlot
import LamaServer.Proofs.Compaction
import LamaServer.Proofs.SplitAll
import LamaServer.Proofs.Decode
import LamaServer.Proofs.ValidateUtf8
import LamaServer.Proofs.Base64
import LamaServer.Proofs.ConnectionString
import LamaServer.Proofs.Escapes
import LamaServer.Proofs.PartialChar
import LamaServer.Proofs.Merging
import LamaServer.Proofs.Ugm
import LamaServer.Proofs.SpecialTokens
import LamaServer.Proofs.Splitters
import LamaServer.Proofs.Draft
import LamaServer.Proofs.Penalties
import LamaServer.Proofs.Rwkv
import LamaServer.Proofs.Charsmap
import LamaServer.Proofs.Tallocr
import LamaServer.Proofs.Detokenize
import LamaServer.Proofs.JsonLiteral
import LamaServer.Proofs.Unigram
import LamaServer.Proofs.BoundsExact
import LamaServer.Proofs.LogitBias
import LamaServer.Proofs.Dry
import LamaServer.Proofs.NgramDraft
import LamaServer.Proofs.NgramChoice
import LamaServer.Proofs.NgramCounts
import LamaServer.Proofs.NgramUpdates
import LamaServer.Proofs.NgramFile
import LamaServer.Proofs.TopK
import LamaServer.Proofs.SamplingRing
import LamaServer.Proofs.ChatReply
import LamaServer.Proofs.JsonReader
import LamaServer.Proofs.ToolGrammar
import LamaServer.Proofs.ToolCalls
import LamaServer.Lib.Probing
import LamaServer.Lib.PostOrder
import LamaServer.GraphBuild
import LamaServer.Proofs.GraphBuild
import LamaServer.Lib.Barrier
import LamaServer.Lib.WorkCounter
import LamaServer.ThreadPool
import LamaServer.Proofs.ThreadPool
import LamaServer.Lib.Tiles
import LamaServer.Proofs.RecurrentSlot
import LamaServer.MulMat
import LamaServer.Proofs.MulMat
import LamaServer.Lib.Fragments
import LamaServer.Mmap
import LamaServer.Proofs.Mmap
import LamaServer.ModelLoader
import LamaServer.Proofs.ModelRequests
import LamaServer.Proofs.ModelLoader
import LamaServer.Proofs.Upload
import LamaServer.Sched
import LamaServer.Proofs.SchedSplits
import LamaServer.Proofs.SchedGraph
