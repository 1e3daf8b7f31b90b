import RedisDB.Library.Definedness
import RedisDB.Library.Machine
import RedisDB.Library.Logged
import RedisDB.Library.Amortised
import RedisDB.Library.Progress
import RedisDB.Library.Chains
import RedisDB.Library.Binary32
import RedisDB.Library.ReverseCursor
import RedisDB.Util.IntType
import RedisDB.Hash.Table
import RedisDB.Hash.LoadFactors
import RedisDB.Util.BitsOp
import RedisDB.Util.CursorStep
import RedisDB.Hash.Basic
import RedisDB.Hash.Rehash
import RedisDB.Hash.Calls
import RedisDB.Hash.StateInvariant
import RedisDB.Hash.Pacing
import RedisDB.Hash.Placement
import RedisDB.Hash.Lookup
import RedisDB.Hash.MapRefinement
import RedisDB.Hash.Addresses
import RedisDB.Hash.Scan
import RedisDB.Hash.ScanRun
import RedisDB.Hash.ScanCycle
import RedisDB.Hash.ScanProgress
import RedisDB.Hash.Uniqueness
import RedisDB.Hash.Purge
import RedisDB.Library.Buckets
import RedisDB.Hash.Order
import RedisDB.Hash.Iteration
import RedisDB.Hash.Traversal
import RedisDB.Hash.FirstMatch
import RedisDB.Hash.LookupPaths
import RedisDB.Hash.Traced
import RedisDB.Hash.Indices
import RedisDB.Hash.Completion
import RedisDB.Hash.RehashWork
import RedisDB.Hash.Astray
import RedisDB.Hash.Lifetimes
import RedisDB.Library.AffineFold
import RedisDB.Hash.HashFunction
import RedisDB.Library.Marks
import RedisDB.SkipList.Basic
import RedisDB.SkipList.Overflow
import RedisDB.SkipList.Heap
import RedisDB.SkipList.Representation
import RedisDB.SkipList.Search
import RedisDB.SkipList.Link
import RedisDB.SkipList.Insert
import RedisDB.SkipList.Erase
import RedisDB.Library.Multimap
import RedisDB.SkipList.Queries
import RedisDB.SkipList.Runs
import RedisDB.SkipList.WellLinked
import RedisDB.SkipList.Refinement
import RedisDB.SkipList.OrderQueries
import RedisDB.SkipList.Reverse
import RedisDB.SkipList.Safety
import RedisDB.SkipList.Structure
import RedisDB.SkipList.Destruction
import RedisDB.SkipList.RandomLevel
import RedisDB.Library.Words
import RedisDB.Library.Records
import RedisDB.SkipList.SearchPath
import RedisDB.SkipList.SearchCost
import RedisDB.Library.Fifo
import RedisDB.Library.CondVar
import RedisDB.ThreadPool.Queue
import RedisDB.ThreadPool.Effects
import RedisDB.ThreadPool.Delivery
import RedisDB.ThreadPool.Wakeup
import RedisDB.ThreadPool.Progress
import RedisDB.Library.Consumer
import RedisDB.Http.RequestParser
import RedisDB.Http.Grammar
import RedisDB.Http.RequestLine
import RedisDB.Http.HeaderLines
import RedisDB.Http.Acceptance
import RedisDB.Http.RequestWire
import RedisDB.Http.UrlDecode
import RedisDB.Http.Reply
import RedisDB.Library.RankedSearch
import RedisDB.Http.RequestHandler
import RedisDB.Library.Interleaving
import RedisDB.Http.Connection
import RedisDB.Http.Server
