import SearchEngine.Cache.LRUCache
import SearchEngine.Cache.History
import SearchEngine.Cache.CacheManager
import SearchEngine.Cache.CacheFile
import SearchEngine.Cache.Draining
import SearchEngine.Cache.CopyOrder
import SearchEngine.Cache.CacheFamily
import SearchEngine.Library.Fuel
import SearchEngine.Library.Arithmetic
import SearchEngine.Library.Containers
import SearchEngine.Library.EditDistance
import SearchEngine.Library.Matching
import SearchEngine.Library.PriorityQueue
import SearchEngine.Library.Widths
import SearchEngine.PageDump.Counting
import SearchEngine.PageDump.InvertedIndex
import SearchEngine.PageDump.InvertIndexFile
import SearchEngine.PageDump.Weights
import SearchEngine.PageDump.PageProducer
import SearchEngine.PageDump.PageRanges
import SearchEngine.PageDump.PageLibrary
import SearchEngine.PageDump.RoundTrip
import SearchEngine.Recommender.Candidates
import SearchEngine.Recommender.ExactMatch
import SearchEngine.Recommender.CharacterWalk
import SearchEngine.Recommender.WordChain
import SearchEngine.Recommender.Selection
import SearchEngine.Recommender.Repetition
import SearchEngine.Recommender.KeyRecommander
import SearchEngine.Recommender.SharedQuery
import SearchEngine.Recommender.InterleavedUpdate
import SearchEngine.Recommender.UpdatingFlag
import SearchEngine.Searcher.Answer
import SearchEngine.Searcher.ScoreBounds
import SearchEngine.Searcher.ReadOnly
import SearchEngine.Searcher.SnippetStream
import SearchEngine.Server.SocketIO
import SearchEngine.Server.LineFraming
import SearchEngine.Server.BrokenLine
import SearchEngine.Server.Writen
import SearchEngine.Server.MyTask
import SearchEngine.Server.WireRoundTrip
import SearchEngine.Server.ParseBounds
import SearchEngine.Server.TaskProcessing
import SearchEngine.Reactor.QueueCapacity
import SearchEngine.Reactor.QueueWakeup
import SearchEngine.Reactor.Joining
import SearchEngine.Reactor.EventLoop
import SearchEngine.Reactor.ConnectionOwners
import SearchEngine.Xml.StrPair
import SearchEngine.Xml.Document
import SearchEngine.Xml.Lengths
import SearchEngine.Xml.Malformed
import SearchEngine.PageDump.SplitTool
import SearchEngine.PageDump.Feeds
import SearchEngine.PageDump.PageFile
import SearchEngine.PageDump.Deployment
import SearchEngine.Searcher.LibrarySearch
import SearchEngine.Xml.Navigation
import SearchEngine.Segmenter.MaximalWeight
import SearchEngine.Segmenter.Viterbi
import SearchEngine.Segmenter.WordKinds
import SearchEngine.Recommender.DictBuilding
import SearchEngine.Json.Serializer
import SearchEngine.Json.Parser
import SearchEngine.Server.Responses
