import LspGraph.Runs
import LspGraph.FiniteMaps
import LspGraph.Streaming
import LspGraph.Worklist
import LspGraph.Forests
import LspGraph.Framing
import LspGraph.FrameDecoding
import LspGraph.LspTypes
import LspGraph.Graph
import LspGraph.GraphHistory
import LspGraph.Cache
import LspGraph.Symbols
import LspGraph.Server
import LspGraph.SampleHost
import LspGraph.CallableNames
import LspGraph.Spacing
import LspGraph.SourceFiles
import LspGraph.Readiness
import LspGraph.ReadinessSampling
import LspGraph.ReadinessDeadline
import LspGraph.ReadinessVerdict
import LspGraph.SymbolEnumeration
import LspGraph.Engine
import LspGraph.EngineInvariant
import LspGraph.EngineUnresolved
import LspGraph.EngineMemo
import LspGraph.EngineReplay
import LspGraph.EngineSeeds
import LspGraph.EngineDescriptions
import LspGraph.EngineAnswers
import LspGraph.EngineOrder
import LspGraph.Connection
import LspGraph.ReadLoop
import LspGraph.FrameGrammar
import LspGraph.FrameOverflow
import LspGraph.WireOrder
import LspGraph.Pipes
import LspGraph.ReaderDeath
import LspGraph.ResponseCorrelation
import LspGraph.PendingEntries
import LspGraph.Channels
import LspGraph.App
import LspGraph.Keys
import LspGraph.Interface
import LspGraph.Breadcrumb
import LspGraph.Worker
import LspGraph.SymbolPlaces
import LspGraph.Session
import LspGraph.MainLoop
import LspGraph.KeyReleases
import LspGraph.SessionAnswers
import LspGraph.SessionSpinner
import LspGraph.SessionEnd
import LspGraph.SessionSearch
import LspGraph.EngineGrowth
import LspGraph.SessionEngine
import LspGraph.SessionPanes
import LspGraph.SessionVerdict
import LspGraph.Exploration
import LspGraph.EngineExploration
import LspGraph.Machines
import LspGraph.SymbolTable
import LspGraph.Recording
import LspGraph.HostUse
import LspGraph.ServerProcess
import LspGraph.Program
import LspGraph.SessionRest
import LspGraph.View
import LspGraph.Browser
import LspGraph.SessionView
import LspGraph.Excursions
import LspGraph.SessionMemo
import LspGraph.SearchResults
import LspGraph.StaleFiles
import LspGraph.ReadinessDocuments
import LspGraph.SessionOrigins
import LspGraph.RequestProgress
import LspGraph.Crawl
import LspGraph.EngineRequests
import LspGraph.AnswerDelivery
import LspGraph.KeyPaths
