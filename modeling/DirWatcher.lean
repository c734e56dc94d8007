import DirWatcher.Foundation.LinearProbing
import DirWatcher.Foundation.FirstOccurrences
import DirWatcher.Foundation.ParentLinks
import DirWatcher.Foundation.Runs
import DirWatcher.Foundation.SeparatedPaths
import DirWatcher.Foundation.Followed
import DirWatcher.Foundation.TextLines
import DirWatcher.Foundation.Inevitable
import DirWatcher.Foundation.FairRuns
import DirWatcher.Foundation.SqlText
import DirWatcher.Foundation.SqlStatements
import DirWatcher.Foundation.Sieve
import DirWatcher.Foundation.Numerals
import DirWatcher.Foundation.LinkedLists
import DirWatcher.Source.HashCache
import DirWatcher.Source.Paths
import DirWatcher.Source.Notifications
import DirWatcher.Source.MainLoop
import DirWatcher.Source.WdDirectory
import DirWatcher.Source.Events
import DirWatcher.Source.Statements
import DirWatcher.Source.Watcher
import DirWatcher.Source.IterateInotifyEvents
import DirWatcher.Source.ConfigFiles
import DirWatcher.Source.ListSubDirs
import DirWatcher.Source.Startup
import DirWatcher.Source.ListMemory
import DirWatcher.Cache.HashCacheRefinement
import DirWatcher.Cache.Publication
import DirWatcher.Cache.WriteFailures
import DirWatcher.Cache.NotifyDirectory
import DirWatcher.Cache.LoopSteps
import DirWatcher.Cache.TimerTicks
import DirWatcher.Cache.FinalFlush
import DirWatcher.Cache.InterruptedPolls
import DirWatcher.Cache.ProbeBounds
import DirWatcher.Cache.AddResults
import DirWatcher.Cache.NotificationFormat
import DirWatcher.Cache.DoubledLines
import DirWatcher.Environment.Interface
import DirWatcher.Environment.Racing
import DirWatcher.Environment.ListPointers
import DirWatcher.Environment.EventBuffer
import DirWatcher.Watching.Steps
import DirWatcher.Watching.Mapped
import DirWatcher.Watching.Tables
import DirWatcher.Watching.Prunes
import DirWatcher.Watching.Keys
import DirWatcher.Environment.Contract
import DirWatcher.Environment.DirTree
import DirWatcher.Environment.FileSystem
import DirWatcher.Environment.Refinement
import DirWatcher.Environment.Changes
import DirWatcher.Environment.Growth
import DirWatcher.Watching.Control
import DirWatcher.Watching.ListMemory
import DirWatcher.Watching.PointerRefinement
import DirWatcher.Watching.Pairing
import DirWatcher.Watching.Subtrees
import DirWatcher.Watching.Acyclic
import DirWatcher.Watching.Orderly
import DirWatcher.Watching.Scope
import DirWatcher.Watching.Memo
import DirWatcher.Watching.UnrecordedEvents
import DirWatcher.Watching.MoveCookies
import DirWatcher.Watching.Listings
import DirWatcher.Watching.Agreement
import DirWatcher.Watching.Departures
import DirWatcher.Watching.WatchedTrees
import DirWatcher.Watching.Configured
import DirWatcher.Watching.Accuracy
import DirWatcher.Watching.Calls
import DirWatcher.Watching.LiveWatches
import DirWatcher.Watching.Places
import DirWatcher.Watching.Coverage
import DirWatcher.Watching.ScannedTrees
import DirWatcher.Watching.Growing
import DirWatcher.Watching.CreationRaces
import DirWatcher.Watching.Reports
import DirWatcher.Watching.Races
import DirWatcher.Watching.EventIteration
import DirWatcher.Watching.BufferRefinement
import DirWatcher.Watching.ConfigLines
import DirWatcher.Watching.Excludes
import DirWatcher.Watching.JoinedPaths
import DirWatcher.Cache.Provenance
import DirWatcher.Cache.FileNames
import DirWatcher.Watching.PathBytes
import DirWatcher.Watching.Database
import DirWatcher.Watching.FileReports
import DirWatcher.Watching.Promises
import DirWatcher.Watching.EventCalls
import DirWatcher.Watching.Expectations
import DirWatcher.Watching.Heeded
import DirWatcher.Watching.Chores
import DirWatcher.Program.Process
import DirWatcher.Program.Turns
import DirWatcher.Program.Published
import DirWatcher.Program.Delivery
import DirWatcher.Program.NewDirectories
import DirWatcher.Program.ChangesDelivered
import DirWatcher.Program.Consumer
import DirWatcher.Program.Turnaround
