import DeltaPorts.Library.Run
import DeltaPorts.Wayland.EarlyTimers
import DeltaPorts.Wayland.LostTimers
import DeltaPorts.Wayland.AListHeap
import DeltaPorts.Generator.Legacy
import DeltaPorts.Library.Awk
import DeltaPorts.Generator.Merge
import DeltaPorts.Generator.Independence
import DeltaPorts.Generator.Agreement
import DeltaPorts.Hook.PkgBuild
import DeltaPorts.Generator.Rebuild
import DeltaPorts.Hook.CommitQueue
import DeltaPorts.Library.LineTools
import DeltaPorts.Library.Script
import DeltaPorts.Portsnap.Store
import DeltaPorts.Portsnap.Fetch
import DeltaPorts.Portsnap.Downloads
import DeltaPorts.Portsnap.Prepare
import DeltaPorts.Portsnap.Completeness
import DeltaPorts.Portsnap.Update
import DeltaPorts.Portsnap.Recovery
import DeltaPorts.Portsnap.Authenticity
import DeltaPorts.Library.Lexical
import DeltaPorts.Library.Loops
import DeltaPorts.Library.SortSearch
import DeltaPorts.MakeIndex.Ports
import DeltaPorts.MakeIndex.Closure
import DeltaPorts.MakeIndex.Fields
import DeltaPorts.MakeIndex.Index
import DeltaPorts.Generator.Dispatch
import DeltaPorts.Hook.Status
import DeltaPorts.Wayland.FdSources
import DeltaPorts.Wayland.SignalSources
import DeltaPorts.Library.Exits
import DeltaPorts.NewGenerator.Generator
import DeltaPorts.NewGenerator.Phases
import DeltaPorts.NewGenerator.Failure
import DeltaPorts.Phttpget.Chunked
import DeltaPorts.Phttpget.Fetch
import DeltaPorts.Generator.Worklist
import DeltaPorts.Library.Parcels
import DeltaPorts.Portsnap.PortsTree
import DeltaPorts.Portsnap.TreeMatch
import DeltaPorts.Hook.CommitDaemon
import DeltaPorts.Library.Walks
import DeltaPorts.Portsnap.Downgrade
import DeltaPorts.Generator.FilteredCopy
import DeltaPorts.Phttpget.Segments
import DeltaPorts.Phttpget.Interim
import DeltaPorts.MakeIndex.Sorting
import DeltaPorts.MakeIndex.Cycles
import DeltaPorts.Library.DigitLoops
import DeltaPorts.Phttpget.Numbers
import DeltaPorts.Library.WeightedChoice
import DeltaPorts.Portsnap.Mirrors
import DeltaPorts.Library.KeyedFiles
import DeltaPorts.Portsnap.HybridIndex
import DeltaPorts.Library.PathNames
import DeltaPorts.Portsnap.IndexPaths
import DeltaPorts.Library.CStrings
import DeltaPorts.MakeIndex.Bounds
import DeltaPorts.Generator.Prune
import DeltaPorts.Library.Feeding
import DeltaPorts.Weston.Keyboard
import DeltaPorts.Weston.Mouse
import DeltaPorts.Weston.Launcher
import DeltaPorts.Library.SizedRecords
import DeltaPorts.Psutil.Sockets
import DeltaPorts.Library.Accounts
import DeltaPorts.NewGenerator.UserIds
import DeltaPorts.Hook.BumpUpdate
import DeltaPorts.Generator.Stinkers
import DeltaPorts.Library.Grep
import DeltaPorts.Generator.BulkList
import DeltaPorts.Library.Base64
import DeltaPorts.Phttpget.ProxyAuth
import DeltaPorts.Generator.Moved
import DeltaPorts.Library.BitLoops
import DeltaPorts.MakeIndex.Growth
import DeltaPorts.Special.NpmPermissions
import DeltaPorts.MakeIndex.Renumbering
import DeltaPorts.Generator.Ranking
import DeltaPorts.Phttpget.Served
import DeltaPorts.Portsnap.Delivery
import DeltaPorts.Portsnap.Failover
import DeltaPorts.Hook.CommitRounds
import DeltaPorts.Generator.MergeHistory
import DeltaPorts.Library.RetriedJobs
import DeltaPorts.NewGenerator.WorkQueue
import DeltaPorts.Portsnap.CommandLine
import DeltaPorts.Portsnap.Parameters
import DeltaPorts.Portsnap.Commands
import DeltaPorts.NewGenerator.PortsSetup
import DeltaPorts.NewGenerator.PortsHistory
import DeltaPorts.Library.TreeScripts
import DeltaPorts.NewGenerator.MergeMk
import DeltaPorts.NewGenerator.Merged
