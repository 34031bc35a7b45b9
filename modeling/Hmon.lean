import Hmon.Monitor.Lock
import Hmon.Monitor.Failure
import Hmon.Monitor.Pairing
import Hmon.Monitor.Window
import Hmon.Monitor.Reduce
import Hmon.Monitor.Buffer
import Hmon.Monitor.Age
import Hmon.Monitor.Extremes
import Hmon.Monitor.Statistics
import Hmon.Monitor.Divisors
import Hmon.Accumulate
import Hmon.Hierarchical
import Hmon.Unregister
import Hmon.Restrict
import Hmon.Thread.Restart
import Hmon.Thread.Sample
import Hmon.Thread.Deadlock
import Hmon.Thread.History
import Hmon.Thread.StartStop
import Hmon.Thread.Chain
import Hmon.Thread.Visits
import Hmon.Thread.AccumulateRead
import Hmon.Barrier.Coord
import Hmon.Barrier.Print
import Hmon.Barrier.Shutdown
import Hmon.Config.Plugins
import Hmon.Config.Spelling
import Hmon.Config.Generated
import Hmon.Harray.Sorted
import Hmon.Harray.Growth
import Hmon.Sampling
import Hmon.Proc.Baseline
import Hmon.Proc.Events
import Hmon.Proc.StatFile
import Hmon.Config.Blocks
import Hmon.Config.Variables
import Hmon.Lib.Checked
import Hmon.Lib.Vectors
import Hmon.Learning.Gradient
import Hmon.Config.Ambiguity
import Hmon.Proc.Load
import Hmon.Lib.Printf
import Hmon.Console
import Hmon.Lib.Strtok
import Hmon.Lib.Loops
import Hmon.Proc.CpuFile
import Hmon.Config.Location
import Hmon.Learning.Kmean
import Hmon.Trace
import Hmon.Lib.CString
import Hmon.Proc.Tasks
import Hmon.Lib.Laid
import Hmon.Config.Source
import Hmon.Config.RoundTrip
import Hmon.Main.Options
import Hmon.Loader
import Hmon.Lib.ScanfText
import Hmon.Proc.MemFile
import Hmon.Lib.Chronicle
import Hmon.Maqao
import Hmon.Main.Run
import Hmon.Proc.Domain
import Hmon.Config.LocationName
import Hmon.Thread.Lifetime
import Hmon.Monitor.Output
import Hmon.Lstopo
import Hmon.Lib.Lloyd
import Hmon.Learning.Descent
import Hmon.Learning.Clustering
import Hmon.Lib.Observed
import Hmon.Thread.Inventory
import Hmon.Config.Import
import Hmon.Lib.Binary64
