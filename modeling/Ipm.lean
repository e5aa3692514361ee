import Ipm.Lib.Runs
import Ipm.Lib.OpenAddressing
import Ipm.Lib.Shares
import Ipm.Lib.FileLock
import Ipm.Lib.Stdio
import Ipm.Lib.Slices
import Ipm.Lib.Scan
import Ipm.Lib.Doubles
import Ipm.Lib.Tally
import Ipm.Lib.ControlBreak
import Ipm.Lib.Stores
import Ipm.Lib.Extremes
import Ipm.Lib.Fields
import Ipm.Lib.Bits
import Ipm.Lib.Scientific
import Ipm.Lib.Patterns
import Ipm.Lib.ExchangeSort
import Ipm.Lib.MessagePassing
import Ipm.Lib.Spmd
import Ipm.Lib.Phases
import Ipm.Lib.Neighbours
import Ipm.Sizes
import Ipm.Key
import Ipm.Key.Precision
import Ipm.Key.Posix
import Ipm.Hash.Table
import Ipm.Hash.Rules
import Ipm.Hash.Lookup
import Ipm.Hash.Profile
import Ipm.Hash.Precision
import Ipm.Hash.Timing
import Ipm.Hash.Targets
import Ipm.Hash.Sizes
import Ipm.Hash.Termination
import Ipm.Region.State
import Ipm.Region.Safety
import Ipm.Region.Accounting
import Ipm.Task
import Ipm.Checkpoint
import Ipm.Sync
import Ipm.Disk.Barrier
import Ipm.Disk.Lock
import Ipm.Disk.Records
import Ipm.Disk.Rendezvous
import Ipm.Machtopo.Code
import Ipm.Machtopo.Hosts
import Ipm.Machtopo.Script
import Ipm.Machtopo.Rings
import Ipm.Machtopo.Reads
import Ipm.Log.Write
import Ipm.Log.Aggregate
import Ipm.Log.Calls
import Ipm.Log.Overrun
import Ipm.Report.Order
import Ipm.Report.Sort
import Ipm.Report.Collect
import Ipm.Report.Regions
import Ipm.Wrapper.Masks
import Ipm.Wrapper.History
import Ipm.Wrapper.Rounded
import Ipm.Trace.Select
import Ipm.Trace.Buffer
import Ipm.Trace.Regions
import Ipm.Trace.Ranks
import Ipm.Trace.Repeat
import Ipm.Control
import Ipm.Cmdline
import Ipm.Log.Ranks
import Ipm.Trace.Calls
import Ipm.Env.Variables
import Ipm.Env.Scan
import Ipm.Env.Modes
import Ipm.Finalize
import Ipm.Trace.Dumps
import Ipm.Job
import Ipm.Log.Events
import Ipm.Log.Sizes
import Ipm.Parse.Regions
import Ipm.Parse.Hents
import Ipm.Parse.Extrapolate
import Ipm.Parse.Aggregate
import Ipm.Parse.Tables
import Ipm.Parse.Text
import Ipm.Parse.Accounts
import Ipm.Parse.Traffic
import Ipm.Txt.Groups
import Ipm.Fortran
import Ipm.Files.Buckets
import Ipm.Files.Totals
