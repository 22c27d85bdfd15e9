import Duma.Foundation.Ownership
import Duma.Foundation.Wp
import Duma.Foundation.View
import Duma.Model.State
import Duma.Model.Helpers
import Duma.Model.Allocate
import Duma.Model.Deallocate
import Duma.Model.Api
import Duma.Model.Run
import Duma.Region.Effects
import Duma.Region.Shape
import Duma.Region.Rules
import Duma.Region.Step
import Duma.Region.Layout
import Duma.Region.Take
import Duma.Region.Growth
import Duma.Refine.Primitives
import Duma.Refine.Slack
import Duma.Refine.Evict
import Duma.Refine.Chunk
import Duma.Refine.Search
import Duma.Refine.Views
import Duma.Refine.Serve
import Duma.Region.Release
import Duma.Region.Silent
import Duma.Region.Tidy
import Duma.Refine.Free
import Duma.Region.Ledger
import Duma.Refine.Allocate
import Duma.Refine.Grow
import Duma.Refine.Construct
import Duma.Refine.Api
import Duma.Refine.Run
import Duma.Runs.Admitted
import Duma.Runs.Counters
import Duma.Runs.List
import Duma.Runs.Access
import Duma.Lock.Mutex
import Duma.Lock.ListAccess
import Duma.Runs.Heap
import Duma.Runs.Eviction
import Duma.Runs.Blocks
import Duma.Runs.Alignment
import Duma.Runs.Calloc
import Duma.Runs.Realloc
import Duma.Runs.Slack
import Duma.Runs.Accept
import Duma.Runs.Narrow
import Duma.Runs.Attempts
import Duma.Runs.Policy
import Duma.Runs.Fit
import Duma.Runs.Queries
import Duma.Model.Strings
import Duma.Strings.Loops
import Duma.Strings.Overlap
import Duma.Strings.Detect
import Duma.Foundation.Period
import Duma.Refine.Ticks
import Duma.Runs.Period
import Duma.Runs.Operations
import Duma.Runs.Protect
import Duma.Runs.Contents
import Duma.Foundation.Numeral
import Duma.Model.Print
import Duma.Print.Numbers
import Duma.Print.Scan
import Duma.Print.Buffer
import Duma.Strings.Counters
import Duma.Model.Delete
import Duma.Lock.Delete
import Duma.Model.MapFile
import Duma.StackTrace.Lookup
import Duma.Region.Retire
import Duma.Runs.Guards
import Duma.Runs.Freed
import Duma.Runs.Pointers
import Duma.Runs.Leaks
import Duma.Runs.Reports
import Duma.Runs.Stops
import Duma.Runs.Alarms
import Duma.Refine.Reserve
import Duma.Runs.Reserve
import Duma.Model.Environ
import Duma.Environ.Lookup
import Duma.Environ.Numbers
import Duma.Environ.Settings
import Duma.Model.NewOperator
import Duma.Runs.NewOperator
import Duma.Foundation.Scan
import Duma.Model.MapText
import Duma.StackTrace.Table
import Duma.StackTrace.Read
