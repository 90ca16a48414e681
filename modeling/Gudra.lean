import Gudra.Shape
import Gudra.Limits
import Gudra.Admission
import Gudra.Lib.Interleave
import Gudra.Lib.Tiling
import Gudra.Reference
import Gudra.Tensor
import Gudra.Kernels
import Gudra.Launches
import Gudra.Schedules
import Gudra.TiledStep
import Gudra.Facade
import Gudra.World
import Gudra.Contents
import Gudra.Logic
import Gudra.Specs
import Gudra.Batches
import Gudra.Requests
import Gudra.History
import Gudra.Invariant
import Gudra.Separation
import Gudra.Stores
import Gudra.Executions
import Gudra.Returns
import Gudra.Calls
import Gudra.Arithmetic
import Gudra.Geometry
import Gudra.HostGrid
import Gudra.Oracle
import Gudra.Timesteps
import Gudra.Lib.FivePoint
import Gudra.Dependence
import Gudra.Lib.Poisson
import Gudra.Exact
import Gudra.Poisson
import Gudra.Comparison
import Gudra.Manufactured
import Gudra.Lib.Framing
import Gudra.ReleaseGate
import Gudra.SourceDigest
import Gudra.PrivateLauncher
import Gudra.Lib.Sequential
import Gudra.Sequential
import Gudra.Preflight
import Gudra.Resolution
import Gudra.Runs
import Gudra.Aliasing
import Gudra.Charges
import Gudra.Locality
import Gudra.Readability
import Gudra.Refinement
import Gudra.Progress
import Gudra.Protocol
import Gudra.Drops
import Gudra.Solvency
import Gudra.Futures
import Gudra.Alone
import Gudra.Standing
import Gudra.Jobs
import Gudra.DeviceFuture
import Gudra.Accesses
import Gudra.Slots
import Gudra.InFlight
import Gudra.Handoff
import Gudra.Posted
import Gudra.Deliveries
import Gudra.Carriers
import Gudra.Lifecycle
import Gudra.Wakeups
import Gudra.Turns
import Gudra.Completions
import Gudra.Lib.Response
import Gudra.Promptness
