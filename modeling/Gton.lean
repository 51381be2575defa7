import Gton.MsgPool.BranchRuns
import Gton.Shard.Routing
import Gton.Simplex.Network
import Gton.Simplex.Replay
import Gton.Simplex.Signing
import Gton.Simplex.WindowGates
import Gton.Groups.Lifecycle
import Gton.Groups.Sampling
import Gton.Simplex.RunEnds
import Gton.Simplex.Batching
import Gton.Simplex.ParallelVerify
import Gton.Simplex.CandidateWire
import Gton.Collator.ShardTopSelection
import Gton.Collator.MergeSymmetry
import Gton.Collator.SeenRuns
import Gton.MsgPool.SeedNarrowing
import Gton.RateLimit.Limiter
