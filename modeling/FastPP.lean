import FastPP.FinishDetection
import FastPP.RebalanceMoves
import FastPP.BatchOps
import FastPP.Stranded
import FastPP.AdmissionRuns
import FastPP.ChunkBudget
import FastPP.RetractDecode
import FastPP.JumpRestore
import FastPP.InputLogprobLaw
import FastPP.Selection
import FastPP.BatchRows
import FastPP.EosSimulation
import FastPP.Pairing
import FastPP.LoraBatch
import FastPP.FlushRuns
import FastPP.SlotCalls
import FastPP.ChunkedPrefill
import FastPP.RetractedSampling
import FastPP.SplitLaw
import FastPP.SamplingBias
import FastPP.Routing.SelectionRuns
import FastPP.Radix.Refinement
import FastPP.Detok.StatusRuns
import FastPP.Detok.Incremental
import FastPP.Serving.CompletionStream
import FastPP.Overlap.Placeholders
import FastPP.CachedTokens
import FastPP.Controller.Episodes
import FastPP.Controller.AlpSearchLaw
import FastPP.Controller.AlpGuard
import FastPP.Serving.SessionHistory
import FastPP.Routing.TenantRemoval
import FastPP.Serving.BatchExpansion
import FastPP.Controller.CandidateLaw
import FastPP.Controller.RlsLaw
import FastPP.Priority.PriorityLaw
import FastPP.Routing.LoadRuns
import FastPP.EmbeddedRuns
import FastPP.Constrained.GrammarDraining
import FastPP.LensLaw
import FastPP.Serving.RWLockLaw
import FastPP.Kernels.BatchIndices
import FastPP.Serving.ResultDelivery
import FastPP.Radix.CachedSlots
import FastPP.KvCache.KvLaw
import FastPP.Lib.FairRuns
import FastPP.Pipeline.Layers
import FastPP.Pipeline.Engine
import FastPP.Pipeline.Network
import FastPP.Pipeline.NetworkLaw
import FastPP.Lib.StepLog
import FastPP.Pipeline.NetworkSteps
import FastPP.Pipeline.NetworkRuns
import FastPP.Pipeline.PipelineLaw
