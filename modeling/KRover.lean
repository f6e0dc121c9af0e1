import KRover.Lib.Segment
import KRover.Lib.Footprint
import KRover.Lib.DoublyLinked
import KRover.Lib.Tiling
import KRover.Lib.WideProduct
import KRover.Lib.X86Insn
import KRover.Z3Handler
import KRover.MemState
import KRover.ThinCtrl
import KRover.ConExecutor
import KRover.FatCtrl
import KRover.Int3Handler
import KRover.Proofs.SymListRun
import KRover.Proofs.SymListMap
import KRover.Proofs.GetExprOrder
import KRover.Proofs.MemBitmapRun
import KRover.Proofs.MemShadow
import KRover.Proofs.CondDecision
import KRover.Proofs.CondBuild
import KRover.Proofs.SeedDecision
import KRover.Proofs.InsnCache
import KRover.Proofs.MemFailure
import KRover.Proofs.CPUReset
import KRover.SymExec
import KRover.ProcessFunction
import KRover.ControlTransfer
import KRover.MainLoop
import KRover.CentralHub
import KRover.Proofs.ExprWidth
import KRover.Proofs.OprndParse
import KRover.Proofs.SymExecStep
import KRover.Proofs.EngineRun
import KRover.Proofs.ExprDenote
import KRover.Proofs.OprndValue
import KRover.Proofs.BinaryStep
import KRover.Proofs.FlagHistory
import KRover.Proofs.MovStep
import KRover.Proofs.NativeDispatch
import KRover.Proofs.FixedFlags
import KRover.Proofs.RegOverlay
import KRover.Proofs.SignCondition
import KRover.Proofs.GetExprTiling
import KRover.Proofs.OprndWrite
import KRover.Proofs.ShiftStep
import KRover.Proofs.MulDivStep
import KRover.Proofs.UpperHalf
import KRover.Proofs.HandlerRun
import KRover.Proofs.HandedOver
import KRover.Proofs.RewRIPLayout
import KRover.Proofs.RewRIPInsn
import KRover.Proofs.CondMove
import KRover.Proofs.CondTurn
import KRover.Proofs.FuncTable
import KRover.Proofs.AffectedCells
import KRover.Proofs.RedirPages
import KRover.Proofs.ProbePages
import KRover.Proofs.ProbeCopies
import KRover.Proofs.ProbedRun
import KRover.Proofs.SymObjects
import KRover.Proofs.NextIP
import KRover.Proofs.TransferTarget
import KRover.Proofs.CallStack
import KRover.Proofs.Widening
import KRover.Proofs.BytePut
import KRover.Proofs.Exchange
import KRover.Proofs.ExecAccess
import KRover.Proofs.MainLoopRun
import KRover.Proofs.PathCondition
import KRover.Proofs.DenoteValue
import KRover.Proofs.Machine
import KRover.Proofs.Matching
import KRover.Proofs.MatchNative
import KRover.Proofs.StoredBytes
import KRover.Proofs.MatchExec
import KRover.Proofs.MatchMove
import KRover.Proofs.MatchDecision
import KRover.Proofs.MatchTransfer
import KRover.Proofs.MatchStart
import KRover.Proofs.MatchRun
import KRover.Proofs.PairProcessor
import KRover.Proofs.InputPath
