import Lumiera.Vault.Gear.GateOrder
import Lumiera.Vault.Gear.TwoQueueScheduling
import Lumiera.Vault.Gear.GroomingToken
import Lumiera.Lib.Diff.ListDiffRoundTrip
import Lumiera.Steam.Fixture.Segmentation
import Lumiera.Steam.Control.SteamDispatcher
import Lumiera.Steam.Control.CommandInstanceManager
import Lumiera.Steam.Control.CommandIsolation
import Lumiera.Common.Advice.IndexSolutions
import Lumiera.Common.Advice.AdviceLifetime
import Lumiera.Lib.Diff.TreeDiffNoDuplication
import Lumiera.Lib.Diff.TreeDiffRefinement
import Lumiera.Common.InterfaceRefcount
import Lumiera.Steam.Engine.BufferLifecycle
import Lumiera.Vault.Gear.BlockFlowSlots
import Lumiera.Vault.Gear.BlockFlowRegulation
import Lumiera.Lib.TextTemplateCompile
import Lumiera.Lib.AllocationClusterBlocks
import Lumiera.Lib.SeveralBuilderElements
import Lumiera.Lib.Time.SmpteIsolation
import Lumiera.Lib.Diff.ScopeExplorer
import Lumiera.Stage.Model.PersistentState
import Lumiera.Common.SubsystemTermination
import Lumiera.Steam.Engine.TurnoutEvaluation
import Lumiera.Lib.Time.TimeLimitsOffsets
import Lumiera.Steam.Engine.PipeFrameTick
import Lumiera.Lib.Time.DropFrame
import Lumiera.Lib.ParseRepeat
import Lumiera.Steam.Engine.ArgSpecModel
import Lumiera.Vault.Gear.TermSessions
import Lumiera.Lib.Time.BuildTime
import Lumiera.Stage.Model.ZoomArithmetic
import Lumiera.Lib.RandomDraw
import Lumiera.Lib.SeveralBuilderRelease
import Lumiera.Steam.Engine.NodeBuilderRuns
import Lumiera.Common.InterfaceOwnership
import Lumiera.Lib.Stat.DataTableStorage
import Lumiera.Lib.Time.MutationLimits
import Lumiera.Lib.Time.TimecodeParse
import Lumiera.Steam.AssetEnablement
import Lumiera.Steam.MObject.Session.ScopePath
import Lumiera.Lib.Diff.RecordMutator
import Lumiera.Stage.Ctrl.StateReplay
import Lumiera.Lib.Test.EventMatchEvaluate
import Lumiera.Stage.Interact.UICoordResolver
import Lumiera.Common.DefsRegistry
import Lumiera.Lib.IterExplorer
import Lumiera.Stage.Model.WLink
import Lumiera.Lib.PSplayEstimate
import Lumiera.Lib.SyncBarrier
import Lumiera.Lib.LListSort
import Lumiera.Vault.Gear.LoadController
