import ParamLowering.Main
import ParamLowering.Proofs.Accounting
import ParamLowering.Proofs.Calls
import ParamLowering.Proofs.Conflict
import ParamLowering.Proofs.Dataflow
import ParamLowering.Proofs.DeclaredParameters
import ParamLowering.Proofs.Destructuring
import ParamLowering.Proofs.EagerEmission
import ParamLowering.Proofs.FileSuccess
import ParamLowering.Proofs.FreshHistory
import ParamLowering.Proofs.Hygiene
import ParamLowering.Proofs.LeafNames
import ParamLowering.Proofs.Nesting
import ParamLowering.Proofs.Ownership
import ParamLowering.Proofs.ParameterPositions
import ParamLowering.Proofs.ParameterSlots
import ParamLowering.Proofs.Registration
import ParamLowering.Proofs.ScopeHistory
import ParamLowering.Proofs.ScopeTree
import ParamLowering.Proofs.ShapeIndependence
import ParamLowering.Proofs.SourceAddresses
import ParamLowering.Proofs.TrailingComma
import ParamLowering.Proofs.TwoRuns
import ParamLowering.Proofs.Unchanged
import ParamLowering.Proofs.Walk
import ParamLowering.Proofs.PiecewiseMerge
import ParamLowering.Proofs.ExtractionFailure
import ParamLowering.Proofs.PassTrace
import ParamLowering.Proofs.PassFrame
import ParamLowering.Proofs.PairedEdits
import ParamLowering.Proofs.StepwisePass
import ParamLowering.Proofs.AccessorText
import ParamLowering.Proofs.SourceWalk
import ParamLowering.Proofs.RunAccount
import ParamLowering.Proofs.Admission
import ParamLowering.Proofs.ExactLayout
import ParamLowering.Proofs.ReportText
