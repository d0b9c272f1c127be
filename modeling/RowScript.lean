import RowScript.Main
import RowScript.Session
import RowScript.Proofs.SolverCompleteness
import RowScript.Proofs.SignatureRoundTrip
import RowScript.Proofs.Annotations
import RowScript.Proofs.CounterIndependence
import RowScript.Proofs.SolverTermination
import RowScript.Proofs.SignatureRanges
import RowScript.Proofs.ExpressionRoundTrip
import RowScript.Proofs.BinderHovers
import RowScript.Proofs.UnrelatedDeclarations
import RowScript.Proofs.IdempotentAnswers
import RowScript.Proofs.GenericEquations
import RowScript.Proofs.AliasApplications
import RowScript.Proofs.TypeNames
import RowScript.Proofs.HygienicInlining
import RowScript.Proofs.Redefinitions
import RowScript.Proofs.NameCycles
import RowScript.Proofs.LeftoverNames
import RowScript.Proofs.SignatureVariables
import RowScript.Proofs.DiagnosticTexts
import RowScript.Proofs.SharedContexts
import RowScript.Proofs.RecordUpdates
import RowScript.Proofs.Offsets
import RowScript.Proofs.AcyclicAssignments
