import ElementFields.Field.Evaluate
import ElementFields.Field.Leaves
import ElementFields.FiniteDifference
import ElementFields.Leaf.Interpolated
import ElementFields.Leaf.Normalized
import ElementFields.Manifold.Normalization
import ElementFields.Monomial
import ElementFields.Proofs.Exactness
import ElementFields.Proofs.Pruning
import ElementFields.Proofs.Refusals
import ElementFields.Proofs.Updates
import ElementFields.Proofs.Variations
import ElementFields.Quadrature.Legendre
import ElementFields.Quadrature.Simplex
import ElementFields.Serial.Forms
import ElementFields.Proofs.Meets
import ElementFields.Proofs.Shapes
import ElementFields.Proofs.TotalRules
import ElementFields.Proofs.TotalLeaves
import ElementFields.Proofs.Binding
import ElementFields.Proofs.Totality
import ElementFields.Proofs.Displacements
import ElementFields.Proofs.StrainVariation
import ElementFields.Proofs.Corrections
import ElementFields.Proofs.JointBinding
import ElementFields.Proofs.CachedEvaluation
import ElementFields.Proofs.Covariance
import ElementFields.Proofs.AllDirections
import ElementFields.Proofs.Symmetry
import ElementFields.Proofs.Sharing
import ElementFields.Proofs.Superposition
import ElementFields.Proofs.Exposed
import ElementFields.Proofs.OffSpace
import ElementFields.Proofs.PullBack
import ElementFields.Proofs.PatchTest
import ElementFields.Proofs.SphereFrame
import ElementFields.Proofs.Retraction
import ElementFields.Proofs.ShapeSlopes
import ElementFields.Proofs.NormalizedJets
import ElementFields.Proofs.CoefficientVariations
import ElementFields.Proofs.LeafDerivatives
import ElementFields.Proofs.UnansweredStrains
import ElementFields.Proofs.CachedLookUps
import ElementFields.Proofs.NormalizationDerivatives
import ElementFields.Proofs.UnitLength
import ElementFields.Proofs.ScalarIdentities
import ElementFields.Proofs.Contraction
import ElementFields.Proofs.StackedColumns
import ElementFields.Proofs.HessianDifferences
import ElementFields.Proofs.WorkLoops
import ElementFields.Proofs.ByPlace
import ElementFields.Proofs.UnitValues
