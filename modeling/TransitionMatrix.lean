import TransitionMatrix.Export.Folder
import TransitionMatrix.Export.Lines
import TransitionMatrix.Slot
import TransitionMatrix.Symbolic.Labels
import TransitionMatrix.Proofs.Row.Boundaries
import TransitionMatrix.Proofs.Row.Order
import TransitionMatrix.Proofs.Column.Storage
import TransitionMatrix.Proofs.Matrix.Rows
import TransitionMatrix.Proofs.StateSpace.Matching
import TransitionMatrix.Proofs.Symbolic.Coverage
import TransitionMatrix.Proofs.Runs
import TransitionMatrix.Proofs.Symbolic.Transitions
import TransitionMatrix.Proofs.Symbolic.Expansion
import TransitionMatrix.Proofs.Symbolic.Build
import TransitionMatrix.Proofs.Symbolic.Numbering
import TransitionMatrix.Proofs.ChoiceMatrix.Groups
import TransitionMatrix.Proofs.ChoiceMatrix.Rows
import TransitionMatrix.Proofs.ChoiceMatrix.Labels
import TransitionMatrix.Proofs.Symbolic.Choices
import TransitionMatrix.Proofs.Symbolic.Rewards
import TransitionMatrix.Proofs.Symbolic.Merging
import TransitionMatrix.Proofs.Symbolic.Labels
import TransitionMatrix.Proofs.FirstSeen
import TransitionMatrix.Proofs.StateSpace.Indices
import TransitionMatrix.Proofs.StateSpace.Search
import TransitionMatrix.Proofs.Symbolic.Explicit
import TransitionMatrix.Proofs.Row.Cover
import TransitionMatrix.Proofs.Row.Forms
import TransitionMatrix.Proofs.Column.Fitting
import TransitionMatrix.Proofs.Column.Soundness
import TransitionMatrix.Proofs.Column.Distinct
import TransitionMatrix.Proofs.Matrix.Soundness
import TransitionMatrix.Proofs.ChoiceMatrix.Soundness
import TransitionMatrix.Proofs.ChoiceMatrix.Calls
import TransitionMatrix.Proofs.Symbolic.Origins
import TransitionMatrix.Proofs.Symbolic.Contradictions
import TransitionMatrix.Proofs.Symbolic.Unknown
import TransitionMatrix.Proofs.Slot.History
import TransitionMatrix.Proofs.Export.Text
import TransitionMatrix.Proofs.Export.Listings
import TransitionMatrix.Proofs.ChoiceMatrix.Rebuilding
import TransitionMatrix.Proofs.ChoiceMatrix.Interleaving
import TransitionMatrix.Proofs.Export.ChoiceListings
import TransitionMatrix.Proofs.Matrix.Rebuilding
import TransitionMatrix.Proofs.Matrix.Compaction
import TransitionMatrix.Proofs.Symbolic.Labelling
import TransitionMatrix.Proofs.Reasons
import TransitionMatrix.Proofs.Row.Bounds
import TransitionMatrix.Proofs.Matrix.Outcome
import TransitionMatrix.Proofs.ChoiceMatrix.Outcome
import TransitionMatrix.Proofs.Matrix.Paths
import TransitionMatrix.Proofs.Symbolic.Outcome
import TransitionMatrix.Proofs.Symbolic.Completions
import TransitionMatrix.Proofs.StateSpace.Enumeration
import TransitionMatrix.Proofs.Column.Numbering
import TransitionMatrix.Proofs.Symbolic.FirstLabels
import TransitionMatrix.Proofs.Symbolic.Patterns
import TransitionMatrix.Proofs.Symbolic.Ranks
