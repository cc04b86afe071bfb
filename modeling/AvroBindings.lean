import AvroBindings.CommandLine.Run
import AvroBindings.Main
import AvroBindings.Proofs.Naming
import AvroBindings.Proofs.Schema.Named
import AvroBindings.Proofs.Schema.Linked
import AvroBindings.Proofs.Registry
import AvroBindings.Proofs.Registration
import AvroBindings.Proofs.Schema.Augmented
import AvroBindings.Proofs.Inventory
import AvroBindings.Proofs.Collection
import AvroBindings.Proofs.Deciders
import AvroBindings.Proofs.EffectiveNames
import AvroBindings.Proofs.Linking
import AvroBindings.Proofs.Code.Definitions
import AvroBindings.Proofs.Outcome
import AvroBindings.Proofs.Code.Directions
import AvroBindings.Proofs.Code.Faults
import AvroBindings.Proofs.Code.Failures
import AvroBindings.Proofs.Code.Grouping
import AvroBindings.Proofs.Code.Rows
import AvroBindings.Proofs.Code.Tags
import AvroBindings.Proofs.Generated
import AvroBindings.Proofs.Success
import AvroBindings.Proofs.Batch
import AvroBindings.Proofs.Code.Mentions
import AvroBindings.Proofs.Closed
import AvroBindings.Proofs.Identifiers
import AvroBindings.Proofs.Runtime.Evaluation
import AvroBindings.Proofs.Runtime.Conformance
import AvroBindings.Proofs.Runtime.Conversions
import AvroBindings.Proofs.Runtime.Shapes
import AvroBindings.Proofs.Runtime.Unions
import AvroBindings.Proofs.Runtime.Inverse
import AvroBindings.Proofs.Runtime.Methods
import AvroBindings.Proofs.RoundTrip
import AvroBindings.Proofs.Reordering
import AvroBindings.Proofs.Code.Skeleton.Types
import AvroBindings.Proofs.Code.Skeleton.Declarations
import AvroBindings.Proofs.Skeleton
import AvroBindings.Proofs.Rewording
import AvroBindings.Proofs.Code.Definedness
import AvroBindings.Proofs.Text.Words
import AvroBindings.Proofs.Code.TypeShapes
import AvroBindings.Proofs.Code.Unambiguity
import AvroBindings.Proofs.Text.Reader
import AvroBindings.Proofs.Code.Worded
import AvroBindings.Proofs.Code.Fields
import AvroBindings.Proofs.Code.Lexical
import AvroBindings.Proofs.Lexical
import AvroBindings.Proofs.Text.Lines
import AvroBindings.Proofs.Text.Listings
import AvroBindings.Proofs.Code.Lines
import AvroBindings.Proofs.Code.Listings
import AvroBindings.Proofs.Text.Counting
import AvroBindings.Proofs.Code.NullTests
import AvroBindings.Proofs.Code.Optionality
import AvroBindings.Proofs.Files.Paths
import AvroBindings.Proofs.Files.Output
import AvroBindings.Proofs.Files.Discovery
import AvroBindings.Proofs.Abort
import AvroBindings.Proofs.Code.Linked
import AvroBindings.Proofs.Reaugmentation
import AvroBindings.Proofs.Code.Occurrences
import AvroBindings.Proofs.Code.Reached
import AvroBindings.Proofs.Code.Variables
import AvroBindings.Proofs.Code.Capture
import AvroBindings.Proofs.Capture
import AvroBindings.Proofs.Schema.Outline
import AvroBindings.Proofs.Outline
import AvroBindings.Proofs.Code.Budget
import AvroBindings.Proofs.Code.Symbols
import AvroBindings.Proofs.Options
