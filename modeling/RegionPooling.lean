import RegionPooling.Main
import RegionPooling.Operation.Session
import RegionPooling.Tensor.Slots
import RegionPooling.Proofs.Pooling.Reference
import RegionPooling.Proofs.Pooling.Schedule
import RegionPooling.Proofs.Pooling.Outcome
import RegionPooling.Proofs.Pooling.Decomposition
import RegionPooling.Proofs.Pooling.Selection
import RegionPooling.Proofs.Binary.Midpoint
import RegionPooling.Proofs.Decimal.Approximation
import RegionPooling.Proofs.Decimal.Gap
import RegionPooling.Proofs.Decimal.Shortest
import RegionPooling.Proofs.Binary.Double
import RegionPooling.Proofs.Decimal.Reading
import RegionPooling.Proofs.Decimal.Digits
import RegionPooling.Proofs.Fixture
import RegionPooling.Proofs.Pooling.Channels
import RegionPooling.Proofs.Pooling.Footprint
import RegionPooling.Proofs.Operation.Preparation
import RegionPooling.Proofs.Operation.Session
import RegionPooling.Proofs.Operation.Replacement
import RegionPooling.Proofs.Pooling.Precision
import RegionPooling.Proofs.Pooling.Tiling
import RegionPooling.Proofs.Pooling.Finiteness
import RegionPooling.Proofs.Pooling.Monotone
import RegionPooling.Proofs.Pooling.Geometry
import RegionPooling.Proofs.Command.Verify
import RegionPooling.Proofs.Pooling.Termination
import RegionPooling.Proofs.Fixture.Reloading
import RegionPooling.Proofs.Pooling.Preconditions
import RegionPooling.Proofs.Shape.Parsing
import RegionPooling.Proofs.Operation.Restoring
import RegionPooling.Proofs.Pooling.Clamping
import RegionPooling.Proofs.Pooling.Spacing
import RegionPooling.Proofs.Tensor.Range
import RegionPooling.Proofs.Fixture.Representation
