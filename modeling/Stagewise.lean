import Stagewise.Kind
import Stagewise.Proofs.Classification.FixedPoints
import Stagewise.Proofs.Classification.Snapshots
import Stagewise.Proofs.Classification.UseFlow
import Stagewise.Proofs.Emission.Absence
import Stagewise.Proofs.Emission.Addressing
import Stagewise.Proofs.Emission.Backward
import Stagewise.Proofs.Emission.Crossing
import Stagewise.Proofs.Emission.Endings
import Stagewise.Proofs.Emission.RootLoads
import Stagewise.Proofs.Flipping
import Stagewise.Proofs.Flow.Deciding
import Stagewise.Proofs.Flow.Rounds
import Stagewise.Proofs.Function.Consistency
import Stagewise.Proofs.Index
import Stagewise.Proofs.Repetition
import Stagewise.Proofs.Replay.Coverage
import Stagewise.Proofs.Replay.Marks
import Stagewise.Proofs.Semantics.Preservation
import Stagewise.Proofs.SinkOrder
import Stagewise.Proofs.SortMode
import Stagewise.Proofs.TypePool.Descriptions
import Stagewise.Proofs.TypePool.Interning
