import FixedRaster.Host
import FixedRaster.Proofs.Words
import FixedRaster.Proofs.Resize.Exact
import FixedRaster.Proofs.Resize.Refinement
import FixedRaster.Proofs.Grammar
import FixedRaster.Proofs.Resize.Writes
import FixedRaster.Proofs.Checks
import FixedRaster.Proofs.Decoding
import FixedRaster.Proofs.Resize.Resampling
import FixedRaster.Proofs.Resize.Agreement
import FixedRaster.Proofs.Resize.Middle
import FixedRaster.Proofs.Resize.Safety
import FixedRaster.Proofs.Gaussian.Passes
import FixedRaster.Proofs.Memory.Carving
import FixedRaster.Proofs.Memory.Elements
import FixedRaster.Proofs.Memory.Blurring
import FixedRaster.Proofs.Memory.Granting
import FixedRaster.Proofs.Unsharp.Compositing
import FixedRaster.Proofs.Memory.Resizing
import FixedRaster.Proofs.Memory.Room
import FixedRaster.Proofs.Memory.Sharpening
import FixedRaster.Proofs.Memory.Admission
import FixedRaster.Proofs.Serving
import FixedRaster.Proofs.Gaussian.Separable
import FixedRaster.Proofs.Gaussian.Reuse
import FixedRaster.Proofs.Resize.Reuse
import FixedRaster.Proofs.Unsharp.Staging
import FixedRaster.Proofs.Unsharp.Alpha
import FixedRaster.Proofs.Refusals
import FixedRaster.Proofs.Memory.Pipeline
import FixedRaster.Proofs.Memory.History
import FixedRaster.Proofs.Hsl.RoundTrip
import FixedRaster.Proofs.Unsharp.Still
import FixedRaster.Proofs.Unsharp.Flat
import FixedRaster.Proofs.Hsl.Recoloring
import FixedRaster.Proofs.Unsharp.Target
import FixedRaster.Proofs.Unsharp.Copying
import FixedRaster.Proofs.Unsharp.Ranking
import FixedRaster.Proofs.Resize.Opaque
import FixedRaster.Proofs.Resize.Hidden
import FixedRaster.Proofs.Resize.Uniform
import FixedRaster.Proofs.Resize.Accuracy
import FixedRaster.Proofs.Building
import FixedRaster.Proofs.Resize.Ordered
import FixedRaster.Proofs.Resize.Clear
import FixedRaster.Proofs.Unsharp.Lossless
import FixedRaster.Proofs.Unsharp.Counting
import FixedRaster.Proofs.Gaussian.Recurrence
import FixedRaster.Proofs.Memory.Partitioning
