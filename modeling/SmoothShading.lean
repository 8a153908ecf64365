import SmoothShading.Bits.Writer
import SmoothShading.Color.Exponential
import SmoothShading.Raster
import SmoothShading.Proofs.Exact
import SmoothShading.Proofs.Mesh.Surface
import SmoothShading.Proofs.Bits.Parser
import SmoothShading.Proofs.Stream.Samples
import SmoothShading.Proofs.Stream.Records
import SmoothShading.Proofs.Stream.PatchMesh
import SmoothShading.Proofs.Stream.FreeForm
import SmoothShading.Proofs.Device
import SmoothShading.Proofs.Mesh.Line
import SmoothShading.Proofs.Mesh.Triangle
import SmoothShading.Proofs.Paint.Coverage
import SmoothShading.Proofs.Rasterizer
import SmoothShading.Proofs.Bits.Operations
import SmoothShading.Proofs.Mesh.Side
import SmoothShading.Proofs.Stream.PatchChain
import SmoothShading.Proofs.Plane.Nudge
import SmoothShading.Proofs.Mesh.Tiling
import SmoothShading.Proofs.Bits.Reading
import SmoothShading.Proofs.Stream.Truncation
import SmoothShading.Proofs.Raster
import SmoothShading.Proofs.Bounds
import SmoothShading.Proofs.Plane.Affine
import SmoothShading.Proofs.Paint.Axial
import SmoothShading.Proofs.Mesh.Lattice
import SmoothShading.Proofs.Mesh.LatticeTiling
import SmoothShading.Proofs.Mesh.ColorRange
import SmoothShading.Proofs.Mesh.AffineImage
import SmoothShading.Proofs.Stream.AffineImage
import SmoothShading.Proofs.Faults
import SmoothShading.Proofs.Stream.PatchSeam
import SmoothShading.Proofs.ConversionFailures
import SmoothShading.Proofs.Bits.WriteBack
import SmoothShading.Proofs.Pieces
import SmoothShading.Proofs.Mesh.LatticeEdges
import SmoothShading.Proofs.Stream.LatticeForm
import SmoothShading.Proofs.Extended
import SmoothShading.Proofs.Mesh.LinePath
import SmoothShading.Proofs.Mesh.Flatness
import SmoothShading.Proofs.Rectangle
import SmoothShading.Proofs.Mesh.Tessellation
import SmoothShading.Proofs.Mesh.Interpolation
import SmoothShading.Proofs.Mesh.CornerOrder
import SmoothShading.Proofs.Mesh.LineColor
import SmoothShading.Proofs.Clip
import SmoothShading.Proofs.Mesh.Hull
import SmoothShading.Proofs.Mesh.Collapse
import SmoothShading.Proofs.Stream.Ranges
import SmoothShading.Proofs.Stream.Length
