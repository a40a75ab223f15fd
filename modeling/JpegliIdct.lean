import JpegliIdct.Arith
import JpegliIdct.Memory
import JpegliIdct.Idct1D
import JpegliIdct.Spec
import JpegliIdct.Butterfly
import JpegliIdct.Compute1d
import JpegliIdct.ScaledIdct
import JpegliIdct.Block
import JpegliIdct.Exact
import JpegliIdct.Lanes
import JpegliIdct.Kernel
import JpegliIdct.Contract
import JpegliIdct.Observable
import JpegliIdct.Sizes
import JpegliIdct.ZeroBlock
import JpegliIdct.EnumValues
import JpegliIdct.Symmetry
import JpegliIdct.ColorEncoding
import JpegliIdct.PassesState
