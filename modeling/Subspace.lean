import Subspace.Bytes
import Subspace.Uint.Limbs
import Subspace.Uint.Mul
import Subspace.Uint.Div
import Subspace.Uint.Knuth
import Subspace.Uint.KnuthWords
import Subspace.Uint.KnuthEstimate
import Subspace.Uint.KnuthLoop
import Subspace.Uint.DivMod
import Subspace.Uint.Endian
import Subspace.U256
import Subspace.Distance
import Subspace.Codec
import Subspace.Primitives
import Subspace.CodecCanonical
import Subspace.Sector
import Subspace.Dsn
import Subspace.DsnStore
