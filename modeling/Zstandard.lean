import Zstandard.Decode.Stream
import Zstandard.Decode.Profiled
import Zstandard.Decode.Sticky
import Zstandard.Decode.Copies
import Zstandard.Encode.Blocks
import Zstandard.Encode.Accepted
import Zstandard.Encode.Dictionary
import Zstandard.Entropy.NcountCut
import Zstandard.Entropy.Weights
import Zstandard.Entropy.Packed
import Zstandard.Entropy.Agreement
import Zstandard.Encode.Candidates
import Zstandard.Encode.LayDown
import Zstandard.Encode.FrameMatches
import Zstandard.Wire.HeaderWriter
import Zstandard.Entropy.Fields
import Zstandard.Decode.SharedTables
import Zstandard.Entropy.DoubleTable
import Zstandard.Encode.Rebase
import Zstandard.Encode.FrameBuffer
import Zstandard.Encode.Chunking
import Zstandard.Wire.Digest
import Zstandard.Encode.CodeHistogram
import Zstandard.Encode.OutBuf
import Zstandard.Encode.MatchLength
import Zstandard.Decode.LiteralsLayout
import Zstandard.Encode.Partition
import Zstandard.Decode.StreamCap
import Zstandard.Encode.SequenceBitstream
import Zstandard.Library.Avoids
import Zstandard.Encode.PriceModel
import Zstandard.Encode.OptimalPath
import Zstandard.Encode.OptimalParser
import Zstandard.Encode.OptimalPlan
import Zstandard.Decode.Concat
import Zstandard.Encode.SequenceReading
import Zstandard.Encode.SectionRoundTrip
import Zstandard.Encode.LiteralsSection
