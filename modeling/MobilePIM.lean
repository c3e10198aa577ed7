import MobilePIM.Foundation.Bins
import MobilePIM.Foundation.Bits
import MobilePIM.Foundation.Packer
import MobilePIM.Foundation.Coverage
import MobilePIM.Foundation.Scan
import MobilePIM.Foundation.Getopt
import MobilePIM.Foundation.Returns
import MobilePIM.Foundation.Alike
import MobilePIM.Foundation.Guarded
import MobilePIM.Foundation.Backref
import MobilePIM.Foundation.Words
import MobilePIM.Foundation.Runs
import MobilePIM.Machine
import MobilePIM.Memory
import MobilePIM.Fresh
import MobilePIM.Lz4.Format
import MobilePIM.Lz4.Copy
import MobilePIM.Lz4.Decompress
import MobilePIM.Lz4.Decoding
import MobilePIM.Lz4.Match
import MobilePIM.Lz4.Compress
import MobilePIM.Lz4.Emission
import MobilePIM.Lz4.Compression
import MobilePIM.Lz4.Extremes
import MobilePIM.Lz4.RoundTrip
import MobilePIM.Lz4.Fresh
import MobilePIM.Lzo.Format
import MobilePIM.Lzo.Copy
import MobilePIM.Lzo.Decompress
import MobilePIM.Lzo.Decoding
import MobilePIM.Lzo.DecompressSafe
import MobilePIM.Lzo.Safety
import MobilePIM.Lzo.Compress
import MobilePIM.Lzo.Emission
import MobilePIM.Lzo.Compression
import MobilePIM.Lzo.Fresh
import MobilePIM.Zram.Codec
import MobilePIM.Zram.Vendored
import MobilePIM.Zram.Slot
import MobilePIM.Zram.Packing
import MobilePIM.Zram.SlotList
import MobilePIM.Zram.Replay
import MobilePIM.Zram.Trace
import MobilePIM.BaseDelta.Histogram
import MobilePIM.BaseDelta.Interning
import MobilePIM.BaseDelta.Estimate
import MobilePIM.BaseDelta.BaseBuffer
import MobilePIM.BaseDelta.Emission
import MobilePIM.BaseDelta.Compress
import MobilePIM.BaseDelta.Sizes
import MobilePIM.BaseDelta.Stream
import MobilePIM.BaseDelta.Lossless
import MobilePIM.BaseDelta.Window
import MobilePIM.BaseDelta.Groups
import MobilePIM.Programs.Arguments
import MobilePIM.Programs.Main
import MobilePIM.Programs.Runs
import MobilePIM.Lzo.Agreement
