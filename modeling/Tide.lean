import Tide.Theory.Cursor
import Tide.Theory.Checksum
import Tide.Theory.Resumable
import Tide.Format.Truncation
import Tide.Format.Incomplete
import Tide.Format.Digest
import Tide.Format.Depth
import Tide.Format.Oversize
import Tide.Format.Closing
import Tide.Format.ValidPrefix
import Tide.Format.SeekIndex
import Tide.Format.Diagnosis
import Tide.Format.Insertion
import Tide.Format.Varint
import Tide.Format.Burst
import Tide.Model.Time
import Tide.Format.Ordered
import Tide.Format.Listening
import Tide.Format.Raising
import Tide.Format.Live
import Tide.Limits
import Tide.Buffers
import Tide.Mux.Failure
import Tide.Demux.Selection
import Tide.Remux
import Tide.Remux.Failure
import Tide.Leases
import Tide.Repair.Rescan
import Tide.Memory.Decoder
import Tide.Cli.Copies
import Tide.Demux.Ownership
import Tide.Format.Reparsing
import Tide.Format.Volume
import Tide.Index
import Tide.Model.Reduce
import Tide.Mux.Ownership
import Tide.Cli.Ownership
