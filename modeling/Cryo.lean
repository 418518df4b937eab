import Cryo.Lib.Bytes
import Cryo.Lib.Chunk
import Cryo.Lib.Resequence
import Cryo.Lib.Ranges
import Cryo.Lib.Act
import Cryo.Lib.Trace
import Cryo.Lib.FileSystem
import Cryo.Lib.Modes
import Cryo.Lib.FsCalls
import Cryo.Lib.BufWriter
import Cryo.Lib.Directories
import Cryo.Lib.NewDirs
import Cryo.Lib.Confine
import Cryo.Lib.Sink
import Cryo.Lib.Disk
import Cryo.Lib.Interleave
import Cryo.Lib.Aead
import Cryo.Lib.Checked
import Cryo.Lib.Progress
import Cryo.Format
import Cryo.Codec
import Cryo.Reading
import Cryo.Chunking
import Cryo.Worker
import Cryo.Writer
import Cryo.Binding
import Cryo.Compress
import Cryo.Threads
import Cryo.Liveness
import Cryo.Completeness
import Cryo.Flow
import Cryo.Scan
import Cryo.ScanTree
import Cryo.Loader
import Cryo.Append
import Cryo.PathSafety
import Cryo.Reader
import Cryo.Verify
import Cryo.Extract
import Cryo.Decompress
import Cryo.Limits
import Cryo.Archive
import Cryo.History
import Cryo.Admission
import Cryo.Records
import Cryo.Damage
import Cryo.Window
import Cryo.Tree
import Cryo.RoundTrip
import Cryo.Representation
import Cryo.Idempotent
import Cryo.Containment
import Cryo.Entries
import Cryo.Restriction
import Cryo.Restore
import Cryo.Attributes
import Cryo.Extractable
import Cryo.TmpFile
import Cryo.AppendCall
import Cryo.Neighbours
import Cryo.OwnCopy
import Cryo.AppendRun
import Cryo.AppendLiveness
import Cryo.Session
import Cryo.Tamper
import Cryo.Store
import Cryo.EnginePool
import Cryo.EngineRuns
import Cryo.Reproducible
import Cryo.Race
import Cryo.Calendar
import Cryo.Listing
import Cryo.JsonListing
import Cryo.PlainListing
import Cryo.CivilDate
import Cryo.Naming
import Cryo.Normalization
