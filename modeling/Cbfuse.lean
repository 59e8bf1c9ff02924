import Cbfuse.Tree
import Cbfuse.Orphans
import Cbfuse.Writes
import Cbfuse.Files
import Cbfuse.Sizes
import Cbfuse.DentryRace
import Cbfuse.BlockRace
import Cbfuse.StatRace
import Cbfuse.NewFile
import Cbfuse.Handlers
import Cbfuse.Dentries
import Cbfuse.Data
import Cbfuse.Buffer
import Cbfuse.Stats
import Cbfuse.Prog
import Cbfuse.KeyValue
import Cbfuse.Interleave
import Cbfuse.Creation
import Cbfuse.Documents
import Cbfuse.Removal
import Cbfuse.World
import Cbfuse.Kinds
import Cbfuse.Undo
import Cbfuse.Readdir
import Cbfuse.Bootstrap
import Cbfuse.DataFailure
import Cbfuse.SizeRace
import Cbfuse.Commute
import Cbfuse.Entries
import Cbfuse.Attributes
import Cbfuse.Truncation
import Cbfuse.Extents
import Cbfuse.ModTime
import Cbfuse.FuseOps
import Cbfuse.NoEntry
import Cbfuse.Readers
import Cbfuse.Malformed
import Cbfuse.Offsets
import Cbfuse.Memory
import Cbfuse.Refinement
import Cbfuse.Origins
import Cbfuse.Isolation
import Cbfuse.Completion
import Cbfuse.Convention
import Cbfuse.Makers
import Cbfuse.Sessions
import Cbfuse.Recovery
