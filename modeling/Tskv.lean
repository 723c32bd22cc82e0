import Tskv.Basic
import Tskv.Memcache.Basic
import Tskv.Block.Basic
import Tskv.Block.Merge
import Tskv.Memcache.Invariants
import Tskv.Family.Basic
import Tskv.Family.Shape
import Tskv.Family.Ingest
import Tskv.Family.Frozen
import Tskv.Family.Boundary
import Tskv.Family.HandOff
import Tskv.Block.Termination
import Tskv.Block.AnyOrder
import Tskv.Block.Regroup
import Tskv.Level.Basic
