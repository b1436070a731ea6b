import Fkv.Lib.LinkedRing
import Fkv.Lib.Tiling
import Fkv.MemManager.Coalesced
import Fkv.MemManager.Oversized
import Fkv.MemManager.Capacity
import Fkv.MemManager.StackOrder
import Fkv.MemManager.FitsTest
import Fkv.City
import Fkv.Bucket.Spares
import Fkv.Bucket.Search
import Fkv.Bucket.Family
import Fkv.Bucket.BucketTest
import Fkv.CircularLog.Lock
import Fkv.CircularLog.Acquired
import Fkv.CircularLog.Replace
import Fkv.CircularLog.Failure
import Fkv.CircularLog.Semantics
import Fkv.CircularLog.KeepsOrder
import Fkv.CircularLog.Ckcv
import Fkv.CircularLog.Consistent
import Fkv.Bucket.WaitFree
