import Sqlite.Bits.Accesses
import Sqlite.Bits.AllocSound
import Sqlite.Bits.Run
import Sqlite.BtreeCursor.SeekSound
import Sqlite.BtreeCursor.Sound
import Sqlite.Complete.Quote
import Sqlite.Complete.Reads
import Sqlite.Complete.Sound
import Sqlite.Date.Modifiers
import Sqlite.Date.Sound
import Sqlite.Doclist.Deferred
import Sqlite.Doclist.Hint
import Sqlite.Doclist.OrMerge
import Sqlite.Doclist.Reverse
import Sqlite.ExprCode.Jumps
import Sqlite.FileLock.Sound
import Sqlite.Freelist.Alloc
import Sqlite.Freelist.Rounds
import Sqlite.Fts.TotalsSound
import Sqlite.Func.Like
import Sqlite.Func.SubstrSound
import Sqlite.HashTable.Run
import Sqlite.Mem3.Coalesced
import Sqlite.Mem5.Accesses
import Sqlite.Mem5.Sound
import Sqlite.MemJrnl.Run
import Sqlite.Numeric.Encodings
import Sqlite.Numeric.Int64
import Sqlite.Numeric.IntValue
import Sqlite.PageInit.Sound
import Sqlite.Pcache.Run
import Sqlite.Pcache1.Run
import Sqlite.Printf.Accum
import Sqlite.Printf.Convert
import Sqlite.Record.BoundsSound
import Sqlite.Record.Compare
import Sqlite.Record.HeaderReads
import Sqlite.Record.Sound
import Sqlite.Rowid.NewRowid
import Sqlite.Rowset.Calls
import Sqlite.Rowset.Sound
import Sqlite.RtreeScan.Sound
import Sqlite.RtreeSplit.Sound
import Sqlite.Seek.Sound
import Sqlite.SharedCache.Transactions
import Sqlite.Shm.Calls
import Sqlite.Sorter.Run
import Sqlite.Utf.Sound
import Sqlite.Wal.IndexRun
import Sqlite.Wal.IterRun
import Sqlite.Wal.LogSound
