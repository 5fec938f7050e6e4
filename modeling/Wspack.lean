import Wspack.Lib.Run
import Wspack.Lib.Cells
import Wspack.Lib.Ownership
import Wspack.Lib.Extents
import Wspack.Lib.Scan
import Wspack.Lib.Winnow
import Wspack.Lib.RollingHash
import Wspack.Lib.Ledger
import Wspack.Lib.Text
import Wspack.Lib.Links
import Wspack.Lib.Rings
import Wspack.Lib.Words
import Wspack.Lib.Parties
import Wspack.KernelHash.Item
import Wspack.KernelHash.Jenkins
import Wspack.KernelHash.Bitmap
import Wspack.KernelHash.Cache
import Wspack.KernelHash.ListSort
import Wspack.KernelHash.SortLinks
import Wspack.KernelHash.ReadOrder
import Wspack.KernelHash.Payload
import Wspack.KernelHash.Drain
import Wspack.KernelHash.PacketPath
import Wspack.KernelHash.ListHead
import Wspack.KernelHash.PacketLinks
import Wspack.KernelHash.Change
import Wspack.KernelHash.Table
import Wspack.KernelHash.Refs
import Wspack.KernelHash.Lifecycle
import Wspack.KernelHash.Slots
import Wspack.KernelHash.Flush
import Wspack.KernelHash.Accounting
import Wspack.KernelHash.Unique
import Wspack.KernelHash.Copy
import Wspack.KernelHash.Disk
import Wspack.KernelHash.Space
import Wspack.KernelHash.Init
import Wspack.KernelHash.Unwind
import Wspack.KernelHash.PoolMemory
import Wspack.KernelHash.ShaPool
import Wspack.KernelHash.ShaCounts
import Wspack.KernelHash.ShaMemory
import Wspack.KernelHash.ShaShared
import Wspack.Chunk.Partition
import Wspack.Chunk.Restart
import Wspack.Chunk.Tiling
import Wspack.Chunk.Fifo
import Wspack.Send.Sender
import Wspack.Send.Length
import Wspack.Send.Replace
import Wspack.Pack.Hashmap
import Wspack.Pack.Buffer
import Wspack.Pack.Part
import Wspack.Pack.Packer
import Wspack.Pack.Conserve
import Wspack.Pack.Stream
import Wspack.Pack.Rolling
import Wspack.Pack.Bounds
import Wspack.Pack.KeyValue
import Wspack.Pack.FiniteMap
import Wspack.Pack.SizedMap
import Wspack.Pack.Frame
import Wspack.Pack.Blocks
import Wspack.Pack.Main
import Wspack.WinnPack.Part
import Wspack.Tcpre.Calculate
import Wspack.Tcpre.Lookup
import Wspack.Tcpre.Repeats
import Wspack.Tcpre.Entries
import Wspack.RbJava.Fingerprint
import Wspack.RbJava.Saving
import Wspack.CacheVerify.Table
import Wspack.CacheVerify.Log
import Wspack.CacheVerify.Countdown
import Wspack.Udp.SendRecv
import Wspack.Sock.Readline
import Wspack.Sock.StrCli
