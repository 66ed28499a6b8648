import Fsl.Lib.BitNum
import Fsl.Lib.DirectMapped
import Fsl.Runtime.Disk
import Fsl.Lib.Refines
import Fsl.Runtime.Cache
import Fsl.Runtime.Write
import Fsl.Runtime.Coherence
import Fsl.Runtime.PhysRead
import Fsl.Runtime.LittleEndian
import Fsl.Runtime.BigEndian
import Fsl.Runtime.BitFields
import Fsl.Runtime.Mmap
import Fsl.Runtime.Prog
import Fsl.Runtime.Log
import Fsl.Runtime.Packet
import Fsl.Runtime.Reloc
import Fsl.Lib.PtrTree
import Fsl.Fs.Ext2
import Fsl.Compiler.FromBase
import Fsl.Compiler.Func
import Fsl.Compiler.FuncRun
import Fsl.Compiler.Memo
import Fsl.Compiler.MemoOrder
import Fsl.Compiler.ParamBufRoundTrip
import Fsl.Compiler.Precedence
import Fsl.Compiler.PrecedenceExact
import Fsl.Compiler.UnionLayout
import Fsl.Fs.Ext2Meta
import Fsl.Fs.Ext2Relink
import Fsl.Fs.Minix
import Fsl.Fs.MinixRelink
import Fsl.Fs.Vfat
import Fsl.Fs.VfatChain
import Fsl.Lib.Offer
import Fsl.Lib.RefCount
import Fsl.Lib.Walk
import Fsl.Runtime.Children
import Fsl.Runtime.FollowIter
import Fsl.Runtime.Fuse
import Fsl.Runtime.KernelIo
import Fsl.Runtime.KernelReaddir
import Fsl.Runtime.RoundTrip
import Fsl.Runtime.TypeInfo
import Fsl.Runtime.TypeInfoAlloc
import Fsl.Runtime.TypeInfoHolders
import Fsl.Compiler.Align
import Fsl.Runtime.FieldOffsets
import Fsl.Runtime.GetLocal
import Fsl.Runtime.LocalArray
import Fsl.Runtime.VirtNth
import Fsl.Compiler.ArrayBits
import Fsl.Compiler.CondLower
import Fsl.Compiler.ExprFold
import Fsl.Compiler.ExprRewrite
import Fsl.Compiler.ExprVisit
import Fsl.Compiler.Constants
import Fsl.Fs.MinixLens
import Fsl.Compiler.FieldNum
import Fsl.Compiler.TypeStack
import Fsl.Fs.Btrfs
import Fsl.Fs.Choices
import Fsl.Fs.Hfsplus
import Fsl.Fs.MinixOrder
import Fsl.Fs.VfatWalk
import Fsl.Fs.Vmdk
import Fsl.Lib.FirstFit
import Fsl.Runtime.Bitmap
import Fsl.Runtime.Choice
import Fsl.Fs.VfatReloc
import Fsl.Compiler.FieldTable
import Fsl.Lib.Scan
import Fsl.Lib.Sweep
import Fsl.Runtime.ArrayLookup
import Fsl.Runtime.BitmapAvail
import Fsl.Runtime.PhysCopy
import Fsl.Runtime.ReadLog
import Fsl.Tool.Defrag
import Fsl.Tool.Relocate
import Fsl.Tool.Smush
import Fsl.Compiler.PacketRun
import Fsl.Fs.VfatTools
import Fsl.Lib.Preorder
import Fsl.Runtime.ScanTraverse
import Fsl.Fs.VfatDefrag
import Fsl.Lib.Owned
import Fsl.Runtime.KernelInode
import Fsl.Tool.FuseBrowser
import Fsl.Fs.VfatDirs
import Fsl.Fs.VfatDotdot
