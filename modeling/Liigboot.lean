import Liigboot.Lib.Bytes
import Liigboot.Installer.Install
import Liigboot.Installer.CopyLoop
import Liigboot.Installer.Atomic
import Liigboot.Config.RllPack
import Liigboot.Config.Store
import Liigboot.Config.ParseConfig
import Liigboot.Config.Keyword
import Liigboot.Fs.Extent
import Liigboot.Fs.GetFsSec
import Liigboot.Fs.ReadFile
import Liigboot.Lib.Chain
import Liigboot.Fs.Fat.Volume
import Liigboot.Fs.Fat.NextExtent
import Liigboot.Mkzip.Image
import Liigboot.Mkzip.Frame
import Liigboot.Mkzip.Chain
import Liigboot.Mkzip.ReadBack
import Liigboot.Mkzip.Intact
import Liigboot.Lib.Ring
import Liigboot.Lib.Tiling
import Liigboot.Mem.Arena
import Liigboot.Mem.Blocks
import Liigboot.Mem.Malloc
import Liigboot.Mem.Free
import Liigboot.Mem.Tagged
import Liigboot.Mem.Run
import Liigboot.Lib.RefForest
import Liigboot.Vfs.Inode
import Liigboot.Vfs.SearchDir
import Liigboot.Vfs.Open
import Liigboot.Vfs.Run
import Liigboot.Fs.Cache
import Liigboot.Fs.Fat.Directory
import Liigboot.Fs.Fat.LongName
import Liigboot.Fs.Ext2.Bmap
import Liigboot.Fs.Ntfs.DataRun
import Liigboot.Fs.Ntfs.RunList
import Liigboot.Fs.Btrfs.Tree
import Liigboot.Fs.Btrfs.Walk
import Liigboot.Boot.RunKernel
import Liigboot.Fs.LoadHigh
import Liigboot.Fs.LoadLoop
import Liigboot.Fs.LoadFile
import Liigboot.Boot.LoadKernel
import Liigboot.Boot.ShuffleList
import Liigboot.Fs.Fat.Entries
import Liigboot.Fs.Fat.Lookup
import Liigboot.Fs.Fat.Listing
import Liigboot.Fs.Fat.Agreement
import Liigboot.Fs.Fat.FindEntry
import Liigboot.Mkzip.BootLoader
import Liigboot.Fs.DiskIo
import Liigboot.Fs.CacheFaults
import Liigboot.Fs.Ext2.ZeroBlock
import Liigboot.Fs.Ntfs.Record
import Liigboot.Fs.Ntfs.MftLookup
import Liigboot.Fs.Ntfs.IndexNode
import Liigboot.Fs.Ntfs.IndexLookup
import Liigboot.Fs.Ntfs.Directory
import Liigboot.Fs.Ntfs.DirectoryReads
import Liigboot.Fs.Btrfs.ChunkMap
import Liigboot.Fs.Btrfs.Landing
import Liigboot.Fs.Btrfs.ChunkTree
import Liigboot.Fs.Btrfs.NextExtent
import Liigboot.Fs.Btrfs.FileReads
import Liigboot.Adv.Tags
import Liigboot.Adv.Verify
import Liigboot.Adv.Disk
import Liigboot.Console.Serial
import Liigboot.Vfs.PathReads
import Liigboot.Vfs.Rounds
import Liigboot.Fs.LoadMemory
import Liigboot.Lib.Masks
import Liigboot.Fs.LoadPadding
import Liigboot.Fs.HaveMore
import Liigboot.Fs.Fat.Frontier
import Liigboot.Fs.Fat.Truncated
import Liigboot.Fs.Fat.Sectors
import Liigboot.Fs.Fat.ReadCalls
import Liigboot.Fs.Fat.ReadEnd
import Liigboot.Fs.Fat.Search
import Liigboot.Fs.MangleName
import Liigboot.Fs.Fat.Unicache
import Liigboot.Fs.Ext2.Extents
import Liigboot.Fs.Ext2.ExtentMap
import Liigboot.Fs.Ext2.FindEntry
import Liigboot.Fs.Ext2.GroupDesc
import Liigboot.Fs.Ntfs.Attributes
import Liigboot.Fs.Ntfs.AttributeEnds
import Liigboot.Fs.Ntfs.FileRecord
import Liigboot.Fs.Ntfs.AttributeFound
import Liigboot.Fs.Ntfs.AttributeLost
import Liigboot.Fs.Ntfs.AttributeLookup
import Liigboot.Fs.Ntfs.Readdir
import Liigboot.Fs.Ntfs.ReaddirEntry
import Liigboot.Lib.Cursor
import Liigboot.Fs.Ntfs.ReaddirBlocks
import Liigboot.Fs.Ntfs.ReaddirRuns
import Liigboot.Fs.Ntfs.Listing
import Liigboot.Fs.Ext2.Listing
import Liigboot.Fs.Btrfs.ChunkArray
import Liigboot.Fs.Btrfs.Iget
import Liigboot.Fs.CacheLayout
import Liigboot.Fs.Btrfs.SearchStores
import Liigboot.Vfs.PathText
import Liigboot.Vfs.CurrentDir
import Liigboot.Fs.Ntfs.Resident
import Liigboot.Mem.Rounding
import Liigboot.Boot.ParseCmdline
import Liigboot.Boot.CmdlineWords
import Liigboot.Fs.LoadRest
import Liigboot.Boot.ReadKernel
import Liigboot.Adv.Atomic
import Liigboot.Adv.Bounds
import Liigboot.Console.Graphics
import Liigboot.Pm.Callback
import Liigboot.Installer.DeviceName
import Liigboot.Installer.Padding
import Liigboot.Boot.ClearMemory
import Liigboot.Boot.ConstructCmdline
import Liigboot.Boot.IntGrammar
import Liigboot.Boot.SetupCommandLine
import Liigboot.Config.Getline
import Liigboot.Boot.OnError
import Liigboot.Boot.Bcopy
import Liigboot.Boot.HighMem
import Liigboot.Config.AppendLines
import Liigboot.Lib.Splice
import Liigboot.Tools.Elf32
import Liigboot.Tools.LoadElf
import Liigboot.Lib.TwoSums
import Liigboot.Tools.Adler32
import Liigboot.Tools.UpxElf32
import Liigboot.Tools.UpxFlags
import Liigboot.Tools.StripElf32
import Liigboot.Tools.StripSegments
import Liigboot.Lib.Lines
import Liigboot.Tools.PatchGrldr
import Liigboot.Lib.Append
import Liigboot.Tools.Elftiny32
import Liigboot.Tools.MergeSegments
import Liigboot.Lib.Program
import Liigboot.Getc.Stack
import Liigboot.Getc.PushBack
import Liigboot.Getc.Reader
import Liigboot.Getc.Rules
import Liigboot.Getc.Display
import Liigboot.Getc.Commands
import Liigboot.Getc.ParseConfig
import Liigboot.Getc.Run
import Liigboot.Getc.Overrun
import Liigboot.Getc.Getline
import Liigboot.Comcore.Division
import Liigboot.Comcore.FormatDigits
import Liigboot.Comcore.Vsnprintf
import Liigboot.Comcore.VsnprintfRun
import Liigboot.Console.Message
import Liigboot.Console.MessagePage
import Liigboot.Lib.TextRow
import Liigboot.Ui.Editor
import Liigboot.Ui.KernelSearch
import Liigboot.Ui.Screen
import Liigboot.Ui.Timeouts
import Liigboot.Fs.Btrfs.NameHash
import Liigboot.Installer.BootSector
import Liigboot.Boot.Comboot
import Liigboot.Pm.A20
import Liigboot.Lib.PathWalk
import Liigboot.Vfs.Resolve
import Liigboot.Vfs.Walk
