import OsLabs.Osprd.Calls
import OsLabs.Osprd.Tickets
import OsLabs.Shell.Grammar
import OsLabs.Ospfs.Dir
import OsLabs.Ospfs.Entries
import OsLabs.Ospfs.Storeblk
import OsLabs.Ospfs.Writedir
import OsLabs.Ospfs.FollowLink
import OsLabs.Ospfs.Shrink
import OsLabs.Ospfs.Rollback
import OsLabs.Osprd.Agreement
import OsLabs.Osp2p.Messages
import OsLabs.Osp2p.Upload
import OsLabs.Osp2p.Download
import OsLabs.Osp2p.Tracker
import OsLabs.Shell.ExecuteGraph
import OsLabs.Shell.Execute
import OsLabs.Shell.Descriptors
import OsLabs.Weensy.Schedos
import OsLabs.Weensy.SysWait
import OsLabs.Ospfs.Cache
import OsLabs.Shell.Validate
import OsLabs.Shell.Alike
import OsLabs.Shell.Trailing
import OsLabs.Shell.Separation
import OsLabs.Shell.Reading
import OsLabs.Shell.Merge
import OsLabs.Shell.Comments
import OsLabs.Ospfs.Transfer
import OsLabs.Ospfs.Overwrite
import OsLabs.Ospfs.Undo
import OsLabs.Ospfs.Lengthen
import OsLabs.Ospfs.Extend
import OsLabs.Ospfs.Reuse
import OsLabs.Ospfs.Abandon
import OsLabs.Ospfs.Atomic
import OsLabs.Weensy.Fork
import OsLabs.Shell.Building
import OsLabs.Shell.Newline
import OsLabs.Ospfs.Allocator
import OsLabs.Ospfs.Fsimgtoc
import OsLabs.Weensy.CopyStack
import OsLabs.Weensy.Loader
import OsLabs.Weensy.Printf
import OsLabs.Ospfs.Growdir
import OsLabs.Osp2p.Scanformat
import OsLabs.Osp2p.Lookahead
import OsLabs.Osp2p.Capacity
import OsLabs.Osp2p.Filenames
import OsLabs.Osp2p.Limit
import OsLabs.Osp2p.Sharing
import OsLabs.Osp2p.Serving
import OsLabs.Shell.Lexemes
import OsLabs.Ospfs.Readdir
import OsLabs.Shell.Buffers
import OsLabs.Ospfs.Samefile
import OsLabs.Ospfs.Symlink
import OsLabs.Ospfs.Chains
import OsLabs.Ospfs.Readn
import OsLabs.Ospfs.Wraparound
import OsLabs.Shell.Serial
import OsLabs.Ospfs.Md5
import OsLabs.Osp2p.Md5
import OsLabs.Weensy.Turns
import OsLabs.Osprd.Ramdisk
import OsLabs.Osprd.Access
import OsLabs.Ospfs.Toolchain
import OsLabs.Ospfs.Failing
import OsLabs.Ospfs.Holders
import OsLabs.Ospfs.Dirmap
import OsLabs.Ospfs.Byteorder
