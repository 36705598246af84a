import OsLabs.Lib.BlockProgram
import OsLabs.Ospfs.Layout

/-!
# OSPFS: the formatter

`ospfsformat.c` as a program over the blocks of the disk file. A pointer into a
cached block is the disk address of what it points to; the host's directory
tree and the options are arguments. A run that ends without `abort` leaves the
image on the disk.
-/

namespace OsLabs.Ospfs

/-- A C string less its NUL. -/
abbrev CString := { bytes : Bytes // 0 ∉ bytes }

/-! ## What the host delivers -/

/-- A regular file: `stNlink`, `stIno` and `mode` from `lstat`, `md5` the digest of its
bytes (`none` when reading them fails; all zeros is 0), and what the calls of `readn` in
`writefile` return: up to 1024 bytes or an error, and no bytes when the list is used up. -/
structure HostFile where
  name : CString
  stNlink : Nat
  stIno : Nat
  mode : Nat
  md5 : Option Nat
  reads : List (Option { bytes : Bytes // bytes.length ≤ 1024 })

/-- The rest of a directory as `readdir` and `lstat` report it. -/
inductive HostDir where
  | nil
  | file (f : HostFile) (rest : HostDir)
  | directory (name : CString) (mode : Nat) (entries rest : HostDir)
  | symlink (name : CString) (stNlink stIno : Nat) (target : CString) (rest : HostDir)
  /-- Another kind of file, or one that `lstat` fails on. -/
  | other (rest : HostDir)
  /-- `open`, `opendir` or `readlink` fails. -/
  | unreadable (rest : HostDir)

/-- What is copied: `-r DIR`, or a list of files. -/
inductive HostSource where
  | recursive (dir : HostDir)
  | files (fs : List HostFile)

/-- The command line: `links` are the `-l` options, in the order they are carried out. -/
structure Options where
  nblocks : Nat
  ninodes : Nat
  linkContents : Bool
  links : List (CString × CString)
  source : HostSource

def Options.accepted (o : Options) : Bool :=
  decide (2 ≤ o.nblocks) && decide (o.nblocks ≤ 8192) && decide (2 ≤ o.ninodes) &&
    decide (o.ninodes < o.nblocks - 2 - o.nblocks / 8192)

/-! ## Global variables -/

structure Hardlink where
  ospIno : Nat
  hostIno : Nat
  md5Digest : Nat
  deriving DecidableEq

structure Globals where
  nextb : Nat
  nextinode : Nat
  hardlinks : List Hardlink
  deriving DecidableEq

inductive BlockType where
  | super
  | dir
  | file
  | bits
  | inodes
  deriving DecidableEq

abbrev Fmt := BlockProg Globals BlockType

open BlockProg

/-- `get_hardlink`; `md5Digest` is `none` for a symbolic link. -/
def getHardlink (linkContents : Bool) (hostIno : Nat) (md5Digest : Option Nat) :
    List Hardlink → Nat
  | [] => 0
  | cur :: rest =>
    if (hostIno ≠ 0 ∧ cur.hostIno = hostIno) ∨
        (linkContents ∧ md5Digest = some cur.md5Digest) then cur.ospIno
    else getHardlink linkContents hostIno md5Digest rest

/-- `add_hardlink`; the host's inode number is stored in 32 bits. -/
def addHardlink (linkContents : Bool) (hostIno ospIno : Nat) (md5Digest : Option Nat) :
    Fmt Unit := do
  let s ← getGlobals
  setGlobals { s with hardlinks :=
    ⟨ospIno, hostIno % 2 ^ 32, if linkContents then md5Digest.getD 0 else 0⟩ :: s.hardlinks }

/-- `getblk(nextb++, 1, type)`. -/
def nextBlock (type : BlockType) : Fmt Nat := do
  let s ← getGlobals
  setGlobals { s with nextb := s.nextb + 1 }
  getBlock s.nextb true type
  return s.nextb

/-! ## Blocks and inodes -/

/-- The loop `for (i = 0; i < n; i++)`. -/
def forRange (n : Nat) (f : Nat → Fmt Unit) : Fmt Unit :=
  match n with
  | 0 => pure ()
  | n + 1 => do
    forRange n f
    f n

/-- The table whose number is at address `a`; it is made when the number is 0. -/
def tableAt (a : Nat) : Fmt Nat := do
  let bno ← loadWord a
  if bno = 0 then
    let bno ← nextBlock .bits
    storeWord a bno
    return bno
  else
    getBlock bno false .bits
    return bno

def storeblk (ino b nblk : Nat) : Fmt Unit := do
  if nblk < 10 then storeWord (ino + 16 + 4 * nblk) b
  else if nblk < 10 + 256 then
    let bindir ← tableAt (ino + 56)
    storeWord (1024 * bindir + 4 * (nblk - 10)) b
    putBlock bindir
  else if nblk < maxfileblks then
    let bindir2 ← tableAt (ino + 60)
    let nblk := nblk - (10 + 256)
    let bindir ← tableAt (1024 * bindir2 + 4 * (nblk / 256))
    storeWord (1024 * bindir + 4 * (nblk % 256)) b
    putBlock bindir
    putBlock bindir2
  else abort

section Config

variable (o : Options)

def nbitblock : Nat := (o.nblocks + 8191) / 8192

def ninodeblock : Nat := (o.ninodes + 15) / 16

def firstinob : Nat := 2 + nbitblock o

/-- The block of an inode, and the inode in it. -/
def inodeBlk (ino : Nat) : Nat := firstinob o + ino / 16

def inodePtr (ino : Nat) : Nat := 1024 * inodeBlk o ino + 64 * (ino % 16)

def opendisk : Fmt Unit := do
  forRange (nbitblock o) fun i => do
    getBlock (2 + i) false .bits
    storeBytes (1024 * (2 + i)) (List.replicate 1024 0xFF)
    putBlock (2 + i)
  forRange (ninodeblock o) fun i => do
    getBlock (2 + nbitblock o + i) true .inodes
    putBlock (2 + nbitblock o + i)
  setGlobals ⟨2 + nbitblock o + ninodeblock o, 0, []⟩

/-- `allocinode`; the caller stores the number. -/
def allocinode : Fmt Nat := do
  let s ← getGlobals
  if s.nextinode = o.ninodes then abort
  else
    setGlobals { s with nextinode := s.nextinode + 1 }
    getBlock (inodeBlk o s.nextinode) false .inodes
    return s.nextinode

end Config

/-! ## Directory entries -/

/-- The search for a blank entry in a directory block, from entry `i` on. -/
def blankFrom (dirb : Nat) : (k i : Nat) → Fmt (Option Nat)
  | 0, _ => pure none
  | k + 1, i => do
    let odIno ← loadWord (1024 * dirb + 128 * i)
    if odIno = 0 then return some (1024 * dirb + 128 * i)
    else blankFrom dirb k (i + 1)

/-- The last block of a directory of more than `nblk` blocks. -/
def lastDirb (dirino nblk : Nat) : Fmt Nat := do
  if nblk ≥ 10 + 256 then
    let nblkOff := nblk - 10 - 256
    let bindir2 ← loadWord (dirino + 60)
    getBlock bindir2 false .bits
    let bindir ← loadWord (1024 * bindir2 + 4 * (nblkOff / 256))
    getBlock bindir false .bits
    let dirb ← loadWord (1024 * bindir + 4 * (nblkOff % 256))
    getBlock dirb false .dir
    putBlock bindir
    putBlock bindir2
    return dirb
  else if nblk ≥ 10 then
    let bindir ← loadWord (dirino + 56)
    getBlock bindir false .bits
    let dirb ← loadWord (1024 * bindir + 4 * (nblk - 10))
    getBlock dirb false .dir
    putBlock bindir
    return dirb
  else
    let dirb ← loadWord (dirino + 16 + 4 * nblk)
    getBlock dirb false .dir
    return dirb

/-- The code at `new_dirb`; the directory has `nblk` blocks. -/
def newDirb (dirino nblk : Nat) : Fmt (Nat × Nat) := do
  let dirb ← nextBlock .dir
  forRange 8 fun i => storeWord (1024 * dirb + 128 * i) 0
  storeblk dirino dirb nblk
  let size ← loadWord dirino
  storeWord dirino (size + 1024)
  let size ← loadWord dirino
  if (nblk + 1) * 1024 = size then return (1024 * dirb, dirb)
  else abort

/-- `allocdirentry`: the entry and its block. The callers follow the NULL
pointer that a name that is too long gives. -/
def allocdirentry (dirino : Nat) (name : Bytes) : Fmt (Nat × Nat) := do
  if name.length > 123 then abort
  else
    let size ← loadWord dirino
    -- one more than the index of the last block
    let nblk := ospfsSize2nblocks size
    let r ← (do
      if nblk = 0 then newDirb dirino nblk
      else
        let dirb ← lastDirb dirino (nblk - 1)
        match ← blankFrom dirb 8 0 with
        | some od => return (od, dirb)
        | none =>
          putBlock dirb
          newDirb dirino nblk)
    storeBytes (r.1 + 4) (name ++ [0])
    return r

/-! ## Files, symbolic links, directories -/

/-- The loop of `writefile` that copies the file, with the assignment to `oi_size` after it. -/
def writeBlocks (ino : Nat) : (reads : List (Option { bytes : Bytes // bytes.length ≤ 1024 })) →
    (nblk : Nat) → Fmt Unit
  | [], nblk => do
    let s ← getGlobals
    getBlock s.nextb true .file
    putBlock s.nextb
    storeWord ino (nblk * 1024)
  | none :: _, _ => do
    let s ← getGlobals
    getBlock s.nextb true .file
    abort
  | some bytes :: reads, nblk => do
    let s ← getGlobals
    let b := s.nextb
    getBlock b true .file
    storeBytes (1024 * b) bytes
    if bytes.val.length = 0 then
      putBlock b
      storeWord ino (nblk * 1024)
    else
      setGlobals { s with nextb := b + 1 }
      storeblk ino b nblk
      putBlock b
      if bytes.val.length < 1024 then storeWord ino (nblk * 1024 + bytes.val.length)
      else writeBlocks ino reads (nblk + 1)

section Config

variable (o : Options)

def writefile (dirino : Nat) (f : HostFile) (hostIno mode : Nat) : Fmt Unit := do
  let (de, dirb) ← allocdirentry dirino f.name
  if o.linkContents ∧ f.md5 = none then pure ()
  else
    let s ← getGlobals
    let hardlinkIno :=
      if hostIno ≠ 0 ∨ o.linkContents then getHardlink o.linkContents hostIno f.md5 s.hardlinks
      else 0
    if hardlinkIno = 0 then
      let ino ← allocinode o
      storeWord de ino
      storeWord (inodePtr o ino + 8) 1
      if hostIno ≠ 0 ∨ o.linkContents then addHardlink o.linkContents hostIno ino f.md5
      storeWord (inodePtr o ino + 4) ftypeReg
      storeWord (inodePtr o ino + 12) mode
      writeBlocks (inodePtr o ino) f.reads 0
      putBlock dirb
      putBlock (inodeBlk o ino)
    else
      storeWord de hardlinkIno
      getBlock (inodeBlk o hardlinkIno) false .inodes
      let nlink ← loadWord (inodePtr o hardlinkIno + 8)
      storeWord (inodePtr o hardlinkIno + 8) (nlink + 1)
      putBlock dirb
      putBlock (inodeBlk o hardlinkIno)

/-- `addsymlink`; a text of more than `OSPFS_MAXSYMLINKLEN` bytes, possible with `-l`
only, overruns the inode, which is not modelled. -/
def addsymlink (dirino : Nat) (name linkbuf : Bytes) (hostIno : Nat) : Fmt Unit := do
  let (de, dirb) ← allocdirentry dirino name
  let s ← getGlobals
  let hardlinkIno :=
    if hostIno ≠ 0 then getHardlink o.linkContents hostIno none s.hardlinks else 0
  if hardlinkIno = 0 then
    let ino ← allocinode o
    storeWord de ino
    storeWord (inodePtr o ino + 8) 1
    if hostIno ≠ 0 then addHardlink o.linkContents hostIno ino none
    storeWord (inodePtr o ino + 4) ftypeSymlink
    if linkbuf.length > 51 then abort
    else
      storeBytes (inodePtr o ino + 12) (linkbuf ++ [0])
      storeWord (inodePtr o ino) linkbuf.length
      putBlock dirb
      putBlock (inodeBlk o ino)
  else
    storeWord de hardlinkIno
    getBlock (inodeBlk o hardlinkIno) false .inodes
    let nlink ← loadWord (inodePtr o hardlinkIno + 8)
    storeWord (inodePtr o hardlinkIno + 8) (nlink + 1)
    putBlock dirb
    putBlock (inodeBlk o hardlinkIno)

def writesymlink (dirino : Nat) (name target : Bytes) (hostIno : Nat) : Fmt Unit :=
  if target.length > 51 then pure () else addsymlink o dirino name target hostIno

/-- `".", "..", "CVS", ".svn", ".git"`: directories that are not copied. -/
def skipped (name : Bytes) : Bool :=
  name ∈ [[46], [46, 46], [67, 86, 83], [46, 115, 118, 110], [46, 103, 105, 116]]

/-- `host_ino`: the host's inode number when other names may link to the file. -/
def hostLink (stNlink stIno : Nat) : Nat := if stNlink > 1 then stIno else 0

/-- The loop of `writedirectory` over a host directory, for the directory `dirino`. -/
def writedirectory : (dir : HostDir) → (dirino : Nat) → Fmt Unit
  | .nil, _ => pure ()
  | .file f rest, dirino => do
    writefile o dirino f (hostLink f.stNlink f.stIno) (f.mode % 512)
    writedirectory rest dirino
  | .directory name mode entries rest, dirino => do
    if skipped name then writedirectory rest dirino
    else
      let (dirod, dirb) ← allocdirentry dirino name
      let ino ← allocinode o
      storeWord dirod ino
      let nlink ← loadWord (dirino + 8)
      storeWord (dirino + 8) (nlink + 1)
      storeWord (inodePtr o ino + 4) ftypeDir
      storeWord (inodePtr o ino) 0
      storeWord (inodePtr o ino + 8) 1
      storeWord (inodePtr o ino + 12) (mode % 512)
      writedirectory entries (inodePtr o ino)
      putBlock dirb
      putBlock (inodeBlk o ino)
      writedirectory rest dirino
  | .symlink name stNlink stIno target rest, dirino => do
    writesymlink o dirino name target (hostLink stNlink stIno)
    writedirectory rest dirino
  | .other rest, dirino => writedirectory rest dirino
  | .unreadable _, _ => abort

/-! ## The whole program -/

def finishfs : Fmt Unit := do
  let s ← getGlobals
  forRange s.nextb fun i => do
    let b := 2 + i / 8192
    getBlock b false .bits
    let w ← loadWord (1024 * b + 4 * (i % 8192 / 32))
    storeWord (1024 * b + 4 * (i % 8192 / 32)) (w &&& (2 ^ 32 - 1 - 1 <<< (i % 32)))
    putBlock b
  if o.nblocks ≠ nbitblock o * 8192 then
    let b := 2 + nbitblock o - 1
    getBlock b false .bits
    forRange (8192 - o.nblocks % 8192) fun i => do
      let i := o.nblocks % 8192 + i
      let w ← loadWord (1024 * b + 4 * (i / 32))
      storeWord (1024 * b + 4 * (i / 32)) (w &&& (2 ^ 32 - 1 - 1 <<< (i % 32)))
    putBlock b
  getBlock 1 true .super
  storeWord 1024 0x013101AE
  storeWord 1028 o.nblocks
  storeWord 1032 o.ninodes
  storeWord 1036 (firstinob o)
  putBlock 1

def addLinks (rootino : Nat) : List (CString × CString) → Fmt Unit
  | [] => pure ()
  | (source, destination) :: links => do
    addsymlink o rootino destination source 0
    addLinks rootino links

def writeFiles (rootino : Nat) : List HostFile → Fmt Unit
  | [] => pure ()
  | f :: fs => do
    writefile o rootino f 0 438
    writeFiles rootino fs

def main : Fmt Unit := do
  if !o.accepted then abort
  else
    opendisk o
    let reserved ← allocinode o
    storeWord (inodePtr o reserved + 8) 1
    putBlock (inodeBlk o reserved)
    let root ← allocinode o
    let rootino := inodePtr o root
    storeWord (rootino + 4) ftypeDir
    storeWord (rootino + 8) 1
    storeWord (rootino + 12) 511
    match o.source with
    | .recursive dir => writedirectory o dir rootino
    | .files fs => writeFiles o rootino fs
    addLinks o rootino o.links
    putBlock (inodeBlk o root)
    finishfs o

/-- The globals and the image that `ospfsformat` leaves; the disk file starts out empty. -/
def formatted : Option (Globals × Mem) :=
  ((main o).run o.nblocks ⟨0, 0, []⟩ fun _ => 0).map fun r => r.2

end Config

end OsLabs.Ospfs
