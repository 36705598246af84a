import OsLabs.Ospfs.Module

/-!
# OSPFS: directory operations

A name is the bytes of a dentry's name. The lookup, unlink and create loops
step through the directory in units of `OSPFS_DIRENTRY_SIZE`.
-/

namespace OsLabs.Ospfs

section Entry

variable (m : Mem) (od : Nat)

def odIno : Nat := m.get32 od

/-- `strlen(od->od_name) == len`. -/
def strlenIs (len : Nat) : Bool :=
  (List.range len).all (fun i => m (od + 4 + i) != 0) && m (od + 4 + len) == 0

/-- `memcmp(od->od_name, name, len) == 0`. -/
def memcmpIs (name : Bytes) : Bool := m.load (od + 4) name.length == name

end Entry

/-- The test of `find_direntry`. -/
def findMatches (m : Mem) (name : Bytes) (od : Nat) : Bool :=
  odIno m od != 0 && strlenIs m od name.length && memcmpIs m od name

/-- The test in the loops of `ospfs_dir_lookup` and `ospfs_unlink`. -/
def lookupMatches (m : Mem) (name : Bytes) (od : Nat) : Bool :=
  decide (odIno m od > 0) && strlenIs m od name.length && memcmpIs m od name

/-- The number of rounds of `for (off = 0; off < dir_oi->oi_size; off += OSPFS_DIRENTRY_SIZE)`. -/
def direntries (m : Mem) (dirOi : Nat) : Nat := (oiSize m dirOi + 127) / 128

/-- Such a loop that leaves with the first entry that passes `test`. -/
def scan (m : Mem) (dirOi : Nat) (test : Nat → Bool) : (rounds off : Nat) → Option Nat
  | 0, _ => none
  | k + 1, off =>
    let od := ospfsInodeData m dirOi off
    if test od then some od else scan m dirOi test k (off + 128)

def findDirentry (m : Mem) (dirOi : Nat) (name : Bytes) : Option Nat :=
  scan m dirOi (findMatches m name) (direntries m dirOi) 0

/-- `ospfs_mk_linux_inode`; `newInode` says whether `new_inode` succeeds. -/
def ospfsMkLinuxInode (m : Mem) (ino : Nat) (newInode : Bool) : Option (Option Nat) :=
  match ospfsInode m ino with
  | none => some none
  | some oi =>
    if !newInode then some none
    else if oiFtype m oi = ftypeReg ∨ oiFtype m oi = ftypeDir ∨ oiFtype m oi = ftypeSymlink then
      some (some ino)
    else none

/-- `ospfs_dir_lookup`: the inode number of the dentry, or `none` for a negative dentry. -/
def ospfsDirLookup (m : Mem) (dirIno : Nat) (name : Bytes) (newInode : Bool) :
    Option (Except Errno (Option Nat)) := do
  let dirOi ← ospfsInode m dirIno
  if name.length > 123 then return .error .eNameTooLong
  match scan m dirOi (lookupMatches m name) (direntries m dirOi) 0 with
  | none => return .ok none
  | some od =>
    match ← ospfsMkLinuxInode m (odIno m od) newInode with
    | none => return .error .eInval
    | some ino => return .ok (some ino)

/-- The loop of `ospfs_unlink`: the offset it stops at, and the entry seen last. -/
def unlinkScan (m : Mem) (dirOi : Nat) (name : Bytes) : (rounds off od : Nat) → Nat × Nat
  | 0, off, od => (off, od)
  | k + 1, off, _ =>
    let od := ospfsInodeData m dirOi off
    if lookupMatches m name od then (off, od) else unlinkScan m dirOi name k (off + 128) od

/-- `ospfs_unlink` of the dentry with this name and inode number. -/
def ospfsUnlink (m : Mem) (dirIno : Nat) (name : Bytes) (ino : Nat) : Option (Ret × Mem) := do
  let dirOi ← ospfsInode m dirIno
  let (entryOff, od) := unlinkScan m dirOi name (direntries m dirOi) 0 0
  if entryOff = oiSize m dirOi then return (.error .eNoEnt, m)
  let m := m.set32 od 0
  let oi ← ospfsInode m ino
  let m := m.set32 (oi + 8) (oiNlink m oi + (2 ^ 32 - 1))
  if oiFtype m oi ≠ ftypeSymlink ∧ oiNlink m oi = 0 then
    let (_, m) ← changeSize m oi 0
    return (.ok (), m)
  else return (.ok (), m)

def createBlankDirentry (m : Mem) (dirOi : Nat) : Option (Except Errno Nat × Mem) := do
  match scan m dirOi (fun od => odIno m od == 0) (direntries m dirOi) 0 with
  | some od => return (.ok od, m)
  | none =>
    let fPos := (128 + oiSize m dirOi) % 2 ^ 32
    let (r, m) ← changeSize m dirOi ((oiSize m dirOi + 8192) % 2 ^ 32)
    match r with
    | .error e => return (.error e, m)
    | .ok () => return (.ok (ospfsInodeData m dirOi fPos), m)

/-- Fill in a directory entry: inode number, name, NUL. -/
def writeDirentry (m : Mem) (od ino : Nat) (name : Bytes) : Mem :=
  (((m.set32 od ino).store (od + 4) name).store (od + 4 + name.length) [0])

/-- `ospfs_link` of the inode `srcIno`. -/
def ospfsLink (m : Mem) (srcIno dirIno : Nat) (name : Bytes) : Option (Ret × Mem) := do
  if name.length > 123 then return (.error .eNameTooLong, m)
  let dirOi ← ospfsInode m dirIno
  if (findDirentry m dirOi name).isSome then return (.error .eExist, m)
  let (r, m) ← createBlankDirentry m dirOi
  match r with
  | .error e => return (.error e, m)
  | .ok link =>
    let m := writeDirentry m link srcIno name
    let oi ← ospfsInode m srcIno
    return (.ok (), m.set32 (oi + 8) (oiNlink m oi + 1))

def findFreeFrom (m : Mem) : (k ino : Nat) → Option Nat
  | 0, _ => some 0
  | k + 1, ino => do
    let oi ← ospfsInode m ino
    if oiNlink m oi = 0 then return ino else findFreeFrom m k (ino + 1)

def findFreeInode (m : Mem) : Option Nat := findFreeFrom m (osNinodes m - 2) 2

/-- The end of `ospfs_create` and `ospfs_symlink`: enter the new inode in the directory. -/
def enterInode (m : Mem) (dirOi : Nat) (name : Bytes) (entryIno : Nat) (newInode : Bool) :
    Option (Ret × Mem) := do
  let (r, m) ← createBlankDirentry m dirOi
  match r with
  | .error e => return (.error e, m)
  | .ok od =>
    let m := writeDirentry m od entryIno name
    match ← ospfsMkLinuxInode m entryIno newInode with
    | none => return (.error .eNoMem, m)
    | some _ => return (.ok (), m)

/-- The inode of a new file; size, type and link count are set, the block pointers stay. -/
def initFile (m : Mem) (fileOi mode : Nat) : Mem :=
  (((m.set32 fileOi 0).set32 (fileOi + 4) ftypeReg).set32 (fileOi + 8) 1).set32 (fileOi + 12) mode

/-- `ospfs_create`; it does not check the length of the name. -/
def ospfsCreate (m : Mem) (dirIno : Nat) (name : Bytes) (mode : Nat) (newInode : Bool) :
    Option (Ret × Mem) := do
  match ospfsInode m dirIno with
  | none => return (.error .eIo, m)
  | some dirOi =>
    if (findDirentry m dirOi name).isSome then return (.error .eExist, m)
    let entryIno ← findFreeInode m
    if entryIno = 0 then return (.error .eNoSpc, m)
    match ospfsInode m entryIno with
    | none => return (.error .eIo, m)
    | some fileOi =>
      enterInode (initFile m fileOi mode) dirOi name entryIno newInode

/-- The inode of a new symbolic link; the text lies where a file's mode and pointers do. -/
def initSymlink (m : Mem) (symlinkOi : Nat) (symname : Bytes) : Mem :=
  (((m.set32 symlinkOi symname.length).set32 (symlinkOi + 8) 1).set32 (symlinkOi + 4)
    ftypeSymlink).store (symlinkOi + 12) symname

def ospfsSymlink (m : Mem) (dirIno : Nat) (name symname : Bytes) (newInode : Bool) :
    Option (Ret × Mem) := do
  match ospfsInode m dirIno with
  | none => return (.error .eIo, m)
  | some dirOi =>
    if name.length > 123 ∨ symname.length > 51 then return (.error .eNameTooLong, m)
    if (findDirentry m dirOi name).isSome then return (.error .eExist, m)
    let entryIno ← findFreeInode m
    if entryIno = 0 then return (.error .eNoSpc, m)
    let symlinkOi ← ospfsInode m entryIno
    enterInode (initSymlink m symlinkOi symname) dirOi name entryIno newInode

end OsLabs.Ospfs
