import Xv6.Lib.Prog
import Xv6.Blocks

/-!
The functions of `fs.c`, `file.c`, `sysfile.c`, `exec.c` and `proc.c` that take and release inode locks, as programs.
Their operations are the code between two lock operations.
-/
namespace Xv6
open Xv6.Lib Prog

/-- The operations of the calls. -/
inductive Op : Type → Type 1 where
  | iget (dev inum : Nat) : Op Slot
  | idup (ip : Slot) : Op Unit
  | ref (ip : Slot) : Op Int
  /-- `ip->ref--` -/
  | unref (ip : Slot) : Op Unit
  | dev (ip : Slot) : Op Nat
  | inum (ip : Slot) : Op Nat
  | holdingsleep (ip : Slot) : Op Bool
  | lock (ip : Slot) : Op Unit
  | unlock (ip : Slot) : Op Unit
  | valid (ip : Slot) : Op Bool
  | iload (ip : Slot) : Op Unit
  | attr (ip : Slot) : Op Attr
  | isetattr (ip : Slot) (major minor nlink : UInt16) : Op Unit
  | ialloc (type : UInt16) : Op Nat
  | ifree (ip : Slot) : Op Unit
  | readi (ip : Slot) (off n : Nat) : Op (Option (List UInt8))
  | writei (ip : Slot) (src : List UInt8) (off : Nat) : Op Int
  /-- A step of `file.c`, `pipe.c` or `proc.c` on their tables. -/
  | tables {β : Type} (f : Tables → Except String (β × Tables)) : Op β

/-- Where a call waits. -/
inductive Wait where
  /-- for the lock, in `ilock` -/
  | ilock (ip : Slot)
  /-- for the lock, in `iput` -/
  | iput (ip : Slot)
  /-- after a `releasesleep` -/
  | resume
  /-- for a child to exit, in `wait` -/
  | child
  deriving DecidableEq

abbrev Call := Prog Op Wait

/-! ### Locks and references -/

def acquiresleep (ip : Slot) (wait : Slot → Wait) : Call Unit := do
  await (wait ip)
  call (.lock ip)

def releasesleep (ip : Slot) : Call Unit := do
  call (.unlock ip)
  await .resume

def ilock (ip : Slot) : Call Unit := do
  let r ← call (.ref ip)
  if r < 1 then fail "ilock"
  else
    acquiresleep ip .ilock
    call (.iload ip)

def iunlock (ip : Slot) : Call Unit := do
  let locked ← call (.holdingsleep ip)
  let r ← call (.ref ip)
  if !locked ∨ r < 1 then fail "iunlock" else releasesleep ip

/-- The test of `iput`, and what it does to an inode with no links and no other references. -/
def iput_free (ip : Slot) : Call Unit := do
  let valid ← call (.valid ip)
  if valid then
    let d ← call (.attr ip)
    if d.nlink = 0 then
      let r ← call (.ref ip)
      if r = 1 then call (.ifree ip) else ret ()
    else ret ()
  else ret ()

def iput (ip : Slot) : Call Unit := do
  acquiresleep ip .iput
  iput_free ip
  releasesleep ip
  call (.unref ip)

def iunlockput (ip : Slot) : Call Unit := do
  iunlock ip
  iput ip

def ialloc (dev : Nat) (type : UInt16) : Call Slot := do
  let inum ← call (.ialloc type)
  call (.iget dev inum)

/-! ### Directories -/

def namecmp (s t : List UInt8) : Int := strncmp s t DIRSIZ

/-- The loop of `dirlookup` over a directory of `size` bytes. -/
def dirlookup_from (dp : Slot) (name : List UInt8) (size : Nat) : Nat → Nat → Call (Option (Slot × Nat))
  | 0,_ => ret none
  | fuel + 1,off =>
    if off < size then do
      let bytes ← call (.readi dp off 16)
      if (bytes.getD []).length ≠ 16 then fail "dirlookup read"
      else
        let de := Dirent.decode (bytes.getD [])
        if de.inum = 0 then dirlookup_from dp name size fuel (off + 16)
        else if namecmp name de.name = 0 then do
          let dev ← call (.dev dp)
          let ip ← call (.iget dev de.inum.toNat)
          return some (ip,off)
        else dirlookup_from dp name size fuel (off + 16)
    else ret none

/-- Look for a directory entry in a directory. If found, also give its byte offset. -/
def dirlookup (dp : Slot) (name : List UInt8) : Call (Option (Slot × Nat)) := do
  let d ← call (.attr dp)
  if d.type ≠ T_DIR then fail "dirlookup not DIR" else dirlookup_from dp name d.size.toNat (d.size.toNat + 1) 0

/-- The loop of `dirlink`: the offset of the first empty entry, or of the end. -/
def dirlink_off (dp : Slot) (size : Nat) : Nat → Nat → Call Nat
  | 0,off => ret off
  | fuel + 1,off =>
    if off < size then do
      let bytes ← call (.readi dp off 16)
      if (bytes.getD []).length ≠ 16 then fail "dirlink read"
      else if (Dirent.decode (bytes.getD [])).inum = 0 then return off
      else dirlink_off dp size fuel (off + 16)
    else ret off

/-- Write a new directory entry (name, inum) into the directory `dp`; `false` is the `-1` of the source. -/
def dirlink (dp : Slot) (name : List UInt8) (inum : Nat) : Call Bool := do
  let found ← dirlookup dp name
  match found with
  | some (ip,_) =>
    iput ip
    return false
  | none =>
    let d ← call (.attr dp)
    let off ← dirlink_off dp d.size.toNat (d.size.toNat + 1) 0
    let n ← call (.writei dp (Dirent.encode ⟨UInt16.ofNat inum,strncpy name DIRSIZ⟩) off)
    if n ≠ 16 then fail "dirlink" else return true

/-- The loop of `isdirempty`. -/
def isdirempty_from (dp : Slot) (size : Nat) : Nat → Nat → Call Bool
  | 0,_ => ret true
  | fuel + 1,off =>
    if off < size then do
      let bytes ← call (.readi dp off 16)
      if (bytes.getD []).length ≠ 16 then fail "isdirempty: readi"
      else if (Dirent.decode (bytes.getD [])).inum ≠ 0 then return false
      else isdirempty_from dp size fuel (off + 16)
    else ret true

/-- Is the directory empty except for "." and ".."? -/
def isdirempty (dp : Slot) : Call Bool := do
  let d ← call (.attr dp)
  isdirempty_from dp d.size.toNat (d.size.toNat + 1) (2 * 16)

/-! ### Paths -/

/-- The character `/`. -/
def slash : UInt8 := 47
/-- The name `.`. -/
def dot : List UInt8 := [46]
/-- The name `..`. -/
def dotdot : List UInt8 := [46,46]

/-- The next path element and the path after it, without leading slashes. -/
def skipelem (path : List UInt8) : Option (List UInt8 × List UInt8) :=
  let path := path.dropWhile (· = slash)
  if path = [] then none
  else some ((path.takeWhile (· ≠ slash)).take DIRSIZ,(path.dropWhile (· ≠ slash)).dropWhile (· = slash))

/-- The loop of `namex`. -/
def namex_from (nameiparent : Bool) : Nat → Slot → List UInt8 → Call (Option (Slot × List UInt8))
  | 0,_,_ => ret none
  | fuel + 1,ip,path =>
    match skipelem path with
    | some (name,path) => do
      ilock ip
      let d ← call (.attr ip)
      if d.type ≠ T_DIR then
        iunlockput ip
        return none
      else if nameiparent ∧ path = [] then
        iunlock ip
        return some (ip,name)
      else
        let found ← dirlookup ip name
        match found with
        | none =>
          iunlockput ip
          return none
        | some (next,_) =>
          iunlockput ip
          namex_from nameiparent fuel next path
    | none =>
      if nameiparent then do
        iput ip
        return none
      else return some (ip,[])

/-- The `cwd` of a process; a null pointer traps. -/
def cwdOf (p : Pid) : Call Slot := do
  let cwd ← call (.tables fun t => .ok ((t.proc p).cwd,t))
  match cwd with
  | some ip => return ip
  | none => fail "trap"

/-- Where `namex` starts: the root or the current directory. -/
def namex_start (p : Pid) (path : List UInt8) : Call Slot :=
  if path.head? = some slash then call (.iget ROOTDEV ROOTINO)
  else do
    let cwd ← cwdOf p
    call (.idup cwd)
    return cwd

/-- Look up and return the inode for a path name, or for its parent with the final element. -/
def namex (p : Pid) (path : List UInt8) (nameiparent : Bool) : Call (Option (Slot × List UInt8)) := do
  let ip ← namex_start p path
  namex_from nameiparent (path.length + 1) ip path

def namei (p : Pid) (path : List UInt8) : Call (Option Slot) := do
  let found ← namex p path false
  return found.map (·.1)

def nameiparent (p : Pid) (path : List UInt8) : Call (Option (Slot × List UInt8)) := namex p path true

/-! ### The file table -/

/-- `filealloc`: an unused entry of the file table. -/
def filealloc (t : Tables) : Except String (Option FileId × Tables) :=
  match (List.finRange NFILE).find? fun f => (t.file f).ref = 0 with
  | some f => .ok (some f,t.setFile f { t.file f with ref := 1 })
  | none => .ok (none,t)

def filedup (f : FileId) (t : Tables) : Except String (Unit × Tables) :=
  if (t.file f).ref < 1 then .error "filedup"
  else .ok ((),t.setFile f { t.file f with ref := (t.file f).ref + 1 })

/-- A change of `ofile[fd]` of a process. -/
def setOfile (p : Pid) (fd : Fin NOFILE) (f : Option FileId) (t : Tables) : Tables :=
  t.setProc p { t.proc p with ofile := Function.update (t.proc p).ofile fd f }

/-- `fdalloc`: allocate a file descriptor for the given file. -/
def fdalloc (p : Pid) (f : FileId) (t : Tables) : Except String (Option (Fin NOFILE) × Tables) :=
  match (List.finRange NOFILE).find? fun fd => (t.proc p).ofile fd = none with
  | some fd => .ok (some fd,setOfile p fd (some f) t)
  | none => .ok (none,t)

/-- `argfd`: the open file of a descriptor. -/
def argfd (p : Pid) (fd : Int) (t : Tables) : Option (Fin NOFILE × FileId) :=
  if h : 0 ≤ fd ∧ fd.toNat < NOFILE then ((t.proc p).ofile ⟨fd.toNat,h.2⟩).map fun f => (⟨fd.toNat,h.2⟩,f) else none

/-- `pipeclose`; a page that has been freed is no pipe any more, and must not be freed again. -/
def pipeclose (page : Nat) (writable : Bool) (t : Tables) : Except String (Unit × Tables) :=
  match t.pipe page with
  | none => .error "freed pipe"
  | some pi =>
    let pi := if writable then { pi with writeopen := false } else { pi with readopen := false }
    .ok ((),{ t with pipe := Function.update t.pipe page (if pi.readopen ∨ pi.writeopen then some pi else none) })

/-- The part of `fileclose` under `ftable.lock`: the file as it was, if that was its last reference. -/
def fileclose_ref (f : FileId) (t : Tables) : Except String (Option File × Tables) :=
  let ff := t.file f
  if ff.ref < 1 then .error "fileclose"
  else if ff.ref - 1 > 0 then .ok (none,t.setFile f { ff with ref := ff.ref - 1 })
  else .ok (some ff,t.setFile f { ff with ref := 0, type := .FD_NONE })

/-- Close file `f`. -/
def fileclose (f : FileId) : Call Unit := do
  let last ← call (.tables (fileclose_ref f))
  match last with
  | none => ret ()
  | some ff => match ff.type with
    | .FD_PIPE => call (.tables (pipeclose ff.pipe ff.writable))
    | .FD_INODE => iput ff.ip
    | .FD_NONE => ret ()

/-! ### System calls of `sysfile.c` -/

/-- A string argument: none, if `argstr` fails. -/
abbrev Arg := Option (List UInt8)

/-- `argstr`: the bytes before the NUL. -/
def argstr (a : Arg) : Arg := a.map (·.takeWhile (· ≠ 0))

def sys_dup (p : Pid) (fd : Int) : Call Int := do
  let found ← call (.tables fun t => .ok (argfd p fd t,t))
  match found with
  | none => return -1
  | some (_,f) =>
    let fd ← call (.tables (fdalloc p f))
    match fd with
    | none => return -1
    | some fd =>
      call (.tables (filedup f))
      return fd.val

def sys_close (p : Pid) (fd : Int) : Call Int := do
  let found ← call (.tables fun t => .ok (argfd p fd t,t))
  match found with
  | none => return -1
  | some (fd,f) =>
    call (.tables fun t => .ok ((),setOfile p fd none t))
    fileclose f
    return 0

/-- The `bad` exit of `sys_link`. -/
def sys_link_bad (ip : Slot) : Call Int := do
  ilock ip
  let d ← call (.attr ip)
  call (.isetattr ip d.major d.minor (d.nlink - 1))
  iunlockput ip
  return -1

/-- `dp->dev != ip->dev || dirlink(dp, name, ip->inum) < 0`, negated. -/
def sys_link_entry (dp ip : Slot) (name : List UInt8) : Call Bool := do
  let ddev ← call (.dev dp)
  let dev ← call (.dev ip)
  if ddev ≠ dev then return false
  else
    let inum ← call (.inum ip)
    dirlink dp name inum

/-- `sys_link` from `nameiparent(new, name)` on. -/
def sys_link_new (p : Pid) (new : List UInt8) (ip : Slot) : Call Int := do
  let found ← nameiparent p new
  match found with
  | none => sys_link_bad ip
  | some (dp,name) =>
    ilock dp
    let linked ← sys_link_entry dp ip name
    iunlockput dp
    if linked then
      iput ip
      return 0
    else sys_link_bad ip

/-- Create the path `new` as a link to the same inode as `old`. -/
def sys_link (p : Pid) (old new : Arg) : Call Int :=
  match argstr old,argstr new with
  | some old,some new => do
    let found ← namei p old
    match found with
    | none => return -1
    | some ip =>
      ilock ip
      let d ← call (.attr ip)
      if d.type = T_DIR then
        iunlockput ip
        return -1
      else
        call (.isetattr ip d.major d.minor (d.nlink + 1))
        iunlock ip
        sys_link_new p new ip
  | _,_ => ret (-1)

/-- `ip->nlink < 1`, as a signed comparison. -/
def nolinks (nlink : UInt16) : Bool := nlink = 0 ∨ nlink.toNat ≥ 2 ^ 15

/-- `ip->type == T_DIR && !isdirempty(ip)` -/
def nonempty (type : UInt16) (ip : Slot) : Call Bool :=
  if type = T_DIR then do
    let empty ← isdirempty ip
    return !empty
  else ret false

/-- The link that the parent loses with a directory's `..`. -/
def sys_unlink_dotdot (type : UInt16) (dp : Slot) : Call Unit :=
  if type = T_DIR then do
    let d ← call (.attr dp)
    call (.isetattr dp d.major d.minor (d.nlink - 1))
  else ret ()

/-- `sys_unlink` from `ilock(ip)` on. -/
def sys_unlink_found (dp ip : Slot) (off : Nat) : Call Int := do
  ilock ip
  let d ← call (.attr ip)
  if nolinks d.nlink then fail "unlink: nlink < 1"
  else
    let full ← nonempty d.type ip
    if full then
      iunlockput ip
      iunlockput dp
      return -1
    else
      let n ← call (.writei dp (List.replicate 16 0) off)
      if n ≠ 16 then fail "unlink: writei"
      else
        sys_unlink_dotdot d.type dp
        iunlockput dp
        let d ← call (.attr ip)
        call (.isetattr ip d.major d.minor (d.nlink - 1))
        iunlockput ip
        return 0

def sys_unlink (p : Pid) (path : Arg) : Call Int :=
  match argstr path with
  | none => ret (-1)
  | some path => do
    let found ← nameiparent p path
    match found with
    | none => return -1
    | some (dp,name) =>
      ilock dp
      if namecmp name dot = 0 ∨ namecmp name dotdot = 0 then
        iunlockput dp
        return -1
      else
        let found ← dirlookup dp name
        match found with
        | none =>
          iunlockput dp
          return -1
        | some (ip,off) => sys_unlink_found dp ip off

/-- The `.` and `..` entries of a new directory. -/
def create_dots (dp ip : Slot) (type : UInt16) : Call Unit :=
  if type = T_DIR then do
    let d ← call (.attr dp)
    call (.isetattr dp d.major d.minor (d.nlink + 1))  -- for ".."
    let inum ← call (.inum ip)
    let one ← dirlink ip dot inum
    if one then
      let dinum ← call (.inum dp)
      let two ← dirlink ip dotdot dinum
      if two then ret () else fail "create dots"
    else fail "create dots"
  else ret ()

/-- `create` from `ialloc` on. -/
def create_new (dp : Slot) (name : List UInt8) (type major minor : UInt16) : Call Slot := do
  let dev ← call (.dev dp)
  let ip ← ialloc dev type
  ilock ip
  call (.isetattr ip major minor 1)
  create_dots dp ip type
  let inum ← call (.inum ip)
  let linked ← dirlink dp name inum
  if linked then
    iunlockput dp
    return ip
  else fail "create: dirlink"

def create (p : Pid) (path : List UInt8) (type major minor : UInt16) : Call (Option Slot) := do
  let found ← nameiparent p path
  match found with
  | none => return none
  | some (dp,name) =>
    ilock dp
    let found ← dirlookup dp name
    match found with
    | some (ip,_) =>
      iunlockput dp
      ilock ip
      let d ← call (.attr ip)
      if type = T_FILE ∧ d.type = T_FILE then return some ip
      else
        iunlockput ip
        return none
    | none =>
      let ip ← create_new dp name type major minor
      return some ip

/-- `namei`, `ilock` and the test of a directory in `sys_open`. -/
def sys_open_existing (p : Pid) (path : List UInt8) (omode : Nat) : Call (Option Slot) := do
  let found ← namei p path
  match found with
  | none => return none
  | some ip =>
    ilock ip
    let d ← call (.attr ip)
    if d.type = T_DIR ∧ omode ≠ O_RDONLY then
      iunlockput ip
      return none
    else return some ip

/-- `filealloc` and `fdalloc` in `sys_open`. -/
def sys_open_file (p : Pid) : Call (Option (FileId × Fin NOFILE)) := do
  let f ← call (.tables filealloc)
  match f with
  | none => return none
  | some f =>
    let fd ← call (.tables (fdalloc p f))
    match fd with
    | none =>
      fileclose f
      return none
    | some fd => return some (f,fd)

/-- The fields of a file that `sys_open` has opened on `ip`. -/
def sys_open_set (f : FileId) (ip : Slot) (omode : Nat) (t : Tables) : Except String (Unit × Tables) :=
  .ok ((),t.setFile f { t.file f with
    type := .FD_INODE
    ip := ip
    off := 0
    readable := omode &&& O_WRONLY = 0
    writable := omode &&& O_WRONLY ≠ 0 ∨ omode &&& O_RDWR ≠ 0 })

/-- The locked inode that `sys_open` opens. -/
def sys_open_inode (p : Pid) (path : List UInt8) (omode : Nat) : Call (Option Slot) :=
  if omode &&& O_CREATE ≠ 0 then create p path T_FILE 0 0 else sys_open_existing p path omode

def sys_open (p : Pid) (path : Arg) (omode : Nat) : Call Int :=
  match argstr path with
  | none => ret (-1)
  | some path => do
    let found ← sys_open_inode p path omode
    match found with
    | none => return -1
    | some ip =>
      let opened ← sys_open_file p
      match opened with
      | none =>
        iunlockput ip
        return -1
      | some (f,fd) =>
        iunlock ip
        call (.tables (sys_open_set f ip omode))
        return fd.val

/-- `sys_mkdir` and `sys_mknod`: create an inode and let go of it. -/
def sys_create (p : Pid) (path : Arg) (type major minor : UInt16) : Call Int :=
  match argstr path with
  | none => ret (-1)
  | some path => do
    let made ← create p path type major minor
    match made with
    | none => return -1
    | some ip =>
      iunlockput ip
      return 0

def sys_mkdir (p : Pid) (path : Arg) : Call Int := sys_create p path T_DIR 0 0

def sys_mknod (p : Pid) (path : Arg) (major minor : UInt16) : Call Int := sys_create p path T_DEV major minor

def setCwd (p : Pid) (cwd : Option Slot) (t : Tables) : Except String (Unit × Tables) :=
  .ok ((),t.setProc p { t.proc p with cwd := cwd })

def sys_chdir (p : Pid) (path : Arg) : Call Int :=
  match argstr path with
  | none => ret (-1)
  | some path => do
    let found ← namei p path
    match found with
    | none => return -1
    | some ip =>
      ilock ip
      let d ← call (.attr ip)
      if d.type ≠ T_DIR then
        iunlockput ip
        return -1
      else
        iunlock ip
        let cwd ← cwdOf p
        iput cwd
        call (.tables (setCwd p (some ip)))
        return 0

/-- `f->off += r` -/
def advance (f : FileId) (r : Nat) (t : Tables) : Except String (Unit × Tables) :=
  .ok ((),t.setFile f { t.file f with off := ((t.file f).off + r) % 2 ^ 32 })

/-- The loop of `filewrite`. The piece size is `((MAXOPBLOCKS-1-1-2) / 2) * 512`. -/
def filewrite_from (f : FileId) (ip : Slot) : Nat → List UInt8 → Call Bool
  | 0,_ => ret true
  | fuel + 1,src =>
    if src.length = 0 then ret true
    else do
      let n1 := min src.length ((MAXOPBLOCKS - 1 - 1 - 2) / 2 * 512)
      ilock ip
      let off ← call (.tables fun t => .ok ((t.file f).off,t))
      let r ← call (.writei ip (src.take n1) off)
      call (.tables (advance f r.toNat))
      iunlock ip
      if r < 0 then return false
      else if r ≠ n1 then fail "short filewrite"
      else filewrite_from f ip fuel (src.drop n1)

/-- Write to file `f`. What `pipewrite` answers is `piped`. -/
def filewrite (f : FileId) (src : List UInt8) (piped : Int) : Call Int := do
  let ff ← call (.tables fun t => .ok (t.file f,t))
  if ff.writable = false then return -1
  else match ff.type with
    | .FD_PIPE => return piped
    | .FD_INODE =>
      let all ← filewrite_from f ff.ip src.length src
      return if all then src.length else -1
    | .FD_NONE => fail "filewrite"

def sys_write (p : Pid) (fd : Int) (src : List UInt8) (piped : Int) : Call Int := do
  let found ← call (.tables fun t => .ok (argfd p fd t,t))
  match found with
  | none => return -1
  | some (_,f) => filewrite f src piped

/-- Read from file `f`. What `piperead` answers is `piped`. -/
def fileread (f : FileId) (n : Nat) (piped : Int) : Call Int := do
  let ff ← call (.tables fun t => .ok (t.file f,t))
  if ff.readable = false then return -1
  else match ff.type with
    | .FD_PIPE => return piped
    | .FD_INODE =>
      ilock ff.ip
      let off ← call (.tables fun t => .ok ((t.file f).off,t))
      let bytes ← call (.readi ff.ip off n)
      call (.tables (advance f (bytes.getD []).length))
      iunlock ff.ip
      return match bytes with
        | some bytes => bytes.length
        | none => -1
    | .FD_NONE => fail "fileread"

def sys_read (p : Pid) (fd : Int) (n : Nat) (piped : Int) : Call Int := do
  let found ← call (.tables fun t => .ok (argfd p fd t,t))
  match found with
  | none => return -1
  | some (_,f) => fileread f n piped

end Xv6
