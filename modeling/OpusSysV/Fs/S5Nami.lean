import Mathlib.Logic.Function.Basic
import Mathlib.Data.Int.Notation
import Mathlib.Data.Nat.Notation

/-!
# Directories of an s5 file system: `fs/s5/s5nami.c` and `os/nami.c`

`namei` goes through the components of a path name, with one directory locked at a time, and hands
the last one to `s5namei` together with what is to be done there.

* `Inode` — an inode as far as names go: its kind, its link count and, of a directory, the entries.
* `Change` — what a call does to the inodes, in one turn with the locks held; `Change.apply`.
* `NI_LINK`, `NI_MKDIR`, `NI_RMDIR`, `NI_DEL` — the cases of `s5namei`.
* `dirloop` — what `namei` does in one directory.

`Answers` is what is not modelled: permissions, errors of the disk, the sticky bit, busy texts,
and what is on the stack.  There is one file system.
-/

namespace Fs.Nami

open Function

/-! ## Inodes and entries -/

/-- `u_error`. -/
inductive Errno
  | EPERM
  | ENOENT
  | EIO
  | EACCES
  | EEXIST
  | ENOTDIR
  | EISDIR
  | EINVAL
  | ENFILE
  | ETXTBSY
  | ENOSPC
  | EROFS
  | EMLINK
  deriving DecidableEq, Repr

/-- A name of up to `DIRSIZ` characters; `other 0` is the empty one. -/
inductive Name
  | dot
  | dotdot
  | other (n : ℕ)
  deriving DecidableEq, Repr

/-- `struct direct`; a `d_ino` of 0 is an empty slot. -/
structure Direct where
  d_ino : ℕ
  d_name : Name
  deriving DecidableEq, Repr

/-- `i_ftype`; the inode is free when it is `none`. -/
inductive Ftype
  | none
  | IFDIR
  | IFREG
  | IFBLK
  | IFCHR
  | IFIFO
  deriving DecidableEq, Repr

/-- An inode, with the contents of a directory. -/
structure Inode where
  i_ftype : Ftype
  i_nlink : ℤ
  dirents : List Direct
  deriving DecidableEq, Repr

/-- The inodes of the file system by number. -/
abbrev Inodes := ℕ → Inode

/-- `S5ROOTINO`. -/
def S5ROOTINO : ℕ := 2

/-- `MAXLINK`. -/
def MAXLINK : ℤ := 1024

namespace Inode

/-- The slot of the entry with the name: the loop over the blocks, with `searchdir`. -/
def search (d : Inode) (name : Name) : Option ℕ :=
  d.dirents.findIdx? fun e => e.d_ino ≠ 0 ∧ e.d_name = name

/-- `d_ino` of a slot. -/
def ino (d : Inode) (slot : ℕ) : ℕ := ((d.dirents[slot]?).map Direct.d_ino).getD 0

/-- The slot for a new entry: the first empty one, or the end. -/
def empty (d : Inode) : ℕ := (d.dirents.findIdx? fun e => e.d_ino = 0).getD d.dirents.length

/-- `d_ino` of the second slot, where `..` is; nothing is read of a shorter directory. -/
def dotdot (d : Inode) : Option ℕ := (d.dirents[1]?).map Direct.d_ino

/-- The entry is there. -/
def has (d : Inode) (name : Name) : Bool := d.dirents.any fun e => e.d_ino ≠ 0 ∧ e.d_name = name

/-- `emptblk` on all blocks: no entry besides `.` and `..`. -/
def emptblk (d : Inode) : Bool :=
  d.dirents.all fun e => e.d_ino = 0 ∨ e.d_name = .dot ∨ e.d_name = .dotdot

end Inode

/-- `s5writei` of one entry; what lies between the end and a slot behind it is zero. -/
def writeSlot (l : List Direct) (slot : ℕ) (e : Direct) : List Direct :=
  if slot < l.length then l.set slot e
  else l ++ List.replicate (slot - l.length) ⟨0, .other 0⟩ ++ [e]

namespace Inodes

/-- `i_nlink += d`. -/
def addLinks (fs : Inodes) (ip : ℕ) (d : ℤ) : Inodes :=
  update fs ip { fs ip with i_nlink := (fs ip).i_nlink + d }

/-- An entry of a directory is written; files that are no directories have none. -/
def putEntry (fs : Inodes) (dp slot : ℕ) (e : Direct) : Inodes :=
  if (fs dp).i_ftype = .IFDIR then
    update fs dp { fs dp with dirents := writeSlot (fs dp).dirents slot e }
  else fs

/-- `s5itrunc`. -/
def trunc (fs : Inodes) (ip : ℕ) : Inodes := update fs ip { fs ip with dirents := [] }

end Inodes

/-! ## What a call changes -/

/-- A change, made with the inodes that it is about locked.  `wrote` says whether the entry of the
directory was written as well. -/
inductive Change
  | none
  | link (dp ino : ℕ) (name : Name)
  | mkdir (dp ino : ℕ) (name : Name) (wrote : Bool)
  | rmdir (dp ip slot : ℕ) (name : Name) (wrote : Bool)
  | del (dp ip slot : ℕ) (name : Name)
  | dotdot (ip : ℕ) (e : Direct)
  | nlink (ip : ℕ) (d : ℤ)
  | ifree (ip : ℕ)
  deriving DecidableEq, Repr

/-- The links that a directory has lost when it is removed: that of its name, and `.`. -/
def rmLinks (d : Inode) : ℤ := if d.has .dot then 2 else 1

/-- The link that its parent loses: `..`. -/
def upLinks (d : Inode) : ℤ := if d.has .dotdot then 1 else 0

/-- The inodes after a change. -/
def Change.apply (fs : Inodes) : Change → Inodes
  | .none => fs
  | .link dp ino name => (fs.addLinks ino 1).putEntry dp (fs dp).empty ⟨ino, name⟩
  | .mkdir dp ino name wrote =>
    let new : Inode := ⟨.IFDIR, 2, [⟨ino, .dot⟩, ⟨dp, .dotdot⟩]⟩
    let fs' := Inodes.addLinks (update fs ino new) dp 1
    if wrote then fs'.putEntry dp (fs dp).empty ⟨ino, name⟩ else fs'
  | .rmdir dp ip slot name wrote =>
    let fs' := (fs.addLinks dp (-upLinks (fs ip))).addLinks ip (-rmLinks (fs ip))
    let fs' := if (fs' ip).i_nlink ≤ 0 then fs'.trunc ip else fs'
    if wrote then fs'.putEntry dp slot ⟨0, name⟩ else fs'
  | .del dp ip slot name => (fs.putEntry dp slot ⟨0, name⟩).addLinks ip (-1)
  | .dotdot ip e => fs.putEntry ip 1 e
  | .nlink ip d => fs.addLinks ip d
  | .ifree ip => update fs ip { fs ip with i_ftype := .none, dirents := [] }

/-! ## `s5namei` -/

/-- What the rest of the kernel answers in one turn: `s5access` for the search of a directory, for
writing into it and for another inode, `s5bmap` and `bread`, `iget`, `s5writei` of the entry and of
a new directory, whether the sticky bit forbids a removal, whether a text stays busy, the inode
that `s5ialloc` finds, and what the stack holds where an entry is read. -/
structure Answers where
  exec : Option Errno
  access : Option Errno
  accessIp : Option Errno
  read : Option Errno
  iget : Option Errno
  write : Option Errno
  writeNew : Option Errno
  sticky : Bool
  text : Bool
  ino : Option ℕ
  junk : Direct
  deriving DecidableEq, Repr

/-- Nothing is refused. -/
def Answers.yes : Answers where
  exec := none
  access := none
  accessIp := none
  read := none
  iget := none
  write := none
  writeNew := none
  sticky := false
  text := false
  ino := none
  junk := ⟨0, .other 0⟩

/-- An answer that is an error ends the call. -/
def refuse : Option Errno → Except Errno Unit
  | none => .ok ()
  | some e => .error e

/-- The call ends with `e` where `b` holds. -/
def failIf (b : Bool) (e : Errno) : Except Errno Unit := if b then .error e else .ok ()

/-- `case NI_LINK`: an entry for the inode `ino`.  When it cannot be written the link count is
taken back. -/
def NI_LINK (a : Answers) (fs : Inodes) (dp : ℕ) (name : Name) (ino : ℕ) :
    Except Errno (Change × Option Errno) := do
  refuse a.read
  failIf ((fs dp).search name).isSome .EEXIST
  refuse a.access
  refuse (if ino = dp then none else a.iget)
  failIf (MAXLINK ≤ (fs ino).i_nlink) .EMLINK
  refuse a.write
  return (.link dp ino name, none)

/-- `case NI_MKDIR`.  The error of the last `s5writei` comes after the changes. -/
def NI_MKDIR (a : Answers) (fs : Inodes) (dp : ℕ) (name : Name) :
    Except Errno (Change × Option Errno) := do
  refuse a.read
  failIf ((fs dp).search name).isSome .EEXIST
  failIf (MAXLINK ≤ (fs dp).i_nlink) .EMLINK
  refuse a.access
  match a.ino with
  | none => .error .ENOSPC
  | some ino =>
    failIf (ino = 0 ∨ (fs ino).i_ftype ≠ .none) .ENOSPC
    refuse a.writeNew
    return (.mkdir dp ino name a.write.isNone, a.write)

/-- `case NI_RMDIR`, called by a process whose current directory is `cdir`. -/
def NI_RMDIR (a : Answers) (fs : Inodes) (cdir dp : ℕ) (name : Name) :
    Except Errno (Change × Option Errno) := do
  refuse a.read
  match (fs dp).search name with
  | none => .error .ENOENT
  | some slot =>
    let ip := (fs dp).ino slot
    refuse a.access
    failIf (dp = ip) .EINVAL
    refuse a.iget
    failIf ((fs ip).i_ftype ≠ .IFDIR) .ENOTDIR
    failIf (ip = cdir) .EINVAL
    failIf a.sticky .EACCES
    failIf (!(fs ip).emptblk) .EEXIST
    return (.rmdir dp ip slot name a.write.isNone, a.write)

/-- `case NI_DEL` and, with `deldir`, `case NI_DELDIR`. -/
def NI_DEL (a : Answers) (fs : Inodes) (suser deldir : Bool) (dp : ℕ) (name : Name) :
    Except Errno (Change × Option Errno) := do
  refuse a.read
  match (fs dp).search name with
  | none => .error .ENOENT
  | some slot =>
    let ip := (fs dp).ino slot
    refuse a.access
    refuse (if dp = ip then none else a.iget)
    failIf a.sticky .EACCES
    failIf ((fs ip).i_ftype = .IFDIR ∧ ¬ deldir ∧ ¬ suser) .EPERM
    failIf (a.text ∧ (fs ip).i_nlink = 1) .ETXTBSY
    refuse a.write
    return (.del dp ip slot name, none)

/-! ## `namei` in one directory -/

/-- What comes of the components in one directory: an error; the directory itself is meant; the
number of the last component; a directory and the components to be looked up there; or the last
component is left to `s5namei`. -/
inductive Looked
  | fail (e : Errno)
  | here
  | last (ino : ℕ)
  | next (ino : ℕ) (comps : List Name)
  | command (name : Name)
  deriving DecidableEq, Repr

/-- From the label `dirloop` on, with `dp` locked; `flagp` says that something is to be done with
the last component, `rdir` is `u_rdir`. -/
def dirloop (a : Answers) (fs : Inodes) (rdir : Option ℕ) (flagp : Bool) (dp : ℕ) :
    List Name → Looked
  | [] =>
    if (fs dp).i_ftype ≠ .IFDIR ∨ (fs dp).i_nlink = 0 then .fail .ENOTDIR
    else match a.exec with
    | some e => .fail e
    | none => .here
  | c :: comps =>
    if (fs dp).i_ftype ≠ .IFDIR ∨ (fs dp).i_nlink = 0 then .fail .ENOTDIR
    else match a.exec with
    | some e => .fail e
    | none =>
      if c = .dot ∧ ¬ flagp then dirloop a fs rdir flagp dp comps
      else if flagp ∧ comps = [] then .command c
      else match a.read with
      | some e => .fail e
      | none =>
        match (fs dp).search c with
        | none => .fail .ENOENT
        | some slot =>
          let ino := if c = .dotdot ∧ rdir = some dp then dp else (fs dp).ino slot
          if comps = [] then .last ino else .next ino comps

end Fs.Nami
