import OpusSysV.Fs.S5Nami
import OpusSysV.Lib.Run
import OpusSysV.Lib.Follow

/-!
# The calls `rename`, `mkdir` and `rmdir`: `os/bcs.c`, `os/sys2.c`

`rename` is a sequence of calls of `namei`: for the old name, for the new one, to remove what the
new one leads to, to make a link, to remove the old name, and for a directory once more for the new
name, whose `..` is then written.  `checkpath` goes up from the new parent first.

* `Call` — a call in progress, with the local variables of `rename` and where it is.
* `turn` — what it does with the inodes that it has locked, until it waits for the next lock.
* `checkpath` — the loop when nothing happens in between.
* `Sys.step` — any calls by any processes, in any order.

`u.u_pdir` is the number of the directory, although the inode is not held.  Path names are not
changed while the call is in progress.
-/

namespace Os.Rename

open Fs.Nami Lib Function

/-- A path name: whether it begins with a `/`, and its components. -/
structure Path where
  abs : Bool
  comps : List Name
  deriving DecidableEq, Repr

/-- No characters at all. -/
def Path.null (p : Path) : Bool := !p.abs ∧ p.comps = []

/-- `checkdots` on a path that is not null. -/
def Path.checkdots (p : Path) : Bool := p.comps.getLast? = some .dot ∨ p.comps.getLast? = some .dotdot

/-- The calls of `namei`: those of `rename` in their order, and those of `mkdir` and `rmdir`. -/
inductive Look
  | old
  | new
  | target
  | link
  | unlink
  | again
  | mkdir
  | rmdir
  deriving DecidableEq, Repr

/-- Something is to be done with the last component. -/
def Look.flagp : Look → Bool
  | .old => false
  | .new => false
  | .again => false
  | _ => true

/-- Where a call is: `namei` begins, waits for the lock of a directory or of the last component's
inode, whose directory is `pdir`; `checkpath` waits; `plock(nip)` after it, `plock(oip)` at the end
or after the link; the link counts of the parents.  `crashed` is where a null pointer is used. -/
inductive Pc
  | namei (l : Look)
  | look (l : Look) (dp : ℕ) (comps : List Name)
  | last (l : Look) (pdir ino : ℕ)
  | check (newinum : ℕ)
  | putNip (error : Option Errno)
  | putOip (error : Option Errno)
  | linked (error : Option Errno)
  | oldLinks
  | newLinks
  | done (error : Option Errno)
  | crashed
  deriving DecidableEq, Repr

/-- A call: its path names (`mkdir` and `rmdir` have the second one), `u_cdir`, `u_rdir` and
`suser()`, and the variables of `rename`.  `nip` is the inode of the new name, if there is one. -/
structure Call where
  old : Path
  new : Path
  u_cdir : ℕ
  u_rdir : Option ℕ
  suser : Bool
  oip : ℕ
  doingdirs : Bool
  oldparent : ℕ
  newparent : ℕ
  nip : Option ℕ
  pc : Pc
  deriving DecidableEq, Repr

namespace Call

/-- The path of a call of `namei`. -/
def path (c : Call) : Look → Path
  | .old => c.old
  | .unlink => c.old
  | _ => c.new

def goto (c : Call) (pc : Pc) : Call := { c with pc := pc }

/-- `checkpath` has returned. -/
def checked (c : Call) (under : Bool) : Call :=
  match c.nip with
  | some _ => c.goto (.putNip (if under then some .EINVAL else none))
  | none => c.goto (if under then .putOip (some .EINVAL) else .namei .link)

/-- `checkpath`, at the beginning and after a turn of its loop: `newinum` is compared with the
number of the old inode and of the root. -/
def checkpath (c : Call) (newinum : ℕ) : Call :=
  if newinum = c.oip then c.checked true
  else if newinum = S5ROOTINO then c.checked false
  else c.goto (.check newinum)

/-- After the call of `namei` that removes the old name; its error is ignored. -/
def unlinked (c : Call) : Call := c.goto (if c.doingdirs then .namei .again else .oldLinks)

/-- `namei` fails with `e`; `pdir` is `u.u_pdir`. -/
def fail (c : Call) (a : Answers) (l : Look) (pdir : Option ℕ) (e : Errno) : Call :=
  match l with
  | .new =>
    match pdir with
    | none => c.goto (.putOip (some e))
    | some dp =>
      if e ≠ .ENOENT then c.goto (.putOip (some e))
      else match a.access with
      | some e => c.goto (.putOip (some e))
      | none =>
        let c := { c with newparent := dp, nip := none }
        if c.doingdirs then c.checkpath dp else c.goto (.namei .link)
  | .target => c.goto (.putOip (some e))
  | .link => c.goto (.linked (some (if c.doingdirs ∧ e = .ENOENT then .ENOTDIR else e)))
  | .unlink => c.unlinked
  | .again => c.goto .crashed
  | _ => c.goto (.done (some e))

/-- `rename` has the inode of the old name. -/
def gotOld (c : Call) (a : Answers) (fs : Inodes) (pdir ino : ℕ) : Call :=
  let c := { c with oip := ino, doingdirs := (fs ino).i_ftype = Ftype.IFDIR, oldparent := pdir }
  if (fs ino).i_ftype ∉ [.IFDIR, .IFREG, .IFBLK, .IFCHR] then c.goto (.done (some .EINVAL))
  else match if c.doingdirs then a.accessIp else none with
  | some e => c.goto (.done (some e))
  | none =>
    match a.access with
    | some e => c.goto (.done (some e))
    | none =>
      if c.doingdirs ∧ ino = S5ROOTINO then c.goto (.done (some .EINVAL))
      else if c.doingdirs ∧ c.new.null then c.goto (.done (some .ENOENT))
      else if c.doingdirs ∧ (c.old.checkdots ∨ c.new.checkdots) then
        c.goto (.done (some .EINVAL))
      else c.goto (.namei .new)

/-- `rename` has the inode of the new name. -/
def gotNew (c : Call) (a : Answers) (fs : Inodes) (pdir ino : ℕ) : Call :=
  if ino = c.oip then c.goto (.putOip none)
  else if c.doingdirs ∧ ino = S5ROOTINO then c.goto (.putOip (some .EINVAL))
  else
    let c := { c with newparent := pdir, nip := some ino }
    if (fs ino).i_ftype ≠ (if c.doingdirs then .IFDIR else .IFREG) then
      c.goto (.putOip (some (if c.doingdirs then .ENOTDIR else .EISDIR)))
    else match if c.doingdirs then a.accessIp else none with
    | some e => c.goto (.putOip (some e))
    | none =>
      match a.access with
      | some e => c.goto (.putOip (some e))
      | none => if c.doingdirs then c.checkpath ino else c.goto (.namei .target)

/-- "change parent": the entry in the second slot is read, and written with the new parent. -/
def gotAgain (c : Call) (a : Answers) (fs : Inodes) (ino : ℕ) : Change × Call :=
  match a.read with
  | some e => (.none, c.goto (.done (some e)))
  | none =>
    let dir := ((fs ino).dirents[1]?).getD a.junk
    match a.write with
    | some e => (.none, c.goto (.done (some e)))
    | none => (.dotdot ino { dir with d_ino := c.newparent }, c.goto .oldLinks)

/-- `namei` returns an inode. -/
def got (c : Call) (a : Answers) (fs : Inodes) (l : Look) (pdir ino : ℕ) : Change × Call :=
  match l with
  | .old => (.none, c.gotOld a fs pdir ino)
  | .new => (.none, c.gotNew a fs pdir ino)
  | _ => c.gotAgain a fs ino

/-- The case of `s5namei` for the last component. -/
def s5namei (c : Call) (a : Answers) (fs : Inodes) (l : Look) (dp : ℕ) (name : Name) :
    Except Errno (Change × Option Errno) :=
  match l with
  | .target =>
    if c.doingdirs then NI_RMDIR a fs c.u_cdir dp name else NI_DEL a fs c.suser false dp name
  | .link => NI_LINK a fs dp name c.oip
  | .unlink => NI_DEL a fs c.suser c.doingdirs dp name
  | .mkdir => NI_MKDIR a fs dp name
  | .rmdir => NI_RMDIR a fs c.u_cdir dp name
  | _ => .error .EINVAL

/-- The case has come to its end. -/
def did (c : Call) (l : Look) (error : Option Errno) : Call :=
  match l with
  | .target => c.goto (match error with | none => .namei .link | some e => .putOip (some e))
  | .link => c.goto (.linked error)
  | .unlink => c.unlinked
  | _ => c.goto (.done error)

/-- A call goes on until it waits. -/
def turn (c : Call) (a : Answers) (fs : Inodes) : Option (Change × Call) :=
  match c.pc with
  | .namei l =>
    let p := c.path l
    if p.null ∨ (l.flagp ∧ p.comps = []) then some (.none, c.fail a l none .ENOENT)
    else
      let dp := if p.abs then c.u_rdir.getD S5ROOTINO else c.u_cdir
      some (.none, c.goto (.look l dp p.comps))
  | .look l dp comps =>
    match dirloop a fs c.u_rdir l.flagp dp comps with
    | .fail e => some (.none, c.fail a l (some dp) e)
    | .here => some (c.got a fs l dp dp)
    | .last ino => some (.none, c.goto (.last l dp ino))
    | .next ino comps => some (.none, c.goto (.look l ino comps))
    | .command name =>
      match c.s5namei a fs l dp name with
      | .error e => some (.none, c.fail a l (some dp) e)
      | .ok (ch, error) => some (ch, c.did l error)
  | .last l pdir ino =>
    match a.iget with
    | some e => some (.none, c.fail a l (some pdir) e)
    | none => some (c.got a fs l pdir ino)
  | .check newinum =>
    match a.iget, a.read with
    | none, none =>
      let newinum := (fs newinum).dotdot.getD a.junk.d_ino
      some (.none, c.checkpath newinum)
    | _, _ => some (.none, c.checked true)
  | .putNip error =>
    some (.none, c.goto (match error with | none => .namei .target | some e => .putOip (some e)))
  | .putOip error => some (.none, c.goto (.done error))
  | .linked error =>
    some (.none, c.goto (match error with | none => .namei .unlink | some e => .done (some e)))
  | .oldLinks =>
    match a.iget with
    | some _ => some (.none, c.goto .crashed)
    | none => some (.nlink c.oldparent (if c.doingdirs then -1 else 0), c.goto .newLinks)
  | .newLinks =>
    match a.iget with
    | some _ => some (.none, c.goto .crashed)
    | none => some (.nlink c.newparent (if c.doingdirs then 1 else 0), c.goto (.done none))
  | .done _ => none
  | .crashed => none

/-- The call has a reference to the inode. -/
def holds (c : Call) (ip : ℕ) : Bool :=
  match c.pc with
  | .done _ => false
  | .namei .old => c.u_cdir = ip ∨ c.u_rdir = some ip
  | .look .old _ _ => c.u_cdir = ip ∨ c.u_rdir = some ip
  | .check _ => c.u_cdir = ip ∨ c.u_rdir = some ip ∨ c.oip = ip ∨ c.nip = some ip
  | .putNip _ => c.u_cdir = ip ∨ c.u_rdir = some ip ∨ c.oip = ip ∨ c.nip = some ip
  | _ => c.u_cdir = ip ∨ c.u_rdir = some ip ∨ c.oip = ip

end Call

/-- `checkpath(mntdev, oldinum, newinum)` with nothing in between, for at most `n` turns; `junk` is
on the stack where nothing is read. -/
def checkpath (fs : Inodes) (junk oldinum : ℕ) : ℕ → ℕ → Option Bool
  | 0, _ => none
  | n + 1, newinum =>
    if newinum = oldinum then some true
    else if newinum = S5ROOTINO then some false
    else checkpath fs junk oldinum n ((fs newinum).dotdot.getD junk)

/-! ## All processes -/

/-- The inodes, and the call that each process is in, of at most `v_proc` processes. -/
structure Sys where
  inode : Inodes
  call : ℕ → Option Call
  v_proc : ℕ

/-- A call begins, its process goes on, or an inode without links and references is freed. -/
inductive Event
  | start (p : ℕ) (l : Look) (old new : Path) (cdir : ℕ) (rdir : Option ℕ) (suser : Bool)
  | turn (p : ℕ) (a : Answers)
  | ifree (ip : ℕ)
  deriving DecidableEq, Repr

/-- A call that begins. -/
def begin (l : Look) (old new : Path) (cdir : ℕ) (rdir : Option ℕ) (suser : Bool) : Call where
  old := old
  new := new
  u_cdir := cdir
  u_rdir := rdir
  suser := suser
  oip := 0
  doingdirs := false
  oldparent := 0
  newparent := 0
  nip := none
  pc := .namei l

/-- One event. -/
def Sys.step (s : Sys) : Event → Option Sys
  | .start p l old new cdir rdir suser =>
    if s.call p = none ∧ p < s.v_proc ∧ l ∈ [.old, .mkdir, .rmdir] then
      some { s with call := update s.call p (some (begin l old new cdir rdir suser)) }
    else none
  | .turn p a =>
    (s.call p).bind fun c => (c.turn a s.inode).map fun r =>
      let call := match r.2.pc with
        | .done _ => none
        | _ => some r.2
      { s with inode := r.1.apply s.inode, call := update s.call p call }
  | .ifree ip =>
    if (s.inode ip).i_ftype ≠ .none ∧ (s.inode ip).i_nlink ≤ 0 ∧
        ∀ p < s.v_proc, ∀ c ∈ s.call p, c.holds ip = false then
      some { s with inode := (Change.ifree ip).apply s.inode }
    else none

end Os.Rename
