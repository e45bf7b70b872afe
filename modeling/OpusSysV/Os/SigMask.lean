import OpusSysV.Lib.Run
import Mathlib.Data.Finset.SDiff
import Mathlib.Data.Finset.Erase
import Mathlib.Data.Finset.Lattice.Basic

/-!
# Signal masks

`p_hold` is the set of held signals of a process.  `sigprocmask` changes it, `sigsuspend` replaces it
until a signal comes, and while a handler runs it has the signal and the mask of the handler as well.

* `Proc` — the fields of the process that have to do with signals, and the masks saved on its stack.
* `psignal`, `fsig`, `issig`, `psig`, `setsigvec`, `sigprocmask`, `sigsuspend`, `sigret` — the routines.
* `Event`, `Proc.step` — what the process does, and what others do to it.
* `Masks` — what the masks are for, told without the routines.
-/

namespace Os.Sig

open Function

/-! ## Signals -/

def SIGILL : ℕ := 4
def SIGTRAP : ℕ := 5
def SIGKILL : ℕ := 9
def SIGCLD : ℕ := 18
def SIGPWR : ℕ := 19
def SIGWINCH : ℕ := 20
def SIGURG : ℕ := 33
def SIGIO : ℕ := 34
def NSIG : ℕ := 65

/-- The signals of `validsigmask`. -/
def validsig (sig : ℕ) : Bool :=
  sig ∈ [1, 2, 3, 4, 5, 6, 7, 8, 9, 10, 11, 12, 13, 14, 15, 16, 17, 18, 19, 20, 22, 33, 34]

inductive Handler
  | SIG_DFL
  | SIG_IGN
  | fn (addr : ℕ)
  deriving DecidableEq, Repr

/-- The argument of `sigaction`; `nocldstop` is `SA_NOCLDSTOP`. -/
structure Sigaction where
  sa_handler : Handler
  sa_mask : Finset ℕ
  nocldstop : Bool
  deriving DecidableEq

/-! ## What masks are for -/

/-- The mask, those that are saved for when handlers return, the one to come back to after
`sigsuspend`, and the masks of the handlers; `sound` says that each signal that was delivered was not
held. -/
structure Masks where
  mask : Finset ℕ
  saved : List (Finset ℕ)
  suspended : Option (Finset ℕ)
  action : ℕ → Finset ℕ
  sound : Bool

/-- What can happen to masks. -/
inductive Note
  | sigprocmask (how : ℤ) (set : Finset ℕ)
  | sigaction (sig : ℕ) (mask : Finset ℕ)
  | sigsuspend (set : Finset ℕ)
  /-- a handler begins -/
  | deliver (sig : ℕ)
  /-- a handler returns -/
  | sigret
  /-- the process goes on without a handler -/
  | resume

/-- `SIG_BLOCK`, `SIG_UNBLOCK`, `SIG_SETMASK`. -/
def newmask (how : ℤ) (set hold : Finset ℕ) : Finset ℕ :=
  if how = 0 then hold ∪ set.erase SIGKILL
  else if how = 1 then hold \ set.erase SIGKILL
  else if how = 2 then set.erase SIGKILL
  else hold

/-- The mask to go on with when the process does not run a handler. -/
def Masks.base (m : Masks) : Finset ℕ := m.suspended.getD m.mask

def Masks.note (m : Masks) : Note → Masks
  | .sigprocmask how set => { m with mask := newmask how set m.mask }
  | .sigaction sig mask => { m with action := update m.action sig (mask.erase SIGKILL) }
  | .sigsuspend set => { m with mask := set.erase SIGKILL, suspended := some m.mask }
  | .deliver sig =>
    { m with
      mask := insert sig (m.mask ∪ m.action sig)
      saved := m.base :: m.saved
      suspended := none
      sound := m.sound && decide (sig ∉ m.mask) }
  | .sigret =>
    match m.saved with
    | mask :: saved => { m with mask := mask, saved := saved }
    | [] => m
  | .resume => { m with mask := m.base, suspended := none }

/-! ## A process -/

/-- Where the process is. -/
inductive Pc
  | user
  /-- asleep in `sigsuspend` -/
  | suspend
  /-- the sleep was broken off -/
  | leaving
  /-- stopped in `psig` -/
  | stopped
  | exited
  deriving DecidableEq, Repr

/-- `SPROCTR` has the signals that stop the process when it is traced by way of `/proc`; `frames` are
the masks that `sendsig` has put on the stack.  `masks` is not in the source. -/
structure Proc where
  p_sig : Finset ℕ
  p_hold : Finset ℕ
  p_chold : Finset ℕ
  STRC : Bool
  SPRSTOP : Bool
  SPROCTR : Option (Finset ℕ)
  SOMASK : Bool
  u_signal : ℕ → Handler
  u_sigmask : ℕ → Finset ℕ
  u_oldsig : Finset ℕ
  frames : List (Finset ℕ)
  pc : Pc
  masks : Masks

namespace Proc

/-- After `exec`: with the signals that are pending, held and ignored. -/
def start (sig hold ign : Finset ℕ) : Proc where
  p_sig := sig
  p_hold := hold
  p_chold := ∅
  STRC := false
  SPRSTOP := false
  SPROCTR := none
  SOMASK := false
  u_signal n := if n ∈ ign then .SIG_IGN else .SIG_DFL
  u_sigmask _ := ∅
  u_oldsig := ∅
  frames := []
  pc := .user
  masks := ⟨hold, [], none, fun _ => ∅, true⟩

def note (s : Proc) (n : Note) : Proc := { s with masks := s.masks.note n }

/-- `psignal(p, sig)`. -/
def psignal (s : Proc) (sig : ℕ) : Proc :=
  if sig = 0 ∨ NSIG ≤ sig then s else { s with p_sig := insert sig s.p_sig }

/-- `fsig(p)`: the first signal that is pending and not held. -/
def fsig (s : Proc) : Option ℕ :=
  (List.range' 1 64).find? fun n => n ∈ s.p_sig ∧ n ∉ s.p_hold

/-- The signals for which `issig` returns. -/
def takes (s : Proc) (n : ℕ) : Bool :=
  if n = SIGURG ∨ n = SIGIO ∨ n = SIGWINCH then
    s.u_signal n ≠ .SIG_IGN ∧ s.u_signal n ≠ .SIG_DFL
  else if n = SIGCLD ∨ n = SIGPWR then s.u_signal n ≠ .SIG_DFL ∧ s.u_signal n ≠ .SIG_IGN
  else s.u_signal n ≠ .SIG_IGN ∨ s.STRC

/-- The loop of `issig`, which goes through each signal once at most. -/
def issigLoop : ℕ → Proc → Option ℕ × Proc
  | 0, s => (none, s)
  | k + 1, s =>
    match s.fsig with
    | none => (none, s)
    | some n => if s.takes n then (some n, s) else issigLoop k { s with p_sig := s.p_sig.erase n }

/-- `issig()`. -/
def issig (s : Proc) : Option ℕ × Proc := issigLoop 64 s

/-- Back to user mode without a handler. -/
def back (s : Proc) : Proc := { s with pc := .user }.note .resume

/-- The handler of signal `n` is called, if there is room for a frame. -/
def catch_ (s : Proc) (n : ℕ) (room : Bool) : Proc :=
  let retmask := if s.SOMASK then s.u_oldsig else s.p_hold
  let s := { s with SOMASK := false }
  let s :=
    if n ∈ s.p_chold then { s with p_hold := insert n s.p_hold }
    else if n ≠ SIGILL ∧ n ≠ SIGTRAP ∧ n ≠ SIGPWR then
      { s with u_signal := update s.u_signal n .SIG_DFL }
    else s
  let s := { s with p_hold := s.p_hold ∪ s.u_sigmask n }
  if room then { s with frames := retmask :: s.frames, pc := .user }.note (.deliver n)
  else { s with pc := .exited }

/-- `psig` from `fsig` on. -/
def psigEnd (s : Proc) (room : Bool) : Proc :=
  match s.fsig with
  | none => s.back
  | some n =>
    let s := { s with p_sig := s.p_sig.erase n }
    match s.u_signal n with
    | .SIG_DFL => { s with pc := .exited }
    | .SIG_IGN => s.back
    | .fn _ => s.catch_ n room

/-- Whether `psig` stops. -/
def stops (s : Proc) : Bool :=
  s.SPRSTOP ∨ s.STRC ∨ s.SPROCTR.any fun sigs => s.fsig.any fun n => n ∈ sigs

/-- `psig()`. -/
def psig (s : Proc) (room : Bool) : Proc :=
  if s.stops then { s with SPRSTOP := false, pc := .stopped } else s.psigEnd room

/-- What is done at the end of each trap and system call. -/
def leave (s : Proc) (room : Bool) : Proc :=
  if s.SPRSTOP then s.psig room
  else
    match s.issig with
    | (some _, s) => s.psig room
    | (none, s) => s.back

/-- `setsigvec(sig, sa)`; `zombie` tells whether a child has died. -/
def setsigvec (s : Proc) (sig : ℕ) (sa : Sigaction) (zombie : Bool) : Proc :=
  let handler :=
    if sig = SIGCLD ∧ sa.nocldstop ∧ sa.sa_handler = .SIG_DFL then .SIG_IGN else sa.sa_handler
  let s := { s with
    u_signal := update s.u_signal sig handler
    u_sigmask := update s.u_sigmask sig (sa.sa_mask.erase SIGKILL) }.note (.sigaction sig sa.sa_mask)
  let s :=
    if handler = .SIG_IGN ∨ sig = SIGCLD ∧ handler = .SIG_DFL then
      { s with p_sig := s.p_sig.erase sig, p_hold := s.p_hold.erase sig }
    else s
  let s :=
    if handler ≠ .SIG_IGN ∧ handler ≠ .SIG_DFL then { s with p_chold := insert sig s.p_chold } else s
  if sig = SIGCLD ∧ zombie then s.psignal SIGCLD else s

/-- `sigaction()`. -/
def sigaction (s : Proc) (sig : ℕ) (sa : Sigaction) (zombie : Bool) : Proc :=
  if sig = 0 ∨ NSIG ≤ sig ∨ validsig sig = false ∨ sig = SIGKILL then s
  else s.setsigvec sig sa zombie

/-- `sigprocmask()`. -/
def sigprocmask (s : Proc) (how : ℤ) (set : Finset ℕ) : Proc :=
  { s with p_hold := newmask how set s.p_hold }.note (.sigprocmask how set)

/-- `sigsuspend()`, up to the sleep. -/
def sigsuspend (s : Proc) (mask : Finset ℕ) : Proc :=
  { s with
    u_oldsig := s.p_hold
    SOMASK := true
    p_hold := mask.erase SIGKILL
    pc := .suspend }.note (.sigsuspend mask)

/-- `sigret()`. -/
def sigret (s : Proc) : Option Proc :=
  match s.frames with
  | retmask :: frames =>
    some ({ s with p_hold := retmask.erase SIGKILL, frames := frames }.note .sigret)
  | [] => none

end Proc

/-! ## Runs -/

inductive Event
  | sigprocmask (how : ℤ) (set : Finset ℕ)
  | sigaction (sig : ℕ) (sa : Sigaction) (zombie : Bool)
  | sigsuspend (mask : Finset ℕ)
  | sigret
  | psignal (sig : ℕ)
  /-- the sleep of `sigsuspend` ends -/
  | wake
  /-- a trap or a system call comes to its end -/
  | leave (room : Bool)
  /-- the process goes on after a stop, the last of them if it stops again at once, with the signals
  that the tracer has left -/
  | cont (p_sig : Finset ℕ) (room : Bool)
  /-- tracing begins or ends -/
  | trace (STRC SPRSTOP : Bool) (SPROCTR : Option (Finset ℕ))
  deriving DecidableEq

namespace Proc

/-- A system call made in user mode. -/
def call (s t : Proc) : Option Proc := if s.pc = .user then some t else none

def step (s : Proc) : Event → Option Proc
  | .sigprocmask how set => s.call (s.sigprocmask how set)
  | .sigaction sig sa zombie => s.call (s.sigaction sig sa zombie)
  | .sigsuspend mask => s.call (s.sigsuspend mask)
  | .sigret => if s.pc = .user then s.sigret else none
  | .psignal sig => if s.pc = .exited then none else some (s.psignal sig)
  | .wake =>
    if s.pc = .suspend then
      if s.SPRSTOP then some { s with pc := .leaving }
      else
        match s.issig with
        | (some _, s) => some { s with pc := .leaving }
        | (none, _) => none
    else none
  | .leave room => if s.pc = .user ∨ s.pc = .leaving then some (s.leave room) else none
  | .cont p_sig room =>
    if s.pc = .stopped then some ({ s with p_sig := p_sig }.psigEnd room) else none
  | .trace STRC SPRSTOP SPROCTR =>
    if s.pc = .exited then none
    else some { s with STRC := STRC, SPRSTOP := SPRSTOP, SPROCTR := SPROCTR }

end Proc

end Os.Sig
