import Mathlib.Data.List.Basic
import Mathlib.Logic.Function.Basic

/-!
# The LOCK file

`acquireLock`, the release in `Close`, and `Drop` with `Destroy`, as steps of processes that
share one store directory.  The parties are handles, each with the one `Open` it comes from; a
process may have several.  An flock is held on the inode of the handle's file, not on the name:
a handle that opened `LOCK` before it was removed and one that created it anew hold different
inodes.

`Drop` on a handle that is already closed finds nothing to close and goes on with `Destroy`
just the same, and it may be called again while an earlier `Drop` is still removing, so the
calls of `Destroy` under way are counted apart from the handles.
-/

namespace NteeDb.Core.Lock

/-- The files of a store directory. -/
inductive File where
  | main
  | mainCompact
  | hint
  | hintTmp
  | schema
  | schemaTmp
  | lock
  | blobs (gen : Nat)
  deriving DecidableEq, Repr

/-- `storeFiles`, in the order in which `Destroy` removes them. -/
def storeFiles : List File :=
  [.main, .mainCompact, .hint, .hintTmp, .schema, .schemaTmp, .lock]

/-- Blob files, which `Destroy` finds by listing the directory. -/
def File.isBlob : File → Bool
  | .blobs _ => true
  | _ => false

/-- Where a handle stands: not opened; `LOCK` opened as some inode but not locked yet; holding
the flock, with the store open; closed, by `Close`, `Drop` or a fail-stop. -/
inductive Handle where
  | idle
  | opening (inode : Nat)
  | locked (inode : Nat)
  | closed
  deriving DecidableEq, Repr

/-- A call of `Destroy` under way: the files still to remove, and whether the blob files have
been listed. -/
structure Removal where
  todo : List File
  listed : Bool
  deriving DecidableEq, Repr

/-- The directory, the kernel's table of flocks, the handles and the calls of `Destroy`. -/
structure State where
  /-- The inode the name `LOCK` stands for. -/
  lock : Option Nat
  /-- The next inode. -/
  fresh : Nat
  /-- The other files. -/
  files : List File
  /-- The handle that holds the flock of an inode. -/
  held : Nat → Option Nat
  handles : Nat → Handle
  removals : Nat → Option Removal

/-- What a process may do next. -/
inductive Action where
  /-- `os.OpenFile(LOCK, O_CREATE|O_RDWR)`. -/
  | openLock (h : Nat)
  /-- `syscall.Flock(LOCK_EX|LOCK_NB)`. -/
  | flock (h : Nat)
  /-- A later step of `Open` fails: the lock is released and no handle is returned. -/
  | fail (h : Nat)
  /-- An open store creates or writes one of its files. -/
  | write (h : Nat) (f : File)
  /-- `Close`, `failStop`, or a `Drop` whose `Close` reports an error. -/
  | close (h : Nat)
  /-- `Drop`: its `Close`, and the start of its `Destroy`. -/
  | drop (h d : Nat)
  /-- `discoverBlobGens`. -/
  | list (d : Nat)
  /-- `os.Remove` of the next file. -/
  | remove (d : Nat)
  /-- `Destroy` is done, a removal fails, or the process dies. -/
  | leave (d : Nat)
  /-- The process dies: each of its handles takes this step. -/
  | crash (h : Nat)
  deriving DecidableEq, Repr

/-- A handle moves on. -/
def State.set (s : State) (h : Nat) (x : Handle) : State :=
  { s with handles := Function.update s.handles h x }

/-- A call of `Destroy` moves on. -/
def State.removal (s : State) (d : Nat) (r : Option Removal) : State :=
  { s with removals := Function.update s.removals d r }

/-- The flock of an inode changes hands. -/
def State.hold (s : State) (inode : Nat) (h : Option Nat) : State :=
  { s with held := Function.update s.held inode h }

/-- Closing its file releases a handle's flock. -/
def State.release (s : State) (h : Nat) : State :=
  match s.handles h with
  | .locked i => s.hold i none
  | _ => s

/-- `os.Remove` of a name; a missing file is ignored. -/
def State.unlink (s : State) (f : File) : State :=
  if f = .lock then { s with lock := none } else { s with files := s.files.filter (· ≠ f) }

/-- `Destroy` starts with `storeFiles`; `d` names a call that is not under way. -/
def State.destroy (s : State) (d : Nat) : Option State :=
  match s.removals d with
  | none => some (s.removal d (some ⟨storeFiles, false⟩))
  | some _ => none

/-- One step; `none` when the handle or the call is not where the action starts from. -/
def step (s : State) : Action → Option State
  | .openLock h =>
      match s.handles h with
      | .idle =>
          match s.lock with
          | some i => some (s.set h (.opening i))
          | none => some ({ s with lock := some s.fresh, fresh := s.fresh + 1 }.set h
              (.opening s.fresh))
      | _ => none
  | .flock h =>
      match s.handles h with
      | .opening i =>
          match s.held i with
          | none => some ((s.hold i (some h)).set h (.locked i))
          | some _ => some (s.set h .idle)
      | _ => none
  | .fail h =>
      match s.handles h with
      | .locked _ => some ((s.release h).set h .idle)
      | _ => none
  | .write h f =>
      match s.handles h with
      | .locked _ =>
          if f = .lock ∨ f ∈ s.files then some s else some { s with files := f :: s.files }
      | _ => none
  | .close h =>
      match s.handles h with
      | .locked _ => some ((s.release h).set h .closed)
      | _ => none
  | .drop h d =>
      match s.handles h with
      | .locked _ => ((s.release h).set h .closed).destroy d
      -- `Close` returns at once when `db.closed` is set.
      | .closed => s.destroy d
      | _ => none
  | .list d =>
      match s.removals d with
      | some ⟨[], false⟩ => some (s.removal d (some ⟨s.files.filter File.isBlob, true⟩))
      | _ => none
  | .remove d =>
      match s.removals d with
      | some ⟨f :: fs, listed⟩ => some ((s.unlink f).removal d (some ⟨fs, listed⟩))
      | _ => none
  | .leave d =>
      match s.removals d with
      | some _ => some (s.removal d none)
      | none => none
  | .crash h => some ((s.release h).set h .idle)

/-- A run of steps. -/
def run : State → List Action → Option State
  | s, [] => some s
  | s, a :: as => (step s a).bind fun s' => run s' as

/-- A directory on which no process has anything open; `LOCK` may exist or not. -/
structure State.Quiet (s : State) : Prop where
  idle : ∀ h, s.handles h = .idle
  held : ∀ i, s.held i = none
  removals : ∀ d, s.removals d = none

/-- A new, empty directory. -/
def State.empty : State := ⟨none, 0, [], fun _ => none, fun _ => .idle, fun _ => none⟩

end NteeDb.Core.Lock
