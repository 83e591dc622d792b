import NteeDb.Core.Rewrite
import Mathlib.Algebra.Order.Ring.Rat

/-!
# Auto-compaction

The reclamation policy of `server.go`.  A pass first looks at the blobs, since `BlobsRelieve`
compacts the log too, and then at the log.

The ratios are exact rationals.  A server has positive ratios and floors: `NewServer` replaces
the others by its defaults.
-/

namespace NteeDb.Net

open NteeDb.Core NteeDb.Verified

/-- The part of `Config` that auto-compaction reads. -/
structure CompactConfig where
  mainRatio : ℚ
  mainMinBytes : Int64
  blobsRelieve : Bool
  blobRatio : ℚ
  blobMinRelieveDataSize : Int64

/-- The configuration of a server. -/
structure Policy extends CompactConfig where
  mainRatio_pos : 0 < mainRatio
  mainMinBytes_pos : 0 < mainMinBytes
  blobRatio_pos : 0 < blobRatio
  blobMinRelieveDataSize_pos : 0 < blobMinRelieveDataSize

/-- A value that is not positive is replaced by its default. -/
def orDefault {α : Type} [Zero α] [LE α] [DecidableLE α] (x default : α) : α :=
  if x ≤ 0 then default else x

theorem orDefault_ratio_pos (x : ℚ) : 0 < orDefault x (1 / 2) := by
  rw [orDefault]
  split
  · decide +kernel
  · next h => exact not_le.mp h

theorem orDefault_size_pos (x : Int64) {d : Int64} (hd : 0 < d) : 0 < orDefault x d := by
  rw [orDefault]
  split
  · exact hd
  · next h => exact Int64.not_le.mp h

/-- `NewServer` -/
def newServer (cfg : CompactConfig) : Policy where
  mainRatio := orDefault cfg.mainRatio (1 / 2)
  mainMinBytes := orDefault cfg.mainMinBytes 1048576
  blobsRelieve := cfg.blobsRelieve
  blobRatio := orDefault cfg.blobRatio (1 / 2)
  blobMinRelieveDataSize := orDefault cfg.blobMinRelieveDataSize 67108864
  mainRatio_pos := orDefault_ratio_pos _
  mainMinBytes_pos := orDefault_size_pos _ (by decide)
  blobRatio_pos := orDefault_ratio_pos _
  blobMinRelieveDataSize_pos := orDefault_size_pos _ (by decide)

/-- Run `c` and hand on an error that it returns. -/
def returned {α : Type} (c : StoreM α) : StoreM (Except Err α) := do
  match ← Prog.attempt c with
  | .ok a => pure (.ok a)
  | .error e => if e.fatal then Prog.fail e else pure (.error e)

/-- `blobsNeedRelieve` -/
def blobsNeedRelieve (p : Policy) (st : Stats) : StoreM Bool :=
  if p.blobsRelieve = false ∨ st.blobBytes < p.blobMinRelieveDataSize then pure false
  else do
    match ← returned blobUsage with
    | .error _ => pure false
    | .ok u =>
        pure (decide (p.blobRatio * u.totalBytes.toInt ≤ u.orphanedBytes.toInt) ||
          decide (1 < u.generations))

/-- `mainNeedsCompact` -/
def mainNeedsCompact (p : Policy) (st : Stats) (db : DB) : Bool :=
  if st.mainBytes < p.mainMinBytes then false
  else
    let dead := st.mainBytes - db.liveBytes
    decide (p.mainRatio * st.mainBytes.toInt ≤ dead.toInt)

/-- What a pass ran, and what that returned. -/
inductive Pass where
  | nothing
  | relieved (r : Except Err Unit)
  | compacted (r : Except Err Unit)
  deriving DecidableEq

/-- `maybeCompact` -/
def maybeCompact (p : Policy) : StoreM Pass := do
  let w ← Faults.getWorld
  let st := w.db.stats
  if ← blobsNeedRelieve p st then do
    let r ← returned blobsRelieve
    pure (.relieved r)
  else do
    let w ← Faults.getWorld
    if mainNeedsCompact p st w.db then do
      let r ← returned compact
      pure (.compacted r)
    else pure .nothing

end NteeDb.Net
