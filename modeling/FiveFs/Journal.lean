import FiveFs.Fs

/-! Metadata journal: whole-block physical transactions. A transaction is journaled (descriptor,
data blocks, commit block), synced, then applied in place and the superblock's head and sequence
advance. Replay on writable open re-applies committed transactions. -/

namespace FiveFs

open Buffer

/-- An in-flight transaction: new contents for metadata blocks in ascending block address. -/
structure Txn where
  blocks : List (Nat × Bytes) := []

namespace Txn

/-- `BTreeMap::insert` -/
def insertBlock (blk : Nat) (data : Bytes) : List (Nat × Bytes) → List (Nat × Bytes)
  | [] => [(blk, data)]
  | (k, d) :: rest =>
      if blk < k then (blk, data) :: (k, d) :: rest
      else if blk = k then (blk, data) :: rest
      else (k, d) :: insertBlock blk data rest

def insert (t : Txn) (blk : Nat) (data : Bytes) : Txn := ⟨insertBlock blk data t.blocks⟩

def find (t : Txn) (blk : Nat) : Option Bytes := t.blocks.lookup blk

def isEmpty (t : Txn) : Bool := t.blocks.isEmpty

def targets (t : Txn) : List Nat := t.blocks.map Prod.fst

end Txn

def JHDR : Nat := 24

/-- A descriptor block before the checksum is filled in. -/
def descFields (seq : Nat) (targets : List Nat) : Bytes :=
  let b := putU32 zeros 0 JDESC_MAGIC
  let b := putU64 b 8 seq
  let b := putU32 b 16 targets.length
  putArr 8 b JHDR targets

def descBlock [Crc32c] (bs seq : Nat) (targets : List Nat) : Bytes :=
  putU32 (descFields seq targets) 4 (csum (descFields seq targets) bs 4)

def commitFields (seq txnCsum : Nat) : Bytes :=
  let b := putU32 zeros 0 JCOMMIT_MAGIC
  let b := putU64 b 8 seq
  putU32 b 16 txnCsum

def commitBlock [Crc32c] (bs seq txnCsum : Nat) : Bytes :=
  putU32 (commitFields seq txnCsum) 4 (csum (commitFields seq txnCsum) bs 4)

/-- CRC32C over the descriptor and the data blocks of a transaction. -/
def txnCsum [Crc32c] (bs : Nat) (desc : Bytes) (blocks : List Bytes) : Nat :=
  (blocks.foldl (fun c data => Crc32c.append c (slice data 0 bs)) (crc32c (slice desc 0 bs))).toNat

/-- Maximum targets per transaction for a given block size. -/
def maxTargets (bs : Nat) : Nat := (bs - JHDR) / 8

namespace Gofs

open Prog

def journalPhys (idx : Nat) : Prog Gofs Nat := do
  let g ← get
  if idx ≥ g.sb.journalLength then bail s!"journal index {idx} out of range"
  resolve (g.sb.journalStart + idx)

/-- Write one block of the journal area. -/
def journalWrite (idx : Nat) (data : Bytes) : Prog Gofs Unit := do
  let g ← get
  let off ← journalPhys idx
  pwrite off g.sb.blocksize data

/-- The data blocks of a record, from journal index `idx` on. -/
def journalData : Nat → List Bytes → Prog Gofs Unit
  | _, [] => return ()
  | idx, data :: rest => do
      journalWrite idx data
      journalData (idx + 1) rest

/-- Write blocks to their final locations, in order. -/
def applyBlocks : List (Nat × Bytes) → Prog Gofs Unit
  | [] => return ()
  | (blk, data) :: rest => do
      writeBlock blk data
      applyBlocks rest

/-- Journal and apply a transaction. -/
def commit [Crc32c] (t : Txn) : Prog Gofs Unit := do
  if t.isEmpty then return ()
  let g ← get
  let bs := g.sb.blocksize
  if t.blocks.length > maxTargets bs then
    bail s!"transaction too large ({t.blocks.length} blocks)"
  let needed := t.blocks.length + 2
  if needed > g.sb.journalLength then bail "transaction larger than journal"
  -- wrap: transactions never split across the end
  let head := if g.sb.journalHead + needed > g.sb.journalLength then 0 else g.sb.journalHead
  let seq := g.sb.journalSeq
  let desc := descBlock bs seq t.targets
  let tc := txnCsum bs desc (t.blocks.map Prod.snd)
  journalWrite head desc
  journalData (head + 1) (t.blocks.map Prod.snd)
  journalWrite (head + needed - 1) (commitBlock bs seq tc)
  sync
  applyBlocks t.blocks
  sync
  if seq + 1 ≥ 2 ^ 64 then panicWith "attempt to add with overflow"
  modify fun g => { g with sb := { g.sb with
    journalHead := if head + needed ≥ g.sb.journalLength then 0 else head + needed
    journalSeq := seq + 1 } }
  writeSuperblock

def journalRead (idx : Nat) : Prog Gofs Bytes := do
  let g ← get
  let off ← journalPhys idx
  pread off g.sb.blocksize

/-- `n` data blocks from journal index `idx` on. -/
def journalReadData : Nat → Nat → Prog Gofs (List Bytes)
  | _, 0 => return []
  | idx, n + 1 => do
      let data ← journalRead idx
      let rest ← journalReadData (idx + 1) n
      return data :: rest

/-- Validate a transaction at journal index `pos` with expected sequence. -/
def tryReadTxn [Crc32c] (pos seq : Nat) : Prog Gofs (Option (List (Nat × Bytes))) := do
  let g ← get
  let bs := g.sb.blocksize
  if pos + 2 > g.sb.journalLength then return none
  let desc ← journalRead pos
  if getU32 desc 0 ≠ JDESC_MAGIC ∨ getU32 desc 4 ≠ csum desc bs 4 ∨ getU64 desc 8 ≠ seq then
    return none
  let count := getU32 desc 16
  if count = 0 ∨ count > maxTargets bs ∨ pos + count + 2 > g.sb.journalLength then return none
  let com ← journalRead (pos + count + 1)
  if getU32 com 0 ≠ JCOMMIT_MAGIC ∨ getU32 com 4 ≠ csum com bs 4 ∨ getU64 com 8 ≠ seq then
    return none
  let blocks ← journalReadData (pos + 1) count
  -- torn transaction
  if txnCsum bs desc blocks ≠ getU32 com 16 then return none
  return some ((getArr 8 desc JHDR count).zip blocks)

/-- The transaction replay takes next: at the head, or at block 0 where the writer may have
wrapped without recording it. -/
def nextTxn [Crc32c] (head seq : Nat) : Prog Gofs (Option (Nat × List (Nat × Bytes))) := do
  match ← tryReadTxn head seq with
  | some t => return some (head, t)
  | none =>
      if head ≠ 0 then return (← tryReadTxn 0 seq).map fun t => (0, t)
      else return none

/-- The replay loop, for at most `fuel` transactions; running out is an error, so a result is a
result of the unbounded loop. -/
def replayLoop [Crc32c] : Nat → Nat → Nat → Nat → Prog Gofs (Nat × Nat × Nat)
  | 0, _, _, _ => panicWith "replay does not end"
  | fuel + 1, head, seq, applied => do
      match ← nextTxn head seq with
      | none => return (head, seq, applied)
      | some (pos, t) =>
          applyBlocks t
          let g ← get
          let head := pos + t.length + 2
          let head := if head ≥ g.sb.journalLength then 0 else head
          if seq + 1 ≥ 2 ^ 64 then panicWith "attempt to add with overflow"
          replayLoop fuel head (seq + 1) (applied + 1)

/-- Replay committed-but-unapplied transactions; the number applied. -/
def replay [Crc32c] : Prog Gofs Nat := do
  let g ← get
  let (head, seq, applied) ←
    replayLoop (g.sb.journalLength + 1) g.sb.journalHead g.sb.journalSeq 0
  if applied > 0 then
    sync
    modify fun g => { g with sb := { g.sb with journalHead := head, journalSeq := seq } }
    writeSuperblock
  return applied

/-- The counting loop of `journal_pending`, for at most `fuel` transactions. -/
def pendingLoop [Crc32c] : Nat → Nat → Nat → Nat → Prog Gofs Nat
  | 0, _, _, _ => panicWith "replay does not end"
  | fuel + 1, head, seq, n => do
      match ← nextTxn head seq with
      | none => return n
      | some (pos, t) =>
          let g ← get
          let head := pos + t.length + 2
          let head := if head ≥ g.sb.journalLength then 0 else head
          if seq + 1 ≥ 2 ^ 64 then panicWith "attempt to add with overflow"
          pendingLoop fuel head (seq + 1) (n + 1)

/-- Count committed-but-unapplied transactions without applying them. -/
def journalPending [Crc32c] : Prog Gofs Nat := do
  let g ← get
  pendingLoop (g.sb.journalLength + 1) g.sb.journalHead g.sb.journalSeq 0

/-- A writable open of the device: find the superblock, heal its copies, replay the journal. -/
def openRw [Crc32c] (dev : Device) : Except Err Gofs :=
  match findSuperblock dev with
  | .error e => .error e
  | .ok (sb, fromBackup) =>
      match loadAgmap dev sb with
      | .error e => .error e
      | .ok map =>
          let heal : Prog Gofs Nat := do
            let g ← get
            if fromBackup || !g.backupSuperblockOk then writeSuperblock
            replay
          match heal { dev, sb, map } with
          | (.ok _, g) => .ok g
          | (.error e, _) => .error e

end Gofs

end FiveFs
