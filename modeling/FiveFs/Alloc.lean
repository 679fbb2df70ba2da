import FiveFs.Journal

/-! Refinement-tree allocator: states live in the per-AG root table (L0) and in 128-byte records
inside table blocks (L1, L2, inode slots). Table blocks come from arena cells: FREE L0 cells claimed
as RSVD. -/

namespace FiveFs

open Buffer

/-- The filesystem together with the transaction under construction. -/
structure Work where
  fs : Gofs
  t : Txn := {}

/-- A record: table block and index in it. -/
abbrev Ref := Nat × Nat

def REC_SIZE : Nat := 128

/-- Records per table block. -/
def recsPerBlock (bs : Nat) : Nat := bs / REC_SIZE - 1

def recState (r : Bytes) (i : Nat) : Nat := cellGet r i
def recStateSet (r : Bytes) (i st : Nat) : Bytes := cellSet r i st
def recRef (r : Bytes) (i : Nat) : Ref := (getU32 r (4 + i * 6), getU16 r (4 + i * 6 + 4))

def recRefSet (r : Bytes) (i : Nat) (ref : Ref) : Bytes :=
  putU16 (putU32 r (4 + i * 6) ref.1) (4 + i * 6 + 4) ref.2

def recAll (r : Bytes) (st : Nat) : Bool := (List.range ALLOC_FANOUT).all fun i =>
    recState r i == st

def recOff (idx : Nat) : Nat := REC_SIZE * (1 + idx)

/-- `for i in start..start + m { rec_state_set(rec, i, st) }` -/
def recFill (r : Bytes) (start m st : Nat) : Bytes :=
  (List.range' start m).foldl (fun r i => recStateSet r i st) r

/-- Wrap-around scan order starting at `start` (covers every index once). -/
def wrapRange (start len : Nat) : List Nat :=
  let start := if len = 0 then 0 else start % len
  List.range' start (len - start) ++ List.range start

/-- Scan for `m` consecutive FREE children from child `i` on, `run` of them seen. -/
def findRunFrom (r : Bytes) (m : Nat) : List Nat → Nat → Option Nat
  | [], _ => none
  | i :: rest, run =>
      if recState r i = CELL_FREE then
        if run + 1 = m then some (i + 1 - m) else findRunFrom r m rest (run + 1)
      else findRunFrom r m rest 0

/-- Find a run of `m` consecutive FREE children in a record. -/
def findRun (r : Bytes) (m : Nat) : Option Nat := findRunFrom r m (List.range ALLOC_FANOUT) 0

/-- `used.count_ones()` on a `u32`. -/
def countOnes (n : Nat) : Nat := (List.range 32).countP fun i => n.testBit i

/-- AG 0's header sits at local block 1 (block 0 is the superblock). -/
def agHeaderBlock (ag : Nat) : Nat := if ag = 0 then 1 else 0

namespace Work

open Prog

/-- Run a filesystem operation under the transaction. -/
def onFs {α : Type} (x : Prog Gofs α) : Prog Work α := zoom Work.fs (fun fs w => { w with fs }) x

def blocksize (w : Work) : Nat := w.fs.sb.blocksize

/-- The block counters of the in-memory superblock. -/
def recount (w : Work) (free rsvd full : Nat) : Work :=
  { w with fs := { w.fs with sb := { w.fs.sb with
  freeBlocks := free
  rsvdBlocks := rsvd
  fullBlocks := full } } }

/-- Read a block through the transaction (sees uncommitted writes). -/
def txnRead (blk : Nat) : Prog Work Bytes := do
  let w ← get
  match w.t.find blk with
  | some b => return b
  | none => onFs (Gofs.readBlock blk)

def txnWrite (blk : Nat) (data : Bytes) : Prog Work Unit :=
  modify fun w => { w with t := w.t.insert blk (clip w.blocksize data) }

/-- A `-=` on an unsigned counter. -/
def subtract (a b : Nat) : Prog Work Nat :=
  if b ≤ a then return a - b else panicWith "attempt to subtract with overflow"

-- root table access

def rtByte (hdr : AgHeader) (byteOff : Nat) : Prog Work (Nat × Nat × Bytes) := do
  let bs := (← get).blocksize
  let blk := blkAddr hdr.agNum (hdr.allocRoot + byteOff / bs)
  let buf ← txnRead blk
  return (blk, byteOff % bs, buf)

def rtState (hdr : AgHeader) (c : Nat) : Prog Work Nat := do
  let (_, off, buf) ← rtByte hdr (c / 4)
  return byteGet2 (buf off) (c % 4)

def rtStateSet (hdr : AgHeader) (c st : Nat) : Prog Work Unit := do
  let (blk, off, buf) ← rtByte hdr (c / 4)
  txnWrite blk fun i => if i = off then byteSet2 (buf i) (c % 4) st else buf i

/-- A reference is read from one block, and one that straddles two is past the end of the slice. -/
def rtRef (hdr : AgHeader) (c : Nat) : Prog Work Ref := do
  let bs := (← get).blocksize
  let cells := (rtGeometry hdr.length bs).1
  let (_, off, buf) ← rtByte hdr (rtRefOff cells c)
  if off + 6 > bs then panicWith "range end index out of range for slice"
  else return (getU32 buf off, getU16 buf (off + 4))

/-- The bytes of a reference from `i` on: a reference may straddle two blocks. -/
def rtBytesSet (hdr : AgHeader) (base : Nat) (six : Bytes) : List Nat → Prog Work Unit
  | [] => return ()
  | i :: rest => do
      let (blk, off, buf) ← rtByte hdr (base + i)
      txnWrite blk fun k => if k = off then six i else buf k
      rtBytesSet hdr base six rest

def rtRefSet (hdr : AgHeader) (c : Nat) (r : Ref) : Prog Work Unit := do
  let cells := (rtGeometry hdr.length (← get).blocksize).1
  let six := putU16 (putU32 zeros 0 r.1) 4 r.2
  rtBytesSet hdr (rtRefOff cells c) six (List.range 6)

-- table blocks

variable [Crc32c]

def tblRead (ag l : Nat) : Prog Work Bytes := do
  let buf ← txnRead (blkAddr ag l)
  let bs := (← get).blocksize
  if getU32 buf 0 ≠ ALLOC_MAGIC then bail s!"AG {ag} block {l}: not a table block"
  else if getU32 buf 4 ≠ csum buf bs 4 then
    bail s!"AG {ag} block {l}: table block checksum mismatch"
  else return buf

def tblWrite (ag l : Nat) (buf : Bytes) : Prog Work Unit := do
  let buf := putU64 buf 8 (getU64 buf 8 + 1)
  txnWrite (blkAddr ag l) (putU32 buf 4 (csum buf (← get).blocksize 4))

/-- `buf[off..off + REC_SIZE]` -/
def recRange (idx : Nat) : Prog Work Unit := do
  if recOff idx + REC_SIZE > (← get).blocksize then
    panicWith "range end index out of range for slice"
  else return ()

def recRead (ag : Nat) (r : Ref) : Prog Work Bytes := do
  let buf ← tblRead ag r.1
  recRange r.2
  return clip REC_SIZE (drop (recOff r.2) buf)

def recWrite (ag : Nat) (r : Ref) (data : Bytes) : Prog Work Unit := do
  let buf ← tblRead ag r.1
  recRange r.2
  tblWrite ag r.1 (copyAt buf (recOff r.2) REC_SIZE data)

def setTblHint (ag b : Nat) : Prog Work Unit := onFs (modify fun g => { g with
  hints := Function.update g.hints ag (some (b, ((g.hints ag).getD (0, 0)).2)) })

def setCellHint (ag c : Nat) : Prog Work Unit := onFs (modify fun g => { g with
  hints := Function.update g.hints ag (some (((g.hints ag).getD (0, 0)).1, c)) })

/-- The first clear bit of the used mask. The shift overflows past bit 31. -/
def freeRec (used nrec : Nat) : Prog Work Nat :=
  match (List.range (min nrec 32)).find? fun i => !used.testBit i with
  | some idx => return idx
  | none =>
      if nrec > 32 then panicWith "attempt to shift left with overflow"
      else panicWith "called `Option::unwrap()` on a `None` value"

def arenaRead (ag b : Nat) : Prog Work Bytes := do
  let raw ← txnRead (blkAddr ag b)
  if getU32 raw 0 = ALLOC_MAGIC then tblRead ag b
  -- fresh arena block: initialize
  else return putU32 zeros 0 ALLOC_MAGIC

/-- Look for a free record slot in the arena blocks of `bs`. -/
def arenaScan (hdr : AgHeader) (nrec : Nat) : List Nat → Prog Work (Option Ref)
  | [] => return none
  | b :: rest => do
      let buf ← arenaRead hdr.agNum b
      let used := getU32 buf 16
      if countOnes used ≥ nrec then arenaScan hdr nrec rest
      else
        let idx ← freeRec used nrec
        let buf := putU32 buf 16 (used ||| 1 <<< idx)
        recRange idx
        tblWrite hdr.agNum b (copyAt buf (recOff idx) REC_SIZE zeros)
        setTblHint hdr.agNum b
        return some (b, idx)

/-- The first cell in state FREE; a cell that cannot be read is not free. -/
def findFree (hdr : AgHeader) : List Nat → Prog Work (Option Nat)
  | [] => return none
  | c :: rest => do
      match ← attempt (rtState hdr c) with
      | .ok st => if st = CELL_FREE then return some c else findFree hdr rest
      | .error _ => findFree hdr rest

/-- Claim a FREE L0 cell as a new arena and its first record. -/
def claimArena (hdr : AgHeader) : Prog Work (Ref × AgHeader) := do
  let cells := (rtGeometry hdr.length (← get).blocksize).1
  match ← findFree hdr (List.range cells) with
  | none => bail s!"AG {hdr.agNum}: no free cell for table arena"
  | some c =>
      rtStateSet hdr c CELL_RSVD
      let arena := c * CELL_BLOCKS
      setTblHint hdr.agNum arena
      let free ← subtract hdr.freeBlocks CELL_BLOCKS
      let hdr := { hdr with
        tblArena := arena
        freeBlocks := free
        rsvdBlocks := hdr.rsvdBlocks + CELL_BLOCKS }
      let sbFree ← subtract (← get).fs.sb.freeBlocks CELL_BLOCKS
      modify fun w => w.recount sbFree (w.fs.sb.rsvdBlocks + CELL_BLOCKS) w.fs.sb.fullBlocks
      tblWrite hdr.agNum arena (putU32 (putU32 zeros 0 ALLOC_MAGIC) 16 1)
      return ((arena, 0), hdr)

/-- Claim a free record slot, growing the arena if needed. -/
def tblAllocRec (hdr : AgHeader) : Prog Work (Ref × AgHeader) := do
  let nrec := recsPerBlock (← get).blocksize
  if hdr.tblArena ≠ 0 then
    let hint := match (← get).fs.hints hdr.agNum with
      | some (b, _) =>
          if hdr.tblArena ≤ b ∧ b < hdr.tblArena + CELL_BLOCKS then b else hdr.tblArena
      | none => hdr.tblArena
    let order := (wrapRange (hint - hdr.tblArena) CELL_BLOCKS).map fun o => hdr.tblArena + o
    match ← arenaScan hdr nrec order with
    | some r => return (r, hdr)
    | none => claimArena hdr
  else claimArena hdr

def tblFreeRec (ag : Nat) (r : Ref) : Prog Work Unit := do
  let buf ← tblRead ag r.1
  if r.2 ≥ 32 then panicWith "attempt to shift left with overflow"
  else
    let buf := putU32 buf 16 (getU32 buf 16 &&& (0xFFFFFFFF ^^^ 1 <<< r.2))
    recRange r.2
    tblWrite ag r.1 (copyAt buf (recOff r.2) REC_SIZE zeros)

def putAgHeader (hdr : AgHeader) : Prog Work Unit :=
  txnWrite (blkAddr hdr.agNum (agHeaderBlock hdr.agNum))
    (clip AGHDR_SIZE { hdr with gen := hdr.gen + 1 }.toBytes)

def readAgHeaderTxn (ag : Nat) : Prog Work AgHeader := do
  let buf ← txnRead (blkAddr ag (agHeaderBlock ag))
  match AgHeader.parse buf with
  | .ok hdr => return hdr
  | .error e => bail s!"AG {ag}: {e}"

-- refinement

/-- Refine a FREE L0 cell: all 16 L1 children start FREE. -/
def refineL0 (hdr : AgHeader) (c : Nat) : Prog Work (Ref × AgHeader) := do
  -- flipped first: `tblAllocRec` must not pick this cell for an arena
  rtStateSet hdr c CELL_REFINED
  let (r, hdr) ← tblAllocRec hdr
  rtRefSet hdr c r
  return (r, hdr)

/-- Refine a FREE L1 child of an L0 record. -/
def refineL1 (hdr : AgHeader) (l0 : Ref) (i : Nat) : Prog Work (Ref × AgHeader) := do
  let (r, hdr) ← tblAllocRec hdr
  let data ← recRead hdr.agNum l0
  recWrite hdr.agNum l0 (recRefSet (recStateSet data i CELL_REFINED) i r)
  return (r, hdr)

-- allocation

def accountAlloc (hdr : AgHeader) (blocks : Nat) : Prog Work AgHeader := do
  let free ← subtract hdr.freeBlocks blocks
  let sbFree ← subtract (← get).fs.sb.freeBlocks blocks
  modify fun w => w.recount sbFree w.fs.sb.rsvdBlocks (w.fs.sb.fullBlocks + blocks)
  return { hdr with freeBlocks := free, fullBlocks := hdr.fullBlocks + blocks }

/-- `for cc in cells { rt_state_set(cc, st) }` -/
def rtStateSetAll (hdr : AgHeader) (st : Nat) : List Nat → Prog Work Unit
  | [] => return ()
  | c :: rest => do
      rtStateSet hdr c st
      rtStateSetAll hdr st rest

/-- Scan for `k` consecutive FREE cells, `run` of them seen from `start` on. -/
def allocL0Scan (hdr : AgHeader) (k : Nat) : List Nat → Nat → Nat → Prog Work (Nat × AgHeader)
  | [], _, _ => bail s!"AG {hdr.agNum}: no room for {k} cells"
  | c :: rest, run, start => do
      if (← rtState hdr c) = CELL_FREE then
        let start := if run = 0 then c else start
        if run + 1 = k then
          rtStateSetAll hdr CELL_FULL (List.range' start k)
          let hdr ← accountAlloc hdr (k * CELL_BLOCKS)
          return (blkAddr hdr.agNum (start * CELL_BLOCKS), hdr)
        else allocL0Scan hdr k rest (run + 1) start
      else allocL0Scan hdr k rest 0 start

def allocL0 (hdr : AgHeader) (k : Nat) : Prog Work (Nat × AgHeader) := do
  let cells := (rtGeometry hdr.length (← get).blocksize).1
  allocL0Scan hdr k (List.range cells) 0 0

/-- An already-refined L0 cell with room for `m` L1 cells. -/
def allocL1Scan (hdr : AgHeader) (m : Nat) : List Nat → Prog Work (Option (Nat × AgHeader))
  | [] => return none
  | c :: rest => do
      if (← rtState hdr c) ≠ CELL_REFINED then allocL1Scan hdr m rest
      else
        let r ← rtRef hdr c
        let data ← recRead hdr.agNum r
        match findRun data m with
        | none => allocL1Scan hdr m rest
        | some start =>
            recWrite hdr.agNum r (recFill data start m CELL_FULL)
            let hdr ← accountAlloc hdr (m * ALLOC_FANOUT)
            setCellHint hdr.agNum c
            return some (blkAddr hdr.agNum (c * CELL_BLOCKS + start * ALLOC_FANOUT), hdr)

def cellHint (ag : Nat) : Prog Work Nat := do
  return (((← get).fs.hints ag).map Prod.snd).getD 0

/-- Allocate `m` consecutive L1 cells (16 blocks each) inside one L0 cell. -/
def allocL1 (hdr : AgHeader) (m : Nat) : Prog Work (Nat × AgHeader) := do
  let cells := (rtGeometry hdr.length (← get).blocksize).1
  match ← allocL1Scan hdr m (wrapRange (← cellHint hdr.agNum) cells) with
  | some found => return found
  | none =>
      match ← findFree hdr (List.range cells) with
      | none => bail s!"AG {hdr.agNum}: out of space"
      | some c =>
          let (r, hdr) ← refineL0 hdr c
          let data ← recRead hdr.agNum r
          recWrite hdr.agNum r (recFill data 0 m CELL_FULL)
          let hdr ← accountAlloc hdr (m * ALLOC_FANOUT)
          return (blkAddr hdr.agNum (c * CELL_BLOCKS), hdr)

/-- The children `is` of the L0 record of cell `c`: an L2 record with a free run. -/
def allocL2Children (hdr : AgHeader) (n c : Nat) (l0rec : Bytes) :
    List Nat → Prog Work (Option (Nat × AgHeader))
  | [] => return none
  | i :: rest => do
      if recState l0rec i ≠ CELL_REFINED then allocL2Children hdr n c l0rec rest
      else
        let l1 := recRef l0rec i
        let l1rec ← recRead hdr.agNum l1
        match findRun l1rec n with
        | none => allocL2Children hdr n c l0rec rest
        | some start =>
            recWrite hdr.agNum l1 (recFill l1rec start n CELL_FULL)
            let hdr ← accountAlloc hdr n
            setCellHint hdr.agNum c
            return some (blkAddr hdr.agNum (c * CELL_BLOCKS + i * ALLOC_FANOUT + start), hdr)

/-- Pass 1: an existing L2 record with a free run. -/
def allocL2Scan (hdr : AgHeader) (n : Nat) : List Nat → Prog Work (Option (Nat × AgHeader))
  | [] => return none
  | c :: rest => do
      if (← rtState hdr c) ≠ CELL_REFINED then allocL2Scan hdr n rest
      else
        let l0 ← rtRef hdr c
        let l0rec ← recRead hdr.agNum l0
        match ← allocL2Children hdr n c l0rec (List.range ALLOC_FANOUT) with
        | some found => return some found
        | none => allocL2Scan hdr n rest

/-- Pass 2: refine a FREE L1 inside an existing refined L0. -/
def allocL2Refine (hdr : AgHeader) (n : Nat) : List Nat → Prog Work (Option (Nat × AgHeader))
  | [] => return none
  | c :: rest => do
      if (← rtState hdr c) ≠ CELL_REFINED then allocL2Refine hdr n rest
      else
        let l0 ← rtRef hdr c
        let l0rec ← recRead hdr.agNum l0
        match (List.range ALLOC_FANOUT).find? fun i => recState l0rec i == CELL_FREE with
        | none => allocL2Refine hdr n rest
        | some i =>
            let (l1, hdr) ← refineL1 hdr l0 i
            let l1rec ← recRead hdr.agNum l1
            recWrite hdr.agNum l1 (recFill l1rec 0 n CELL_FULL)
            let hdr ← accountAlloc hdr n
            setCellHint hdr.agNum c
            return some (blkAddr hdr.agNum (c * CELL_BLOCKS + i * ALLOC_FANOUT), hdr)

/-- Allocate `n` (1..=16) consecutive single blocks inside one L1 cell. -/
def allocL2 (hdr : AgHeader) (n : Nat) : Prog Work (Nat × AgHeader) := do
  let cells := (rtGeometry hdr.length (← get).blocksize).1
  let hint ← cellHint hdr.agNum
  match ← allocL2Scan hdr n (wrapRange hint cells) with
  | some found => return found
  | none =>
      match ← allocL2Refine hdr n (wrapRange hint cells) with
      | some found => return found
      | none =>
          -- pass 3: refine a fresh FREE L0, then its first L1
          match ← findFree hdr (List.range cells) with
          | none => bail s!"AG {hdr.agNum}: out of space"
          | some c =>
              let (l0, hdr) ← refineL0 hdr c
              let (l1, hdr) ← refineL1 hdr l0 0
              let l1rec ← recRead hdr.agNum l1
              recWrite hdr.agNum l1 (recFill l1rec 0 n CELL_FULL)
              let hdr ← accountAlloc hdr n
              return (blkAddr hdr.agNum (c * CELL_BLOCKS), hdr)

/-- The granule follows from the size. -/
def allocSized (hdr : AgHeader) (n : Nat) : Prog Work (Nat × AgHeader) :=
  if n ≥ CELL_BLOCKS then allocL0 hdr ((n + CELL_BLOCKS - 1) / CELL_BLOCKS)
  else if n > ALLOC_FANOUT then allocL1 hdr ((n + ALLOC_FANOUT - 1) / ALLOC_FANOUT)
  else allocL2 hdr n

/-- Allocate `n` contiguous blocks in `ag`. Returns the block address. -/
def allocExtent (ag n : Nat) : Prog Work Nat := do
  let hdr ← readAgHeaderTxn ag
  let (blk, hdr) ← allocSized hdr n
  putAgHeader hdr
  return blk

def allocBlock (ag : Nat) : Prog Work Nat := allocExtent ag 1

-- free and coarsen

def accountFree (hdr : AgHeader) (blocks : Nat) : Prog Work AgHeader := do
  let full ← subtract hdr.fullBlocks blocks
  let sbFull ← subtract (← get).fs.sb.fullBlocks blocks
  modify fun w => w.recount (w.fs.sb.freeBlocks + blocks) w.fs.sb.rsvdBlocks sbFull
  return { hdr with freeBlocks := hdr.freeBlocks + blocks, fullBlocks := full }

/-- Free the child at `l` of the refined cell's record `l0`; the number of blocks freed. -/
def freeChild (ag : Nat) (hdr : AgHeader) (l0 : Ref) (l : Nat) : Prog Work (Nat × AgHeader) := do
  let l0rec ← recRead ag l0
  let i := l % CELL_BLOCKS / ALLOC_FANOUT
  let st := recState l0rec i
  if st = CELL_FULL then
    if l % ALLOC_FANOUT ≠ 0 then bail "free_extent: misaligned free inside FULL L1 cell"
    else
      recWrite ag l0 (recStateSet l0rec i CELL_FREE)
      let hdr ← accountFree hdr ALLOC_FANOUT
      return (ALLOC_FANOUT, hdr)
  else if st = CELL_REFINED then
    let l1 := recRef l0rec i
    let l1rec ← recRead ag l1
    let j := l % ALLOC_FANOUT
    if recState l1rec j ≠ CELL_FULL then bail s!"free_extent: block {l} in AG {ag} not allocated"
    else
      let l1rec := recStateSet l1rec j CELL_FREE
      let hdr ← accountFree hdr 1
      if recAll l1rec CELL_FREE then
        -- coarsen: L1 cell back to FREE
        tblFreeRec ag l1
        recWrite ag l0 (recRefSet (recStateSet l0rec i CELL_FREE) i (0, 0))
        return (1, hdr)
      else
        recWrite ag l1 l1rec
        return (1, hdr)
  else bail s!"free_extent: L1 cell in state {st}"

/-- One granule at `l`; the number of blocks freed. -/
def freeGranule (ag : Nat) (hdr : AgHeader) (l : Nat) : Prog Work (Nat × AgHeader) := do
  let c := l / CELL_BLOCKS
  let st ← rtState hdr c
  if st = CELL_FULL then
    if l % CELL_BLOCKS ≠ 0 then bail "free_extent: misaligned free inside FULL cell"
    else
      rtStateSet hdr c CELL_FREE
      let hdr ← accountFree hdr CELL_BLOCKS
      return (CELL_BLOCKS, hdr)
  else if st = CELL_REFINED then
    let l0 ← rtRef hdr c
    let (freed, hdr) ← freeChild ag hdr l0 l
    -- coarsen: L0 cell back to FREE
    let l0rec ← recRead ag l0
    if recAll l0rec CELL_FREE then
      tblFreeRec ag l0
      rtStateSet hdr c CELL_FREE
      rtRefSet hdr c (0, 0)
      return (freed, hdr)
    else return (freed, hdr)
  else bail s!"free_extent: AG {ag} cell {c} in state {st}"

/-- `while cur < n`; every round frees at least one block, so `n` rounds are enough. -/
def freeLoop (ag l n : Nat) : Nat → Nat → AgHeader → Prog Work AgHeader
  | 0, _, hdr => return hdr
  | fuel + 1, cur, hdr => do
      if cur < n then
        let (freed, hdr) ← freeGranule ag hdr (l + cur)
        freeLoop ag l n fuel (cur + freed) hdr
      else return hdr

/-- Free `n` blocks starting at `blk`. Granularity is rediscovered from the on-disk states; empty
records coarsen away. -/
def freeExtent (blk n : Nat) : Prog Work Unit := do
  let (ag, l) := blkSplit blk
  let hdr ← readAgHeaderTxn ag
  let hdr ← freeLoop ag l n n 0 hdr
  putAgHeader hdr

-- inodes

/-- The L0 and L1 records and the child index for an L2 block. -/
def slotL1Of (hdr : AgHeader) (l : Nat) : Prog Work (Option (Ref × Ref × Nat)) := do
  let c := l / CELL_BLOCKS
  if (← rtState hdr c) ≠ CELL_REFINED then return none
  else
    let l0 ← rtRef hdr c
    let l0rec ← recRead hdr.agNum l0
    let i := l % CELL_BLOCKS / ALLOC_FANOUT
    if recState l0rec i ≠ CELL_REFINED then return none
    else return some (l0, recRef l0rec i, l % ALLOC_FANOUT)

/-- The slot record of a slot-refined block, with its L1 record and child index. -/
def slotRecAt (hdr : AgHeader) (l : Nat) : Prog Work (Option (Ref × Ref × Nat)) := do
  let c := l / CELL_BLOCKS
  if (← rtState hdr c) ≠ CELL_REFINED then return none
  else
    let l0 ← rtRef hdr c
    let l0rec ← recRead hdr.agNum l0
    let i := l % CELL_BLOCKS / ALLOC_FANOUT
    if recState l0rec i ≠ CELL_REFINED then return none
    else
      let l1 := recRef l0rec i
      let l1rec ← recRead hdr.agNum l1
      let j := l % ALLOC_FANOUT
      if recState l1rec j ≠ CELL_REFINED then return none
      else return some (recRef l1rec j, l1, j)

def slotsPerBlock (sb : Superblock) : Nat := sb.blocksize / sb.inodesize

/-- `local * slots + s` on `u32`. -/
def slotNumber (l slots s : Nat) : Prog Work Nat :=
  if l * slots ≥ 2 ^ 32 then panicWith "attempt to multiply with overflow"
  else if l * slots + s ≥ 2 ^ 32 then panicWith "attempt to add with overflow"
  else return l * slots + s

/-- A new slot block: take an L2 block, then refine it one level further. -/
def newSlotBlock (ag slots : Nat) : Prog Work Nat := do
  let blk ← allocExtent ag 1
  let l := (blkSplit blk).2
  txnWrite blk zeros
  let hdr ← readAgHeaderTxn ag
  let (l3, hdr) ← tblAllocRec hdr
  match ← slotL1Of hdr l with
  | none => bail s!"AG {ag}: freshly allocated block has no L1 record"
  | some (_, l1, j) =>
      let l1rec ← recRead ag l1
      recWrite ag l1 (recRefSet (recStateSet l1rec j CELL_REFINED) j l3)
      recWrite ag l3 (recStateSet zeros 0 CELL_FULL)
      putAgHeader { hdr with inoHint := l }
      let slot ← slotNumber l slots 0
      return inoAddr ag slot

/-- A free slot in the current slot block. -/
def hintedSlot (hdr : AgHeader) (ag slots : Nat) : Prog Work (Option Nat) := do
  if hdr.inoHint = 0 then return none
  else
    match ← slotRecAt hdr hdr.inoHint with
    | none => return none
    | some (l3, _, _) =>
        let l3rec ← recRead ag l3
        match (List.range slots).find? fun s => recState l3rec s == CELL_FREE with
        | none => return none
        | some s =>
            recWrite ag l3 (recStateSet l3rec s CELL_FULL)
            let slot ← slotNumber hdr.inoHint slots s
            return some (inoAddr ag slot)

/-- Allocate an inode slot, journaled. -/
def allocInode (ag : Nat) : Prog Work Nat := do
  let hdr ← readAgHeaderTxn ag
  let slots := slotsPerBlock (← get).fs.sb
  match ← hintedSlot hdr ag slots with
  | some ino => return ino
  | none => newSlotBlock ag slots

/-- Release an inode slot. A slot block whose slots all free coarsens back into an ordinary free L2
cell. -/
def freeInode (ino : Nat) : Prog Work Unit := do
  let (ag, slot) := blkSplit ino
  let w ← get
  let isz := w.fs.sb.inodesize
  let slots := slotsPerBlock w.fs.sb
  let l := slot / slots
  let blk := blkAddr ag l
  let buf ← txnRead blk
  txnWrite blk (copyAt buf (slot % slots * isz) isz zeros)
  let hdr ← readAgHeaderTxn ag
  match ← slotRecAt hdr l with
  | none => bail s!"inode {hex ino}: containing block is not slot-refined"
  | some (l3, l1, j) =>
      let l3rec ← recRead ag l3
      let l3rec := recStateSet l3rec (slot % slots) CELL_FREE
      if recAll l3rec CELL_FREE then
        -- the block goes back to the allocator as a plain L2 free
        tblFreeRec ag l3
        let l1rec ← recRead ag l1
        recWrite ag l1 (recRefSet (recStateSet l1rec j CELL_FULL) j (0, 0))
        freeExtent blk 1
        let hdr ← readAgHeaderTxn ag
        if hdr.inoHint = l then putAgHeader { hdr with inoHint := 0 }
        else return ()
      else
        recWrite ag l3 l3rec
        if hdr.inoHint ≠ l then putAgHeader { hdr with inoHint := l }
        else return ()

/-- Allocation granule (in blocks) of the run starting at `blk`. -/
def granuleAt (blk : Nat) : Prog Work Nat := do
  let (ag, l) := blkSplit blk
  let hdr ← readAgHeaderTxn ag
  let st ← rtState hdr (l / CELL_BLOCKS)
  if st = CELL_FULL then return CELL_BLOCKS
  else if st = CELL_REFINED then
    let l0 ← rtRef hdr (l / CELL_BLOCKS)
    let l0rec ← recRead ag l0
    let st := recState l0rec (l % CELL_BLOCKS / ALLOC_FANOUT)
    if st = CELL_FULL then return ALLOC_FANOUT
    else if st = CELL_REFINED then return 1
    else bail s!"granule_at: block {hex blk} in L1 state {st}"
  else bail s!"granule_at: block {hex blk} in cell state {st}"

end Work

end FiveFs
