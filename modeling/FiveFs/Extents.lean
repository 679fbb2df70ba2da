import FiveFs.Alloc
import FiveFs.Inode

/-! File data mapping, inline extents and extent refinement trees, and reading a file through it. -/

namespace FiveFs

open Buffer Prog

/-- The child states follow the node header, and the child records the states. -/
def NODE_STATES : Nat := 24
def NODE_CHILDREN : Nat := NODE_STATES + 16
def CHILD_REC : Nat := 16

/-- A mapping result starting at some file block. -/
inductive Map
  | hole (n : Nat)
  | run (blk len : Nat)
  deriving DecidableEq, Repr

def U64_MAX : Nat := 2 ^ 64 - 1

/-- A `+` of two `u64`. -/
def addU64 (a b : Nat) : Except Err Nat :=
  if a + b ≤ U64_MAX then .ok (a + b) else .error (.panic "attempt to add with overflow")

/-- Blocks covered by one child at `level`. -/
def cov (level : Nat) : Except Err Nat :=
  if NODE_FANOUT ^ level ≤ U64_MAX then .ok (NODE_FANOUT ^ level)
  else .error (.panic "attempt to multiply with overflow")

/-- The inline extents from `off` on, for at most `n` of them. -/
def extentsParseFrom (payload : Bytes) : Nat → Nat → List Extent
  | 0, _ => []
  | n + 1, off =>
      if getU32 payload (off + 16) = 0 then []
      else
        ⟨getU64 payload off, getU64 payload (off + 8), getU32 payload (off + 16)⟩ ::
          extentsParseFrom payload n (off + EXTENT_REC)

def extentsParse (payload : Bytes) : List Extent := extentsParseFrom payload MAX_INLINE_EXTENTS 0

def rootLevel (p : Bytes) : Nat := getBE p 0 1
def rootState (p : Bytes) (i : Nat) : Nat := cellGet (drop 2 p) i
def rootChild (p : Bytes) (i : Nat) : Nat × Nat :=
  (getU32 p (8 + 16 * i), getU64 p (8 + 16 * i + 8))

def nodeLevel (b : Bytes) : Nat := getBE b 16 1
def nodeState (b : Bytes) (i : Nat) : Nat := cellGet (drop NODE_STATES b) i
def nodeChild (b : Bytes) (i : Nat) : Nat × Nat :=
  (getU32 b (NODE_CHILDREN + CHILD_REC * i), getU64 b (NODE_CHILDREN + CHILD_REC * i + 8))

/-- Where in a FULL child of `c` blocks, the first `blocks` of them mapped. -/
def runInChild (blocks addr rel c : Nat) : Except Err Map :=
  if rel < blocks then (addU64 addr rel).map fun blk =>
  .run blk (blocks - rel) else .ok (.hole (c - rel))

/-- The scan over the inline extents; `next` is the first one seen behind the block. A file block
times the block size is a byte offset, so the end of an extent that starts at or before one does not
overflow. -/
def extentLookup (fblock : Nat) : List Extent → Nat → Except Err Map
  | [], next => .ok (.hole (next - fblock))
  | e :: rest, next =>
      if fblock ≥ e.fileBlock ∧ fblock < e.fileBlock + e.blocks then
        (addU64 e.blk (fblock - e.fileBlock)).map fun blk =>
            .run blk (e.blocks - (fblock - e.fileBlock))
      else extentLookup fblock rest (if e.fileBlock > fblock then min next e.fileBlock else next)

namespace Work

variable [Crc32c]

def nodeRead (w : Work) (addr : Nat) : Except Err Bytes := do
  let buf ← (txnRead addr w).1
  if getU32 buf 0 ≠ TREE_MAGIC then .error (.bail s!"block {hex addr}: not an extent tree node")
  else if getU32 buf 4 ≠ csum buf w.blocksize 4 then
    .error (.bail s!"block {hex addr}: tree node checksum mismatch")
  else .ok buf

/-- The descent from a node; `depth` is what the stack holds. -/
def nodeLookup (w : Work) : Nat → Nat → Nat → Except Err Map
  | 0, _, _ => .error (.panic "stack overflow")
  | depth + 1, addr, rel => do
      let buf ← w.nodeRead addr
      let c ← cov (nodeLevel buf)
      let i := rel / c
      if i ≥ NODE_FANOUT then .error (.panic "index out of bounds")
      else if nodeState buf i = CELL_FREE then .ok (.hole (c - rel % c))
      else if nodeState buf i = CELL_FULL then
        runInChild (nodeChild buf i).1 (nodeChild buf i).2 (rel % c) c
      else if nodeState buf i = CELL_REFINED then w.nodeLookup depth (nodeChild buf i).2 (rel % c)
      else .error (.bail s!"bad node child state {nodeState buf i}")

/-- Resolve `fblock` in a file's mapping. -/
def mapLookup (w : Work) (depth : Nat) (inode : Inode) (fblock : Nat) : Except Err Map :=
  if inode.format = FMT_EMPTY ∨ inode.format = FMT_EMBED then .ok (.hole U64_MAX)
  else if inode.format = FMT_EXTENT then extentLookup fblock (extentsParse inode.payload) U64_MAX
  else if inode.format = FMT_TREE then do
    let c ← cov (rootLevel inode.payload)
    let i := fblock / c
    if i ≥ ROOT_FANOUT then .ok (.hole U64_MAX)
    else if rootState inode.payload i = CELL_FREE then .ok (.hole (c - fblock % c))
    else if rootState inode.payload i = CELL_FULL then
      runInChild (rootChild inode.payload i).1 (rootChild inode.payload i).2 (fblock % c) c
    else if rootState inode.payload i = CELL_REFINED then
      w.nodeLookup depth (rootChild inode.payload i).2 (fblock % c)
    else .error (.bail s!"bad root child state {rootState inode.payload i}")
  else .error (.bail s!"format {inode.format}: no block mapping")

/-- The runs that map `[pos, limit)`, each with its first file block, its first block, its length
and whether it was allocated just now. -/
def collectRuns (w : Work) (depth : Nat) (inode : Inode) (fresh : List (Nat × Nat)) (limit : Nat) :
    Nat → Nat → Except Err (List (Nat × Nat × Nat × Bool))
  | 0, _ => .error (.panic "collect_runs does not end")
  | fuel + 1, pos =>
      if pos < limit then do
        match ← w.mapLookup depth inode pos with
        | .run blk len =>
            let take := min len (limit - pos)
            let isFresh := fresh.any fun f => decide (pos ≥ f.1) && decide (pos < f.1 + f.2)
            let rest ← w.collectRuns depth inode fresh limit fuel (pos + take)
            .ok ((pos, blk, take, isFresh) :: rest)
        | .hole _ => .error (.bail s!"collect_runs: hole at {pos} after ensure")
      else .ok []

/-- Zero mapped bytes in `[pos, limit)`. -/
def zeroTail (depth : Nat) (inode : Inode) (limit : Nat) : Nat → Nat → Prog Work Unit
  | 0, _ => panicWith "zero_tail does not end"
  | fuel + 1, pos => do
      if pos < limit then
        let w ← get
        let bs := w.blocksize
        let inBlk := pos % bs
        match ← ofExcept (w.mapLookup depth inode (pos / bs)) with
        | .run blk _ =>
            let phys ← onFs (Gofs.resolve blk)
            let n := min (bs - inBlk) (limit - pos)
            onFs (Gofs.pwrite (phys + inBlk) n zeros)
            zeroTail depth inode limit fuel (pos + n)
        | .hole hl =>
            zeroTail depth inode limit fuel (min (pos + max (min (hl * bs) U64_MAX - inBlk) 1)
                U64_MAX)

end Work

namespace Gofs

variable [Crc32c]

def mapLookup (g : Gofs) (depth : Nat) (inode : Inode) (fblock : Nat) : Except Err Map :=
  Work.mapLookup { fs := g } depth inode fblock

/-- The read loop from `pos` on: a run is resolved at its first block and read as one piece. Every
round advances, so as many rounds as bytes are enough. -/
def readRuns (g : Gofs) (depth : Nat) (inode : Inode) (offset limit : Nat) : Nat → Nat → Bytes →
    Except Err Bytes
  | 0, _, out => .ok out
  | fuel + 1, pos, out =>
      if pos < limit then do
        let bs := g.sb.blocksize
        let fb := pos / bs
        let inBlk := pos % bs
        match ← g.mapLookup depth inode fb with
        | .run blk rl =>
            let take := min (rl * bs - inBlk) (limit - pos)
            let phys ← (resolve blk g).1
            let buf ← (pread (phys + inBlk) take g).1
            g.readRuns depth inode offset limit fuel (pos + take)
                (copyAt out (pos - offset) take buf)
        | .hole hl =>
            let skip := max (min (min (hl * bs) U64_MAX - inBlk) (limit - pos)) 1
            g.readRuns depth inode offset limit fuel (pos + skip) out
      else .ok out

/-- The bytes read, with their number. -/
def readInodeData (g : Gofs) (depth : Nat) (inode : Inode) (offset len : Nat) :
    Except Err (Nat × Bytes) :=
  if offset ≥ inode.size then .ok (0, zeros)
  else
    let len := min len (inode.size - offset)
    if inode.format = FMT_EMPTY then .ok (len, zeros)
    else if inode.format = FMT_EMBED then
      if offset + len ≤ INODE_PAYLOAD then .ok (len, clip len (drop offset inode.payload))
      else .error (.panic "range end index out of range for slice")
    else if inode.format = FMT_EXTENT ∨ inode.format = FMT_TREE then do
      let out ← g.readRuns depth inode offset (offset + len) len offset zeros
      .ok (len, out)
    else .error (.bail s!"file format {inode.format} unsupported")

end Gofs

end FiveFs
