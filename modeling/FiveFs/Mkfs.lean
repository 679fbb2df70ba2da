import FiveFs.Alloc
import FiveFs.Inode
import FiveFs.Resize

/-! Create a filesystem. AG 0 reserves a head for the superblock, AG header, allocator root table,
AG map copies, journal and optional kernel region. The first two cells after the head are the
initial allocator table arena and the inode cell, whose first block is slot-refined and holds the
root inode in slot 0 (and the kernel inode in slot 1). -/

namespace FiveFs

open Buffer

structure MkfsOpts where
  /-- Image size; none = use the existing size. -/
  size : Option Nat := none
  blocksize : Nat
  inodesize : Nat
  /-- Journal size in bytes; none = default. -/
  journal : Option Nat := none
  /-- UTF-16 units. -/
  label : List Nat := []
  /-- Length and contents of the kernel image. -/
  kernel : Option (Nat × Bytes) := none

structure MkfsSummary where
  size : Nat
  blocks : Nat
  ags : Nat
  journalBlocks : Nat
  rootIno : Nat
  freeBlocks : Nat
  kernelOffset : Nat

def MAX_AG_BYTES : Nat := 64 <<< 30
def AGMAP_BYTES : Nat := 64 <<< 10

def divCeil (a b : Nat) : Nat := (a + b - 1) / b

/-- Split `remaining` blocks into contiguous AGs, avoiding a runt that cannot hold its own metadata;
every round takes at least one block, so `remaining` rounds are enough. -/
def agLengths (maxAgBlocks : Nat) : Nat → Nat → List Nat
  | 0, _ => []
  | fuel + 1, remaining =>
      if remaining = 0 then []
      else
        let len := min remaining maxAgBlocks
        if remaining - len > 0 ∧ remaining - len < 1024 then [remaining % 2 ^ 32]
        else len % 2 ^ 32 :: agLengths maxAgBlocks fuel (remaining - len)

/-- What the loop over the AGs accumulates. -/
structure MkfsState where
  sb : Superblock
  entries : List AgEntry := []
  devOff : Nat := 0
  totalFree : Nat := 0
  totalRsvd : Nat := 0
  totalFull : Nat := 0
  rootIno : Nat := 0

/-- What is fixed before the loop. -/
structure MkfsPlan where
  opts : MkfsOpts
  uuid : Nat
  now : Ts
  size : Nat

namespace MkfsPlan

def bs (p : MkfsPlan) : Nat := p.opts.blocksize
def slots (p : MkfsPlan) : Nat := p.opts.blocksize / p.opts.inodesize
def totalBlocks (p : MkfsPlan) : Nat := p.size / p.bs
def maxAgBlocks (p : MkfsPlan) : Nat := MAX_AG_BYTES / p.bs

def journalBlocks (p : MkfsPlan) : Nat :=
  divCeil (p.opts.journal.getD (min (128 <<< 20) (max (p.size / 16) (4 <<< 20)))) p.bs

def agmapBlocks (p : MkfsPlan) : Nat := divCeil AGMAP_BYTES p.bs
def kernelLen (p : MkfsPlan) : Nat := (p.opts.kernel.map Prod.fst).getD 0
def kernelBlocks (p : MkfsPlan) : Nat := divCeil p.kernelLen p.bs
def lengths (p : MkfsPlan) : List Nat := agLengths p.maxAgBlocks p.totalBlocks p.totalBlocks

/-- `for (i, u) in label.encode_utf16().take(16)` -/
def diskName (p : MkfsPlan) : List Nat :=
  (List.range 16).map fun i => (p.opts.label.take 16).getD i 0

def proto (p : MkfsPlan) : Superblock := {
  blocksize := p.opts.blocksize
  inodesize := p.opts.inodesize
  uuid := p.uuid
  diskName := p.diskName
  nextAg := p.lengths.length
  agmapLength := AGMAP_BYTES
  journalLength := p.journalBlocks
  gen := 1
  journalSeq := 1
  journalHead := 0 }

end MkfsPlan

namespace Mkfs

open Prog

def pwrite (off n : Nat) (buf : Bytes) : Prog Device Unit := modify fun d => d.pwrite off n buf

/-- A `-` on unsigned integers. -/
def subtract (a b : Nat) : Prog Device Nat :=
  if b ≤ a then return a - b else panicWith "attempt to subtract with overflow"

/-- `for b in start..start + n { pwrite(zero_block, dev_off + b * bs) }` -/
def zeroBlocks (devOff bs : Nat) : List Nat → Prog Device Unit
  | [] => return ()
  | b :: rest => do
      pwrite (devOff + b * bs) bs zeros
      zeroBlocks devOff bs rest

def hdrBlock (ag : Nat) : Nat := if ag = 0 then 1 else 0
def allocRoot (ag : Nat) : Nat := hdrBlock ag + 1

/-- The fixed metadata of AG 0 past its root table: AG map copies, journal, kernel region. The first
block past it, the first block of the kernel, and the superblock that says so. -/
def head0 (p : MkfsPlan) (next devOff : Nat) (sb : Superblock) : Nat × Nat × Superblock :=
  let agmapOffset := devOff + next * p.bs
  let next := next + 2 * p.agmapBlocks % 2 ^ 32
  let sb := { sb with agmapOffset, journalStart := blkAddr 0 next }
  let next := next + p.journalBlocks % 2 ^ 32
  if p.kernelBlocks > 0 then
    let kernelOffset := next * p.bs
    (next + p.kernelBlocks % 2 ^ 32, next,
      { sb with kernelOffset, kernelEnd := kernelOffset + p.kernelLen })
  else (next, 0, sb)

/-- `for c in 0..n { cell_set(table, c, CELL_RSVD) }`, then the partial tail cell, and in AG 0 the
cell of the backup superblock; with the number of reserved cells. -/
def reservedTable (ag agLen cells headCells : Nat) : Bytes × Nat :=
  let (table, rsvd) := Gofs.newAgTable agLen cells headCells
  if ag = 0 ∧ cellGet table (cells - 1) = CELL_FREE then
    (cellSet table (cells - 1) CELL_RSVD, rsvd + 1)
  else (table, rsvd)

/-- The arena cell and the inode cell in the root table of AG 0. -/
def inodeCells (table : Bytes) (cells cArena : Nat) : Bytes :=
  let table := cellSet table cArena CELL_RSVD
  let table := cellSet table (cArena + 1) CELL_REFINED
  -- to record 0 of the first arena block
  let roff := rtRefOff cells (cArena + 1)
  putU16 (putU32 table roff (cArena * CELL_BLOCKS)) (roff + 4) 0

/-- The first arena block: the L0, L1 and slot records of the inode block. -/
def arenaTable [Crc32c] (bs tblArena : Nat) (kernel : Bool) : Bytes :=
  let tbl := putU32 (putU32 zeros 0 ALLOC_MAGIC) 16 0b111
  let tbl := copyAt tbl REC_SIZE REC_SIZE (recRefSet (recStateSet zeros 0 CELL_REFINED) 0
  (tblArena, 1))
  let tbl := copyAt tbl (2 * REC_SIZE) REC_SIZE
    (recRefSet (recStateSet zeros 0 CELL_REFINED) 0 (tblArena, 2))
  let slots := recStateSet zeros 0 CELL_FULL
  let tbl := copyAt tbl (3 * REC_SIZE) REC_SIZE
      (if kernel then recStateSet slots 1 CELL_FULL else slots)
  putU32 tbl 4 (csum tbl bs 4)

/-- The table of an AG is written in whole blocks. -/
def tableBlocks (devOff bs root : Nat) (table : Bytes) : List Nat → Prog Device Unit
  | [] => return ()
  | i :: rest => do
      pwrite (devOff + (root + i) * bs) bs (clip bs (drop (i * bs) table))
      tableBlocks devOff bs root table rest

/-- The metadata blocks of an AG: zero first, then content. -/
def metadata [Crc32c] (p : MkfsPlan) (ag next devOff rtBlocks : Nat) (hdr : AgHeader)
    (table : Bytes) :
    Prog Device Unit := do
  zeroBlocks devOff p.bs (List.range next)
  pwrite (devOff + hdrBlock ag * p.bs) p.bs (clip AGHDR_SIZE hdr.toBytes)
  tableBlocks devOff p.bs (allocRoot ag) table (List.range rtBlocks)

def rootInode (now : Ts) : Inode := {
  format := FMT_EMPTY
  mode := 0o040755
  nlink := 2
  atime := now
  mtime := now
  ctime := now
  btime := now }

def kernelInode (p : MkfsPlan) : Inode := {
  format := FMT_EXTENT
  mode := 0o100644
  nlink := 1
  flags := INODE_FLAG_IMMUTABLE
  size := p.kernelLen
  nblocks := p.kernelBlocks
  atime := p.now
  mtime := p.now
  ctime := p.now
  btime := p.now }

/-- `kernel.bin` -/
def kernelName : List Nat := [107, 101, 114, 110, 101, 108, 46, 98, 105, 110]

/-- Kernel data and inode; the root directory with its entry. -/
def kernelFile [Crc32c] (p : MkfsPlan) (kernelStart devOff inoHint rootIno : Nat) (root : Inode) :
    Option (Nat × Bytes) → Prog Device Inode
  | none => return root
  | some (len, kernel) => do
      -- the tail block is padded with zeros
      pwrite (devOff + kernelStart * p.bs) (p.kernelBlocks * p.bs) (clip len kernel)
      let payload ← ofResult (extentsStore [⟨0, blkAddr 0 kernelStart, p.kernelBlocks % 2 ^ 32⟩])
      let ki := { kernelInode p with payload }
      pwrite (devOff + inoHint * p.bs + p.opts.inodesize) INODE_SIZE (clip INODE_SIZE ki.toBytes)
      let payload ← ofResult (dirAppend root.payload ⟨rootIno + 1, DT_FILE, kernelName⟩)
      return { root with format := FMT_EMBED, payload }

def entryOf (ag agLen devOff : Nat) : AgEntry := {
  flags := AGF_PRESENT ||| if ag = 0 then AGF_IMMOVABLE else 0
  length := agLen
  segs := [⟨0, agLen, devOff⟩] }

/-- The loop body for AG 0. -/
def firstAg [Crc32c] (p : MkfsPlan) (agLen : Nat) (m : MkfsState) : Prog Device MkfsState := do
  let (cells, rtBlocks) := rtGeometry agLen p.bs
  let (next, kernelStart, sb) := head0 p (allocRoot 0 + rtBlocks) m.devOff m.sb
  if next + 3 * CELL_BLOCKS ≥ agLen then
    bail "device too small for journal/kernel + metadata; use --journal-size"
  else
    let headCells := divCeil next CELL_BLOCKS
    let (table, rsvdCells) := reservedTable 0 agLen cells headCells
    let cArena := headCells
    if cArena + 2 ≥ cells then bail "AG 0 too small for inode metadata"
    else
      let table := inodeCells table cells cArena
      let tblArena := cArena * CELL_BLOCKS
      let inoHint := (cArena + 1) * CELL_BLOCKS
      pwrite (m.devOff + tblArena * p.bs) p.bs (arenaTable p.bs tblArena (p.kernelBlocks > 0))
      let freeCells ← subtract cells (rsvdCells + 2)
      let freeBlocks := freeCells * CELL_BLOCKS + (CELL_BLOCKS - 1)
      let rsvdBlocks ← subtract agLen (freeBlocks + 1)
      let hdr : AgHeader := {
        agNum := 0
        gen := 1
        length := agLen
        freeBlocks
        rsvdBlocks
        fullBlocks := 1
        allocRoot := allocRoot 0
        inoHint
        dataHint := headCells * CELL_BLOCKS
        tblArena }
      metadata p 0 next m.devOff rtBlocks hdr table
      let rootIno := inoAddr 0 (inoHint * p.slots)
      pwrite (m.devOff + inoHint * p.bs) p.bs zeros
      let root ← kernelFile p kernelStart m.devOff inoHint rootIno (rootInode p.now) p.opts.kernel
      pwrite (m.devOff + inoHint * p.bs) INODE_SIZE (clip INODE_SIZE root.toBytes)
      return {
        sb
        entries := m.entries ++ [entryOf 0 agLen m.devOff]
        devOff := m.devOff + agLen * p.bs
        totalFree := m.totalFree + freeBlocks
        totalRsvd := m.totalRsvd + rsvdBlocks
        totalFull := m.totalFull + 1
        rootIno }

/-- The loop body for the other AGs. -/
def nextAg [Crc32c] (p : MkfsPlan) (ag agLen : Nat) (m : MkfsState) : Prog Device MkfsState := do
  let (cells, rtBlocks) := rtGeometry agLen p.bs
  let next := allocRoot ag + rtBlocks
  let headCells := divCeil next CELL_BLOCKS
  let (table, rsvdCells) := reservedTable ag agLen cells headCells
  let freeCells ← subtract cells rsvdCells
  let freeBlocks := freeCells * CELL_BLOCKS
  let rsvdBlocks ← subtract agLen freeBlocks
  let hdr : AgHeader := {
    agNum := ag
    gen := 1
    length := agLen
    freeBlocks
    rsvdBlocks
    fullBlocks := 0
    allocRoot := allocRoot ag
    inoHint := 0
    dataHint := headCells * CELL_BLOCKS
    tblArena := 0 }
  metadata p ag next m.devOff rtBlocks hdr table
  return { m with
    entries := m.entries ++ [entryOf ag agLen m.devOff]
    devOff := m.devOff + agLen * p.bs
    totalFree := m.totalFree + freeBlocks
    totalRsvd := m.totalRsvd + rsvdBlocks }

def agBody [Crc32c] (p : MkfsPlan) (ag agLen : Nat) (m : MkfsState) : Prog Device MkfsState :=
  if ag = 0 then firstAg p agLen m else nextAg p ag agLen m

/-- `for (agi, ag_len) in ag_lengths.iter().enumerate()` -/
def agLoop [Crc32c] (p : MkfsPlan) : List Nat → Nat → MkfsState → Prog Device MkfsState
  | [], _, m => return m
  | agLen :: rest, ag, m => do
      let m ← agBody p ag agLen m
      agLoop p rest (ag + 1) m

/-- AG map copies, journal and superblock copies. -/
def finish [Crc32c] (p : MkfsPlan) (m : MkfsState) : Prog Device MkfsSummary := do
  let map : AgMap := { gen := 1, entries := m.entries }
  let mapBytes ← ofResult (map.toBytes AGMAP_BYTES)
  pwrite m.sb.agmapOffset AGMAP_BYTES mapBytes
  pwrite (m.sb.agmapOffset + AGMAP_BYTES) AGMAP_BYTES mapBytes
  -- zeroed = empty
  zeroBlocks 0 p.bs (List.range' (m.sb.journalStart % 2 ^ 32) p.journalBlocks)
  let sb := { m.sb with
    rootIno := m.rootIno
    freeBlocks := m.totalFree
    rsvdBlocks := m.totalRsvd
    fullBlocks := m.totalFull }
  let sbBytes := sb.toBytes
  pwrite 0 SB_SIZE sbBytes
  let len0 ← subtract (p.lengths.headD 0) 1
  pwrite (len0 * p.bs) SB_SIZE sbBytes
  modify Device.sync
  return {
    size := p.size
    blocks := p.totalBlocks
    ags := p.lengths.length
    journalBlocks := p.journalBlocks
    rootIno := m.rootIno
    freeBlocks := m.totalFree
    kernelOffset := sb.kernelOffset }

/-- `Device::create` at the asked size, or `Device::open`. -/
def openDevice (opts : MkfsOpts) : Prog Device Unit := modify fun d =>
  match opts.size with
  | some s =>
      let size := s - s % opts.blocksize
      if d.fileLen ≠ size then d.reopen.setLen size else d.reopen
  | none => d.reopen

def mkfs [Crc32c] (opts : MkfsOpts) (uuid : Nat) (now : Ts) : Prog Device MkfsSummary := do
  if !Superblock.isPowerOfTwo opts.blocksize || opts.blocksize < 2048 then
    bail "blocksize must be a power of two >= 2048"
  else if !Superblock.isPowerOfTwo opts.inodesize || opts.inodesize < 128 ||
      opts.inodesize > opts.blocksize then
    bail "inodesize must be a power of two, 128 <= inodesize <= blocksize"
  else if opts.blocksize / opts.inodesize > ALLOC_FANOUT then
    bail s!"blocksize/inodesize must be <= {ALLOC_FANOUT} (slot record limit)"
  else
    openDevice opts
    let d ← get
    let p : MkfsPlan := { opts, uuid, now, size := d.size - d.size % opts.blocksize }
    if p.size < 8 <<< 20 then bail s!"device too small ({p.size} bytes); minimum 8 MiB"
    else
      let m ← agLoop p p.lengths 0 { sb := p.proto }
      finish p m

end Mkfs

end FiveFs
