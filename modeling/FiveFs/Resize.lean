import FiveFs.Journal

/-! Online resize primitives: grow, wholesale AG relocation, retiring empty AGs, and tail shrink.
All of these touch only the AG map and superblock, never file metadata. -/

namespace FiveFs

open Buffer

/-- End of the physical region of a segment. -/
def AgSegment.devEnd (s : AgSegment) (bs : Nat) : Nat := s.devOffset + s.blocks * bs

def AgEntry.present (e : AgEntry) : Bool := e.flags &&& AGF_PRESENT ≠ 0

def AgEntry.immovable (e : AgEntry) : Bool := e.flags &&& AGF_IMMOVABLE ≠ 0

namespace AgMap

/-- All segments, in entry order. -/
def segs (m : AgMap) : List AgSegment := m.entries.flatMap AgEntry.segs

def mappedEnd (m : AgMap) (bs : Nat) : Nat := (m.segs.map fun s => s.devEnd bs).foldl max 0

def AgEntry.hits (e : AgEntry) (bs off len : Nat) : Bool :=
  e.segs.any fun s => off < s.devEnd bs && s.devOffset < off + len

def overlapsExcluding (m : AgMap) (bs off len skipAg : Nat) : Bool :=
  m.entries.zipIdx.any fun (e, i) => i ≠ skipAg && AgEntry.hits e bs off len

def overlaps (m : AgMap) (bs off len : Nat) : Bool := m.overlapsExcluding bs off len (2 ^ 32 - 1)

/-- The gap scan over sorted regions, from `cursor` on. -/
def gapFrom (bytes limit : Nat) : List (Nat × Nat) → Nat → Option Nat
  | [], cursor => if limit - cursor ≥ bytes then some cursor else none
  | (s0, s1) :: rest, cursor =>
      if s0 > cursor ∧ min s0 limit - cursor ≥ bytes then some cursor
      else gapFrom bytes limit rest (max cursor s1)

def pairLe (a b : Nat × Nat) : Bool := a.1 < b.1 || (a.1 == b.1 && a.2 ≤ b.2)

/-- Find a block-aligned unmapped gap of `bytes` ending at or before `limit`. -/
def findGap (m : AgMap) (bs bytes limit : Nat) : Option Nat :=
  gapFrom bytes limit ((m.segs.map fun s => (s.devOffset, s.devEnd bs)).mergeSort pairLe) 0

end AgMap

/-- `for c in 0..n { cell_set(table, c, CELL_RSVD) }` -/
def reserveCells (table : Bytes) (n : Nat) : Bytes :=
  (List.range n).foldl (fun t c => cellSet t c CELL_RSVD) table

namespace Gofs

open Prog

/-- A `-=` on an unsigned counter. -/
def subtract (a b : Nat) : Prog Gofs Nat :=
  if b ≤ a then return a - b else panicWith "attempt to subtract with overflow"

/-- A `+=` on an unsigned counter of `width` bits. -/
def increase (width a b : Nat) : Prog Gofs Nat :=
  if a + b < 2 ^ width then return a + b else panicWith "attempt to add with overflow"

/-- Persist the AG map, both copies. -/
def writeAgmap [Crc32c] : Prog Gofs Unit := do
  let gen ← increase 64 (← get).map.gen 1
  modify fun g => { g with map := { g.map with gen } }
  let g ← get
  let bytes ← ofResult (g.map.toBytes g.sb.agmapLength)
  pwrite g.sb.agmapOffset g.sb.agmapLength bytes
  pwrite (g.sb.agmapOffset + g.sb.agmapLength) g.sb.agmapLength bytes

/-- Where every resize ends: the changed map and superblock are stored. -/
def persistMap [Crc32c] : Prog Gofs Unit := do
  writeAgmap
  writeSuperblock
  sync

def readAgHeader [Crc32c] (ag : Nat) : Prog Gofs AgHeader := do
  let buf ← readBlock (blkAddr ag (if ag = 0 then 1 else 0))
  match AgHeader.parse buf with
  | .ok hdr => return hdr
  | .error e => bail s!"AG {ag}: {e}"

/-- The root table of a new AG, and the number of cells it reserves: the metadata and a partial
tail. -/
def newAgTable (agLen cells headCells : Nat) : Bytes × Nat :=
  let table := reserveCells zeros headCells
  if agLen % CELL_BLOCKS ≠ 0 ∧ cellGet table (cells - 1) = CELL_FREE then
    (cellSet table (cells - 1) CELL_RSVD, headCells + 1)
  else (table, headCells)

/-- Add an AG covering `[devOffset, devOffset + bytes)`. Returns the new AG id. -/
def addAg [Crc32c] (devOffset bytes : Nat) : Prog Gofs Nat := do
  let g ← get
  let bs := g.sb.blocksize
  let agLen := bytes / bs % 2 ^ 32
  if devOffset % bs ≠ 0 then bail "AG offset must be block aligned"
  else if agLen < 1024 then bail s!"AG too small ({agLen} blocks; minimum 1024)"
  else if g.map.overlaps bs devOffset bytes then bail "region overlaps an existing AG"
  else
    let ag := g.sb.nextAg
    let (cells, rtBlocks) := rtGeometry agLen bs
    let allocRoot := 1
    let headCells := (allocRoot + rtBlocks + CELL_BLOCKS - 1) / CELL_BLOCKS
    let (table, rsvdCells) := newAgTable agLen cells headCells
    let freeBlocks := (← subtract cells rsvdCells) * CELL_BLOCKS
    let rsvdBlocks ← subtract agLen (freeBlocks % 2 ^ 32)
    let hdr : AgHeader := {
      agNum := ag
      gen := 1
      length := agLen
      freeBlocks := freeBlocks % 2 ^ 32
      rsvdBlocks
      fullBlocks := 0
      allocRoot
      inoHint := 0
      dataHint := headCells * CELL_BLOCKS
      tblArena := 0 }
    -- the AG body directly: it is unreachable until the map commits
    pwrite devOffset bs (clip AGHDR_SIZE hdr.toBytes)
    pwrite (devOffset + allocRoot * bs) (rtBlocks * bs) table
    sync
    let entry : AgEntry :=
      { flags := AGF_PRESENT, length := agLen, segs := [⟨0, agLen, devOffset⟩] }
    let more ← subtract agLen freeBlocks
    let nextAg ← increase 32 ag 1
    let free ← increase 64 g.sb.freeBlocks freeBlocks
    let rsvd ← increase 64 g.sb.rsvdBlocks more
    modify fun g => { g with
      map := { g.map with entries := g.map.entries ++ [entry] }
      sb := { g.sb with nextAg, freeBlocks := free, rsvdBlocks := rsvd } }
    persistMap
    return ag

def setLen (size : Nat) : Prog Gofs Unit := modify fun g => { g with dev := g.dev.setLen size }

/-- Grow the filesystem (and a file-backed device) to `newSize` bytes. -/
def grow [Crc32c] (newSize : Nat) : Prog Gofs Nat := do
  let g ← get
  let past := g.map.mappedEnd g.sb.blocksize
  if newSize ≤ past then bail s!"new size {newSize} does not extend past current end {past}"
  else if newSize > g.dev.size then
    setLen newSize
    addAg past (newSize - past)
  else addAg past (newSize - past)

/-- Copy `total` bytes in chunks; every round copies at least one byte, so `total` rounds are
enough. -/
def copyLoop (src dst total chunk : Nat) : Nat → Nat → Prog Gofs Unit
  | 0, _ => return ()
  | fuel + 1, done => do
      if done < total then
        let n := min chunk (total - done)
        let buf ← pread (src + done) n
        pwrite (dst + done) n buf
        copyLoop src dst total chunk fuel (done + n)
      else return ()

/-- Each segment's data goes to its place in the new contiguous home. -/
def copySegs (dest bs : Nat) : List AgSegment → Prog Gofs Unit
  | [] => return ()
  | s :: rest => do
      copyLoop s.devOffset (dest + s.agBlock * bs) (s.blocks * bs) (CELL_BLOCKS * bs)
          (s.blocks * bs) 0
      copySegs dest bs rest

def setEntry (ag : Nat) (e : AgEntry) : Prog Gofs Unit :=
  modify fun g => { g with map := { g.map with entries := g.map.entries.set ag e } }

/-- Move an entire AG to `dest`. Only the AG map changes; every block address and inode number stays
valid. -/
def relocate [Crc32c] (ag dest : Nat) : Prog Gofs Unit := do
  let g ← get
  let bs := g.sb.blocksize
  if dest % bs ≠ 0 then bail "destination must be block aligned"
  else
    match g.map.entries[ag]? with
    | none => bail "no such AG"
    | some e =>
        if ¬ e.present then bail s!"AG {ag} is not present"
        else if e.immovable then bail s!"AG {ag} is immovable"
        else if dest + e.length * bs > g.dev.size then bail "destination past end of device"
        else if g.map.overlapsExcluding bs dest (e.length * bs) ag then
          bail "destination overlaps a mapped region"
        else
          copySegs dest bs e.segs
          sync
          setEntry ag { e with segs := [⟨0, e.length, dest⟩] }
          persistMap

/-- Retire an empty AG: its id is never reused, its space is released. -/
def retire [Crc32c] (ag : Nat) : Prog Gofs Unit := do
  if ag = 0 then bail "AG 0 cannot be retired"
  else
    let hdr ← readAgHeader ag
    if hdr.fullBlocks ≠ 0 then bail s!"AG {ag} still has {hdr.fullBlocks} allocated blocks"
    else
      match (← get).map.entries[ag]? with
      | none => panicWith "index out of bounds"
      | some e =>
          if ¬ e.present then bail s!"AG {ag} is not present"
          else
            setEntry ag { e with flags := AGF_RETIRED, segs := [] }
            let free ← subtract (← get).sb.freeBlocks hdr.freeBlocks
            modify fun g => { g with sb := { g.sb with freeBlocks := free } }
            let rsvd ← subtract (← get).sb.rsvdBlocks hdr.rsvdBlocks
            modify fun g => { g with sb := { g.sb with rsvdBlocks := rsvd } }
            persistMap

/-- The first PRESENT AG with a segment beyond `newSize`. -/
def firstBeyond (m : AgMap) (bs newSize : Nat) : Option (AgEntry × Nat) :=
  m.entries.zipIdx.find? fun (e, _) => e.present && e.segs.any fun s => s.devEnd bs > newSize

/-- Retire the AG if it is empty, else relocate it below `newSize`. -/
def evict [Crc32c] (ag : Nat) (e : AgEntry) (newSize : Nat) : Prog Gofs Unit := do
  if ag = 0 then bail "cannot shrink into AG 0"
  else
    let hdr ← readAgHeader ag
    if hdr.fullBlocks = 0 then retire ag
    else
      let g ← get
      match g.map.findGap g.sb.blocksize (e.length * g.sb.blocksize) newSize with
      | none => bail s!"no room below {newSize} for AG {ag}"
      | some dest => relocate ag dest

/-- The shrink loop, for at most `fuel` moved AGs; running out is an error, so a result is a result
of the unbounded loop. -/
def shrinkLoop [Crc32c] (newSize : Nat) : Nat → Prog Gofs Unit
  | 0 => panicWith "shrink does not end"
  | fuel + 1 => do
      let g ← get
      match firstBeyond g.map g.sb.blocksize newSize with
      | none => return ()
      | some (e, ag) =>
          evict ag e newSize
          shrinkLoop newSize fuel

/-- Shrink the device to `newSize`: every AG beyond it is retired (if empty) or relocated into a gap
below, then the file is truncated. -/
def shrink [Crc32c] (newSize : Nat) : Prog Gofs Unit := do
  shrinkLoop newSize ((← get).map.entries.length + 1)
  setLen newSize

end Gofs

end FiveFs
