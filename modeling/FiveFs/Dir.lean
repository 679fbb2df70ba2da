import FiveFs.Entries
import FiveFs.Lib.Loop
import Mathlib.Logic.Function.Basic

/-! Directories: entries in the inode payload, or in the buckets of an extendible hash table in the
file space. -/

namespace FiveFs

open Buffer Prog

/-- Maximum global depth. -/
def MAX_DEPTH : Nat := 9

def DH_HDR : Nat := 24

def bucketIndex (hash depth : Nat) : Nat := if depth = 0 then 0 else hash >>> (64 - depth)

def NamedEntry.hashed (e : NamedEntry) (hash : Nat) : HEntry := ⟨e.ino, hash, e.ftype, e.name⟩
def HEntry.entry (e : HEntry) : NamedEntry := ⟨e.ino, e.ftype, e.name⟩

/-- A directory's inode and the images of its mapped file blocks, as the transaction reads them. -/
structure Dir where
  inode : Inode
  blocks : Nat → Option Bytes

/-- What `map_ensure` does at a hole: the new mapping in the inode, and what the block it found
holds. -/
structure Grown where
  tree : Bool
  payload : Bytes
  nblocks : Nat
  image : Bytes

/-- How the calls that allocate and free blocks for a directory end. -/
structure Space where
  ensure : Dir → Nat → Except String Grown
  free : Dir → Except String Unit

structure DirHeader where
  depth : Nat
  nbuckets : Nat
  table : List Nat
  blk : Nat
  freelist : List Nat
  deriving DecidableEq, Repr

namespace DirHeader

/-- Each slot becomes two. -/
def doubled (x : DirHeader) : DirHeader :=
  { x with depth := x.depth + 1, table := x.table.flatMap fun b => [b, b] }

/-- The number that a split takes for the new bucket, a freed one before the file grows. -/
def newBno (x : DirHeader) : Nat := x.freelist.getLast?.getD x.nbuckets

/-- The count of buckets after it. -/
def newCount (x : DirHeader) : Nat := if x.freelist = [] then x.nbuckets + 1 else x.nbuckets

/-- The slots of bucket `bno` of local depth `l` with the next bit set go to the new bucket. -/
def splitAt (x : DirHeader) (l bno : Nat) : DirHeader where
  depth := x.depth
  nbuckets := x.newCount
  table := x.table.mapIdx fun idx b => if b = bno ∧
      (idx >>> (x.depth - 1 - l)) &&& 1 = 1 then x.newBno else b
  blk := x.blk
  freelist := x.freelist.dropLast

/-- The slots of `bno2` go to its buddy `bno`, and `bno2` is free. -/
def mergeAt (x : DirHeader) (bno bno2 : Nat) : DirHeader :=
  { x with
    table := x.table.map fun b => if b = bno2 then bno else b
    freelist := x.freelist ++ [bno2] }

/-- `table.chunks(2)` of a table of even length. -/
def chunks2 : List Nat → List (Nat × Nat)
  | a :: b :: rest => (a, b) :: chunks2 rest
  | _ => []

/-- Each pair of slots becomes one. -/
def halved (x : DirHeader) : DirHeader :=
  { x with depth := x.depth - 1, table := (chunks2 x.table).map Prod.fst }

end DirHeader

structure Bucket where
  entries : List HEntry
  ld : Nat
  blk : Nat
  deriving DecidableEq, Repr

namespace Dir

/-- A block of a directory is addressed by its file block. -/
def dirBlockAddr (fb : Nat) : Prog Dir Nat := do
  let d ← get
  match d.blocks fb with
  | some _ => pure fb
  | none => bail s!"directory block {fb} is a hole"

def dirBlockRead (fb : Nat) : Prog Dir Bytes := do
  let d ← get
  match d.blocks fb with
  | some image => pure image
  | none => bail s!"directory block {fb} is a hole"

def dirBlockWrite (blk : Nat) (image : Bytes) : Prog Dir Unit :=
  modify fun d => { d with blocks := Function.update d.blocks blk (some image) }

/-- The generation stored in a block, zero where it cannot be read. -/
def generation (blk : Nat) (d : Dir) : Nat := (d.blocks blk).elim 0 fun image => getU64 image 8

def dirBlockEnsure (space : Space) (fb : Nat) : Prog Dir Nat := do
  let d ← get
  match d.blocks fb with
  | some _ => pure fb
  | none =>
      match space.ensure d fb with
      | .error m => bail m
      | .ok g => do
          modify fun d =>
            { inode := { d.inode with
                format := if g.tree then FMT_TREE else FMT_EXTENT, payload := g.payload, nblocks :=
                g.nblocks }
              blocks := Function.update d.blocks fb (some g.image) }
          pure fb

variable [Crc32c] (bs : Nat)

/-- The table follows the header, and the freelist grows down from the end of the block. -/
def dhdrParse (buf : Bytes) (blk : Nat) : Except Err DirHeader :=
  if getU32 buf 0 ≠ DIRH_MAGIC then .error (.bail "bad directory header magic")
  else if getU32 buf 4 ≠ csum buf bs 4 then .error (.bail "directory header checksum mismatch")
  else
    let depth := getBE buf 16 1
    let nfree := getU16 buf 18
    if depth ≥ 64 then .error (.panic "attempt to shift left with overflow")
    else if DH_HDR + 2 ^ depth * 4 > bs then .error (.panic "range end index out of range")
    else if nfree * 4 > bs then .error (.panic "attempt to subtract with overflow")
    else .ok {
      depth
      nbuckets := getU32 buf 20
      table := getArr 4 buf DH_HDR (2 ^ depth)
      blk
      freelist := (List.range nfree).map fun k => getU32 buf (bs - 4 * (k + 1)) }

def dhdrRead : Prog Dir DirHeader := do
  let blk ← dirBlockAddr 0
  let buf ← dirBlockRead 0
  ofExcept (dhdrParse bs buf blk)

/-- `b[end - 4 * (k + 1)]` for each entry `k` from `k` on. -/
def putFree (bs : Nat) : Bytes → Nat → List Nat → Bytes
  | b, _, [] => b
  | b, k, v :: rest => putFree bs (putU32 b (bs - 4 * (k + 1)) v) (k + 1) rest

def dhdrFields (old : Nat) (x : DirHeader) : Bytes :=
  let b := putU32 zeros 0 DIRH_MAGIC
  let b := putU64 b 8 (old + 1)
  let b := putBE 1 b 16 x.depth
  let b := putU16 b 18 x.freelist.length
  let b := putU32 b 20 x.nbuckets
  let b := putArr 4 b DH_HDR x.table
  putFree bs b 0 x.freelist

def dhdrWrite (x : DirHeader) : Prog Dir Unit := do
  let d ← get
  if generation x.blk d + 1 ≥ 2 ^ 64 then panicWith "attempt to add with overflow"
  else if DH_HDR + x.table.length * 4 + x.freelist.length * 4 > bs then
    bail "directory table exceeds header block"
  else
    let buf := dhdrFields bs (generation x.blk d) x
    dirBlockWrite x.blk (putU32 buf 4 (csum buf bs 4))

def bucketParse (bno : Nat) (buf : Bytes) (blk : Nat) : Except Err Bucket :=
  if getU32 buf 0 ≠ BUCKET_MAGIC then .error (.bail s!"bucket {bno}: bad magic")
  else if getU32 buf 4 ≠ csum buf bs 4 then .error (.bail s!"bucket {bno}: checksum mismatch")
  else (bucketEntries buf bs).map fun entries => ⟨entries, getBE buf 16 1, blk⟩

def bucketRead (bno : Nat) : Prog Dir Bucket := do
  let blk ← dirBlockAddr (1 + bno)
  let buf ← dirBlockRead (1 + bno)
  ofExcept (bucketParse bs bno buf blk)

def bucketWrite (blk ld : Nat) (entries : List HEntry) : Prog Dir Unit := do
  let buf ← ofExcept (bucketBuild bs ld entries)
  let d ← get
  if generation blk d + 1 ≥ 2 ^ 64 then panicWith "attempt to add with overflow"
  else
    let buf := putU64 buf 8 (generation blk d + 1)
    dirBlockWrite blk (putU32 buf 4 (csum buf bs 4))

/-- `table[i]` -/
def tableAt (x : DirHeader) (i : Nat) : Prog Dir Nat :=
  match x.table[i]? with
  | some bno => pure bno
  | none => panicWith "index out of bounds"

/-- The entries of the buckets `bnos`, in order. -/
def bucketsList : List Nat → Prog Dir (List NamedEntry)
  | [] => pure []
  | bno :: rest => do
      let bucket ← bucketRead bs bno
      let tail ← bucketsList rest
      return bucket.entries.map HEntry.entry ++ tail

/-- All entries of a directory, any format. Those of buckets are sorted by name. -/
def dirList : Prog Dir (List NamedEntry) := do
  let d ← get
  if !d.inode.isDir then bail "not a directory"
  else if d.inode.format = FMT_EMPTY then return []
  else if d.inode.format = FMT_EMBED then return dirParseNamed d.inode.payload
  else if d.inode.format = FMT_EXTENT ∨ d.inode.format = FMT_TREE then
    let x ← dhdrRead bs
    let out ← bucketsList bs ((List.range x.nbuckets).filter fun b => !x.freelist.contains b)
    return out.mergeSort fun a b => decide (a.name ≤ b.name)
  else bail s!"directory format {d.inode.format} unsupported"

def dirCount : Prog Dir Nat := do
  let entries ← dirList bs
  return entries.length

variable (hash : String → UInt64)

def dirFind (name : String) : Prog Dir (Option NamedEntry) := do
  let d ← get
  if !d.inode.isDir then bail "not a directory"
  else if d.inode.format = FMT_EMPTY then return none
  else if d.inode.format = FMT_EMBED then
    return (dirParseNamed d.inode.payload).find? fun e => e.name == name
  else if d.inode.format = FMT_EXTENT ∨ d.inode.format = FMT_TREE then
    let h := (hash name).toNat
    let x ← dhdrRead bs
    let bno ← tableAt x (bucketIndex h x.depth)
    let bucket ← bucketRead bs bno
    return (bucket.entries.find? fun e => e.hash == h && e.name == name).map HEntry.entry
  else bail s!"directory format {d.inode.format} unsupported"

/-- The problems that `dir_check` finds in one bucket. -/
def bucketProblems (x : DirHeader) (b : Nat) (bucket : Bucket) : List String :=
  (if bucket.ld >
  x.depth then [s!"bucket {b}: local depth {bucket.ld} > global {x.depth}"] else []) ++
    bucket.entries.flatMap fun e =>
      let h := (hash e.name).toNat
      (if h ≠ e.hash then [s!"\"{e.name}\": stored hash mismatch"] else []) ++
        if x.table[bucketIndex h x.depth]? ≠ some
        b then [s!"\"{e.name}\": entry in wrong bucket {b}"] else []

def checkBuckets (x : DirHeader) : List Nat → Prog Dir (List String)
  | [] => pure []
  | b :: rest => do
      let problems ← match ← attempt (bucketRead bs b) with
        | .ok bucket => pure (bucketProblems hash x b bucket)
        | .error e => pure [s!"bucket {b}: {e}"]
      let tail ← checkBuckets x rest
      return problems ++ tail

/-- Structural validation for fsck: bucket placement, depth invariants. Returns problem
descriptions. -/
def dirCheck : Prog Dir (List String) := do
  let d ← get
  if ¬ (d.inode.format = FMT_EXTENT ∨ d.inode.format = FMT_TREE) then return []
  else
    let x ← dhdrRead bs
    let slots := x.table.zipIdx.flatMap fun slot =>
      (if slot.1 ≥ x.nbuckets then
          [s!"table[{slot.2}] points at bucket {slot.1} >= {x.nbuckets}"] else []) ++
        if x.freelist.contains
        slot.1 then [s!"table[{slot.2}] points at freed bucket {slot.1}"] else []
    let free := x.freelist.flatMap fun b =>
      if b ≥ x.nbuckets then [s!"freelist entry {b} >= {x.nbuckets}"] else []
    let buckets ← checkBuckets bs hash x ((List.range x.nbuckets).filter fun b =>
        !x.freelist.contains b)
    return slots ++ free ++ buckets

variable (space : Space)

/-- The part of `hashed_insert` that splits bucket `bno`, in the table `x` that was doubled where it
had to be. -/
def splitBucket (x : DirHeader) (bno : Nat) (bucket : Bucket) : Prog Dir Unit := do
  if x.newCount ≥ 2 ^ 32 then panicWith "attempt to add with overflow"
  else
    let nblk ← dirBlockEnsure space (1 + x.newBno)
    modify fun d => { d with inode := { d.inode with size := max d.inode.size ((2 + x.newBno) * bs)
        } }
    if bucket.ld > 63 then panicWith "attempt to subtract with overflow"
    else
      let bit := 63 - bucket.ld
      let parts := bucket.entries.partition fun e => e.hash &&& 1 <<< bit == 0
      bucketWrite bs bucket.blk (bucket.ld + 1) parts.1
      bucketWrite bs nblk (bucket.ld + 1) parts.2
      if bucket.ld ≥ x.depth then panicWith "attempt to subtract with overflow"
      else dhdrWrite bs (x.splitAt bucket.ld bno)

/-- One round of the loop of `hashed_insert`: the entry is stored, or its bucket is split. -/
def insertRound (new : HEntry) : Prog Dir (Option Unit) := do
  let x ← dhdrRead bs
  let bno ← tableAt x (bucketIndex new.hash x.depth)
  let bucket ← bucketRead bs bno
  if bucketFits bs bucket.entries new then
    bucketWrite bs bucket.blk bucket.ld (bucket.entries ++ [new])
    return some ()
  else if bucket.ld = x.depth ∧ x.depth ≥ MAX_DEPTH then
    bail "directory exceeds maximum depth (v1 limit)"
  else
    splitBucket bs space (if bucket.ld = x.depth then x.doubled else x) bno bucket
    return none

def hashedInsert (fuel : Nat) (entry : NamedEntry) : Prog Dir Unit :=
  loop (insertRound bs space (entry.hashed (hash entry.name).toNat)) fuel

def insertAll (fuel : Nat) : List NamedEntry → Prog Dir Unit
  | [] => pure ()
  | e :: rest => do
      hashedInsert bs hash space fuel e
      insertAll fuel rest

def dirToHashed (fuel : Nat) : Prog Dir Unit := do
  let d ← get
  let old := dirParseNamed d.inode.payload
  modify fun d => { d with inode := { d.inode with format := FMT_EMPTY, payload := zeros } }
  let hblk ← dirBlockEnsure space 0
  let bblk ← dirBlockEnsure space 1
  dhdrWrite bs ⟨0, 1, [0], hblk, []⟩
  bucketWrite bs bblk 0 []
  modify fun d => { d with inode := { d.inode with size := 2 * bs } }
  insertAll bs hash space fuel old

/-- An empty directory starts to hold entries in its payload. -/
def embed (d : Dir) : Dir :=
  if d.inode.format = FMT_EMPTY then
    { d with inode := { d.inode with format := FMT_EMBED, payload := zeros } }
  else d

/-- The body of `dir_insert`, with the call it makes after the conversion. -/
def dirInsertCall (fuel : Nat) (entry : NamedEntry) (again : Prog Dir Unit) : Prog Dir Unit := do
  let found ← dirFind bs hash entry.name
  if found.isSome then bail s!"{entry.name}: already exists"
  else
    let d ← get
    if d.inode.format = FMT_EMPTY ∨ d.inode.format = FMT_EMBED then
      modify embed
      let d ← get
      match (dirAppendNamed entry).run d.inode.payload with
      | (.ok _, p) => modify fun d => { d with inode := { d.inode with payload := p } }
      | (.error _, _) => do
          dirToHashed bs hash space fuel
          again
    else if d.inode.format = FMT_EXTENT ∨ d.inode.format = FMT_TREE then
      hashedInsert bs hash space fuel entry
    else bail s!"directory format {d.inode.format} unsupported"

/-- Insert an entry, converting to a hashed directory on overflow. -/
def dirInsert (fuel : Nat) (entry : NamedEntry) : Prog Dir Unit :=
  dirInsertCall bs hash space fuel entry
    (dirInsertCall bs hash space fuel entry (panicWith "a hashed directory is not converted again"))

/-- The scan for a bucket and its buddy that fit one block, over the slots `idxs`: whether they were
merged. -/
def mergeScan (x : DirHeader) : List Nat → Prog Dir Bool
  | [] => pure false
  | idx :: rest => do
      let bno ← tableAt x idx
      let one ← bucketRead bs bno
      if one.ld = 0 then mergeScan x rest
      else if one.ld > x.depth then panicWith "attempt to subtract with overflow"
      else
        let bno2 ← tableAt x (idx ^^^ 1 <<< (x.depth - one.ld))
        if bno2 = bno then mergeScan x rest
        else
          let two ← bucketRead bs bno2
          if two.ld ≠ one.ld then mergeScan x rest
          else if !mergeFits bs one.entries two.entries then mergeScan x rest
          else
            bucketWrite bs one.blk (one.ld - 1) (one.entries ++ two.entries)
            bucketWrite bs two.blk 0 []
            dhdrWrite bs (x.mergeAt bno bno2)
            return true

def mergeRound : Prog Dir (Option Unit) := do
  let x ← dhdrRead bs
  if x.depth = 0 then return some ()
  else
    let acted ← mergeScan bs x (List.range x.table.length)
    if acted then return none
    else if (DirHeader.chunks2 x.table).all fun p => p.1 == p.2 then
      dhdrWrite bs x.halved
      return none
    else return some ()

/-- Buddy-merge pass: merge buddies while they fit, then halve the table while every slot pair is
identical. -/
def tryMerge (fuel : Nat) : Prog Dir Unit := loop (mergeRound bs) fuel

/-- `dir_append` of each entry, from a clear payload on. -/
def repack : List NamedEntry → Prog Bytes Unit
  | [] => pure ()
  | e :: rest => do
      dirAppendNamed e
      repack rest

/-- Release every block of the directory. -/
def mapFreeAll : Prog Dir Unit := do
  let d ← get
  match space.free d with
  | .error m => bail m
  | .ok _ => modify fun d =>
      { inode := { d.inode with format := FMT_EMPTY, payload := zeros, nblocks := 0, size := 0 }
        blocks := fun _ => none }

/-- Remove an entry by name. Returns it. -/
def dirRemove (fuel : Nat) (name : String) : Prog Dir NamedEntry := do
  let d ← get
  if d.inode.format = FMT_EMBED then
    let entries := dirParseNamed d.inode.payload
    match entries.find? fun e => e.name == name with
    | none => bail s!"{name}: not found"
    | some removed =>
        let entries := entries.eraseP fun e => e.name == name
        match (repack entries).run zeros with
        | (.error e, _) => fail e
        | (.ok _, p) => do
            modify fun d => { d with inode := { d.inode with payload := p } }
            if entries = [] then do
              modify fun d => { d with inode := { d.inode with format := FMT_EMPTY } }
              return removed
            else return removed
  else if d.inode.format = FMT_EXTENT ∨ d.inode.format = FMT_TREE then
    let h := (hash name).toNat
    let x ← dhdrRead bs
    let bno ← tableAt x (bucketIndex h x.depth)
    let bucket ← bucketRead bs bno
    match bucket.entries.find? fun e => e.hash == h && e.name == name with
    | none => bail s!"{name}: not found"
    | some removed => do
        bucketWrite bs bucket.blk bucket.ld (bucket.entries.eraseP fun e =>
            e.hash == h && e.name == name)
        tryMerge bs fuel
        let count ← dirCount bs
        if count = 0 then do
          -- collapse: free the directory's blocks entirely
          mapFreeAll space
          return removed.entry
        else return removed.entry
  else if d.inode.format = FMT_EMPTY then bail s!"{name}: not found"
  else bail s!"directory format {d.inode.format} unsupported"

end Dir

end FiveFs
