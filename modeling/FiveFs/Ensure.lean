import FiveFs.Extents

/-! Growing and shrinking the mapping of a file: `map_ensure`, the conversion of inline extents to a
tree, and the release of blocks. The sums of file blocks are unbounded numbers here. -/

namespace FiveFs

open Buffer Prog

/-- What the mapping asks of the allocator; extents and nodes come from one AG. -/
structure Allocator where
  alloc : Nat → Prog Work Nat
  free : Nat → Nat → Prog Work Unit
  granule : Nat → Prog Work Nat

def Work.allocator [Crc32c] (ag : Nat) : Allocator :=
  ⟨Work.allocExtent ag, Work.freeExtent, Work.granuleAt⟩

def rootStateSet (p : Bytes) (i st : Nat) : Bytes := copyAt p 2 2 (cellSet (drop 2 p) i st)

def rootChildSet (p : Bytes) (i blocks addr : Nat) : Bytes :=
  putU64 (putU32 p (8 + 16 * i) blocks) (8 + 16 * i + 8) addr

def rootInit (level : Nat) : Bytes := putBE 1 zeros 0 level

def nodeStateSet (b : Bytes) (i st : Nat) : Bytes :=
  copyAt b NODE_STATES (NODE_CHILDREN - NODE_STATES) (cellSet (drop NODE_STATES b) i st)

def nodeChildSet (b : Bytes) (i blocks addr : Nat) : Bytes :=
  putU64 (putU32 b (NODE_CHILDREN + CHILD_REC * i) blocks) (NODE_CHILDREN + CHILD_REC * i + 8) addr

/-- Uniform accessor over the inode-payload root and node blocks. -/
inductive RootOrNode
  | root (p : Bytes)
  | node (addr : Nat)

namespace Work

variable [Crc32c]

def nodeGet (addr : Nat) : Prog Work Bytes := do
  ofExcept ((← get).nodeRead addr)

def nodeWrite (addr : Nat) (buf : Bytes) : Prog Work Unit := do
  let bs := (← get).blocksize
  let buf := putU64 buf 8 (getU64 buf 8 + 1)
  txnWrite addr (putU32 buf 4 (csum buf bs 4))

end Work

namespace RootOrNode

variable [Crc32c]

def get (parent : RootOrNode) (i : Nat) : Prog Work (Nat × Nat × Nat) :=
  match parent with
  | .root p => pure (rootState p i, rootChild p i)
  | .node addr => do
      let buf ← Work.nodeGet addr
      if i ≥ NODE_FANOUT then panicWith "index out of bounds"
      else return (nodeState buf i, nodeChild buf i)

/-- The blocks are cut to `u32`. -/
def set (parent : RootOrNode) (i st blocks addr : Nat) : Prog Work RootOrNode :=
  match parent with
  | .root p => pure (.root (rootChildSet (rootStateSet p i st) i blocks addr))
  | .node n => do
      let buf ← Work.nodeGet n
      if i ≥ NODE_FANOUT then panicWith "index out of bounds"
      else
        Work.nodeWrite n (nodeChildSet (nodeStateSet buf i st) i blocks addr)
        return .node n

end RootOrNode

namespace Allocator

variable [Crc32c] (A : Allocator)

def nodeAlloc (level : Nat) : Prog Work Nat := do
  let addr ← A.alloc 1
  Work.nodeWrite addr (putBE 1 (putU32 zeros 0 TREE_MAGIC) 16 level)
  return addr

/-- The children of a node that a run of `blocks` at `addr` is spread over, from child `i` on. -/
def spreadRun (c blocks addr : Nat) : Nat → Nat → Nat → Bytes → Except Err Bytes
  | 0, _, _, buf => .ok buf
  | fuel + 1, i, done, buf =>
      if done < blocks then
        if i ≥ NODE_FANOUT then .error (.panic "index out of bounds")
        else
          let take := min c (blocks - done)
          spreadRun c blocks addr fuel (i + 1) (done + take)
              (nodeChildSet (nodeStateSet buf i CELL_FULL) i take (addr + done))
      else .ok buf

/-- Spread an existing run of `blocks` at `addr` over a fresh node's children (it covered the parent
child range from its start). -/
def redistribute (node blocks addr : Nat) : Prog Work Unit := do
  let buf ← Work.nodeGet node
  let c ← ofExcept (cov (nodeLevel buf))
  let buf ← ofExcept (spreadRun c blocks addr blocks 0 0 buf)
  Work.nodeWrite node buf

/-- The loop over the children that `[pos, limit)` lies in. Every round advances. -/
def ensureLoop (child : RootOrNode → Nat → Nat → Nat → Nat → List (Nat × Nat) →
    Prog Work (RootOrNode × List (Nat × Nat)))
    (start c limit : Nat) : Nat → Nat → RootOrNode → List (Nat × Nat) →
    Prog Work (RootOrNode × List (Nat × Nat))
  | 0, _, parent, fresh => return (parent, fresh)
  | fuel + 1, pos, parent, fresh => do
      if pos < limit then
        let i := (pos - start) / c
        let childStart := start + i * c
        let wantEnd := min limit (childStart + c)
        let (parent, fresh) ← child parent i childStart pos wantEnd fresh
        ensureLoop child start c limit fuel wantEnd parent fresh
      else return (parent, fresh)

/-- Ensure within the children of the node, by `child` at their level. -/
def descendEnsure (child : Nat → RootOrNode → Nat → Nat → Nat → Nat → List (Nat × Nat) →
    Prog Work (RootOrNode × List (Nat × Nat))) (node nodeStart pos limit : Nat)
    (fresh : List (Nat × Nat)) :
    Prog Work (List (Nat × Nat)) := do
  let buf ← Work.nodeGet node
  let c ← ofExcept (cov (nodeLevel buf))
  let (_, fresh) ← ensureLoop (child (nodeLevel buf)) nodeStart c limit (limit - pos) pos
      (.node node) fresh
  return fresh

/-- Ensure within one child of a root or node; `depth` is what the stack holds. -/
def childEnsure : Nat → Nat → RootOrNode → Nat → Nat → Nat → Nat → List (Nat × Nat) →
    Prog Work (RootOrNode × List (Nat × Nat))
  | 0, _, _, _, _, _, _, _ => panicWith "stack overflow"
  | depth + 1, level, parent, i, childStart, pos, limit, fresh => do
      let (state, blocks, addr) ← parent.get i
      if state = CELL_FULL ∧ limit - childStart ≤ blocks then return (parent, fresh)
      else if state = CELL_FREE ∧ pos = childStart then
        let want := limit - childStart
        match ← attempt (A.alloc want) with
        | .ok blk =>
            let parent ← parent.set i CELL_FULL want blk
            return (parent, fresh ++ [(childStart, want)])
        | .error e =>
            if level > 0 then
              -- fragmented: refine and let smaller children try
              let node ← A.nodeAlloc (level - 1)
              let parent ← parent.set i CELL_REFINED 0 node
              let fresh ← descendEnsure (childEnsure depth) node childStart pos limit fresh
              return (parent, fresh)
            else bail e
      else if state = CELL_FREE ∨ state = CELL_FULL then
        if level = 0 then bail "level-0 child cannot be refined"
        else
          let node ← A.nodeAlloc (level - 1)
          if state = CELL_FULL then redistribute node blocks addr
          let parent ← parent.set i CELL_REFINED 0 node
          let fresh ← descendEnsure (childEnsure depth) node childStart pos limit fresh
          return (parent, fresh)
      else if state = CELL_REFINED then
        let fresh ← descendEnsure (childEnsure depth) addr childStart pos limit fresh
        return (parent, fresh)
      else bail s!"bad child state {state}"

/-- Wrap the current root children into a node one level down and raise the root level. -/
def rootGrow (inode : Inode) : Prog Work Inode := do
  let level := rootLevel inode.payload
  let node ← A.nodeAlloc level
  let buf ← Work.nodeGet node
  let used := (List.range ROOT_FANOUT).filter fun i => rootState inode.payload i != CELL_FREE
  let buf := used.foldl (fun buf i => nodeChildSet (nodeStateSet buf i (rootState inode.payload i))
    i (rootChild inode.payload i).1 (rootChild inode.payload i).2) buf
  Work.nodeWrite node buf
  if used ≠ [] then
    return { inode with
      payload := rootChildSet (rootStateSet (rootInit (level + 1)) 0 CELL_REFINED) 0 0 node }
  else
    -- nothing mapped yet: drop the node again
    A.free node 1
    return { inode with payload := rootInit (level + 1) }

/-- The loop over the children that a run lies in, split at their boundaries. Every round advances.
-/
def insertLoop (child : RootOrNode → Nat → Nat → Nat → Nat → Nat → Prog Work RootOrNode)
    (start c fblock blk len : Nat) :
    Nat → Nat → RootOrNode → Prog Work RootOrNode
  | 0, _, parent => return parent
  | fuel + 1, pos, parent => do
      if pos < len then
        let f := fblock + pos
        let i := (f - start) / c
        let childStart := start + i * c
        let chunk := min len (childStart + c - f + pos) - pos
        let parent ← child parent i childStart f (blk + pos) chunk
        insertLoop child start c fblock blk len fuel (pos + chunk) parent
      else return parent

/-- Record a run in the children of the node, by `child` at their level. -/
def insertBelow (child : Nat → RootOrNode → Nat → Nat → Nat → Nat → Nat → Prog Work RootOrNode)
    (node nodeStart f blk len : Nat) : Prog Work Unit := do
  let buf ← Work.nodeGet node
  let c ← ofExcept (cov (nodeLevel buf))
  let _ ← insertLoop (child (nodeLevel buf)) nodeStart c f blk len len 0 (.node node)
  return ()

/-- Record a run in one child of a root or node. -/
def insertInChild : Nat → Nat → RootOrNode → Nat → Nat → Nat → Nat → Nat → Prog Work RootOrNode
  | 0, _, _, _, _, _, _, _ => panicWith "stack overflow"
  | depth + 1, level, parent, i, childStart, f, blk, len => do
      let (state, blocks, addr) ← parent.get i
      if state = CELL_FREE ∧ f = childStart then parent.set i CELL_FULL len blk
      else if state = CELL_FULL ∧ f = childStart + blocks ∧ blk = addr + blocks then
        -- physically contiguous append
        if blocks + len % 2 ^ 32 < 2 ^ 32 then parent.set i CELL_FULL (blocks + len % 2 ^ 32) addr
        else panicWith "attempt to add with overflow"
      else if state = CELL_FREE ∨ state = CELL_FULL then
        if level = 0 then bail "insert_run: level-0 collision"
        else
          let node ← A.nodeAlloc (level - 1)
          if state = CELL_FULL then redistribute node blocks addr
          let parent ← parent.set i CELL_REFINED 0 node
          insertBelow (insertInChild depth) node childStart f blk len
          return parent
      else if state = CELL_REFINED then
        insertBelow (insertInChild depth) addr childStart f blk len
        return parent
      else bail s!"bad child state {state}"

/-- Record an already-allocated run in a TREE mapping. -/
def insertRun (depth : Nat) (inode : Inode) (fblock blk len : Nat) : Prog Work Inode := do
  let level := rootLevel inode.payload
  let c ← ofExcept (cov level)
  match ← insertLoop (A.insertInChild depth level) 0 c fblock blk len len 0
      (.root inode.payload) with
  | .root payload => return { inode with payload }
  | .node _ => return inode

def insertRuns (depth : Nat) : List Extent → Inode → Prog Work Inode
  | [], inode => return inode
  | e :: rest, inode => do
      let inode ← A.insertRun depth inode e.fileBlock e.blk e.blocks
      insertRuns depth rest inode

/-- The first level from `level` on whose root covers `needed` blocks. -/
def levelFor (needed : Nat) : Nat → Nat → Except Err Nat
  | 0, _ => .error (.panic "attempt to add with overflow")
  | fuel + 1, level => do
      let c ← cov level
      if ROOT_FANOUT * c < needed then levelFor needed fuel (level + 1) else .ok level

def extentsEnd (extents : List Extent) : Nat :=
  if extents = [] then 1 else (extents.map fun e => e.fileBlock + e.blocks).foldl max 0

/-- Convert inline extents to a TREE mapping. -/
def toTree (depth : Nat) (inode : Inode) (extents : List Extent) : Prog Work Inode := do
  let level ← ofExcept (levelFor (extentsEnd extents) 256 0)
  A.insertRuns depth extents { inode with format := FMT_TREE, payload := rootInit level }

/-- Extend the extent ending exactly at `pos`, where `blk` follows it. -/
def extendRun (pos blk want : Nat) : List Extent → Except Err (Option (List Extent))
  | [] => .ok none
  | e :: rest =>
      if e.fileBlock + e.blocks = pos ∧ e.blk + e.blocks = blk then
        if e.blocks + want % 2 ^ 32 < 2 ^ 32 then .ok
            (some ({ e with blocks := e.blocks + want % 2 ^ 32 } :: rest))
        else .error (.panic "attempt to add with overflow")
      else do
        let found ← extendRun pos blk want rest
        .ok (found.map (e :: ·))

/-- The loop of `extent_ensure`. The result says whether the extents have to go to a tree, as no
contiguous run was found for a hole. -/
def extentLoop (limit : Nat) : Nat → Nat → List Extent → List (Nat × Nat) →
    Prog Work (List Extent × List (Nat × Nat) × Bool)
  | 0, _, extents, fresh => return (extents, fresh, false)
  | fuel + 1, pos, extents, fresh => do
      if pos < limit then
        match extents.find? fun e => decide (pos ≥ e.fileBlock ∧ pos < e.fileBlock + e.blocks) with
        | some e => extentLoop limit fuel (e.fileBlock + e.blocks) extents fresh
        | none =>
            let next := (((extents.filter fun e => decide (e.fileBlock > pos)).map
                Extent.fileBlock).min?).getD limit
            let want := min next limit - pos
            match ← attempt (A.alloc want) with
            | .ok blk =>
                let extents := match ← ofExcept (extendRun pos blk want extents) with
                  | some merged => merged
                  | none => extents ++ [⟨pos, blk, want % 2 ^ 32⟩]
                extentLoop limit fuel (min next limit) extents (fresh ++ [(pos, want)])
            | .error e =>
                if extents = [] then bail e
                else return (extents, fresh, true)
      else return (extents, fresh, false)

/-- Ensure on the inline-extent format; converts to TREE on overflow. -/
def extentEnsure (depth : Nat) (inode : Inode) (fblock n : Nat) :
    Prog Work (Inode × List (Nat × Nat)) := do
  let (extents, fresh, fragmented) ← A.extentLoop (fblock + n) n fblock (extentsParse inode.payload)
      []
  if fragmented ∨ extents.length > MAX_INLINE_EXTENTS then
    let inode ← A.toTree depth inode extents
    return (inode, fresh)
  else
    let sorted := extents.mergeSort fun a b => decide (a.fileBlock ≤ b.fileBlock)
    let payload ← ofResult (extentsStore sorted)
    return ({ inode with payload }, fresh)

/-- Grow the root until it covers `needed` blocks. -/
def growLoop (needed : Nat) : Nat → Inode → Prog Work Inode
  | 0, _ => panicWith "attempt to add with overflow"
  | fuel + 1, inode => do
      let c ← ofExcept (cov (rootLevel inode.payload))
      if needed > ROOT_FANOUT * c then
        let inode ← A.rootGrow inode
        growLoop needed fuel inode
      else return inode

def runsOf (depth : Nat) (inode : Inode) (fblock n : Nat) (fresh : List (Nat × Nat)) :
    Prog Work (List (Nat × Nat × Nat × Bool)) := do
  ofExcept ((← Prog.get).collectRuns depth inode fresh (fblock + n) (n + 1) fblock)

/-- Make `[fblock, fblock + n)` of a tree fully mapped. -/
def treeEnsure (depth : Nat) (inode : Inode) (fblock n : Nat) (fresh : List (Nat × Nat)) :
    Prog Work (Inode × List (Nat × Nat)) := do
  let inode ← A.growLoop (fblock + n) 256 inode
  let level := rootLevel inode.payload
  let c ← ofExcept (cov level)
  match ← ensureLoop (A.childEnsure depth level) 0 c (fblock + n) n fblock (.root inode.payload)
      fresh with
  | (.root payload, fresh) => return ({ inode with payload }, fresh)
  | (.node _, fresh) => return (inode, fresh)

/-- The mapping of `map_ensure`; the second result is what was allocated. -/
def mapRange (depth : Nat) (inode : Inode) (fblock n : Nat) :
    Prog Work (Inode × List (Nat × Nat)) :=
  if inode.format = FMT_TREE then A.treeEnsure depth inode fblock n []
  else do
    -- EMPTY (or EMBED already lifted by the caller): start inline
    let inode := if inode.format = FMT_EXTENT then inode
      else { inode with format := FMT_EXTENT, payload := zeros }
    let (inode, fresh) ← A.extentEnsure depth inode fblock n
    if inode.format = FMT_TREE then A.treeEnsure depth inode fblock n fresh
    else return (inode, fresh)

/-- Make `[fblock, fblock + n)` fully mapped, allocating where needed. Returns the runs covering the
range with the inode. -/
def mapEnsure (depth : Nat) (inode : Inode) (fblock n : Nat) :
    Prog Work (List (Nat × Nat × Nat × Bool) × Inode) := do
  let (inode, fresh) ← A.mapRange depth inode fblock n
  let runs ← runsOf depth inode fblock n fresh
  return (runs, inode)

-- releasing blocks

/-- Returns the number of data blocks freed. -/
def freeChild : Nat → Nat → Nat → Nat → Prog Work Nat
  | 0, _, _, _ => panicWith "stack overflow"
  | depth + 1, state, blocks, addr => do
      if state = CELL_FREE then return 0
      else if state = CELL_FULL then
        A.free addr blocks
        return blocks
      else if state = CELL_REFINED then
        let buf ← Work.nodeGet addr
        let freed ← freeKids (freeChild depth) buf (List.range NODE_FANOUT)
        A.free addr 1
        return freed
      else bail s!"bad child state {state}"
where
  freeKids (child : Nat → Nat → Nat → Prog Work Nat) (buf : Bytes) : List Nat → Prog Work Nat
    | [] => return 0
    | i :: rest => do
        let freed ← child (nodeState buf i) (nodeChild buf i).1 (nodeChild buf i).2
        let more ← freeKids child buf rest
        return freed + more

def freeExtents : List Extent → Prog Work Unit
  | [] => return ()
  | e :: rest => do
      A.free e.blk e.blocks
      freeExtents rest

def freeRoot (depth : Nat) (p : Bytes) : List Nat → Prog Work Unit
  | [] => return ()
  | i :: rest => do
      let _ ← A.freeChild depth (rootState p i) (rootChild p i).1 (rootChild p i).2
      freeRoot depth p rest

/-- Release every block a mapping owns. -/
def mapFreeAll (depth : Nat) (inode : Inode) : Prog Work Inode := do
  if inode.format = FMT_EMPTY ∨ inode.format = FMT_EMBED then pure ()
  else if inode.format = FMT_EXTENT then A.freeExtents (extentsParse inode.payload)
  else if inode.format = FMT_TREE then A.freeRoot depth inode.payload (List.range ROOT_FANOUT)
  else bail s!"format {inode.format}: cannot free"
  return { inode with format := FMT_EMPTY, payload := zeros, nblocks := 0, size := 0 }

/-- Trim a FULL run to at least `keep` blocks, freeing the suffix at the allocation-granule
boundary. Returns the kept length and the number of blocks freed. -/
def trimRun (addr blocks keep : Nat) : Prog Work (Nat × Nat) := do
  if keep ≥ blocks then return (blocks, 0)
  else
    let g ← A.granule addr
    let kept := min ((keep + g - 1) / g * g) blocks
    if kept < blocks then
      A.free (addr + kept) (blocks - kept)
      return (kept, blocks - kept)
    else return (kept, 0)

/-- The children of a node that change, and the number of blocks freed. -/
def trimKids (child : Nat → Nat → Nat → Nat → Prog Work (Option (Nat × Nat × Nat) × Nat))
    (start c : Nat) :
    List Nat → Bytes → Prog Work (Bytes × Bool × Nat)
  | [], buf => return (buf, false, 0)
  | i :: rest, buf => do
      let (change, freed) ← child (nodeState buf i) (nodeChild buf i).1 (nodeChild buf i).2
          (start + i * c)
      let (buf, changed) := match change with
        | some (st, blocks, addr) => (nodeChildSet (nodeStateSet buf i st) i blocks addr, true)
        | none => (buf, false)
      let (buf, later, more) ← trimKids child start c rest buf
      return (buf, changed || later, freed + more)

/-- Trim the children of the node, by `child` at their level. -/
def trimNode (child : Nat → Nat → Nat → Nat → Nat → Prog Work (Option (Nat × Nat × Nat) × Nat))
    (addr childStart : Nat) : Prog Work (Option (Nat × Nat × Nat) × Nat) := do
  let buf ← Work.nodeGet addr
  let nc ← ofExcept (cov (nodeLevel buf))
  let (buf, changed, freed) ←
    trimKids (child (nodeLevel buf)) childStart nc (List.range NODE_FANOUT) buf
  if (List.range NODE_FANOUT).all fun i => nodeState buf i == CELL_FREE then
    -- coarsen: the node emptied
    A.free addr 1
    return (some (CELL_FREE, 0, 0), freed)
  else
    if changed then Work.nodeWrite addr buf
    return (none, freed)

/-- The new child record if the child changed, and the number of data blocks freed. -/
def trimChild (cutoff : Nat) : Nat → Nat → Nat → Nat → Nat → Nat →
    Prog Work (Option (Nat × Nat × Nat) × Nat)
  | 0, _, _, _, _, _ => panicWith "stack overflow"
  | depth + 1, level, st, blocks, addr, childStart => do
      let c ← ofExcept (cov level)
      if childStart ≥ cutoff then
        if st = CELL_FREE then return (none, 0)
        else
          let freed ← A.freeChild depth st blocks addr
          return (some (CELL_FREE, 0, 0), freed)
      else if childStart + c ≤ cutoff then return (none, 0)
      else if st = CELL_FREE then return (none, 0)
      else if st = CELL_FULL then
        let (kept, freed) ← A.trimRun addr blocks (cutoff - childStart)
        if kept ≠ blocks then return (some (CELL_FULL, kept, addr), freed) else return (none, freed)
      else if st = CELL_REFINED then A.trimNode (trimChild cutoff depth) addr childStart
      else bail s!"bad child state {st}"

def trimExtents (cutoff : Nat) : List Extent → Prog Work (List Extent × Nat)
  | [] => return ([], 0)
  | e :: rest => do
      let (kept, freed) ←
        if e.fileBlock ≥ cutoff then do
          A.free e.blk e.blocks
          pure ([], e.blocks)
        else if e.fileBlock + e.blocks > cutoff then do
          let (kept, freed) ← A.trimRun e.blk e.blocks (cutoff - e.fileBlock)
          pure ([⟨e.fileBlock, e.blk, kept⟩], freed)
        else pure ([e], 0)
      let (later, more) ← trimExtents cutoff rest
      return (kept ++ later, freed + more)

def trimRoot (cutoff depth level c : Nat) : List Nat → Bytes → Prog Work (Bytes × Nat)
  | [], p => return (p, 0)
  | i :: rest, p => do
      let (change, freed) ← A.trimChild cutoff depth level (rootState p i) (rootChild p i).1
          (rootChild p i).2 (i * c)
      let p := match change with
        | some (st, blocks, addr) => rootChildSet (rootStateSet p i st) i blocks addr
        | none => p
      let (p, more) ← trimRoot cutoff depth level c rest p
      return (p, freed + more)

/-- Free the mapping beyond `cutoff` file blocks: whole children beyond the cutoff, and the
granule-aligned suffix of a straddling run. Returns the data blocks freed with the inode. -/
def mapTruncate (depth : Nat) (inode : Inode) (cutoff : Nat) : Prog Work (Nat × Inode) := do
  if inode.format = FMT_EMPTY ∨ inode.format = FMT_EMBED then return (0, inode)
  else if inode.format = FMT_EXTENT then
    let (keep, freed) ← A.trimExtents cutoff (extentsParse inode.payload)
    let payload ← ofResult (extentsStore keep)
    return (freed, { inode with payload })
  else if inode.format = FMT_TREE then
    let level := rootLevel inode.payload
    let c ← ofExcept (cov level)
    let (payload, freed) ← A.trimRoot cutoff depth level c (List.range ROOT_FANOUT) inode.payload
    return (freed, { inode with payload })
  else bail s!"format {inode.format}: cannot truncate"

end Allocator

end FiveFs
