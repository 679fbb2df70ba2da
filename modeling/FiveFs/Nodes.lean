import FiveFs.Ensure
import FiveFs.View

/-! The images of roots and nodes: what a change of one child leaves of the others, and nodes read
back after a write. -/

namespace FiveFs

open Buffer Prog

/-- A child of the root: its state, blocks and address. -/
def rootSlot (p : Bytes) (i : Nat) : Nat × Nat × Nat := (rootState p i, rootChild p i)

def nodeSlot (buf : Bytes) (i : Nat) : Nat × Nat × Nat := (nodeState buf i, nodeChild buf i)

section Images

variable {i j st blocks addr : Nat}

theorem drop_copyAt_cells (b : Bytes) {off n : Nat} (inside : j / 4 < n) (src : Bytes) :
    cellGet (drop off (copyAt b off n src)) j = cellGet src j := by
  refine get2_congr ?_
  rw [drop, copyAt, if_pos (by omega), Nat.add_sub_cancel_left]

theorem rootSlot_set (p : Bytes) (hi : i < ROOT_FANOUT) (hj : j < ROOT_FANOUT) (state : st < 4)
    (count : blocks < 2 ^ 32)
    (place : addr < 2 ^ 64) : rootSlot (rootChildSet (rootStateSet p i st) i blocks addr) j =
      if j = i then (st, blocks, addr) else rootSlot p j := by
  have fan : ROOT_FANOUT = 6 := rfl
  have states : rootState (rootChildSet (rootStateSet p i st) i blocks addr)
      j = if j = i then st else rootState p j := by
    have kept : rootState (rootChildSet (rootStateSet p i st) i blocks addr) j = rootState
        (rootStateSet p i st) j := by
      refine get2_congr ?_
      simp only [drop]
      rw [rootChildSet, putU64, putBE_of_not_mem (by omega), putU32, putBE_of_not_mem (by omega)]
    rw [kept, rootState, rootStateSet, drop_copyAt_cells p (by omega), cellGet, cellSet,
        get2_set2 _ _ _ state]
    exact if_congr eq_comm rfl rfl
  have children : rootChild (rootChildSet (rootStateSet p i st) i blocks addr) j =
      if j = i then (blocks, addr) else rootChild p j := by
    simp only [rootChild, rootChildSet, putU64, putU32, getU32, getU64]
    by_cases here : j = i
    · rw [if_pos here, here, getBE_putBE_disjoint _ (by omega), getBE_putBE, getBE_putBE,
        Nat.mod_eq_of_lt (show blocks < 256 ^ 4 from count),
        Nat.mod_eq_of_lt (show addr < 256 ^ 8 from place)]
    · rw [if_neg here, getBE_putBE_disjoint _ (by omega), getBE_putBE_disjoint _ (by omega),
          getBE_putBE_disjoint _ (by omega),
        getBE_putBE_disjoint _ (by omega), rootStateSet, getBE_copyAt_disjoint _ _ (by omega),
        getBE_copyAt_disjoint _ _ (by omega)]
  rw [rootSlot, states, children]
  split <;> rfl

theorem rootLevel_set (p : Bytes) : rootLevel
    (rootChildSet (rootStateSet p i st) i blocks addr) = rootLevel p := by
  rw [rootLevel, rootChildSet, putU64, putU32, getBE_putBE_disjoint _ (by omega),
      getBE_putBE_disjoint _ (by omega),
    rootStateSet, getBE_copyAt_disjoint _ _ (by omega), rootLevel]

theorem rootLevel_init {level : Nat} (small : level < 2 ^ 8) :
    rootLevel (rootInit level) = level := by
  rw [rootLevel, rootInit, getBE_putBE]
  exact Nat.mod_eq_of_lt small

theorem rootSlot_init (level : Nat) (hi : i < ROOT_FANOUT) :
    rootSlot (rootInit level) i = (CELL_FREE, 0, 0) := by
  have fan : ROOT_FANOUT = 6 := rfl
  have state : rootState (rootInit level) i = CELL_FREE := by
    have clear : rootState (rootInit level) i = get2 zeros i := by
      refine get2_congr ?_
      rw [drop, rootInit, putBE_of_not_mem (by omega)]
      rfl
    rw [clear, get2_zeros]
    rfl
  rw [rootSlot, state, rootChild, rootInit, getU32, getU64, getBE_putBE_disjoint _ (by omega),
    getBE_putBE_disjoint _ (by omega), getBE_zeros, getBE_zeros]

theorem nodeSlot_set (b : Bytes) (hi : i < NODE_FANOUT) (hj : j < NODE_FANOUT) (state : st < 4)
    (count : blocks < 2 ^ 32)
    (place : addr < 2 ^ 64) : nodeSlot (nodeChildSet (nodeStateSet b i st) i blocks addr) j =
      if j = i then (st, blocks, addr) else nodeSlot b j := by
  have fan : NODE_FANOUT = 64 := rfl
  have states : NODE_STATES = 24 := rfl
  have start : NODE_CHILDREN = 40 := rfl
  have cells : nodeState (nodeChildSet (nodeStateSet b i st) i blocks addr)
      j = if j = i then st else nodeState b j := by
    have kept : nodeState (nodeChildSet (nodeStateSet b i st) i blocks addr) j = nodeState
        (nodeStateSet b i st) j := by
      refine get2_congr ?_
      simp only [drop]
      rw [nodeChildSet, CHILD_REC, putU64, putBE_of_not_mem (by omega), putU32,
          putBE_of_not_mem (by omega)]
    rw [kept, nodeState, nodeStateSet, drop_copyAt_cells b (by omega), cellGet, cellSet,
        get2_set2 _ _ _ state]
    exact if_congr eq_comm rfl rfl
  have children : nodeChild (nodeChildSet (nodeStateSet b i st) i blocks addr) j =
      if j = i then (blocks, addr) else nodeChild b j := by
    simp only [nodeChild, nodeChildSet, CHILD_REC, putU64, putU32, getU32, getU64]
    by_cases here : j = i
    · rw [if_pos here, here, getBE_putBE_disjoint _ (by omega), getBE_putBE, getBE_putBE,
        Nat.mod_eq_of_lt (show blocks < 256 ^ 4 from count),
        Nat.mod_eq_of_lt (show addr < 256 ^ 8 from place)]
    · rw [if_neg here, getBE_putBE_disjoint _ (by omega), getBE_putBE_disjoint _ (by omega),
          getBE_putBE_disjoint _ (by omega),
        getBE_putBE_disjoint _ (by omega), nodeStateSet, getBE_copyAt_disjoint _ _ (by omega),
        getBE_copyAt_disjoint _ _ (by omega)]
  rw [nodeSlot, cells, children]
  split <;> rfl

theorem node_set_head (b : Bytes) {off n : Nat} (head : off + n ≤ NODE_STATES) :
    getBE (nodeChildSet (nodeStateSet b i st) i blocks addr) off n = getBE b off n := by
  have states : NODE_STATES = 24 := rfl
  have start : NODE_CHILDREN = 40 := rfl
  rw [nodeChildSet, putU64, putU32, getBE_putBE_disjoint _ (by omega),
      getBE_putBE_disjoint _ (by omega), nodeStateSet,
    getBE_copyAt_disjoint _ _ (by omega)]

theorem nodeSlot_copied (p : Bytes) {is : List Nat} (inside : ∀ i ∈ is, i < ROOT_FANOUT) : ∀ buf,
    let copy := is.foldl (fun buf i => nodeChildSet (nodeStateSet buf i (rootState p i)) i
    (rootChild p i).1
      (rootChild p i).2) buf
    getU32 copy 0 = getU32 buf 0 ∧ nodeLevel copy = nodeLevel buf ∧
      ∀ j < NODE_FANOUT, nodeSlot copy j = if j ∈ is then rootSlot p j else nodeSlot buf j := by
  have states : NODE_STATES = 24 := rfl
  induction is with
  | nil => exact fun buf => ⟨rfl, rfl, fun j _ => by rw [if_neg List.not_mem_nil]; rfl⟩
  | cons i rest ih =>
      intro buf
      have root : ROOT_FANOUT = 6 := rfl
      have fan : NODE_FANOUT = 64 := rfl
      have here := inside i List.mem_cons_self
      obtain ⟨magic, level, slots⟩ := ih (fun j member => inside j (List.mem_cons_of_mem _ member))
        (nodeChildSet (nodeStateSet buf i (rootState p i)) i (rootChild p i).1 (rootChild p i).2)
      refine ⟨magic.trans (node_set_head buf (by omega)),
          level.trans (node_set_head buf (by omega)), fun j hj => ?_⟩
      have state : rootState p i < 4 := get2_lt _ _
      have count : (rootChild p i).1 < 2 ^ 32 := getBE_lt p _ 4
      have place : (rootChild p i).2 < 2 ^ 64 := getBE_lt p _ 8
      have set := nodeSlot_set buf (show i < NODE_FANOUT by omega) hj state count place
      rw [List.foldl_cons, slots j hj, set]
      by_cases later : j ∈ rest
      · rw [if_pos later, if_pos (List.mem_cons_of_mem _ later)]
      · rw [if_neg later]
        by_cases this : j = i
        · rw [if_pos this, if_pos (List.mem_cons.mpr (Or.inl this)), this]
          rfl
        · rw [if_neg this, if_neg fun member => (List.mem_cons.mp member).elim this later]

/-- The images agree but for checksum and generation. -/
structure Alike (a b : Bytes) : Prop where
  magic : getU32 a 0 = getU32 b 0
  level : nodeLevel a = nodeLevel b
  slots : ∀ i < NODE_FANOUT, nodeSlot a i = nodeSlot b i

theorem alike_of_bytes {a b : Bytes} {bs : Nat} (large : 2048 ≤ bs)
    (same : ∀ i < bs, i < 4 ∨ 16 ≤ i → a i = b i) :
    Alike a b := by
  have fan : NODE_FANOUT = 64 := rfl
  have states : NODE_STATES = 24 := rfl
  have start : NODE_CHILDREN = 40 := rfl
  have field : ∀ off n, off + n ≤ 4 ∨ 16 ≤ off → off + n ≤ 2048 → getBE a off n = getBE b off n :=
    fun off n away inside => getBE_congr fun i hi => same _ (by omega) (by omega)
  refine ⟨field 0 4 (by omega) (by omega), field 16 1 (by omega) (by omega), fun i hi => ?_⟩
  have state : nodeState a i = nodeState b i := by
    refine get2_congr ?_
    simp only [drop]
    exact same _ (by omega) (by omega)
  have child : nodeChild a i = nodeChild b i := by
    simp only [nodeChild, CHILD_REC, getU32, getU64]
    rw [field _ 4 (by omega) (by omega), field _ 8 (by omega) (by omega)]
  rw [nodeSlot, nodeSlot, state, child]

theorem Alike.trans {a b c : Bytes} (h : Alike a b) (h' : Alike b c) : Alike a c :=
  ⟨h.magic.trans h'.magic, h.level.trans h'.level, fun i hi => (h.slots i hi).trans (h'.slots i hi)⟩

end Images

namespace Work

variable [Crc32c] {w : Work} {addr blk : Nat} {buf data : Bytes}

theorem nodeGet_run (read : w.nodeRead addr = .ok buf) : nodeGet addr w = (.ok buf, w) := by
  rw [nodeGet, bind_ok _ _ get_run]
  show (w.nodeRead addr, w) = _
  rw [read]

theorem nodeRead_put_of_ne (other : blk ≠ addr) :
    (w.put addr data).nodeRead blk = w.nodeRead blk := by
  have found : (w.put addr data).t.find blk = w.t.find blk := by
    rw [put, Txn.find_insert, if_neg other]
  have same : (txnRead blk (w.put addr data)).1 = (txnRead blk w).1 := by
    simp only [txnRead]
    rw [bind_ok _ _ get_run, bind_ok _ _ get_run, found]
    cases w.t.find blk <;> rfl
  rw [nodeRead, nodeRead, same]
  rfl

theorem nodeRead_put (magic : getU32 data 0 = TREE_MAGIC)
    (sum : getU32 data 4 = csum data w.blocksize 4)
    (large : 2048 ≤ w.blocksize) : (w.put addr data).nodeRead addr = .ok
    (clip w.blocksize data) := by
  have found : (w.put addr data).t.find addr = some (clip w.blocksize data) := by
    rw [put, Txn.find_insert, if_pos rfl]
  have read : (txnRead addr (w.put addr data)).1 = .ok (clip w.blocksize data) := by
    rw [txnRead, bind_ok _ _ get_run, found]
    rfl
  have clipped : csum (clip w.blocksize data) w.blocksize 4 = csum data w.blocksize 4 :=
    csum_congr (by omega) fun i hi _ => clip_of_lt _ hi
  rw [nodeRead, read]
  show (if getU32 (clip w.blocksize data) 0 ≠ TREE_MAGIC then _ else if
    getU32 (clip w.blocksize data) 4 ≠ csum (clip w.blocksize data) w.blocksize 4 then _ else _) = _
  have tree : ¬ getBE data 0 4 ≠ TREE_MAGIC := not_not.mpr magic
  have intact : ¬ getBE data 4 4 ≠ csum data w.blocksize 4 := not_not.mpr sum
  rw [getU32, getU32, getBE_clip _ (by omega), getBE_clip _ (by omega), clipped, if_neg tree,
      if_neg intact]

theorem nodeWrite_run (large : 2048 ≤ w.blocksize) (magic : getU32 buf 0 = TREE_MAGIC)
    (addr : Nat) :
    ∃ data, nodeWrite addr buf w = (.ok (), w.put addr data) ∧ getU32 data 0 = TREE_MAGIC ∧
      ∃ buf', (w.put addr data).nodeRead addr = .ok buf' ∧ Alike buf' buf := by
  have sum : getU32 (putU32 (putU64 buf 8 (getU64 buf 8 + 1)) 4
      (csum (putU64 buf 8 (getU64 buf 8 + 1)) w.blocksize 4)) 4 =
      csum (putU32 (putU64 buf 8 (getU64 buf 8 + 1)) 4
      (csum (putU64 buf 8 (getU64 buf 8 + 1)) w.blocksize 4)) w.blocksize 4 := by
    rw [csum_putU32 _ (by omega), getU32, putU32, getBE_putBE]
    exact Nat.mod_eq_of_lt (csum_lt _ _ _)
  have magic' : getU32 (putU32 (putU64 buf 8 (getU64 buf 8 + 1)) 4
      (csum (putU64 buf 8 (getU64 buf 8 + 1)) w.blocksize 4)) 0 = TREE_MAGIC := by
    rw [getU32, putU32, getBE_putBE_disjoint _ (by omega), putU64,
        getBE_putBE_disjoint _ (by omega)]
    exact magic
  refine ⟨_, rfl, magic', _, nodeRead_put magic' sum large, ?_⟩
  refine alike_of_bytes large fun i inside away => ?_
  rw [clip_of_lt _ inside, putU32, putBE_of_not_mem (by omega), putU64, putBE_of_not_mem (by omega)]

end Work

end FiveFs
