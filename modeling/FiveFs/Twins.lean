import FiveFs.Oblivious

/-! Calls of the allocator over two devices that differ in blocks the file system never wrote. -/

namespace FiveFs

open Buffer Prog

/-- A call of the allocator. -/
inductive AllocCall where
  | allocExtent (ag n : Nat)
  | freeExtent (blk n : Nat)
  | allocInode (ag : Nat)
  | freeInode (ino : Nat)

namespace AllocCall

/-- The AG that the call is about. -/
def ag : AllocCall → Nat
  | allocExtent ag _ => ag
  | freeExtent blk _ => (blkSplit blk).1
  | allocInode ag => ag
  | freeInode ino => (blkSplit ino).1

def run [Crc32c] : AllocCall → Prog Work (Option Nat)
  | allocExtent ag n => do return some (← Work.allocExtent ag n)
  | freeExtent blk n => do
      Work.freeExtent blk n
      return none
  | allocInode ag => do return some (← Work.allocInode ag)
  | freeInode ino => do
      Work.freeInode ino
      return none

end AllocCall

namespace Work

variable [Crc32c]

/-- The header of an AG, as read. -/
def headerOf (w : Work) (ag : Nat) : AgHeader :=
  match AgHeader.parse (w.view (blkAddr ag (agHeaderBlock ag))) with
  | .ok hdr => hdr
  | .error _ => {}

/-- The state of a root cell, as read. -/
def cellState (w : Work) (ag c : Nat) : Nat :=
  cellGet (fun off => w.view (blkAddr ag ((w.headerOf ag).allocRoot + off / w.blocksize))
  (off % w.blocksize)) c

/-- The block is in a cell that mkfs made the arena, or that became one since; `w₀` is as mkfs left
it. -/
structure ArenaBlock (w₀ w : Work) (ag l : Nat) : Prop where
  inside : l < (w.headerOf ag).length
  rsvd : w.cellState ag (l / CELL_BLOCKS) = CELL_RSVD
  since : w₀.cellState ag (l / CELL_BLOCKS) ≠ CELL_RSVD ∨
    (w₀.headerOf ag).tblArena ≠ 0 ∧ l / CELL_BLOCKS = (w₀.headerOf ag).tblArena / CELL_BLOCKS

omit [Crc32c] in
/-- The block reads as a table block. -/
def TableBlock (w : Work) (blk : Nat) : Prop := getU32 (w.view blk) 0 = ALLOC_MAGIC

omit [Crc32c] in
/-- Record `idx` of a table block is marked used. -/
def Marked (w : Work) (blk idx : Nat) : Prop := w.TableBlock blk ∧
    (getU32 (w.view blk) 16).testBit idx = true

end Work

/-- A call of a run, with the state before it over either device. -/
structure Turn where
  call : AllocCall
  here : Work
  there : Work

namespace Turn

variable [Crc32c] (t : Turn) (w₀ : Work) (ag l : Nat)

/-- The call left data of its own in an arena block. -/
structure Wrote : Prop where
  arena : w₀.ArenaBlock (t.call.run t.here).2 ag l
  put : ∃ data, (t.call.run t.here).2.t.find (blkAddr ag l) = some data ∧
      t.here.t.find (blkAddr ag l) ≠ some data

/-- The call marked record `idx` of an arena block. -/
structure Allots (idx : Nat) : Prop where
  wrote : t.Wrote w₀ ag l
  after : (t.call.run t.here).2.Marked (blkAddr ag l) idx
  before : ¬ (w₀.ArenaBlock t.here ag l ∧ t.here.Marked (blkAddr ag l) idx)

end Turn

/-- The arena block is the one that mkfs wrote, or a call of the run wrote it. -/
def Written [Crc32c] (w₀ : Work) (ts : List Turn) (ag l : Nat) : Prop :=
  ((w₀.headerOf ag).tblArena ≠ 0 ∧ l = (w₀.headerOf ag).tblArena) ∨ ∃ t ∈ ts, t.Wrote w₀ ag l

/-- mkfs or a call of the run marked the record. -/
def Allotted [Crc32c] (w₀ : Work) (ts : List Turn) (ag l idx : Nat) : Prop :=
  ((w₀.headerOf ag).tblArena ≠ 0 ∧ l = (w₀.headerOf ag).tblArena ∧ w₀.Marked (blkAddr ag l) idx) ∨
    ∃ t ∈ ts, t.Allots w₀ ag l idx

/-- On neither device does an arena block read as a table block by what it held before. -/
def Unsullied [Crc32c] (w₀ : Work) (ts : List Turn) (w v : Work) (ag : Nat) : Prop :=
  ∀ l, w₀.ArenaBlock w ag l → Written w₀ ts ag l ∨ ¬ w.TableBlock (blkAddr ag l) ∧
  ¬ v.TableBlock (blkAddr ag l)

/-- What a call may name: blocks of its AG, and an inode in a block that was written, outside the
RSVD cells. -/
def AllocCall.Fair [Crc32c] (w v : Work) : AllocCall → Prop
  | allocExtent _ _ => True
  | freeExtent blk n => (blkSplit blk).2 + n ≤ (w.headerOf (blkSplit blk).1).length
  | allocInode _ => True
  | freeInode ino =>
      let l := (blkSplit ino).2 / Work.slotsPerBlock w.fs.sb
      l < (w.headerOf (blkSplit ino).1).length ∧
        v.view (blkAddr (blkSplit ino).1 l) = w.view (blkAddr (blkSplit ino).1 l) ∧
        w.cellState (blkSplit ino).1 (l / CELL_BLOCKS) ≠ CELL_RSVD

/-- The block belongs to the allocator: header, root table or arena. -/
def Owned [Crc32c] (w₀ w : Work) (ag l : Nat) : Prop :=
  l = agHeaderBlock ag ∨
    ((w.headerOf ag).allocRoot ≤ l ∧
      l < (w.headerOf ag).allocRoot + (rtGeometry (w.headerOf ag).length w.blocksize).2) ∨
    w₀.ArenaBlock w ag l

/-- What the rest of the file system does between the calls, from `w` over the one device and `v`
over the other: it leaves the blocks of the allocator and the geometry alone, and treats both alike
but for what the devices hold. -/
structure Elsewhere [Crc32c] (w₀ w v w' v' : Work) : Prop where
  alike : ∃ b, v' = w'.onto b
  map : w'.fs.map = w.fs.map
  blocksize : w'.fs.sb.blocksize = w.fs.sb.blocksize
  inodesize : w'.fs.sb.inodesize = w.fs.sb.inodesize
  grown : w.fs.dev.fileLen ≤ w'.fs.dev.fileLen
  inside : ∀ blk data, w'.t.find blk = some data → (blkSplit blk).1 < w.fs.map.entries.length
  owned : ∀ ag < w.fs.map.entries.length, ∀ l, Owned w₀ w ag l →
    w'.view (blkAddr ag l) = w.view (blkAddr ag l) ∧ v'.view (blkAddr ag l) = v.view (blkAddr ag l)
  first : ∀ ag < w.fs.map.entries.length, ¬ w'.TableBlock (blkAddr ag 0) ∧
      ¬ v'.TableBlock (blkAddr ag 0)

/-- A run of allocator calls over two devices, with its turns, the last one first. In the AGs of the
map the calls are those of `P`. -/
inductive History [Crc32c] (P : List Turn → Work → Work → AllocCall → Prop) (w₀ v₀ : Work) :
    List Turn → Work → Work → Prop
  | start : History P w₀ v₀ [] w₀ v₀
  | call {ts : List Turn} {w v : Work} (c : AllocCall) (past : History P w₀ v₀ ts w v)
      (allowed : c.ag < w.fs.map.entries.length → P ts w v c) :
      History P w₀ v₀ (⟨c, w, v⟩ :: ts) (c.run w).2 (c.run v).2
  | elsewhere {ts : List Turn} {w v w' v' : Work} (past : History P w₀ v₀ ts w v)
      (other : Elsewhere w₀ w v w' v') : History P w₀ v₀ ts w' v'

/-- The call names what it may, and no arena block misleads it. -/
structure AllocCall.Clear [Crc32c] (w₀ : Work) (ts : List Turn) (w v : Work) (c : AllocCall) :
    Prop where
  fair : c.Fair w v
  unsullied : Unsullied w₀ ts w v c.ag

namespace Ag

/-- The block is in a cell that became a table arena. -/
def Sited (A : Ag) (w : Work) (l : Nat) : Prop :=
  l < A.length ∧ A.state w.view (l / CELL_BLOCKS) = CELL_RSVD ∧ ¬ A.reserved (l / CELL_BLOCKS)

variable [Crc32c] {A : Ag} {b b' : Bytes} {w w' w₀ w₁ : Work} {K : Common} {hdr : AgHeader}
    {l c : Nat}

theorem header_of (parsed : AgHeader.parse (w.view A.hdrBlk) = .ok hdr) :
    w.headerOf A.num = hdr := by
  rw [Work.headerOf, show blkAddr A.num (agHeaderBlock A.num) = A.hdrBlk from rfl, parsed]

theorem state_of (on : A.On w) (parsed : AgHeader.parse (w.view A.hdrBlk) = .ok hdr) (of : A.Of hdr)
    (c : Nat) :
    w.cellState A.num c = A.state w.view c := by
  rw [Work.cellState, header_of parsed, of.root, on.size]
  rfl

theorem Shared.headerOf (h : A.Shared b w₁ K w) : K.Names A (w.headerOf A.num) := by
  obtain ⟨hdr, parsed, names, -⟩ := h.valid
  exact header_of parsed ▸ names

theorem Shared.cellState (h : A.Shared b w₁ K w) (c : Nat) :
    w.cellState A.num c = A.state w.view c := by
  obtain ⟨hdr, parsed, names, -⟩ := h.valid
  exact state_of h.on parsed names.of c

/-- The reserved cells of the AG are those that mkfs marked RSVD, but for its arena. -/
def Origin (A : Ag) (w₀ : Work) : Prop :=
  ∀ c < A.cells, A.reserved c ↔ w₀.cellState A.num c = CELL_RSVD ∧
    ¬ ((w₀.headerOf A.num).tblArena ≠ 0 ∧ c = (w₀.headerOf A.num).tblArena / CELL_BLOCKS)

theorem Shared.arenaBlock (h : A.Shared b w₁ K w) (origin : A.Origin w₀) :
    w₀.ArenaBlock w A.num l ↔ A.Sited w l := by
  have length := h.headerOf.of.length
  constructor
  · rintro ⟨inside, rsvd, since⟩
    rw [length] at inside
    rw [h.cellState] at rsvd
    refine ⟨inside, rsvd, fun fixed => ?_⟩
    obtain ⟨was, other⟩ := (origin _ (A.lt_cells inside)).mp fixed
    exact since.elim (fun open' => open' was) other
  · rintro ⟨inside, rsvd, open'⟩
    refine ⟨length.symm ▸ inside, (h.cellState _).trans rsvd, ?_⟩
    by_contra neither
    rw [not_or, not_not] at neither
    exact open' ((origin _ (A.lt_cells inside)).mpr neither)

omit [Crc32c] in
theorem fine_of (same : w'.view (A.blk l) = w.view (A.blk l))
    (same' : (w'.onto b').view (A.blk l) = (w.onto b).view (A.blk l)) : A.Fine b' w' l ↔
    A.Fine b w l := by
  rw [Fine, Fine, Same, Same, Magic, Magic, Magic, Magic, same, same']

/-- What is known of a state on its own. -/
def known (A : Ag) (b : Bytes) (w : Work) (recs : Ref → Prop) : Common where
  recs := recs
  rsvd c := c < A.cells ∧ A.state w.view c = CELL_RSVD
  clean := A.Fine b w

theorem Shared.transport (h : A.Shared b w₁ K w) (on : A.On w')
    (owned : ∀ l, l = agHeaderBlock A.num ∨ A.Root l ∨ A.Sited w l →
      w'.view (A.blk l) = w.view (A.blk l) ∧ (w'.onto b').view (A.blk l) = (w.onto b).view
      (A.blk l))
    (zero : ¬ A.Magic w'.view 0 ∧ ¬ A.Magic (w'.onto b').view 0) :
    A.Shared b' w' (A.known b' w' K.recs) w' := by
  have root : ∀ l, A.Root l → w'.view (A.blk l) = w.view (A.blk l) := fun l at_root =>
    (owned l (.inr (.inl at_root))).1
  have same : ∀ l, l = agHeaderBlock A.num ∨ A.Root l ∨ A.Sited w l → A.Same b w l →
      A.Same b' w' l := by
    intro l mine was
    obtain ⟨here, there⟩ := owned l mine
    rw [Same, here, there]
    exact was
  have state : ∀ c < A.cells, A.state w'.view c = A.state w.view c :=
      fun c hc => state_frame root hc
  have rsvd : ∀ c, K.rsvd c → c < A.cells ∧ A.state w'.view c = CELL_RSVD := by
    intro c was
    obtain ⟨hc, now⟩ := h.rsvd c was
    exact ⟨hc, (state c hc).trans now⟩
  have sited : ∀ l, K.Arena A l → A.Sited w l :=
      fun l arena => ⟨arena.1, (h.rsvd _ arena.2.1).2, arena.2.2⟩
  refine ⟨on, Work.Kin.refl w', ⟨fun _ _ => rfl, fun _ => id, fun c hc now => ⟨hc, now⟩,
      fun l _ => id,
    fun l _ changed => (changed rfl).elim⟩,
    same _ (.inl rfl) h.header, ?_, fun l at_root =>
    same l (.inr (.inl at_root)) (h.root l at_root), zero,
    fun c hc fixed => rsvd c (h.reserved c hc fixed), fun c => id, fun c => (fun h => by cases h),
    h.null, ?_, ?_, ?_, fun l => id,
    fun l m => (fun h => by cases h)⟩
  · obtain ⟨hdr, parsed, names, ino⟩ := h.valid
    refine ⟨hdr, ?_, ⟨names.of, ?_⟩, ino⟩
    · rw [hdrBlk, (owned _ (.inl rfl)).1]
      exact parsed
    · rcases names.arena with none | ⟨c, hc, place, was, open'⟩
      · exact .inl none
      · exact .inr ⟨c, hc, place, rsvd c was, open'⟩
  · intro c hc
    rw [rootRef_frame root hc]
    exact h.cell c hc
  · intro r known
    rcases h.place r known with null | ⟨arena, index, was⟩
    · exact .inl null
    · exact .inr ⟨⟨arena.1, rsvd _ arena.2.1, arena.2.2⟩, index,
          same _ (.inr (.inr (sited _ arena))) was⟩
  · intro r known other range i hi
    rcases h.place r known with null | ⟨arena, -, -⟩
    · exact (other null).elim
    · rw [(owned _ (.inr (.inr (sited _ arena)))).1]
      exact h.closed r known other range i hi

/-- The AG has the same structures on both devices. -/
def Twin (A : Ag) (b : Bytes) (w : Work) : Prop := ∃ recs, A.Shared b w (A.known b w recs) w

theorem Shared.twin (h : A.Shared b w₁ K w) : A.Twin b w :=
  ⟨K.recs, h.transport h.on (fun _ _ => ⟨rfl, rfl⟩) h.zero⟩

theorem Twin.stocked {recs : Ref → Prop} (h : A.Shared b w (A.known b w recs) w)
    (fine : ∀ l, A.Sited w l → A.Fine b w l) (parsed : AgHeader.parse (w.view A.hdrBlk) = .ok hdr)
    (k : Nat) :
    (A.known b w recs).Stocked hdr k := by
  obtain ⟨hdr', parsed', names, -⟩ := h.valid
  rw [parsed] at parsed'
  cases parsed'
  rcases names.arena with none | ⟨c, hc, place, rsvd, open'⟩
  · exact .inl none
  · have whole := A.whole hc open'
    refine .inr (.inl fun j hj => ?_)
    have cell : (hdr.tblArena + j) / CELL_BLOCKS = c := by
      rw [place, CELL_BLOCKS] at *
      omega
    have inside : hdr.tblArena + j < A.length := by
      rw [place]
      rw [Nat.add_mul] at whole
      omega
    exact fine _ ⟨inside, cell.symm ▸ rsvd.2, cell.symm ▸ open'⟩

theorem Twin.run_pair {recs : Ref → Prop} (h : A.Shared b w (A.known b w recs) w) (call : AllocCall)
    (num : call.ag = A.num) (fine : ∀ l, A.Sited w l → A.Fine b w l) (fair : call.Fair w (w.onto b))
    (fan : Work.slotsPerBlock w.fs.sb ≤ ALLOC_FANOUT) (some_slot : 0 < Work.slotsPerBlock w.fs.sb) :
    pair (Work.onto b) call.run (fun _ w' => A.Alike b w w') (A.Alike b w) w := by
  have stocked : ∀ hdr, AgHeader.parse (w.view A.hdrBlk) = .ok hdr → ∀ k,
      (A.known b w recs).Stocked hdr k :=
    fun hdr parsed k => Twin.stocked h fine parsed k
  have untaken : ∀ c, ¬ (A.known b w recs).taken c := fun _ => (fun h => by cases h)
  have place : ∀ blk, (blkSplit blk).1 = A.num → blk = A.blk (blkSplit blk).2 := by
    intro blk split
    rw [Ag.blk, ← split, blkAddr, blkSplit]
    omega
  have low : ∀ blk, (blkSplit blk).2 < 2 ^ 32 := fun blk => Nat.mod_lt _ (by decide)
  have length := h.headerOf.of.length
  cases call with
  | allocExtent ag n =>
      cases num
      apply pair_seq (Work.allocExtent_pair (k := 0) h (fun hdr parsed => stocked hdr parsed 2)
          (by decide) n)
      rintro blk w' ⟨K', -, h', -⟩
      exact pair_pure h'.alike
  | freeExtent blk n =>
      dsimp only [AllocCall.ag] at num
      dsimp only [AllocCall.Fair] at fair
      rw [num, length] at fair
      rw [AllocCall.run, place blk num]
      apply pair_seq (pair_mono (Work.freeExtent_pair h untaken fair (low blk)) (fun _ _ => id)
        fun _ same => same.alike)
      exact fun _ w' h' => pair_pure h'.alike
  | allocInode ag =>
      cases num
      apply pair_seq (Work.allocInode_pair h (fun _ => trivial)
          (fun hdr parsed => stocked hdr parsed 3) fan)
      rintro ino w' ⟨K', -, h'⟩
      exact pair_pure h'.alike
  | freeInode ino =>
      dsimp only [AllocCall.ag] at num
      dsimp only [AllocCall.Fair] at fair
      rw [num, length] at fair
      obtain ⟨inside, same, open'⟩ := fair
      rw [h.cellState] at open'
      rw [AllocCall.run, place ino num]
      apply pair_seq (Work.freeInode_pair h untaken (low ino) inside same (fun rsvd => open' rsvd.2)
          trivial fan some_slot)
      exact fun _ w' h' => pair_pure h'.alike

end Ag

namespace Work

variable {w w' : Work} {b : Bytes} {blk : Nat}

theorem Kin.view_find (kin : w.Kin w') (same : w'.t.find blk = w.t.find blk) :
    w'.view blk = w.view blk := by
  rw [view, view, same, kin.blocksize, kin.map, kin.dev]

theorem Kin.onto (kin : w.Kin w') (b : Bytes) : (w.onto b).Kin (w'.onto b) :=
  ⟨by rw [Work.onto, Work.onto, kin.dev], kin.map, kin.sb⟩

theorem view_some {data : Bytes} (put : w.t.find blk = some data) : w.view blk = data := by
  rw [view, put]

theorem txnRead_outside (outside : w.fs.map.entries.length ≤ (blkSplit blk).1)
    (none' : w.t.find blk = none) :
    txnRead blk w = (.error (.bail s!"unmapped block address {hex blk}"), w) := by
  have missing : w.fs.map.resolve blk w.fs.sb.blocksize = none := by
    rw [AgMap.resolve]
    dsimp only
    rw [List.getElem?_eq_none outside]
  have failed : Gofs.readBlock blk w.fs = (.error (.bail s!"unmapped block address {hex blk}"),
      w.fs) := by
    rw [Gofs.readBlock, bind_ok _ _ (get_run (s := w.fs)), bind_error]
    rw [Gofs.resolve, bind_ok _ _ (get_run (s := w.fs)), missing]
    rfl
  rw [txnRead, bind_ok _ _ (get_run (s := w)), none']
  dsimp only
  rw [onFs, zoom, failed]

end Work

theorem AllocCall.run_outside [Crc32c] {w : Work} (c : AllocCall)
    (outside : w.fs.map.entries.length ≤ c.ag)
    (inside : ∀ blk data, w.t.find blk = some data → (blkSplit blk).1 < w.fs.map.entries.length) :
    ∃ m, ∀ b, c.run (w.onto b) = (.error (.bail m), w.onto b) := by
  have missing : ∀ blk, w.fs.map.entries.length ≤ (blkSplit blk).1 → w.t.find blk = none := by
    intro blk far
    rcases found : w.t.find blk with _ | data
    · rfl
    · have near := inside blk data found
      omega
  have far : ∀ ag l, w.fs.map.entries.length ≤ ag → l < 2 ^ 32 → ∃ m, ∀ b,
      Work.txnRead (blkAddr ag l) (w.onto b) = (.error (.bail m), w.onto b) := by
    intro ag l far small
    have split : (blkSplit (blkAddr ag l)).1 = ag := by rw [blkSplit_blkAddr ag small]
    exact ⟨_, fun b => Work.txnRead_outside (w := w.onto b) (split.symm ▸ far)
        (missing _ (split.symm ▸ far))⟩
  have header : ∀ ag, w.fs.map.entries.length ≤ ag → ∃ m, ∀ b,
      Work.readAgHeaderTxn ag (w.onto b) = (.error (.bail m), w.onto b) := by
    intro ag beyond
    have small : agHeaderBlock ag < 2 ^ 32 := by
      rw [agHeaderBlock]
      split <;> decide
    obtain ⟨m, read⟩ := far ag _ beyond small
    exact ⟨m, fun b => by rw [Work.readAgHeaderTxn, bind_error _ _ (read b)]⟩
  cases c with
  | allocExtent ag n =>
      obtain ⟨m, read⟩ := header ag outside
      refine ⟨m, fun b => ?_⟩
      rw [run, bind_error]
      rw [Work.allocExtent, bind_error _ _ (read b)]
  | freeExtent blk n =>
      obtain ⟨m, read⟩ := header _ outside
      refine ⟨m, fun b => ?_⟩
      rw [run, bind_error]
      rw [Work.freeExtent]
      dsimp only
      rw [bind_error]
      exact read b
  | allocInode ag =>
      obtain ⟨m, read⟩ := header ag outside
      refine ⟨m, fun b => ?_⟩
      rw [run, bind_error]
      rw [Work.allocInode, bind_error _ _ (read b)]
  | freeInode ino =>
      have small : (blkSplit ino).2 / Work.slotsPerBlock w.fs.sb < 2 ^ 32 :=
        Nat.lt_of_le_of_lt (Nat.div_le_self _ _) (Nat.mod_lt _ (by decide))
      obtain ⟨m, read⟩ := far _ _ outside small
      refine ⟨m, fun b => ?_⟩
      rw [run, bind_error]
      rw [Work.freeInode]
      dsimp only
      rw [bind_ok _ _ (get_run (s := w.onto b)), bind_error]
      exact read b

theorem Ag.Since.apart {A : Ag} {b : Bytes} {w₁ w : Work} {K : Common} (h : A.Since b w₁ K w)
    {ag l : Nat}
    (small : l < 2 ^ 32) (other : ag ≠ A.num) : w.t.find (blkAddr ag l) = w₁.t.find
    (blkAddr ag l) := by
  apply h.frame
  rw [show blkAddr ag l / 2 ^ 32 = (blkSplit (blkAddr ag l)).1 from rfl, blkSplit_blkAddr ag small]
  exact other

/-- What holds in every state of a run. -/
structure Level [Crc32c] (w₀ : Work) (ts : List Turn) (w v : Work) : Prop where
  map : w.fs.map = w₀.fs.map
  twins : ∃ b, v = w.onto b ∧ ∀ k < w₀.fs.map.entries.length, ∃ A : Ag, A.num = k ∧ A.Origin w₀ ∧
      A.Twin b w
  inside : ∀ blk data, w.t.find blk = some data → (blkSplit blk).1 < w₀.fs.map.entries.length
  some_slot : 0 < Work.slotsPerBlock w.fs.sb
  fan : Work.slotsPerBlock w.fs.sb ≤ ALLOC_FANOUT
  written : ∀ ag < w₀.fs.map.entries.length, ∀ l, Written w₀ ts ag l →
    w₀.ArenaBlock w ag l ∧ (v.view (blkAddr ag l) = w.view (blkAddr ag l) ∨
      ¬ w.TableBlock (blkAddr ag l) ∧ ¬ v.TableBlock (blkAddr ag l))
  marked : ∀ ag < w₀.fs.map.entries.length, ∀ l idx, Written w₀ ts ag l →
      w.Marked (blkAddr ag l) idx →
    Allotted w₀ ts ag l idx
  results : ∀ t ∈ ts, (t.call.run t.here).1 = (t.call.run t.there).1

namespace Level

variable [Crc32c] {w₀ w v w' v' : Work} {ts : List Turn} {c : AllocCall}

theorem elsewhere (h : Level w₀ ts w v) (other : Elsewhere w₀ w v w' v') : Level w₀ ts w' v' := by
  obtain ⟨b, rfl, twins⟩ := h.twins
  obtain ⟨b', rfl⟩ := other.alike
  have size : w'.blocksize = w.blocksize := other.blocksize
  have map := h.map
  have slots : Work.slotsPerBlock w'.fs.sb = Work.slotsPerBlock w.fs.sb := by
    rw [Work.slotsPerBlock, Work.slotsPerBlock, other.blocksize, other.inodesize]
  -- the blocks of each AG's allocator, in terms of the AG
  have moved : ∀ k < w₀.fs.map.entries.length, ∃ A : Ag, A.num = k ∧ A.Origin w₀ ∧
      ∃ recs recs', A.Shared b w (A.known b w recs) w ∧ A.Shared b' w' (A.known b' w' recs') w' ∧
        ∀ l, l = agHeaderBlock A.num ∨ A.Root l ∨ A.Sited w l →
          w'.view (A.blk l) = w.view (A.blk l) ∧ (w'.onto b').view (A.blk l) = (w.onto b).view
          (A.blk l) := by
    intro k hk
    obtain ⟨A, rfl, origin, recs, shared⟩ := twins k hk
    rw [← map] at hk
    have of := shared.headerOf.of
    have owned : ∀ l, l = agHeaderBlock A.num ∨ A.Root l ∨ A.Sited w l →
        w'.view (A.blk l) = w.view (A.blk l) ∧ (w'.onto b').view (A.blk l) = (w.onto b).view
        (A.blk l) := by
      rintro l (header | root | sited)
      · exact other.owned A.num hk l (.inl header)
      · refine other.owned A.num hk l (.inr (.inl ?_))
        rw [of.length, of.root, shared.on.size]
        exact root
      · exact other.owned A.num hk l (.inr (.inr ((shared.arenaBlock origin).mpr sited)))
    have on : A.On w' := by
      refine ⟨fun l inside => ?_, size.trans shared.on.size⟩
      obtain ⟨off, found, room⟩ := shared.on.mapped l inside
      have grown := other.grown
      rw [← other.map, ← size] at found
      exact ⟨off, found, by omega⟩
    exact ⟨A, rfl, origin, recs, recs, shared, shared.transport on owned (other.first A.num hk),
        owned⟩
  refine ⟨other.map.trans map, ⟨b', rfl, fun k hk => ?_⟩,
      fun blk data found => map ▸ other.inside blk data found,
    slots.symm ▸ h.some_slot, slots.symm ▸ h.fan, fun ag hag l written => ?_,
    fun ag hag l idx written marked => ?_,
    h.results⟩
  · obtain ⟨A, num, origin, -, recs, -, shared, -⟩ := moved k hk
    exact ⟨A, num, origin, recs, shared⟩
  · obtain ⟨A, rfl, origin, recs, recs', shared, shared', owned⟩ := moved ag hag
    obtain ⟨arena, fine⟩ := h.written A.num hag l written
    have sited := (shared.arenaBlock origin).mp arena
    obtain ⟨here, there⟩ := owned l (.inr (.inr sited))
    have state : A.state w'.view (l / CELL_BLOCKS) = A.state w.view (l / CELL_BLOCKS) :=
      state_frame (fun l root => (owned l (.inr (.inl root))).1) (A.lt_cells sited.1)
    refine ⟨(shared'.arenaBlock origin).mpr ⟨sited.1, state.trans sited.2.1, sited.2.2⟩, ?_⟩
    exact (Ag.fine_of here there).mpr fine
  · obtain ⟨A, rfl, origin, recs, recs', shared, shared', owned⟩ := moved ag hag
    have sited := (shared.arenaBlock origin).mp (h.written A.num hag l written).1
    have here : w'.view (blkAddr A.num l) = w.view (blkAddr A.num l) :=
        (owned l (.inr (.inr sited))).1
    refine h.marked A.num hag l idx written ?_
    rw [Work.Marked, Work.TableBlock, here] at marked
    exact marked

theorem written_cons {t : Turn} {ag l : Nat} :
    Written w₀ (t :: ts) ag l ↔ Written w₀ ts ag l ∨ t.Wrote w₀ ag l := by
  rw [Written, Written, List.exists_mem_cons_iff, or_assoc, or_comm (a := t.Wrote w₀ ag l)]

theorem allotted_cons {t : Turn} {ag l idx : Nat} :
    Allotted w₀ (t :: ts) ag l idx ↔ Allotted w₀ ts ag l idx ∨ t.Allots w₀ ag l idx := by
  rw [Allotted, Allotted, List.exists_mem_cons_iff, or_assoc, or_comm (a := t.Allots w₀ ag l idx)]

theorem outside (h : Level w₀ ts w v) (far : w₀.fs.map.entries.length ≤ c.ag) :
    Level w₀ (⟨c, w, v⟩ :: ts) (c.run w).2 (c.run v).2 := by
  obtain ⟨b, same, -⟩ := h.twins
  rw [← h.map] at far
  obtain ⟨m, fails⟩ := c.run_outside far (h.map ▸ h.inside)
  have here : c.run w = (.error (.bail m), w) := fails w.fs.dev.bytes
  have there : c.run v = (.error (.bail m), v) := same ▸ fails b
  have idle : ∀ ag l, ¬ Turn.Wrote ⟨c, w, v⟩ w₀ ag l := by
    rintro ag l ⟨-, data, after, before⟩
    dsimp only at after before
    rw [here] at after
    exact before after
  rw [here, there]
  refine ⟨h.map, h.twins, h.inside, h.some_slot, h.fan, fun ag hag l written => ?_,
      fun ag hag l idx written marked => ?_,
    fun t member => ?_⟩
  · exact h.written ag hag l ((written_cons.mp written).resolve_right (idle ag l))
  · exact allotted_cons.mpr (.inl (h.marked ag hag l idx
        ((written_cons.mp written).resolve_right (idle ag l)) marked))
  · rcases List.mem_cons.mp member with rfl | past
    · dsimp only
      rw [here, there]
    · exact h.results t past

theorem landed (h : Level w₀ ts w v) (near : c.ag < w₀.fs.map.entries.length)
    (clear : Unsullied w₀ ts w v c.ag) (fair : c.Fair w v) :
    ∃ b, v = w.onto b ∧ c.run v = ((c.run w).1, (c.run w).2.onto b) ∧
      (∀ k < w₀.fs.map.entries.length, ∃ A : Ag, A.num = k ∧ A.Origin w₀ ∧ A.Twin b w) ∧
      ∃ A : Ag, A.num = c.ag ∧ A.Origin w₀ ∧ A.Twin b w ∧ A.Alike b w (c.run w).2 := by
  obtain ⟨b, rfl, twins⟩ := h.twins
  obtain ⟨A, num, origin, recs, shared⟩ := twins c.ag near
  have fine : ∀ l, A.Sited w l → A.Fine b w l := by
    intro l sited
    have arena := (shared.arenaBlock origin).mpr sited
    rw [num] at arena
    rw [Ag.Fine, Ag.Same, Ag.Magic, Ag.Magic, Ag.blk, num]
    exact (clear l arena).elim (fun written => (h.written c.ag near l written).2) .inr
  obtain ⟨same, post⟩ := Ag.Twin.run_pair shared c num.symm fine fair h.fan h.some_slot
  have after : A.Alike b w (c.run w).2 := by
    unfold wp at post
    rcases run : c.run w with ⟨e | out, w'⟩
    · rw [run] at post
      exact post
    · rw [run] at post
      exact post
  exact ⟨b, rfl, same, twins, A, num, origin, ⟨recs, shared⟩, after⟩

variable {A : Ag} {b : Bytes}

theorem twins_after (twin : A.Twin b w) (after : A.Alike b w w') {A' : Ag}
    (same : A'.num = A.num → A' = A) (twin' : A'.Twin b w) :
    A'.Twin b w' ∧ ∀ l, A'.Sited w l → A'.Sited w' l ∧ (A'.Fine b w l → A'.Fine b w' l) := by
  obtain ⟨K, after⟩ := after
  have kin := after.kin
  have since := after.since
  by_cases here : A'.num = A.num
  · obtain rfl := same here
    refine ⟨after.twin, fun l sited => ⟨⟨sited.1, ?_, sited.2.2⟩, fun was => ?_⟩⟩
    · exact (after.rsvd _ (since.rsvd _ (A'.lt_cells sited.1) sited.2.1)).2
    · exact after.clean l (since.clean l sited.1 was)
  · obtain ⟨recs', shared'⟩ := twin'
    have views : ∀ l < A'.length, w'.view (A'.blk l) = w.view (A'.blk l) ∧
        (w'.onto b).view (A'.blk l) = (w.onto b).view (A'.blk l) := by
      intro l inside
      have find := since.apart (Nat.lt_trans inside A'.length_lt) here
      exact ⟨kin.view_find find, (kin.onto b).view_find find⟩
    refine ⟨⟨recs', shared'.transport (shared'.on.kin kin) (fun l owned => views l ?_) ?_⟩,
      fun l sited => ⟨⟨sited.1, ?_, sited.2.2⟩, ?_⟩⟩
    · rcases owned with rfl | root | sited
      · exact A'.hdr_lt_length
      · exact root.lt
      · exact sited.1
    · rw [Ag.Magic, Ag.Magic, (views 0 A'.length_pos).1, (views 0 A'.length_pos).2]
      exact shared'.zero
    · rw [state_frame (fun l root => (views l root.lt).1) (A'.lt_cells sited.1)]
      exact sited.2.1
    · exact (Ag.fine_of (views l sited.1).1 (views l sited.1).2).mpr

theorem find_idle (after : A.Alike b w (c.run w).2) {ag l : Nat}
    (arena : w₀.ArenaBlock (c.run w).2 ag l) (idle : ¬ Turn.Wrote ⟨c, w, v⟩ w₀ ag l) :
    (c.run w).2.t.find (blkAddr ag l) = w.t.find (blkAddr ag l) := by
  obtain ⟨K, after⟩ := after
  rcases found : (c.run w).2.t.find (blkAddr ag l) with _ | data
  · exact (after.since.grows _ found).symm
  · by_contra other
    exact idle ⟨arena, data, found, Ne.symm other⟩

/-- A call in one of the AGs. -/
theorem call (h : Level w₀ ts w v) (near : c.ag < w₀.fs.map.entries.length)
    (clear : Unsullied w₀ ts w v c.ag)
    (fair : c.Fair w v) : Level w₀ (⟨c, w, v⟩ :: ts) (c.run w).2 (c.run v).2 := by
  obtain ⟨b, rfl, same, twins, A, num, origin, twin, after⟩ := h.landed near clear fair
  have result : (c.run w).1 = (c.run (w.onto b)).1 := by rw [same]
  have there : (c.run (w.onto b)).2 = (c.run w).2.onto b := by rw [same]
  rw [there]
  have moved : ∀ k < w₀.fs.map.entries.length, ∃ A' : Ag, A'.num = k ∧ A'.Origin w₀ ∧
      A'.Twin b w ∧ A'.Twin b (c.run w).2 ∧
      ∀ l, A'.Sited w l → A'.Sited (c.run w).2 l ∧ (A'.Fine b w l → A'.Fine b (c.run w).2 l) := by
    intro k hk
    by_cases here : k = c.ag
    · exact ⟨A, num.trans here.symm, origin, twin, twins_after twin after (fun _ => rfl) twin⟩
    · obtain ⟨A', num', origin', twin'⟩ := twins k hk
      refine ⟨A', num', origin', twin', twins_after twin after (fun equal => ?_) twin'⟩
      exact (here (num'.symm.trans (equal.trans num))).elim
  have written : ∀ ag < w₀.fs.map.entries.length, ∀ l, Written w₀ (⟨c, w, w.onto b⟩ :: ts) ag l →
      w₀.ArenaBlock (c.run w).2 ag l ∧
        (((c.run w).2.onto b).view (blkAddr ag l) = (c.run w).2.view (blkAddr ag l) ∨
        ¬ (c.run w).2.TableBlock (blkAddr ag l) ∧ ¬ ((c.run w).2.onto b).TableBlock
        (blkAddr ag l)) := by
    intro ag hag l written
    rcases written_cons.mp written with past | ⟨arena, data, put, -⟩
    · obtain ⟨A', rfl, origin', ⟨recs', shared'⟩, ⟨recs'', shared''⟩, stays⟩ := moved ag hag
      obtain ⟨arena, was⟩ := h.written A'.num hag l past
      obtain ⟨sited, still⟩ := stays l ((shared'.arenaBlock origin').mp arena)
      exact ⟨(shared''.arenaBlock origin').mpr sited, still was⟩
    · exact ⟨arena, .inl ((Work.view_some (w := (c.run w).2.onto b) put).trans
          (Work.view_some put).symm)⟩
  obtain ⟨K, shared⟩ := id after
  have kin := shared.kin
  have since := shared.since
  have slots : Work.slotsPerBlock (c.run w).2.fs.sb = Work.slotsPerBlock w.fs.sb := by
    rw [Work.slotsPerBlock, Work.slotsPerBlock, kin.inodesize]
    exact congrArg (· / w.fs.sb.inodesize) kin.blocksize
  refine ⟨kin.map.trans h.map, ⟨b, rfl, fun k hk => ?_⟩, fun blk data found => ?_,
      slots.symm ▸ h.some_slot,
    slots.symm ▸ h.fan, written, fun ag hag l idx now marked => ?_, fun t member => ?_⟩
  · obtain ⟨A', num', origin', -, twin', -⟩ := moved k hk
    exact ⟨A', num', origin', twin'⟩
  · by_cases here : blk / 2 ^ 32 = A.num
    · show blk / 2 ^ 32 < _
      rw [here, num]
      exact near
    · rw [since.frame blk here] at found
      exact h.inside blk data found
  · have arena := (written ag hag l now).1
    by_cases wrote : Turn.Wrote ⟨c, w, w.onto b⟩ w₀ ag l
    · refine allotted_cons.mpr (or_iff_not_imp_right.mpr fun none' => ?_)
      have before : w₀.ArenaBlock w ag l ∧ w.Marked (blkAddr ag l) idx := by
        by_contra other
        exact none' ⟨wrote, marked, other⟩
      have home : ag = c.ag := by
        by_contra other
        obtain ⟨A', rfl, origin', -, ⟨recs'', shared''⟩, -⟩ := moved ag hag
        have inside := ((shared''.arenaBlock origin').mp arena).1
        obtain ⟨-, data, put, new⟩ := wrote
        dsimp only at put new
        rw [since.apart (Nat.lt_trans inside A'.length_lt) (num ▸ other)] at put
        exact new put
      subst home
      have past := (clear l before.1).resolve_right fun plain => plain.1 before.2.1
      exact h.marked c.ag hag l idx past before.2
    · have past := (written_cons.mp now).resolve_right wrote
      rw [Work.Marked, Work.TableBlock, kin.view_find (find_idle after arena wrote)] at marked
      exact allotted_cons.mpr (.inl (h.marked ag hag l idx past marked))
  · rcases List.mem_cons.mp member with rfl | past
    · exact result
    · exact h.results t past

theorem unsullied_call (h : Level w₀ ts w v) (near : c.ag < w₀.fs.map.entries.length)
    (clear : Unsullied w₀ ts w v c.ag) (fair : c.Fair w v) {ag : Nat}
    (plain : ∀ l, w₀.ArenaBlock (c.run w).2 ag l →
      Written w₀ ts ag l ∨ ¬ w.TableBlock (blkAddr ag l) ∧ ¬ v.TableBlock (blkAddr ag l)) :
    Unsullied w₀ (⟨c, w, v⟩ :: ts) (c.run w).2 (c.run v).2 ag := by
  obtain ⟨b, rfl, same, -, A, -, -, -, after⟩ := h.landed near clear fair
  rw [same]
  intro l arena
  by_cases wrote : Turn.Wrote ⟨c, w, w.onto b⟩ w₀ ag l
  · exact .inl (written_cons.mpr (.inr wrote))
  · have find := find_idle after arena wrote
    obtain ⟨K, shared⟩ := after
    refine (plain l arena).imp (fun past => written_cons.mpr (.inl past)) ?_
    rw [Work.TableBlock, Work.TableBlock, Work.TableBlock, Work.TableBlock,
        shared.kin.view_find find,
      (shared.kin.onto b).view_find find]
    exact id
theorem of_history {v₀ : Work} (start : Level w₀ [] w₀ v₀)
    (run : History (AllocCall.Clear w₀) w₀ v₀ ts w v) :
    Level w₀ ts w v := by
  induction run with
  | start => exact start
  | call c past allowed ih =>
      by_cases near : c.ag < w₀.fs.map.entries.length
      · have clear := allowed (ih.map.symm ▸ near)
        exact ih.call near clear.unsullied clear.fair
      · exact ih.outside (Nat.le_of_not_lt near)
  | elsewhere past other ih => exact ih.elsewhere other

theorem allotted (h : Level w₀ ts w v) {ag l idx : Nat} (near : ag < w₀.fs.map.entries.length)
    (clear : Unsullied w₀ ts w v ag) (arena : w₀.ArenaBlock w ag l)
    (marked : w.Marked (blkAddr ag l) idx ∨ v.Marked (blkAddr ag l) idx) :
    Allotted w₀ ts ag l idx := by
  have written : Written w₀ ts ag l := by
    refine (clear l arena).resolve_right fun plain => ?_
    exact marked.elim (fun here => plain.1 here.1) fun there => plain.2 there.1
  refine h.marked ag near l idx written (marked.elim id fun there => ?_)
  rcases (h.written ag near l written).2 with same | plain
  · rw [Work.Marked, Work.TableBlock, same] at there
    exact there
  · exact (plain.2 there.1).elim

end Level

end FiveFs
