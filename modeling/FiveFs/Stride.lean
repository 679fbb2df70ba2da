import FiveFs.Leftover
import FiveFs.Slots
import FiveFs.Straddle

/-! Inode slots lie a stride of `inodesize` bytes apart, and an inode is stored in 256 bytes:
whether the writes to one slot leave the others alone. -/

namespace FiveFs

open Buffer Prog

namespace Ag

variable [Crc32c] {A : Ag} {b : Bytes} {w w' : Work} {K : Common} {l : Nat}

/-- The structures of the AG are in order: every reference leads to a record in an arena block. -/
def Structured (A : Ag) (w : Work) : Prop := A.Twin w.fs.dev.bytes w

theorem Shared.untouched (h : A.Shared b w K w) :
    A.Shared b w { K with touched := fun _ => False } w :=
  ⟨h.on, h.kin, ⟨h.since.frame, h.since.grows, h.since.rsvd, h.since.clean,
  fun _ _ changed => (changed rfl).elim⟩,
    h.header, h.valid.imp fun _ ⟨parsed, names, ino⟩ => ⟨parsed, ⟨names.of, names.arena⟩, ino⟩,
    h.root, h.zero,
    h.reserved, h.rsvd, h.taken, h.null, h.cell, h.place, h.closed, h.clean, h.spare⟩

theorem Structured.on (sound : A.Structured w) : A.On w := sound.choose_spec.on

theorem Structured.cellState (sound : A.Structured w) (c : Nat) :
    w.cellState A.num c = A.state w.view c :=
  sound.choose_spec.cellState c

theorem Structured.length (sound : A.Structured w) : (w.headerOf A.num).length = A.length := by
  obtain ⟨recs, shared⟩ := sound
  obtain ⟨hdr, parsed, names, -⟩ := shared.valid
  rw [header_of parsed, names.of.length]

theorem Structured.put (sound : A.Structured w) (inside : l < A.length)
    (open' : A.state w.view (l / CELL_BLOCKS) ≠ CELL_RSVD) (data : Bytes) :
    A.Structured (w.put (A.blk l) data) ∧
      ∀ c < A.cells, A.state (w.put (A.blk l) data).view c = A.state w.view c := by
  obtain ⟨recs, shared⟩ := sound
  refine ⟨(Work.put_outside shared inside (fun rsvd => open' rsvd.2) trivial data).twin,
      fun c hc => ?_⟩
  refine state_frame (fun l' root => view_put_ne data ?_) hc
  rintro rfl
  have cells := A.lt_cells inside
  exact open' (shared.rsvd _ (shared.reserved _ cells (A.root_reserved root))).2

end Ag

namespace Work

variable [Crc32c] {A : Ag} {w w' w'' : Work} {hdr : AgHeader} {l c ino : Nat}

theorem slotRecAt_refined (on : A.On w) (of : A.Of hdr) (inside : l < A.length)
    {found : Ref × Ref × Nat}
    (run : slotRecAt hdr l w = (.ok (some found), w)) :
    A.state w.view (l / CELL_BLOCKS) = CELL_REFINED := by
  by_contra other
  have state : cellGet (A.table w.view) (l / CELL_BLOCKS) ≠ CELL_REFINED := other
  rw [slotRecAt, bind_ok _ _ (rtState_run on of (A.lt_cells inside)), ite_run, if_pos state] at run
  cases run

theorem releaseSlot_frame (sound : A.Structured w) (inside : l < A.length) {s : Nat}
    (hs : s < ALLOC_FANOUT)
    (left : (releaseSlot ino A.num l s w).2 = w') :
    w.Kin w' ∧ (∀ blk, blk / 2 ^ 32 ≠ A.num → w'.t.find blk = w.t.find blk) ∧
      ∀ l' < A.length, A.state w.view (l' / CELL_BLOCKS) ≠ CELL_RSVD →
      w'.t.find (A.blk l') = w.t.find (A.blk l') := by
  obtain ⟨recs, shared⟩ := sound
  have both := releaseSlot_pair shared.untouched (fun _ => (fun h => by cases h)) inside hs ino
  have after := wp_end both.2
  rw [left] at after
  refine ⟨after.kin, after.since.frame, fun l' inside' open' => ?_⟩
  by_contra changed
  rcases after.since.touched l' inside' changed with ⟨-, rsvd⟩ | named
  · exact open' rsvd
  · exact named

/-- The inode number names an allocated slot: the block has a slot record, where the slot is FULL.
-/
structure Occupied (w : Work) (ino : Nat) : Prop where
  inside : (blkSplit ino).2 / slotsPerBlock w.fs.sb < (w.headerOf (blkSplit ino).1).length
  full : ∃ l3 l1 j l3rec,
    slotRecAt (w.headerOf (blkSplit ino).1) ((blkSplit ino).2 / slotsPerBlock w.fs.sb)
    w = (.ok (some (l3, l1, j)), w) ∧
      recRead (blkSplit ino).1 l3 w = (.ok l3rec, w) ∧
      recState l3rec ((blkSplit ino).2 % slotsPerBlock w.fs.sb) = CELL_FULL

omit [Crc32c] in
/-- The volume has in the block what the transaction has there. -/
structure Committed (w : Work) (blk : Nat) (g : Gofs) : Prop where
  blocksize : g.sb.blocksize = w.fs.sb.blocksize
  inodesize : g.sb.inodesize = w.fs.sb.inodesize
  map : g.map = w.fs.map
  length : w.fs.dev.fileLen ≤ g.dev.fileLen
  held : ∀ off, g.map.resolve blk g.sb.blocksize = some off →
      clip w.blocksize (drop off g.dev.bytes) = w.view blk

/-- `w'` is `w` but for the slot of the inode and for blocks of the allocator. -/
structure SlotOnly (w : Work) (ino : Nat) (w' : Work) : Prop where
  slot : ∀ x < w.blocksize, x < (w.fs.inodeBlockOff ino).2 ∨
      (w.fs.inodeBlockOff ino).2 + w.fs.sb.inodesize ≤ x →
    w'.view (w.fs.inodeBlockOff ino).1 x = w.view (w.fs.inodeBlockOff ino).1 x
  group : ∀ blk, (blkSplit blk).1 ≠ (blkSplit ino).1 → w'.t.find blk = w.t.find blk
  block : ∀ l < (w.headerOf (blkSplit ino).1).length,
      w.cellState (blkSplit ino).1 (l / CELL_BLOCKS) ≠ CELL_RSVD →
    blkAddr (blkSplit ino).1 l ≠ (w.fs.inodeBlockOff ino).1 →
    w'.t.find (blkAddr (blkSplit ino).1 l) = w.t.find (blkAddr (blkSplit ino).1 l)

/-- What is written to slot `i` stays there and is read back, and slot `j` reads as before, also
after a `free_inode` that fails. -/
structure SlotsApart (w : Work) (i j : Nat) (inode : Inode) : Prop where
  write : ∃ w', writeInodeTxn i inode w = (.ok (), w') ∧ w.SlotOnly i w' ∧
      (∀ blk, blk ≠ (w.fs.inodeBlockOff i).1 → w'.t.find blk = w.t.find blk) ∧
      (readInodeTxn i w').1 = .ok inode ∧
    (readInodeTxn j w').1 = (readInodeTxn j w).1 ∧
    ∀ g, w'.Committed (w.fs.inodeBlockOff i).1 g → (Gofs.readInode i g).1 = .ok inode
  free : w.SlotOnly i (freeInode i w).2 ∧
      (readInodeTxn j (freeInode i w).2).1 = (readInodeTxn j w).1
  committed : ∀ g, w.Committed (w.fs.inodeBlockOff i).1 g →
      (Gofs.readInode i g).1 = (readInodeTxn i w).1

section Reads

variable {blk off : Nat}

omit [Crc32c] in
/-- What a read of the block gives. -/
def contents (w : Work) (blk : Nat) : Except Err Bytes :=
  match w.t.find blk with
  | some b => .ok b
  | none =>
      match w.fs.map.resolve blk w.blocksize with
      | none => .error (.bail s!"unmapped block address {hex blk}")
      | some off => (w.fs.dev.pread off w.blocksize).mapError .bail

omit [Crc32c] in
theorem txnRead_eq (w : Work) (blk : Nat) : txnRead blk w = (w.contents blk, w) := by
  rw [txnRead, bind_ok _ _ (get_run (s := w)), contents]
  cases hit : w.t.find blk with
  | some b => rfl
  | none =>
      have volume : Gofs.readBlock blk w.fs = (match w.fs.map.resolve blk w.blocksize with
          | none => .error (.bail s!"unmapped block address {hex blk}")
          | some off => (w.fs.dev.pread off w.blocksize).mapError .bail, w.fs) := by
        rw [Gofs.readBlock, bind_ok _ _ (get_run (s := w.fs))]
        cases found : w.fs.map.resolve blk w.blocksize with
        | none =>
            apply bind_error
            rw [Gofs.resolve, bind_ok _ _ (get_run (s := w.fs)),
                show w.fs.sb.blocksize = w.blocksize from rfl, found]
            rfl
        | some off =>
            have resolved : Gofs.resolve blk w.fs = (.ok off, w.fs) := by
              rw [Gofs.resolve, bind_ok _ _ (get_run (s := w.fs)),
                  show w.fs.sb.blocksize = w.blocksize from rfl, found]
              rfl
            rw [bind_ok _ _ resolved]
            rfl
      dsimp only
      rw [onFs, zoom, volume]

/-- The inode at an offset of a block. -/
def inodeFrom (ino : Nat) (b : Bytes) : Except Err Inode :=
  match Inode.parse b INODE_SIZE with
  | .ok i => .ok i
  | .error e => .error (.bail s!"inode {hex ino}: {e}")

theorem readInodeTxn_eq (ino : Nat) (w : Work) : readInodeTxn ino w =
    ((w.contents (w.fs.inodeBlockOff ino).1).bind fun buf =>
      if (w.fs.inodeBlockOff ino).2 + INODE_SIZE > w.blocksize then
        .error (.panic "range end index out of range for slice")
      else inodeFrom ino (drop (w.fs.inodeBlockOff ino).2 buf), w) := by
  rw [readInodeTxn, bind_ok _ _ (get_run (s := w))]
  generalize w.fs.inodeBlockOff ino = place
  obtain ⟨blk, off⟩ := place
  dsimp only
  cases found : w.contents blk with
  | error e =>
      have read : txnRead blk w = (.error e, w) := by rw [txnRead_eq, found]
      rw [bind_error _ _ read]
      rfl
  | ok buf =>
      have read : txnRead blk w = (.ok buf, w) := by rw [txnRead_eq, found]
      rw [bind_ok _ _ read]
      dsimp only [Except.bind]
      by_cases range : off + INODE_SIZE > w.blocksize
      · rw [if_pos range]
        apply bind_error
        rw [inodeRange, bind_ok _ _ (get_run (s := w)), ite_run, if_pos range]
        rfl
      · have inside : inodeRange off w = (.ok (), w) := by
          rw [inodeRange, bind_ok _ _ (get_run (s := w)), ite_run, if_neg range]
          rfl
        rw [if_neg range, bind_ok _ _ inside, inodeFrom]
        cases Inode.parse (drop off buf) INODE_SIZE <;> rfl

theorem readInodeTxn_run (place : w.fs.inodeBlockOff ino = (blk, off)) (mapped : w.Mapped blk)
    (inside : off + INODE_SIZE ≤ w.blocksize) : (readInodeTxn ino w).1 = inodeFrom ino
    (drop off (w.view blk)) := by
  have found : w.contents blk = .ok (w.view blk) := by
    have run := txnRead_eq w blk
    rw [txnRead_run mapped, Prod.mk.injEq] at run
    exact run.1.symm
  rw [readInodeTxn_eq, place]
  dsimp only
  rw [found]
  exact if_neg (Nat.not_lt.mpr inside)

theorem readInodeTxn_find (kin : w.Kin w') (same : w'.t.find (w.fs.inodeBlockOff ino).1 = w.t.find
    (w.fs.inodeBlockOff ino).1) :
    (readInodeTxn ino w').1 = (readInodeTxn ino w).1 := by
  have size : w'.blocksize = w.blocksize := kin.blocksize
  have place : w'.fs.inodeBlockOff ino = w.fs.inodeBlockOff ino := by
    have sizes : w'.fs.sb.blocksize = w.fs.sb.blocksize := size
    rw [Gofs.inodeBlockOff, Gofs.inodeBlockOff, sizes, kin.inodesize]
  have read : w'.contents (w.fs.inodeBlockOff ino).1 = w.contents (w.fs.inodeBlockOff ino).1 := by
    rw [contents, contents, same, size, kin.map, kin.dev]
  rw [readInodeTxn_eq, readInodeTxn_eq, place, read, size]

end Reads

section Writes

variable {blk off : Nat} {inode : Inode}

theorem writeInodeTxn_run (place : w.fs.inodeBlockOff ino = (blk, off)) (mapped : w.Mapped blk)
    (inside : off + INODE_SIZE ≤ w.blocksize) :
    writeInodeTxn ino inode w = (.ok (), w.put blk
    (copyAt (w.view blk) off INODE_SIZE inode.toBytes)) := by
  have range : inodeRange off w = (.ok (), w) := by
    rw [inodeRange, bind_ok _ _ (get_run (s := w)), ite_run, if_neg (Nat.not_lt.mpr inside)]
    rfl
  rw [writeInodeTxn, bind_ok _ _ (get_run (s := w)), place]
  dsimp only
  rw [bind_ok _ _ (txnRead_run mapped), bind_ok _ _ range]
  rfl

omit [Crc32c] in
theorem view_put_copyAt {x n : Nat} (data : Bytes) (hx : x < w.blocksize) :
    (w.put blk (copyAt (w.view blk) off n data)).view blk x = copyAt (w.view blk) off n data x := by
  rw [view_put, Function.update_self, clip_of_lt _ hx]

theorem inodeFrom_congr {a b : Bytes} (same : ∀ k < INODE_SIZE, a k = b k) :
    inodeFrom ino a = inodeFrom ino b := by
  rw [inodeFrom, inodeFrom, Inode.parse_congr same]

theorem magic_of_inodeFrom {b : Bytes} (ok : inodeFrom ino b = .ok inode) :
    getU16 b 0 = INODE_MAGIC := by
  by_contra magic
  rw [inodeFrom, Inode.parse, if_neg (Nat.lt_irrefl _), if_pos magic] at ok
  cases ok

theorem inodeFrom_stored {b : Bytes} (fits : inode.Fits)
    (same : ∀ k < INODE_SIZE, b k = inode.toBytes k) :
    inodeFrom ino b = .ok inode := by
  have parsed : Inode.parse inode.toBytes INODE_SIZE = .ok inode := by
    rw [Inode.parse_wrap, Inode.wrap_of_fits fits]
  rw [inodeFrom_congr same, inodeFrom, parsed]

end Writes

section Slots

variable {i j : Nat} {inode : Inode}

omit [Crc32c] in
theorem slot_block_lt (ino : Nat) : (blkSplit ino).2 / slotsPerBlock w.fs.sb < 2 ^ 32 :=
  Nat.lt_of_le_of_lt (Nat.div_le_self _ _) (Nat.mod_lt _ (by decide))

omit [Crc32c] in
theorem slot_inj (group : (blkSplit i).1 = (blkSplit j).1)
    (block : (blkSplit i).2 / slotsPerBlock w.fs.sb = (blkSplit j).2 / slotsPerBlock w.fs.sb)
    (slot : (blkSplit i).2 % slotsPerBlock w.fs.sb = (blkSplit j).2 % slotsPerBlock w.fs.sb) :
    i = j := by
  have number : (blkSplit i).2 = (blkSplit j).2 := by
    rw [← Nat.div_add_mod (blkSplit i).2 (slotsPerBlock w.fs.sb), block, slot, Nat.div_add_mod]
  rw [blkSplit, blkSplit] at *
  dsimp only at *
  omega

omit [Crc32c] in
theorem slot_end (sized : w.fs.sb.Sized) (wide : INODE_SIZE ≤ w.fs.sb.inodesize) (ino : Nat) :
    (blkSplit ino).2 % slotsPerBlock w.fs.sb * w.fs.sb.inodesize + INODE_SIZE ≤ w.blocksize := by
  have slot := Nat.mod_lt (blkSplit ino).2 sized.slots_pos
  calc
    _ ≤ (blkSplit ino).2 % slotsPerBlock w.fs.sb * w.fs.sb.inodesize + w.fs.sb.inodesize :=
    Nat.add_le_add_left wide _
    _ = ((blkSplit ino).2 % slotsPerBlock w.fs.sb + 1) * w.fs.sb.inodesize :=
    (Nat.succ_mul _ _).symm
    _ ≤ slotsPerBlock w.fs.sb * w.fs.sb.inodesize := Nat.mul_le_mul_right _ slot
    _ = w.blocksize := sized.slots_mul

omit [Crc32c] in
theorem Kin.inodeBlockOff (kin : w.Kin w') (ino : Nat) :
    w'.fs.inodeBlockOff ino = w.fs.inodeBlockOff ino := by
  have size : w'.fs.sb.blocksize = w.fs.sb.blocksize := kin.blocksize
  rw [Gofs.inodeBlockOff, Gofs.inodeBlockOff, size, kin.inodesize]

theorem Occupied.refined (occupied : w.Occupied ino) (sound : A.Structured w)
    (group : (blkSplit ino).1 = A.num) :
    (blkSplit ino).2 / slotsPerBlock w.fs.sb < A.length ∧
      A.state w.view ((blkSplit ino).2 / slotsPerBlock w.fs.sb / CELL_BLOCKS) = CELL_REFINED := by
  obtain ⟨recs, shared⟩ := sound
  obtain ⟨hdr, parsed, names, -⟩ := shared.valid
  obtain ⟨inside, l3, l1, j, -, found, -⟩ := occupied
  rw [group, Ag.header_of parsed] at inside found
  rw [names.of.length] at inside
  exact ⟨inside, slotRecAt_refined shared.on names.of inside found⟩

theorem SlotOnly.read (only : w.SlotOnly i w') (kin : w.Kin w') (sized : w.fs.sb.Sized)
    (wide : INODE_SIZE ≤ w.fs.sb.inodesize) (mapped : w.Mapped (w.fs.inodeBlockOff i).1)
    (sound : A.Structured w)
    (group : (blkSplit i).1 = A.num) (occupied : w.Occupied j) (other : i ≠ j) :
    (readInodeTxn j w').1 = (readInodeTxn j w).1 := by
  have here := (Gofs.leadsTo sized i).blockOff
  have there := (Gofs.leadsTo sized j).blockOff
  by_cases same_group : (blkSplit j).1 = (blkSplit i).1
  · by_cases same_block : (blkSplit j).2 / slotsPerBlock w.fs.sb = (blkSplit i).2 / slotsPerBlock
        w.fs.sb
    · have apart : (blkSplit j).2 % slotsPerBlock w.fs.sb ≠ (blkSplit i).2 % slotsPerBlock
          w.fs.sb :=
        fun same_slot => other (slot_inj same_group.symm same_block.symm same_slot.symm)
      rw [same_group, same_block] at there
      rw [here] at mapped
      have inside := slot_end sized wide j
      rw [readInodeTxn_run there mapped inside, readInodeTxn_run ((kin.inodeBlockOff j).trans there)
          (kin.mapped mapped)
        (kin.blocksize.symm ▸ inside)]
      refine inodeFrom_congr fun k hk => ?_
      have kept := only.slot
      rw [here] at kept
      refine kept _ (Nat.lt_of_lt_of_le (Nat.add_lt_add_left hk _) inside) ?_
      dsimp only
      rcases Nat.lt_or_gt_of_ne apart with before | behind
      · have le := Nat.mul_le_mul_right w.fs.sb.inodesize (Nat.succ_le_of_lt before)
        rw [Nat.succ_mul] at le
        omega
      · have le := Nat.mul_le_mul_right w.fs.sb.inodesize (Nat.succ_le_of_lt behind)
        rw [Nat.succ_mul] at le
        omega
    · refine readInodeTxn_find kin ?_
      obtain ⟨inside, refined⟩ := occupied.refined sound (same_group.trans group)
      rw [there, same_group]
      refine only.block _ ?_ ?_ ?_
      · exact same_group ▸ occupied.inside
      · rw [group, sound.cellState, refined]
        decide
      · rw [here]
        exact fun equal => same_block ((blkAddr_inj (slot_block_lt j) (slot_block_lt i)).mp equal).2
  · refine readInodeTxn_find kin (only.group _ ?_)
    rw [there]
    dsimp only
    rw [blkSplit_blkAddr _ (slot_block_lt j)]
    exact same_group

theorem writeInodeTxn_only (inode : Inode) (sized : w.fs.sb.Sized)
    (wide : INODE_SIZE ≤ w.fs.sb.inodesize)
    (mapped : w.Mapped (w.fs.inodeBlockOff i).1) : ∃ w', writeInodeTxn i inode w = (.ok (), w') ∧
    w.Kin w' ∧
      w.SlotOnly i w' ∧
      (∀ blk, blk ≠ (w.fs.inodeBlockOff i).1 → w'.t.find blk = w.t.find blk) ∧
      ∀ k < INODE_SIZE, w'.view (w.fs.inodeBlockOff i).1
      ((w.fs.inodeBlockOff i).2 + k) =
        inode.toBytes k := by
  have here := (Gofs.leadsTo sized i).blockOff
  have inside := slot_end sized wide i
  rw [here] at mapped
  refine ⟨_, writeInodeTxn_run here mapped inside, (Kin.refl w).put _ _, ⟨?_, ?_, ?_⟩, ?_, ?_⟩
  · rw [here]
    intro x hx outside
    rw [view_put_copyAt _ hx, copyAt_of_not_mem]
    dsimp only at outside
    omega
  · intro blk other
    rw [put, Txn.find_insert, if_neg]
    rintro rfl
    rw [blkSplit_blkAddr _ (slot_block_lt i)] at other
    exact other rfl
  · intro l _ _ other
    rw [here] at other
    rw [put, Txn.find_insert, if_neg other]
  · rw [here]
    intro blk other
    rw [put, Txn.find_insert, if_neg other]
  · rw [here]
    intro k hk
    rw [view_put_copyAt _ (by dsimp only; omega), copyAt_of_mem (by dsimp only; omega),
        Nat.add_sub_cancel_left]

theorem freeInode_only (sized : w.fs.sb.Sized) (sound : A.Structured w)
    (group : (blkSplit i).1 = A.num)
    (occupied : w.Occupied i) (left : (freeInode i w).2 = w') : w.Kin w' ∧ w.SlotOnly i w' := by
  have here := (Gofs.leadsTo sized i).blockOff
  obtain ⟨inside, refined⟩ := occupied.refined sound group
  have open' : A.state w.view ((blkSplit i).2 / slotsPerBlock w.fs.sb / CELL_BLOCKS) ≠
      CELL_RSVD := by
    rw [refined]
    decide
  rw [group] at here
  have read : txnRead (blkAddr A.num ((blkSplit i).2 / slotsPerBlock w.fs.sb)) w =
      (.ok (w.view (A.blk ((blkSplit i).2 / slotsPerBlock w.fs.sb))), w) :=
      txnRead_run (sound.on.mapped _ inside)
  obtain ⟨sound', state⟩ := sound.put inside open'
    (copyAt (w.view (A.blk ((blkSplit i).2 / slotsPerBlock w.fs.sb)))
      ((blkSplit i).2 % slotsPerBlock w.fs.sb * w.fs.sb.inodesize) w.fs.sb.inodesize zeros)
  have slot : (blkSplit i).2 % slotsPerBlock w.fs.sb < ALLOC_FANOUT :=
    Nat.lt_of_lt_of_le (Nat.mod_lt _ sized.slots_pos) sized.fan
  rw [freeInode_eq, group, bind_ok _ _ read, bind_ok _ _ (txnWrite_run _ _ _)] at left
  obtain ⟨kin, groups, blocks⟩ := releaseSlot_frame sound' inside slot left
  refine ⟨((Kin.refl w).put _ _).trans kin, ⟨?_, ?_, ?_⟩⟩
  · rw [here]
    intro x hx outside
    have kept := kin.view_find (blocks _ inside (by rw [state _ (A.lt_cells inside)]; exact open'))
    show w'.view (A.blk _) x = _
    rw [kept]
    show (w.put (A.blk _) (copyAt (w.view (A.blk _)) _ _ zeros)).view (A.blk _) x = w.view (A.blk _)
        x
    rw [view_put_copyAt _ hx, copyAt_of_not_mem outside]
  · intro blk other
    have apart : blk ≠ A.blk ((blkSplit i).2 / slotsPerBlock w.fs.sb) := by
      rintro rfl
      rw [Ag.blk, blkSplit_blkAddr _ (slot_block_lt i)] at other
      exact other group.symm
    rw [groups blk fun same => other (group ▸ same)]
    rw [put, Txn.find_insert, if_neg apart]
  · intro l low cell other
    rw [group, sound.length] at low
    rw [group, sound.cellState] at cell
    rw [here, group] at other
    have kept := blocks l low (by rw [state _ (A.lt_cells low)]; exact cell)
    rw [group]
    show w'.t.find (A.blk l) = _
    rw [kept, put, Txn.find_insert, if_neg]
    · rfl
    · exact other

theorem readInode_committed (sized : w.fs.sb.Sized) (wide : INODE_SIZE ≤ w.fs.sb.inodesize)
    (mapped : w.Mapped (w.fs.inodeBlockOff i).1) {g : Gofs}
    (committed : w.Committed (w.fs.inodeBlockOff i).1 g) :
    (Gofs.readInode i g).1 = inodeFrom i (drop (w.fs.inodeBlockOff i).2
    (w.view (w.fs.inodeBlockOff i).1)) := by
  have here := (Gofs.leadsTo sized i).blockOff
  have there := (Gofs.leadsTo (sized.congr committed.blocksize committed.inodesize) i).byteOff
  have slots : slotsPerBlock g.sb = slotsPerBlock w.fs.sb := by
    rw [slotsPerBlock, slotsPerBlock, committed.blocksize, committed.inodesize]
  rw [slots, committed.inodesize, ← here] at there
  have inside : (w.fs.inodeBlockOff i).2 + INODE_SIZE ≤ w.blocksize := by
    rw [here]
    exact slot_end sized wide i
  obtain ⟨start, found, ends⟩ := mapped
  have long := committed.length
  have resolved : g.map.resolve (w.fs.inodeBlockOff i).1 g.sb.blocksize = some start := by
    rw [committed.map, committed.blocksize]
    exact found
  have phys : Gofs.inodePhys i g = (.ok (start + (w.fs.inodeBlockOff i).2), g) := by
    have run : Gofs.resolve (w.fs.inodeBlockOff i).1 g = (.ok start, g) := by
      rw [Gofs.resolve, bind_ok _ _ (get_run (s := g)), resolved]
      rfl
    rw [Gofs.inodePhys, bind_ok _ _ (get_run (s := g)), there]
    dsimp only
    rw [bind_ok _ _ run]
    rfl
  have read : Gofs.pread (start + (w.fs.inodeBlockOff i).2) INODE_SIZE g =
      (.ok (clip INODE_SIZE (drop (start + (w.fs.inodeBlockOff i).2) g.dev.bytes)), g) := by
    rw [Gofs.pread, Device.pread_ok (by omega)]
    rfl
  have bytes : inodeFrom i (clip INODE_SIZE (drop (start + (w.fs.inodeBlockOff i).2) g.dev.bytes)) =
      inodeFrom i (drop (w.fs.inodeBlockOff i).2 (w.view (w.fs.inodeBlockOff i).1)) := by
    refine inodeFrom_congr fun k hk => ?_
    rw [← committed.held start resolved, clip_of_lt _ hk, drop, drop, clip_of_lt _ (by omega), drop,
        Nat.add_assoc]
  rw [← bytes, Gofs.readInode, bind_ok _ _ phys, bind_ok _ _ read, inodeFrom]
  cases Inode.parse (clip INODE_SIZE (drop (start + (w.fs.inodeBlockOff i).2) g.dev.bytes))
      INODE_SIZE <;> rfl

theorem slots_apart (sized : w.fs.sb.Sized) (wide : INODE_SIZE ≤ w.fs.sb.inodesize)
    (sound : A.Structured w)
    (group : (blkSplit i).1 = A.num) (here : w.Occupied i) (there : w.Occupied j) (other : i ≠ j)
    (fits : inode.Fits) :
    w.SlotsApart i j inode := by
  have place := (Gofs.leadsTo sized i).blockOff
  have mapped : w.Mapped (w.fs.inodeBlockOff i).1 := by
    rw [place, group]
    exact sound.on.mapped _ (here.refined sound group).1
  have inside : (w.fs.inodeBlockOff i).2 + INODE_SIZE ≤ w.blocksize := by
    rw [place]
    exact slot_end sized wide i
  refine ⟨?_, ?_, ?_⟩
  · obtain ⟨w', run, kin, only, others, stored⟩ := writeInodeTxn_only inode sized wide mapped
    have own := kin.inodeBlockOff i
    refine ⟨w', run, only, others, ?_, only.read kin sized wide mapped sound group there other,
        fun g committed => ?_⟩
    · rw [readInodeTxn_run (own.trans rfl) (kin.mapped mapped) (kin.blocksize.symm ▸ inside)]
      exact inodeFrom_stored fits stored
    · rw [← own] at committed
      have sized' : w'.fs.sb.Sized := sized.congr kin.blocksize kin.inodesize
      rw [readInode_committed sized' (kin.inodesize.symm ▸ wide) (own.symm ▸ kin.mapped mapped)
          committed, own]
      exact inodeFrom_stored fits stored
  · obtain ⟨kin, only⟩ := freeInode_only sized sound group here rfl
    exact ⟨only, only.read kin sized wide mapped sound group there other⟩
  · intro g committed
    rw [readInode_committed sized wide mapped committed, readInodeTxn_run rfl mapped inside]
    rfl

end Slots

end Work

-- a volume with slots of 128 bytes

theorem packedAg_sized : Ag.Sized 0 1024 2 2048 (fun c => c = 0) where
  num_lt := by decide
  length_lt := by decide
  power := ⟨11, rfl⟩
  large := by decide
  root_le := by decide
  hdr_lt := by decide
  head l small := by
    have table : (rtGeometry 1024 2048).2 = 1 := rfl
    rw [CELL_BLOCKS]
    omega
  tail c low high := by
    rw [CELL_BLOCKS] at *
    omega

def packedAg : Ag := .ofSized packedAg_sized

def packedHeader : AgHeader := { length := 1024, allocRoot := 2, tblArena := 256, inoHint := 512 }

/-- RSVD, RSVD, REFINED, FREE, and the reference of cell 2. -/
def packedTable : Bytes := putU16 (putU32 (ofList [0b00110101]) 13 256) 17 0

def packedSuperblock : Superblock := { blocksize := 2048, inodesize := 128, nextAg := 1 }

theorem packed_sized : packedSuperblock.Sized :=
  ⟨by decide, by decide, by decide, by decide, by decide, by decide⟩

section Packed

variable [Crc32c]

/-- Two slots are in use, with an inode in the second. -/
def packedBlock : Bytes := copyAt zeros 128 INODE_SIZE (Inode.toBytes {})

def packedWork : Work := {
  fs := {
    dev := ⟨zeros, 2097152, 2097152, []⟩
    sb := packedSuperblock
    map := ⟨1, [⟨AGF_PRESENT ||| AGF_IMMOVABLE, 1024, [⟨0, 1024, 0⟩]⟩]⟩ }
  t := ⟨[(1, packedHeader.toBytes), (2, packedTable),
      (256, clip 2048 (Mkfs.arenaTable 2048 256 true)),
    (512, packedBlock)]⟩ }

theorem packed_on : packedAg.On packedWork where
  mapped l inside := by
    have bound : l < 1024 := inside
    have split : blkSplit (packedAg.blk l) = (0, l) := blkSplit_blkAddr 0 (by omega)
    have found : packedWork.fs.map.resolve (packedAg.blk l) 2048 = some (l * 2048) := by
      rw [AgMap.resolve, split]
      simp [packedWork, AGF_PRESENT, AGF_IMMOVABLE, bound]
    refine ⟨_, found, ?_⟩
    show l * 2048 + 2048 ≤ 2097152
    omega
  size := rfl

theorem packed_header : AgHeader.parse (packedWork.view packedAg.hdrBlk) = .ok packedHeader :=
  AgHeader.parse_toBytes
  ⟨by decide, by decide, by decide, by decide, by decide, by decide, by decide, by decide,
    by decide, by decide⟩

theorem packed_arena : packedWork.view (packedAg.blk 256) = clip 2048
    (Mkfs.arenaTable 2048 256 true) := rfl

theorem packed_table {off : Nat} (inside : off < 25) :
    packedAg.table packedWork.view off = packedTable off := by
  have size : packedAg.blocksize = 2048 := rfl
  have block : packedWork.view (packedAg.blk (packedAg.root + 0)) = packedTable := rfl
  rw [Ag.table, size, Nat.div_eq_of_lt (by omega), Nat.mod_eq_of_lt (by omega), block]

theorem packed_state {c : Nat} (hc : c < 4) :
    packedAg.state packedWork.view c = cellGet packedTable c :=
  get2_congr (packed_table (by omega))

theorem packed_ref {c : Nat} (hc : c < 4) : packedAg.rootRef packedWork.view
    c = if c = 2 then (256, 0) else (0, 0) := by
  have cells : packedAg.cells = 4 := rfl
  have block : getU32 (packedAg.table packedWork.view) (rtRefOff 4 c) = getU32 packedTable
      (rtRefOff 4 c) :=
    getBE_congr fun k hk => packed_table (by rw [rtRefOff]; omega)
  have index : getU16 (packedAg.table packedWork.view) (rtRefOff 4 c + 4) = getU16 packedTable
      (rtRefOff 4 c + 4) :=
    getBE_congr fun k hk => packed_table (by rw [rtRefOff]; omega)
  rw [Ag.rootRef, cells, block, index]
  rcases (by omega : c = 0 ∨ c = 1 ∨ c = 2 ∨ c = 3) with rfl | rfl | rfl | rfl <;> decide

theorem packed_structured : packedAg.Structured packedWork := by
  have arena : packedAg.state packedWork.view 1 = CELL_RSVD :=
      (packed_state (by decide)).trans (by decide)
  refine Ag.twin_fresh packed_on packed_header ⟨rfl, rfl, rfl⟩ (by decide) (fun _ _ => rfl) ?_
    (.inr ⟨1, by decide, rfl, arena, Nat.one_ne_zero⟩) ?_ (Mkfs.FirstRecs 256) (.inl rfl)
    (fun c hc => ?_) ?_ ?_
  · have first : packedWork.view (packedAg.blk 0) = clip 2048 (drop 0 zeros) := rfl
    rw [Ag.Magic, first, getU32, getBE_clip _ (by decide)]
    exact fun magic => absurd ((getBE_zeros 0 4).symm.trans magic) (by decide)
  · rintro c - rfl
    exact (packed_state (by decide)).trans (by decide)
  · rw [packed_ref hc]
    split
    · exact .inr ⟨rfl, Nat.zero_le 2⟩
    · exact .inl rfl
  · rintro r (null | ⟨block, index⟩)
    · exact .inl null
    · exact .inr ⟨by decide, block, Nat.lt_of_le_of_lt index (by decide)⟩
  · rintro ⟨block, idx⟩ (null | ⟨rfl, index⟩) other i hi
    · exact (other null).elim
    · rw [packed_arena]
      exact Mkfs.firstRecs_closed (by decide) (by decide) index hi

theorem packed_record {idx : Nat} (index : idx ≤ 2) : Work.recRead 0 (256, idx) packedWork =
    (.ok (recAt (Mkfs.arenaTable 2048 256 true) idx), packedWork) := by
  have sound : TblOk packedWork.blocksize (packedWork.view (packedAg.blk 256)) :=
    Mkfs.arenaTable_sound (by decide : 2048 ≤ 2048) 256 true
  have inside : RecIn packedWork.blocksize idx := by
    show recOff idx + REC_SIZE ≤ 2048
    rw [recOff, REC_SIZE]
    omega
  have read := Work.recRead_run (A := packedAg) (r := (256, idx)) (packed_on.mapped 256 (by decide))
      sound inside
  dsimp only at read
  rw [packed_arena, Mkfs.recAt_stored (by decide) index] at read
  exact read

theorem packed_lead {idx : Nat} (index : idx ≤ 1) :
    recState (recAt (Mkfs.arenaTable 2048 256 true) idx) 0 = CELL_REFINED ∧
      recRef (recAt (Mkfs.arenaTable 2048 256 true) idx) 0 = (256, idx + 1) := by
  obtain ⟨first, second, -⟩ := Mkfs.recAt_arenaTable 2048 256 true
  have record : recAt (Mkfs.arenaTable 2048 256 true) idx = clip REC_SIZE
      (Mkfs.leadRec (256, idx + 1)) := by
    rcases (by omega : idx = 0 ∨ idx = 1) with rfl | rfl
    · exact first
    · exact second
  let ref : Ref := (256, idx + 1)
  have block : ref.1 < 2 ^ 32 := (by decide : 256 < 2 ^ 32)
  have index : ref.2 < 2 ^ 16 := by
    show idx + 1 < 2 ^ 16
    omega
  have mark := Mkfs.recMark_leadRec block index ⟨0, by decide⟩
  rw [← Mkfs.recMark_clip, ← record, if_pos rfl] at mark
  exact cellMark_eq_refined.mp mark

theorem packed_full {s : Nat} (hs : s < 2) : recState (recAt (Mkfs.arenaTable 2048 256 true) 2)
    s = CELL_FULL := by
  obtain ⟨-, -, slots⟩ := Mkfs.recAt_arenaTable 2048 256 true
  have mark := Mkfs.recMark_slotRec true ⟨s, by rw [ALLOC_FANOUT]; omega⟩
  have low : s = 0 ∨ s = 1 ∧ true = true := by
    rcases (by omega : s = 0 ∨ s = 1) with rfl | rfl
    · exact .inl rfl
    · exact .inr ⟨rfl, rfl⟩
  rw [← Mkfs.recMark_clip, ← slots, if_pos low] at mark
  exact (cellMark_eq_full (get2_lt _ _)).mp mark

theorem packed_occupied {s : Nat} (hs : s < 2) : packedWork.Occupied (512 * 16 + s) := by
  have split : blkSplit (512 * 16 + s) = (0, 512 * 16 + s) := by
    rw [blkSplit, Nat.div_eq_of_lt (by omega), Nat.mod_eq_of_lt (by omega)]
  have slots : Work.slotsPerBlock packedWork.fs.sb = 16 := (by decide : 2048 / 128 = 16)
  have block : (512 * 16 + s) / 16 = 512 := by omega
  have slot : (512 * 16 + s) % 16 = s := by omega
  have header : packedWork.headerOf 0 = packedHeader := Ag.header_of (A := packedAg) packed_header
  have of : packedAg.Of packedHeader := ⟨rfl, rfl, rfl⟩
  have state : Work.rtState packedHeader 2 packedWork = (.ok CELL_REFINED, packedWork) := by
    rw [Work.rtState_run packed_on of (by decide), ← Ag.state, packed_state (by decide)]
    rfl
  have ref : Work.rtRef packedHeader 2 packedWork = (.ok (256, 0), packedWork) := by
    rw [Work.rtRef_run packed_on of (by decide), if_neg (by decide), packed_ref (by decide),
        if_pos rfl]
  obtain ⟨lead, below⟩ := packed_lead (Nat.zero_le 1)
  obtain ⟨lead', lowest⟩ := packed_lead (Nat.le_refl 1)
  constructor
  · rw [split]
    dsimp only
    rw [slots, block, header]
    decide
  · refine ⟨(256, 2), (256, 1), 0, recAt (Mkfs.arenaTable 2048 256 true) 2, ?_, ?_, ?_⟩
    · rw [split]
      dsimp only
      rw [slots, block, header, Work.slotRecAt, show 512 / CELL_BLOCKS = 2 from rfl,
          bind_ok _ _ state, ite_run,
        if_neg (by decide), bind_ok _ _ ref, show packedHeader.agNum = 0 from rfl,
        bind_ok _ _ (packed_record (Nat.zero_le 2)), ite_run,
        show 512 % CELL_BLOCKS / ALLOC_FANOUT = 0 from rfl,
        if_neg (not_not_intro lead), below]
      dsimp only
      rw [bind_ok _ _ (packed_record (by decide : 1 ≤ 2)), ite_run,
          show 512 % ALLOC_FANOUT = 0 from rfl,
        if_neg (not_not_intro lead'), lowest]
      rfl
    · rw [split]
      exact packed_record (Nat.le_refl 2)
    · rw [split]
      dsimp only
      rw [slots, slot]
      exact packed_full hs

omit [Crc32c] in
theorem default_fits : Inode.Fits {} where
  format := by decide
  mode := by decide
  nlink := by decide
  uid := by decide
  gid := by decide
  flags := by decide
  gen := by decide
  size := by decide
  nblocks := by decide
  atime := ⟨by decide, by decide⟩
  mtime := ⟨by decide, by decide⟩
  ctime := ⟨by decide, by decide⟩
  btime := ⟨by decide, by decide⟩
  xattr := by decide
  payload := clip_zeros _

theorem packed_place {s : Nat} (hs : s < 2) :
    packedWork.fs.inodeBlockOff (512 * 16 + s) = (packedAg.blk 512, s * 128) := by
  have split : blkSplit (512 * 16 + s) = (0, 512 * 16 + s) := by
    rw [blkSplit, Nat.div_eq_of_lt (by omega), Nat.mod_eq_of_lt (by omega)]
  have slots : packedWork.fs.sb.blocksize / packedWork.fs.sb.inodesize = 16 :=
      (by decide : 2048 / 128 = 16)
  have block : (512 * 16 + s) / 16 = 512 := by omega
  have slot : (512 * 16 + s) % 16 = s := by omega
  rw [Gofs.inodeBlockOff, split, slots]
  dsimp only
  rw [block, slot]
  rfl

theorem packed_overrun {k : Nat} (hk : k < 128) : Inode.toBytes {} (128 + k) = 0 := by
  rw [Inode.toBytes, putU32, putBE_of_not_mem (by omega), Inode.fields,
      copyAt_of_mem (by rw [INODE_PAYLOAD]; omega)]
  rfl

omit [Crc32c] in
theorem not_magic {b : Bytes} (cleared : ∀ k < 2, b k = 0) : getU16 b 0 ≠ INODE_MAGIC := by
  have read : getBE b 0 2 = getBE zeros 0 2 := getBE_congr fun k hk =>
      (cleared _ (by omega)).trans rfl
  rw [getU16, read, getBE_zeros]
  decide

theorem packed_clobbered : ¬ packedWork.SlotsApart (512 * 16) (512 * 16 + 1) {} := by
  rintro ⟨⟨w', run, -, -, -, same, -⟩, -, -⟩
  have mapped : packedWork.Mapped (packedAg.blk 512) := packed_on.mapped 512 (by decide)
  have size : packedWork.blocksize = 2048 := rfl
  rw [Work.writeInodeTxn_run (packed_place (by decide : 0 < 2)) mapped
      (by rw [size]; decide)] at run
  cases run
  have before : Work.inodeFrom (512 * 16 + 1) (drop (1 * 128)
      (packedWork.view (packedAg.blk 512))) = .ok {} := by
    refine Work.inodeFrom_stored default_fits fun k hk => ?_
    show packedBlock (1 * 128 + k) = _
    rw [packedBlock, copyAt_of_mem (by omega), Nat.one_mul, Nat.add_sub_cancel_left]
  have place := packed_place (by decide : 1 < 2)
  rw [Work.readInodeTxn_run place mapped (by rw [size]; decide), before] at same
  generalize written : copyAt (packedWork.view (packedAg.blk 512)) (0 * 128) INODE_SIZE
      (Inode.toBytes {}) = data at same
  have place' : (packedWork.put (packedAg.blk 512) data).fs.inodeBlockOff
      (512 * 16 + 1) = (packedAg.blk 512, 1 * 128) := by
    rw [Work.put_fs]
    exact place
  have after := Work.readInodeTxn_run place' (Work.mapped_put.mpr mapped)
      (by rw [Work.put_blocksize, size]; decide)
  rw [after] at same
  have magic := Work.magic_of_inodeFrom same
  have cleared : ∀ k < 2, drop (1 * 128) ((packedWork.put (packedAg.blk 512) data).view
      (packedAg.blk 512)) k = 0 := by
    intro k hk
    rw [drop, ← written, Work.view_put_copyAt _ (by rw [size]; omega),
        copyAt_of_mem (by rw [INODE_SIZE]; omega),
      Nat.zero_mul, Nat.sub_zero, Nat.one_mul, packed_overrun (by omega)]
  exact not_magic cleared magic

end Packed

theorem stride_packed {sb : Superblock} (sized : sb.Sized) (narrow : sb.inodesize < INODE_SIZE) :
    sb.blocksize = 2048 ∧ sb.inodesize = 128 := by
  obtain ⟨m, -, blocks⟩ := isPowerOfTwo_iff.mp sized.power
  obtain ⟨k, -, inodes⟩ := isPowerOfTwo_iff.mp sized.inodes
  have between : ∀ {n p : Nat}, 2 ^ p ≤ 2 ^ n → 2 ^ n < 2 ^ (p + 1) → n = p := by
    intro n p low high
    have low := (Nat.pow_le_pow_iff_right (by decide)).mp low
    have high := (Nat.pow_lt_pow_iff_right (by decide)).mp high
    omega
  have inodesize : sb.inodesize = 2 ^ 7 := by
    have seven : k = 7 := between (inodes ▸ sized.small) (inodes ▸ narrow)
    rw [inodes, seven]
  have fan := sized.fan
  rw [inodesize, ALLOC_FANOUT] at fan
  have eleven : m = 11 := between (blocks ▸ sized.large) (by
    rw [← blocks]
    omega)
  exact ⟨blocks.trans (eleven ▸ rfl), inodesize⟩

/-- In every state of a volume of these sizes, distinct allocated slots keep apart. -/
def Superblock.SlotsApart [Crc32c] (sb : Superblock) : Prop :=
  ∀ (w : Work) (A : Ag) (i j : Nat) (inode : Inode), w.fs.sb.blocksize = sb.blocksize →
    w.fs.sb.inodesize = sb.inodesize → A.Structured w → (blkSplit i).1 = A.num → w.Occupied i →
    w.Occupied j →
    i ≠ j → inode.Fits → w.SlotsApart i j inode

theorem packed_not_apart [Crc32c] {sb : Superblock} (blocks : sb.blocksize = 2048)
    (inodes : sb.inodesize = 128) :
    ¬ sb.SlotsApart :=
  fun apart => packed_clobbered (apart packedWork packedAg _ _ {} blocks.symm inodes.symm
      packed_structured (by decide)
    (packed_occupied (s := 0) (by decide)) (packed_occupied (s := 1) (by decide)) (by decide)
    default_fits)

/-- Inode slots keep apart if and only if the stride holds a whole inode. -/
theorem inode_slots_apart_iff [Crc32c] (sb : Superblock) (sized : sb.Sized) :
    sb.SlotsApart ↔ INODE_SIZE ≤ sb.inodesize := by
  constructor
  · intro apart
    by_contra narrow
    obtain ⟨blocks, inodes⟩ := stride_packed sized (Nat.lt_of_not_le narrow)
    exact packed_not_apart blocks inodes apart
  · intro wide w A i j inode blocks inodes sound group here there other fits
    exact Work.slots_apart (sized.congr blocks inodes) (inodes ▸ wide) sound group here there other
        fits

/-- With slots of 128 bytes the inode next to a written one is lost. -/
theorem inode_slots_overlap : ¬ ∀ [Crc32c] (sb : Superblock), sb.Sized → sb.SlotsApart :=
  fun claim => @packed_not_apart castagnoli packedSuperblock rfl rfl
  (@claim castagnoli packedSuperblock packed_sized)

def roomySuperblock : Superblock := { blocksize := 8192, inodesize := 512 }

theorem inode_slots_apart_roomy : @Superblock.SlotsApart castagnoli roomySuperblock ↔
    INODE_SIZE ≤ 512 :=
  @inode_slots_apart_iff castagnoli roomySuperblock
  ⟨by decide, by decide, by decide, by decide, by decide, by decide⟩

end FiveFs
