import FiveFs.Twins
import FiveFs.Census
import FiveFs.Parted

/-! A fresh volume over two devices that agree on what mkfs wrote: allocator calls cannot tell them
apart while no arena block holds what looks like a table block from before. -/

namespace FiveFs

open Buffer Prog

/-- The journal and the kernel fit in 32-bit block counts. -/
structure MkfsOpts.Narrow (opts : MkfsOpts) : Prop where
  journal : ∀ j, opts.journal = some j → divCeil j opts.blocksize < 2 ^ 32
  kernel : ∀ k, opts.kernel = some k → divCeil k.1 opts.blocksize < 2 ^ 32

namespace Mkfs

-- references in a fresh table

theorem reserveCells_above {cs : List Nat} {i : Nat} (below : ∀ c ∈ cs, c / 4 < i) (t : Bytes) :
    cs.foldl (fun t c => cellSet t c CELL_RSVD) t i = t i := by
  induction cs generalizing t with
  | nil => rfl
  | cons c rest ih =>
      have apart := below c List.mem_cons_self
      rw [List.foldl_cons, ih fun c hc => below c (List.mem_cons_of_mem _ hc)]
      exact set2_of_ne (by omega)

theorem newTable_above {ag len head i : Nat} (some_cell : 0 < cellCount len)
    (fits : head ≤ cellCount len)
    (above : (cellCount len + 3) / 4 ≤ i) : newTable ag len head i = 0 := by
  have last : (cellCount len - 1) / 4 < i := by omega
  have cells : reserveCells zeros head i = 0 :=
    reserveCells_above (fun c hc => by
      have below := List.mem_range.mp hc
      omega) zeros
  have table : (Gofs.newAgTable len (cellCount len) head).1 i = 0 := by
    rw [Gofs.newAgTable]
    split
    · exact (set2_of_ne (by omega)).trans cells
    · exact cells
  rw [newTable, reservedTable]
  dsimp only
  split
  · exact (set2_of_ne (by omega)).trans table
  · exact table

theorem getBE_blank {b : Bytes} {off n : Nat} (blank : ∀ k < n, b (off + k) = 0) :
    getBE b off n = 0 := by
  have same : getBE b off n = getBE zeros off n := getBE_congr blank
  rw [same, getBE_zeros]

theorem newTable_ref {ag len head : Nat} (c : Nat) (some_cell : 0 < cellCount len)
    (fits : head ≤ cellCount len) :
    getU32 (newTable ag len head) (rtRefOff (cellCount len) c) = 0 ∧
      getU16 (newTable ag len head) (rtRefOff (cellCount len) c + 4) = 0 := by
  rw [rtRefOff]
  exact ⟨getBE_blank fun k _ => newTable_above some_cell fits (by omega),
    getBE_blank fun k _ => newTable_above some_cell fits (by omega)⟩

theorem firstTable_ref {len head c : Nat} (room : head + 2 < cellCount len) (other : c ≠ head + 1) :
    getU32 (firstTable len head) (rtRefOff (cellCount len) c) = 0 ∧
      getU16 (firstTable len head) (rtRefOff (cellCount len) c + 4) = 0 := by
  have blank : ∀ k < 6, firstTable len head (rtRefOff (cellCount len) c + k) = 0 := by
    intro k hk
    rw [firstTable, inodeCells, rtRefOff, rtRefOff, putU16, putBE_of_not_mem (by omega), putU32,
      putBE_of_not_mem (by omega)]
    refine (set2_of_ne (by omega)).trans ((set2_of_ne (by omega)).trans ?_)
    exact newTable_above (by omega) (by omega) (by omega)
  refine ⟨getBE_blank fun k hk => blank k (by omega), getBE_blank fun k hk => ?_⟩
  rw [Nat.add_assoc]
  exact blank (4 + k) (by omega)

section Fresh

variable [Crc32c] {d : Device} {sb : Superblock} {map : AgMap} {ag len off head : Nat}

theorem rootRef_stored (site : Site sb.blocksize ag len head) {hdr : AgHeader} {table : Bytes}
    (entry : map.entries[ag]? = some (entryOf ag len off))
    (stored : AgStored sb.blocksize d ag off hdr table (rtGeometry len sb.blocksize).2) {c : Nat}
    (inside : c < site.ag.cells) : site.ag.rootRef (Gofs.view { dev := d.reopen, sb, map }) c =
      (getU32 table (rtRefOff (cellCount len) c),
      getU16 table (rtRefOff (cellCount len) c + 4)) := by
  have six := site.ag.ref_lt inside
  have same : ∀ i < 6, site.ag.table (Gofs.view { dev := d.reopen, sb, map })
      (rtRefOff site.ag.cells c + i) =
      table (rtRefOff site.ag.cells c + i) := fun i hi => table_stored site entry stored (by omega)
  have block : getU32 (site.ag.table (Gofs.view { dev := d.reopen, sb, map }))
      (rtRefOff site.ag.cells c) =
      getU32 table (rtRefOff (cellCount len) c) := getBE_congr fun i hi => same i (by omega)
  have index : getU16 (site.ag.table (Gofs.view { dev := d.reopen, sb, map }))
      (rtRefOff site.ag.cells c + 4) =
      getU16 table (rtRefOff (cellCount len) c + 4) := by
    refine getBE_congr fun i hi => ?_
    rw [Nat.add_assoc, Nat.add_assoc]
    exact same (4 + i) (by omega)
  rw [Ag.rootRef, block, index]

omit [Crc32c] in
theorem on_laid (site : Site sb.blocksize ag len head) (laid : map.Laid sb.blocksize d.fileLen)
    (entry : map.entries[ag]? = some (entryOf ag len off)) :
    site.ag.On { fs := { dev := d.reopen, sb, map } } := by
  refine ⟨fun l inside => ?_, rfl⟩
  have present : (entryOf ag len off).present := by
    rw [AgEntry.present, entryOf]
    dsimp only
    split <;> decide
  obtain ⟨start, -, -, whole, found⟩ := laid.resolve_entry entry present inside
  have rows : (l + 1) * sb.blocksize ≤ len * sb.blocksize := Nat.mul_le_mul_right _ inside
  have upto : start + len * sb.blocksize ≤ d.fileLen := whole
  rw [Nat.add_mul, Nat.one_mul] at rows
  refine ⟨_, found, ?_⟩
  show start + l * sb.blocksize + sb.blocksize ≤ d.fileLen
  omega

end Fresh

end Mkfs

namespace Work

/-- The block is the first of the AG, its header, in its root table, or the first of its arena: what
mkfs wrote and the allocator may read. -/
def Laid [Crc32c] (w : Work) (ag l : Nat) : Prop :=
  l = 0 ∨ l = agHeaderBlock ag ∨
    ((w.headerOf ag).allocRoot ≤ l ∧
      l < (w.headerOf ag).allocRoot + (rtGeometry (w.headerOf ag).length w.blocksize).2) ∨
    (w.headerOf ag).tblArena ≠ 0 ∧ l = (w.headerOf ag).tblArena

end Work

namespace Ag

variable [Crc32c] {A : Ag} {b : Bytes} {w : Work} {hdr : AgHeader}

theorem twin_fresh (on : A.On w) (parsed : AgHeader.parse (w.view A.hdrBlk) = .ok hdr)
    (of : A.Of hdr)
    (ino : hdr.inoHint < A.length)
    (agree : ∀ l, w.Laid A.num l → (w.onto b).view (A.blk l) = w.view (A.blk l))
    (zero : ¬ A.Magic w.view 0)
    (arena : hdr.tblArena = 0 ∨ ∃ c < A.cells, hdr.tblArena = c * CELL_BLOCKS ∧
    A.state w.view c = CELL_RSVD ∧
      ¬ A.reserved c)
    (reserved : ∀ c < A.cells, A.reserved c → A.state w.view c = CELL_RSVD) (recs : Ref → Prop)
    (null : recs (0, 0)) (cell : ∀ c < A.cells, recs (A.rootRef w.view c))
    (place : ∀ r, recs r → r = (0, 0) ∨ hdr.tblArena ≠ 0 ∧ r.1 = hdr.tblArena ∧ r.2 < 2 ^ 16)
    (closed : ∀ r, recs r → r ≠ (0, 0) → ∀ i < ALLOC_FANOUT,
        recs (recRef (recAt (w.view (A.blk r.1)) r.2) i)) :
    A.Twin b w := by
  have header := header_of parsed
  have root : ∀ l, A.Root l → A.Same b w l := by
    intro l at_root
    refine agree l (.inr (.inr (.inl ?_)))
    rw [header, of.length, of.root, on.size]
    exact at_root
  refine ⟨recs, on, Work.Kin.refl w, ⟨fun _ _ => rfl, fun _ => id, fun c hc now => ⟨hc, now⟩,
      fun l _ => id,
    fun l _ changed => (changed rfl).elim⟩,
    agree _ (.inr (.inl rfl)), ⟨hdr, parsed, ⟨of, ?_⟩, ino⟩, root, ⟨zero, ?_⟩,
    fun c hc fixed => ⟨hc, reserved c hc fixed⟩,
    fun c => id, fun c => (fun h => by cases h), null, cell, ?_,
    fun r known other _ => closed r known other, fun l => id, fun l m => (fun h => by cases h)⟩
  · rcases arena with none | ⟨c, hc, place, rsvd, open'⟩
    · exact .inl none
    · exact .inr ⟨c, hc, place, ⟨hc, rsvd⟩, open'⟩
  · rw [Magic, agree 0 (.inl rfl)]
    exact zero
  · intro r known
    rcases place r known with null | ⟨some, block, index⟩
    · exact .inl null
    · rcases arena with none | ⟨c, hc, start, rsvd, open'⟩
      · exact (some none).elim
      · have cell : r.1 / CELL_BLOCKS = c := by
          rw [block, start]
          exact Nat.mul_div_cancel _ (by decide)
        refine .inr ⟨⟨?_, cell.symm ▸ ⟨hc, rsvd⟩, cell.symm ▸ open'⟩, index,
            agree _ (.inr (.inr (.inr ?_)))⟩
        · rw [block, start]
          exact A.cell_bounds hc
        · rw [header]
          exact ⟨some, block⟩

end Ag

namespace Mkfs

theorem probeBackup_flag [Crc32c] {dev : Device} {e : String} {sizes : List Nat} {sb : Superblock}
    {b : Bool}
    (found : Gofs.probeBackup dev e sizes = .ok (sb, b)) : b = true := by
  induction sizes with
  | nil => cases found
  | cons bs rest ih =>
      rw [Gofs.probeBackup] at found
      repeat' split at found
      all_goals first
        | exact ih found
        | cases found <;> rfl

theorem stored_magic [Crc32c] {d : Device} {sb : Superblock} {map : AgMap}
    (stored : Gofs.Stored d sb map) :
    getU32 d.bytes 0 = SB_MAGIC := by
  have found := stored.found
  rw [Gofs.findSuperblock, Device.pread] at found
  split at found
  · cases found
  · rename_i buf read
    split at read
    · cases read
      split at found
      · rename_i sb' parsed
        rw [Superblock.parse] at parsed
        split at parsed
        · cases parsed
        · rename_i magic
          rw [not_not] at magic
          exact magic
      · cases probeBackup_flag found
    · cases read

section Fresh

variable [Crc32c] {d : Device} {sb : Superblock} {map : AgMap} {p : MkfsPlan} {len : Nat}
    {rest : List Nat} {b : Bytes}

theorem twin_later {ag off l : Nat} (site : Site sb.blocksize ag l (headCells sb.blocksize ag l))
    (laid : map.Laid sb.blocksize d.fileLen) (entry : map.entries[ag]? = some (entryOf ag l off))
    (later : ag ≠ 0)
    (stored : EmptyStored sb.blocksize d ag off l)
    (cell : headCells sb.blocksize ag l * CELL_BLOCKS < 2 ^ 32)
    (agree : ∀ x, Work.Laid { fs := { dev := d.reopen, sb, map } } ag x →
      (Work.onto b { fs := { dev := d.reopen, sb, map } }).view (blkAddr ag x) =
        Work.view { fs := { dev := d.reopen, sb, map } } (blkAddr ag x)) :
    site.ag.Origin { fs := { dev := d.reopen, sb, map } } ∧
        site.ag.Twin b { fs := { dev := d.reopen, sb, map } } := by
  have some_cell : 0 < cellCount l := site.ag.cells_pos
  have room := site.fits
  have fits : headCells sb.blocksize ag l ≤ cellCount l := by
    rw [headCells, divCeil, cellCount]
    exact Nat.div_le_div_right (by omega)
  have on := on_laid site laid entry
  have parsed := header_stored site entry (nextHeader_fits site stored.2 cell) stored.1
  have of : site.ag.Of (nextHeader ag l (headCells sb.blocksize ag l)) := ⟨rfl, rfl, rfl⟩
  have states : ∀ c < site.ag.cells, site.ag.state (Gofs.view { dev := d.reopen, sb, map }) c =
      if Reserved ag l (headCells sb.blocksize ag l) c then CELL_RSVD else CELL_FREE := by
    intro c hc
    rw [Ag.state, state_stored site entry stored.1 hc]
    exact cellGet_reservedTable some_cell c
  refine ⟨fun c hc => ?_, Ag.twin_fresh on parsed of site.ag.length_pos agree ?_ (.inl rfl)
    (fun c hc fixed => ?_) (· = (0, 0)) rfl (fun c hc => ?_) (fun r => .inl) fun r known other =>
    (other known).elim⟩
  · have same : Work.cellState { fs := { dev := d.reopen, sb, map } } site.ag.num c = _ :=
      (Ag.state_of on parsed of c).trans (states c hc)
    rw [same, Ag.header_of parsed]
    show Reserved ag l _ c ↔ _
    split
    · rename_i fixed
      exact ⟨fun _ => ⟨rfl, fun some => some.1 rfl⟩, fun _ => fixed⟩
    · rename_i open'
      exact ⟨fun fixed => (open' fixed).elim, fun both => absurd both.1 (by decide)⟩
  · have first : site.ag.hdrBlk = site.ag.blk 0 := by
      show site.ag.blk (agHeaderBlock ag) = _
      rw [agHeaderBlock, if_neg later]
    have magic : getU32 (Work.view { fs := { dev := d.reopen, sb, map } } site.ag.hdrBlk)
        0 = AG_MAGIC :=
      AgHeader.magic_of_parse parsed
    rw [Ag.Magic, ← first, magic]
    decide
  · exact (states c hc).trans (if_pos fixed)
  · have refs := @newTable_ref ag _ _ c some_cell fits
    show site.ag.rootRef (Gofs.view { dev := d.reopen, sb, map }) c = _
    rw [rootRef_stored site entry stored.1 hc, refs.1, refs.2]

/-- The records of the first arena block. -/
def FirstRecs (arena : Nat) (r : Ref) : Prop := r = (0, 0) ∨ r.1 = arena ∧ r.2 ≤ 2

omit [Crc32c] in
theorem firstRecs_lead {arena : Nat} {ref : Ref} (small : arena < 2 ^ 32)
    (known : ref.1 = arena ∧ ref.2 ≤ 2) (i : Nat) :
    FirstRecs arena (recRef (leadRec ref) i) := by
  rw [leadRec, recRef_refSet]
  split
  · refine .inr ⟨?_, ?_⟩
    · rw [known.1]
      exact Nat.mod_eq_of_lt small
    · exact Nat.le_trans (Nat.mod_le _ _) known.2
  · rw [recRef_stateSet _ _ _ (by decide), recRef_zeros]
    exact .inl rfl

omit [Crc32c] in
theorem firstRecs_slot {arena : Nat} (kernel : Bool) (i : Nat) :
    FirstRecs arena (recRef (slotRec kernel) i) := by
  left
  rw [slotRec]
  split
  · rw [recRef_stateSet _ _ _ (by decide), recRef_stateSet _ _ _ (by decide), recRef_zeros]
  · rw [recRef_stateSet _ _ _ (by decide), recRef_zeros]

theorem firstRecs_closed {bs arena idx i : Nat} {kernel : Bool} (large : 2048 ≤ bs)
    (small : arena < 2 ^ 32)
    (index : idx ≤ 2) (hi : i < ALLOC_FANOUT) :
    FirstRecs arena (recRef (recAt (clip bs (arenaTable bs arena kernel)) idx) i) := by
  obtain ⟨first, second, third⟩ := recAt_arenaTable bs arena kernel
  rw [recAt_stored large index]
  rcases (by omega : idx = 0 ∨ idx = 1 ∨ idx = 2) with rfl | rfl | rfl
  · rw [first, recRef_clip _ hi]
    exact firstRecs_lead small ⟨rfl, (by decide : 1 ≤ 2)⟩ i
  · rw [second, recRef_clip _ hi]
    exact firstRecs_lead small ⟨rfl, Nat.le_refl 2⟩ i
  · rw [third, recRef_clip _ hi]
    exact firstRecs_slot kernel i

/-- AG 0. -/
theorem twin_first (f : Formatted p len rest d sb map)
    (site : Site sb.blocksize 0 len (topCell p len))
    (laid : map.Laid sb.blocksize d.fileLen) (planted : Planted p len d)
    (agree : ∀ x, Work.Laid { fs := { dev := d.reopen, sb, map } } 0 x →
      (Work.onto b { fs := { dev := d.reopen, sb, map } }).view (blkAddr 0 x) =
        Work.view { fs := { dev := d.reopen, sb, map } } (blkAddr 0 x)) :
    site.ag.Origin { fs := { dev := d.reopen, sb, map } } ∧
        site.ag.Twin b { fs := { dev := d.reopen, sb, map } } := by
  have size := f.regions.blocksize
  have entry := f.entry
  have room : topCell p len + 2 < cellCount len := f.cells
  have stored := planted.stored
  rw [← size] at stored
  have sown := sown_of_planted site size entry room planted
  have on := on_laid site laid entry
  have parsed := header_stored site entry (firstHeader_fits site room f.blocks) stored
  have of : site.ag.Of (firstHeader len (topCell p len)) := ⟨rfl, rfl, rfl⟩
  have positive : 0 < topCell p len := by
    have low := topBlock_ge p len
    have cell := top_le_cell p len
    have table : 2 ≤ allocRoot 0 := by decide
    by_contra none
    rw [Nat.eq_zero_of_not_pos none] at cell
    omega
  have arena : topCell p len * CELL_BLOCKS / CELL_BLOCKS = topCell p len :=
      Nat.mul_div_cancel _ (by decide)
  have some_arena : topCell p len * CELL_BLOCKS ≠ 0 := Nat.mul_ne_zero (by omega) (by decide)
  have inside : topCell p len < site.ag.cells := by
    rw [site.cells]
    omega
  have small : topCell p len * CELL_BLOCKS < 2 ^ 32 :=
      Nat.lt_trans (site.ag.cell_bounds inside) site.length
  have rsvd : site.ag.state (Gofs.view { dev := d.reopen, sb, map })
      (topCell p len) = CELL_RSVD := by
    rw [Ag.state, sown.states _ inside, if_neg (by omega), if_pos rfl]
  have fixed : ∀ c < site.ag.cells, Reserved 0 len (topCell p len) c →
      site.ag.state (Gofs.view { dev := d.reopen, sb, map }) c = CELL_RSVD := by
    intro c hc fixed
    rw [Ag.state, sown.states c hc]
    split
    · rename_i ino
      exact (open_ino room (ino ▸ fixed)).elim
    · split
      · rfl
      · exact if_pos fixed
  refine ⟨fun c hc => ?_, Ag.twin_fresh on parsed of ?_ agree ?_
    (.inr ⟨topCell p len, inside, rfl, rsvd, open_arena room⟩) fixed
    (FirstRecs (topCell p len * CELL_BLOCKS)) (.inl rfl) (fun c hc => ?_) ?_ ?_⟩
  · have same : Work.cellState { fs := { dev := d.reopen, sb, map } } site.ag.num c = _ :=
      (Ag.state_of on parsed of c).trans (sown.states c hc)
    rw [same, Ag.header_of parsed]
    show Reserved 0 len _ c ↔ _ ∧ ¬ (topCell p len * CELL_BLOCKS ≠ 0 ∧
        c = topCell p len * CELL_BLOCKS / CELL_BLOCKS)
    rw [arena]
    split
    · rename_i ino
      exact ⟨fun fixed => (open_ino room (ino ▸ fixed)).elim, fun both => absurd both.1 (by decide)⟩
    · split
      · rename_i here
        exact ⟨fun fixed => (open_arena room (here ▸ fixed)).elim,
            fun both => (both.2 ⟨some_arena, here⟩).elim⟩
      · rename_i other
        split
        · rename_i fixed
          exact ⟨fun _ => ⟨rfl, fun both => other both.2⟩, fun _ => fixed⟩
        · rename_i open'
          exact ⟨fun fixed => (open' fixed).elim, fun both => absurd both.1 (by decide)⟩
  · exact site.ag.cell_bounds (c := topCell p len + 1) (by
      rw [site.cells]
      omega)
  · have first : Work.view { fs := { dev := d.reopen, sb, map } } (blkAddr 0 0) =
        clip sb.blocksize (drop (0 + 0 * sb.blocksize) d.bytes) :=
        view_laid entry site.ag.length_pos site.length
    have magic : getU32 (Work.view { fs := { dev := d.reopen, sb, map } } (blkAddr 0 0))
        0 = SB_MAGIC := by
      have large := site.large
      rw [first, Nat.zero_mul, getU32, getBE_clip _ (by omega)]
      exact stored_magic (d := d.reopen) f.stored
    show ¬ getU32 (Work.view { fs := { dev := d.reopen, sb, map } } (blkAddr 0 0)) 0 = ALLOC_MAGIC
    rw [magic]
    decide
  · by_cases ino : c = topCell p len + 1
    · subst ino
      exact .inr (sown.ref ▸ ⟨rfl, Nat.zero_le 2⟩)
    · obtain ⟨block, index⟩ := firstTable_ref room ino
      left
      show site.ag.rootRef (Gofs.view { dev := d.reopen, sb, map }) c = _
      rw [rootRef_stored site entry stored hc, block, index]
  · rintro r (null | ⟨block, index⟩)
    · exact .inl null
    · exact .inr ⟨some_arena, block, Nat.lt_of_le_of_lt index (by decide)⟩
  · rintro ⟨block, idx⟩ (null | ⟨rfl, index⟩) other i hi
    · exact (other null).elim
    · have here : Work.view { fs := { dev := d.reopen, sb, map } }
          (site.ag.blk (topCell p len * CELL_BLOCKS)) = _ :=
        sown.arena
      rw [here]
      exact firstRecs_closed site.large small index hi

end Fresh

section FreshPair

variable [Crc32c] {opts : MkfsOpts} {uuid : Nat} {now : Ts} {d d' : Device} {summary : MkfsSummary}
    {g : Gofs} {b : Bytes}

omit [Crc32c] in
theorem narrow_plan {p : MkfsPlan} (asked : p.opts = opts) (large : 2048 ≤ p.bs)
    (narrow : opts.Narrow) : Narrow p := by
  subst asked
  refine ⟨?_, ?_⟩
  · rw [MkfsPlan.journalBlocks]
    rcases journal : p.opts.journal with _ | j
    · rw [Option.getD_none]
      have most : min (128 <<< 20) (max (p.size / 16) (4 <<< 20)) ≤ 134217728 := Nat.min_le_left _ _
      rw [divCeil, Nat.div_lt_iff_lt_mul (by omega)]
      omega
    · exact narrow.journal j journal
  · rw [MkfsPlan.kernelBlocks, MkfsPlan.kernelLen]
    rcases image : p.opts.kernel with _ | k
    · have none : (0 + p.bs - 1) / p.bs = 0 := Nat.div_eq_of_lt (by omega)
      show (0 + p.bs - 1) / p.bs < 2 ^ 32
      rw [none]
      decide
    · exact narrow.kernel k image

theorem level_start (typed : opts.Typed d uuid) (narrow : opts.Narrow)
    (made : mkfs opts uuid now d = (.ok summary, d')) (opened : Gofs.openRw d'.reopen = .ok g)
    (agree : ∀ ag < g.map.entries.length, ∀ l, Work.Laid { fs := g } ag l →
      (Work.onto b { fs := g }).view (blkAddr ag l) = Work.view { fs := g } (blkAddr ag l)) :
    Level { fs := g } [] { fs := g } (Work.onto b { fs := g }) := by
  obtain ⟨sb, map, image⟩ := mkfs_image typed made
  have mapped := image.mapped opened
  obtain ⟨p, len, rest, sb, map, plan, f, count, rfl⟩ := mkfs_formatted typed made opened
  have size := f.regions.blocksize
  have large : 2048 ≤ p.bs := plan.large
  have small : p.bs < 2 ^ 32 := by
    rw [MkfsPlan.bs, plan.asked]
    exact typed.blocksize
  obtain ⟨planted, stored⟩ := f.contents (narrow_plan plan.asked large narrow)
  have laid : map.Laid sb.blocksize d'.fileLen := mapped.laid
  have twins : ∀ k < map.entries.length, ∃ A : Ag, A.num = k ∧
      A.Origin { fs := { dev := d'.reopen, sb, map } } ∧
      A.Twin b { fs := { dev := d'.reopen, sb, map } } := by
    intro k hk
    rcases k with _ | k
    · have site := first_site f (f.power plan) (size.symm ▸ large)
      obtain ⟨origin, twin⟩ := twin_first f site laid planted (agree 0 hk)
      exact ⟨site.ag, rfl, origin, twin⟩
    · obtain ⟨l, off, same, site, found, cell⟩ := stored_later f (f.power plan) (size.symm ▸ large)
        (size.symm ▸ small) count stored (List.getElem?_eq_getElem hk)
      have entry : map.entries[k + 1]? = some (entryOf (k + 1) l off) :=
          same ▸ List.getElem?_eq_getElem hk
      obtain ⟨origin, twin⟩ := twin_later site laid entry (Nat.succ_ne_zero k) found cell
          (agree (k + 1) hk)
      exact ⟨site.ag, rfl, origin, twin⟩
  have slots : Work.slotsPerBlock sb = p.slots := f.slots
  have positive : 0 < p.slots := by
    rw [MkfsPlan.slots]
    have room := plan.inodesize
    have some_bytes : 0 < p.opts.inodesize := by
      rw [plan.asked]
      exact Nat.lt_of_lt_of_le (by decide) (plan.asked ▸ plan.least)
    exact Nat.div_pos room some_bytes
  refine ⟨rfl, ⟨b, rfl, twins⟩, fun _ _ => (fun h => by cases h), slots.symm ▸ positive,
      slots.symm ▸ plan.fan, ?_, ?_, fun _ => (fun h => by cases h)⟩
  · rintro ag hag l (⟨some_arena, rfl⟩ | ⟨t, member, -⟩)
    · obtain ⟨A, rfl, origin, recs, shared⟩ := twins ag hag
      refine ⟨(shared.arenaBlock origin).mpr ?_, .inl
          (agree _ hag _ (.inr (.inr (.inr ⟨some_arena, rfl⟩))))⟩
      rcases shared.headerOf.arena with none | ⟨c, hc, place, rsvd, open'⟩
      · exact (some_arena none).elim
      · have cell : c * CELL_BLOCKS / CELL_BLOCKS = c := Nat.mul_div_cancel _ (by decide)
        rw [place, Ag.Sited, cell]
        exact ⟨A.cell_bounds hc, rsvd.2, open'⟩
    · cases member
  · rintro ag hag l idx (⟨some_arena, rfl⟩ | ⟨t, member, -⟩) marked
    · exact .inl ⟨some_arena, rfl, marked⟩
    · cases member

theorem header_start (typed : opts.Typed d uuid) (narrow : opts.Narrow)
    (made : mkfs opts uuid now d = (.ok summary, d')) (opened : Gofs.openRw d'.reopen = .ok g)
    (some_ag : 0 < g.map.entries.length) :
    ∃ hdr, AgHeader.parse (Work.view { fs := g } 1) = .ok hdr ∧
    Work.headerOf { fs := g } 0 = hdr := by
  have level := level_start (b := g.dev.bytes) typed narrow made opened fun _ _ _ _ => rfl
  obtain ⟨b, -, twins⟩ := level.twins
  obtain ⟨A, num, -, recs, shared⟩ := twins 0 some_ag
  obtain ⟨hdr, parsed, -⟩ := shared.valid
  have header := Ag.header_of parsed
  have place : A.hdrBlk = 1 := by
    rw [Ag.hdrBlk, Ag.blk, num]
    rfl
  exact ⟨hdr, place ▸ parsed, num ▸ header⟩

end FreshPair

end Mkfs

/-- What old contents may not decide: the calls have the same results over both devices, the states
after them differ in the devices alone, and every record that a table block marks used was marked by
mkfs or by a call. -/
structure Oblivious [Crc32c] (w₀ : Work) (ts : List Turn) (w v : Work) : Prop where
  results : ∀ t ∈ ts, (t.call.run t.here).1 = (t.call.run t.there).1
  alike : ∃ b, v = w.onto b
  marks : ∀ ag < w₀.fs.map.entries.length, ∀ l idx, w₀.ArenaBlock w ag l →
    w.Marked (blkAddr ag l) idx ∨ v.Marked (blkAddr ag l) idx → Allotted w₀ ts ag l idx

/-- Old device contents do not matter in any run in which no arena block holds what looks like a
table block from before. -/
theorem history_oblivious [Crc32c] {opts : MkfsOpts} {uuid : Nat} {now : Ts} {d d' : Device}
    {summary : MkfsSummary}
    {g : Gofs} {b : Bytes} (typed : opts.Typed d uuid) (narrow : opts.Narrow)
    (made : Mkfs.mkfs opts uuid now d = (.ok summary, d')) (opened : Gofs.openRw d'.reopen = .ok g)
    (agree : ∀ ag < g.map.entries.length, ∀ l, Work.Laid { fs := g } ag l →
      (Work.onto b { fs := g }).view (blkAddr ag l) = Work.view { fs := g } (blkAddr ag l))
    {ts : List Turn} {w v : Work}
    (run : History (AllocCall.Clear { fs := g }) { fs := g } (Work.onto b { fs := g }) ts w v)
    (clear : ∀ ag < g.map.entries.length, Unsullied { fs := g } ts w v ag) :
        Oblivious { fs := g } ts w v := by
  have level := Level.of_history (Mkfs.level_start typed narrow made opened agree) run
  exact ⟨level.results, level.twins.imp fun _ both => both.1,
    fun ag hag l idx arena marked => level.allotted hag (clear ag hag) arena marked⟩

-- the small image, with something else in one block

/-- The bytes of the small image with `block` in place of block `l`. -/
def imageWith (l : Nat) (block : Bytes) : Bytes := copyAt imageMount.dev.bytes (l * 8192) 8192 block

theorem magic_byte {b : Bytes} (magic : getU32 b 0 = ALLOC_MAGIC) : b 3 = 0x41 := by
  have low : getU32 b 0 % 256 = (b 3).toNat := by
    rw [getU32, getBE, Nat.mul_add_mod_self_right, Nat.mod_eq_of_lt (b (0 + 3)).toNat_lt]
  rw [magic] at low
  exact UInt8.toNat_inj.mp low.symm

theorem imageMount_bytes : ∀ l < 1024, 256 < l → Work.view { fs := imageMount } l 3 ≠ 0x41 := by
  decide +kernel

theorem imageMount_blank (l : Nat) (inside : l < 1024) (behind : 256 < l) :
    ¬ Work.TableBlock { fs := imageMount } l :=
  fun magic => imageMount_bytes l inside behind (magic_byte magic)

theorem imageMount_states : ∀ c < 4,
    cellGet (fun off => Work.view { fs := imageMount } (blkAddr 0 (2 + off / 8192)) (off % 8192))
    c =
      if c = 2 then CELL_REFINED else CELL_RSVD := by decide +kernel

theorem imageMount_places : getU32 (Work.view { fs := imageMount } 1) 20 = 1024 ∧
    getU32 (Work.view { fs := imageMount } 1) 36 = 2 ∧
    getU32 (Work.view { fs := imageMount } 1) 48 = 256 := by
  decide +kernel

theorem imageMount_opened : ∃ summary, @Mkfs.mkfs castagnoli smallOpts 0 ⟨0, 0⟩
    emptyFile = (.ok summary, smallImage) ∧
    @Gofs.openRw castagnoli smallImage.reopen = .ok imageMount := by
  obtain ⟨summary, made⟩ := smallImage_made
  obtain ⟨image, labels⟩ := smallImage_labels
  exact ⟨summary, made, @Mkfs.Image.mounts castagnoli _ _ _ _ image labels⟩

theorem smallOpts_narrow : smallOpts.Narrow := by
  refine ⟨fun j journal => ?_, fun k => (fun h => by cases h)⟩
  cases journal
  decide

theorem imageMount_header : (@Work.headerOf castagnoli { fs := imageMount } 0).length = 1024 ∧
    (@Work.headerOf castagnoli { fs := imageMount } 0).allocRoot = 2 ∧
    (@Work.headerOf castagnoli { fs := imageMount } 0).tblArena = 256 := by
  obtain ⟨summary, made, opened⟩ := imageMount_opened
  obtain ⟨hdr, parsed, header⟩ := @Mkfs.header_start castagnoli _ _ _ _ _ _ _ smallOpts_typed
    smallOpts_narrow made opened (by decide)
  obtain ⟨length, root, arena⟩ := @AgHeader.parse_places castagnoli _ _ parsed
  rw [header, length, root, arena]
  exact imageMount_places

theorem imageMount_cell (c : Nat) (hc : c < 4) :
    @Work.cellState castagnoli { fs := imageMount } 0
    c = if c = 2 then CELL_REFINED else CELL_RSVD := by
  show cellGet (fun off => Work.view { fs := imageMount } (blkAddr 0
    ((@Work.headerOf castagnoli { fs := imageMount } 0).allocRoot + off / 8192)) (off % 8192)) c = _
  rw [imageMount_header.2.1]
  exact imageMount_states c hc

theorem imageMount_arena {l : Nat} : @Work.ArenaBlock castagnoli { fs := imageMount }
    { fs := imageMount } 0 l ↔
    256 ≤ l ∧ l < 512 := by
  have cell := imageMount_cell (l / CELL_BLOCKS)
  obtain ⟨length, -, arena⟩ := imageMount_header
  constructor
  · rintro ⟨inside, rsvd, open' | ⟨-, here⟩⟩
    · exact (open' rsvd).elim
    · rw [arena] at here
      rw [CELL_BLOCKS] at here
      omega
  · rintro ⟨low, high⟩
    have here : l / CELL_BLOCKS = 1 := by
      rw [CELL_BLOCKS]
      omega
    have inside : l < (@Work.headerOf castagnoli { fs := imageMount } 0).length := by
      rw [length]
      omega
    have rsvd : @Work.cellState castagnoli { fs := imageMount } 0
        (l / CELL_BLOCKS) = CELL_RSVD := by
      rw [cell (by omega), here]
      rfl
    have place : l / CELL_BLOCKS = (@Work.headerOf castagnoli { fs := imageMount } 0).tblArena /
        CELL_BLOCKS := by
      rw [here, arena]
      rfl
    exact @Work.ArenaBlock.mk castagnoli _ _ _ _ inside rsvd (.inr ⟨by rw [arena]; decide, place⟩)

theorem imageMount_laid {l : Nat} (laid : @Work.Laid castagnoli { fs := imageMount } 0 l) :
    l ≤ 256 := by
  obtain ⟨length, root, arena⟩ := imageMount_header
  rcases laid with rfl | rfl | ⟨-, high⟩ | ⟨-, place⟩
  · decide
  · decide
  · rw [root, length] at high
    have one : (rtGeometry 1024 (Work.blocksize { fs := imageMount })).2 = 1 := by decide
    rw [one] at high
    omega
  · rw [place, arena]

theorem view_fresh {g : Gofs} {blk off : Nat} (found : g.map.resolve blk g.sb.blocksize = some off)
    (b : Bytes) :
    Work.view { fs := g } blk = clip g.sb.blocksize (drop off g.dev.bytes) ∧
      (Work.onto b { fs := g }).view blk = clip g.sb.blocksize (drop off b) := by
  have view : ∀ dev : Device, Work.view { fs := { g with dev } } blk = clip g.sb.blocksize
      (drop off dev.bytes) := by
    intro dev
    rw [Work.view]
    split
    · rename_i written
      cases written
    · split
      · rename_i resolved
        cases found.symm.trans resolved
        rfl
      · rename_i unmapped
        cases found.symm.trans unmapped
  exact ⟨view g.dev, view { g.dev with bytes := b }⟩

theorem view_imageWith {l l' : Nat} {block : Bytes} (inside : l' < 1024) :
    (Work.onto (imageWith l block) { fs := imageMount }).view l' =
      if l' = l then clip 8192 block else Work.view { fs := imageMount } l' := by
  have found : imageMap.resolve l' 8192 = some (l' * 8192) := by
    have split : blkSplit l' = (0, l') := by
      rw [blkSplit]
      ext <;> dsimp only <;> omega
    rw [AgMap.resolve, split]
    simp [imageMap, AGF_PRESENT, AGF_IMMOVABLE, inside]
  have size : imageMount.sb.blocksize = 8192 := rfl
  have map : imageMount.map = imageMap := rfl
  rw [← map, ← size] at found
  obtain ⟨plain, view⟩ := view_fresh found (imageWith l block)
  rw [size] at plain view
  rw [view, plain]
  split
  · rename_i here
    subst here
    apply clip_congr
    intro i hi
    rw [drop, imageWith, copyAt_of_mem (by omega), Nat.add_sub_cancel_left]
  · rename_i other
    apply clip_congr
    intro i hi
    rw [drop, drop, imageWith, copyAt_of_not_mem (by omega)]

/-- A table block with its first record marked used, but for the checksum. -/
def staleBlock : Bytes := putU32 (putU32 zeros 0 ALLOC_MAGIC) 16 1

theorem staleBlock_marks : getU32 (clip 8192 staleBlock) 0 = ALLOC_MAGIC ∧
    (getU32 (clip 8192 staleBlock) 16).testBit 0 = true := by decide +kernel

theorem imageWith_agrees {l : Nat} (block : Bytes) (unlaid : 256 < l) :
    ∀ ag < imageMount.map.entries.length, ∀ l',
    @Work.Laid castagnoli { fs := imageMount } ag l' →
      (Work.onto (imageWith l block) { fs := imageMount }).view (blkAddr ag l') =
        Work.view { fs := imageMount } (blkAddr ag l') := by
  intro ag hag l' laid
  have first : ag = 0 := Nat.lt_one_iff.mp hag
  subst first
  have low := imageMount_laid laid
  have place : blkAddr 0 l' = l' := by
    rw [blkAddr]
    omega
  rw [place, view_imageWith (by omega), if_neg (by omega)]

/-- A block of the arena that mkfs never wrote shows records that nothing allocated. -/
theorem history_not_oblivious : ¬ ∀ (opts : MkfsOpts) (uuid : Nat) (now : Ts) (d d' : Device)
    (summary : MkfsSummary)
    (g : Gofs) (b : Bytes), opts.Typed d uuid →
      @Mkfs.mkfs castagnoli opts uuid now d = (.ok summary, d') →
      @Gofs.openRw castagnoli d'.reopen = .ok g →
      (∀ ag < g.map.entries.length, ∀ l, @Work.Laid castagnoli { fs := g } ag l →
        (Work.onto b { fs := g }).view (blkAddr ag l) = Work.view { fs := g } (blkAddr ag l)) →
      ∀ (ts : List Turn) (w v : Work),
        @History castagnoli (fun _ w v c => @AllocCall.Fair castagnoli w v c) { fs := g }
        (Work.onto b { fs := g }) ts w v →
          @Oblivious castagnoli { fs := g } ts w v := by
  intro claim
  obtain ⟨summary, made, opened⟩ := imageMount_opened
  have oblivious := claim smallOpts 0 ⟨0, 0⟩ emptyFile smallImage summary imageMount
      (imageWith 257 staleBlock)
    smallOpts_typed made opened (imageWith_agrees staleBlock (by decide)) [] _ _
    (@History.start castagnoli _ _ _)
  have view : (Work.onto (imageWith 257 staleBlock) { fs := imageMount }).view 257 = clip 8192
      staleBlock := by
    rw [view_imageWith (by decide), if_pos rfl]
  have marked : (Work.onto (imageWith 257 staleBlock) { fs := imageMount }).Marked (blkAddr 0 257)
      0 := by
    rw [show blkAddr 0 257 = 257 from rfl, Work.Marked, Work.TableBlock, view]
    exact staleBlock_marks
  have arena := imageMount_arena.mpr (by decide : 256 ≤ 257 ∧ 257 < 512)
  rcases @Oblivious.marks castagnoli _ _ _ _ oblivious 0 (by decide) 257 0 arena (.inr marked) with
    ⟨-, place, -⟩ | ⟨t, member, -⟩
  · rw [imageMount_header.2.2] at place
    exact absurd place (by decide)
  · cases member

theorem view_end {w : Work} {l : Nat} (map : w.fs.map = imageMap) (none' : w.t.find l = none)
    (far : 1024 ≤ l) : w.view l = zeros := by
  have missing : imageMap.resolve l w.blocksize = none := by
    rw [AgMap.resolve, blkSplit]
    rcases first : l / 2 ^ 32 with _ | ag
    · have home : l % 2 ^ 32 = l := by omega
      rw [home]
      simp [imageMap, AGF_PRESENT, AGF_IMMOVABLE, far]
    · rfl
  rw [Work.view, none', map, missing]

theorem imageMount_plain {l : Nat} (behind : 256 < l) :
    ¬ Work.TableBlock { fs := imageMount } l ∧
      ¬ (Work.onto (imageWith 300 fun _ => 1) { fs := imageMount }).TableBlock l := by
  by_cases inside : l < 1024
  · have blank := imageMount_blank l inside behind
    refine ⟨blank, ?_⟩
    rw [Work.TableBlock, view_imageWith inside]
    split
    · decide
    · exact blank
  · have far := Nat.le_of_not_lt inside
    rw [Work.TableBlock, Work.TableBlock, view_end (w := { fs := imageMount }) rfl rfl far,
      view_end (w := Work.onto (imageWith 300 fun _ => 1) { fs := imageMount }) rfl rfl far]
    decide

theorem imageMount_since {w : Work} {l : Nat}
    (arena : @Work.ArenaBlock castagnoli { fs := imageMount } w 0 l) : 256 ≤ l := by
  obtain ⟨-, -, place⟩ := imageMount_header
  by_contra low
  have first : l / CELL_BLOCKS = 0 := by
    rw [CELL_BLOCKS]
    omega
  have head := imageMount_cell 0 (by decide)
  rcases @Work.ArenaBlock.since castagnoli _ _ _ _ arena with open' | ⟨-, here⟩
  · rw [first] at open'
    exact open' head
  · rw [place, first] at here
    exact absurd here (by decide)

/-- An inode is allocated on the small image, and on the same with file data in a block that mkfs
never wrote. -/
theorem history_oblivious_small :
    let _ := castagnoli
    let w : Work := { fs := imageMount }
    let v := w.onto (imageWith 300 fun _ => 1)
    let c := AllocCall.allocInode 0
    Oblivious w [⟨c, w, v⟩] (c.run w).2 (c.run v).2 := by
  intro _ w v c
  obtain ⟨summary, made, opened⟩ := imageMount_opened
  have agree := imageWith_agrees (l := 300) (fun _ => 1) (by decide)
  have place : ∀ l, blkAddr 0 l = l := fun l => by
    rw [blkAddr]
    omega
  have plain : ∀ w' l, Work.ArenaBlock w w' 0 l → Written w [] 0 l ∨
      ¬ w.TableBlock (blkAddr 0 l) ∧ ¬ v.TableBlock (blkAddr 0 l) := by
    intro w' l arena
    have low := imageMount_since arena
    rw [place]
    by_cases laid : l = 256
    · refine .inl (.inl ?_)
      rw [imageMount_header.2.2]
      exact ⟨by decide, laid⟩
    · exact .inr (imageMount_plain (by omega))
  have start : Level w [] w v :=
    Mkfs.level_start smallOpts_typed smallOpts_narrow made opened agree
  have near : c.ag < w.fs.map.entries.length := Nat.zero_lt_one
  have clear : Unsullied w [] w v 0 := plain w
  have run : History (AllocCall.Clear w) w v [⟨c, w, v⟩] (c.run w).2 (c.run v).2 :=
    .call c .start fun _ => ⟨trivial, clear⟩
  refine history_oblivious smallOpts_typed smallOpts_narrow made opened agree run ?_
  intro ag hag
  have first : ag = 0 := Nat.lt_one_iff.mp hag
  subst first
  exact start.unsullied_call near clear trivial (plain _)

end FiveFs
