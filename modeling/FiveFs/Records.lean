import Mathlib.Data.List.TakeWhile
import FiveFs.Claim

/-! Sequences of claims and releases of records. The used mask of a table block has 32 bits, and
from blocks of 8 KiB on a block has more records: there, a full mask ends the scan in a panic. -/

namespace FiveFs

open Buffer Prog Refine

namespace Ag

variable [Crc32c] (A : Ag) (bs : Nat) (v : Nat → Bytes)

/-- The scan can read the block. -/
def Readable (l : Nat) : Prop := A.Magic v l → TblOk bs (v (A.blk l))

/-- The scan passes over the block. -/
def Skips (l : Nat) : Prop := A.Readable bs v l ∧ recsPerBlock bs ≤ countOnes (A.arenaMask v l)

instance (l : Nat) : Decidable (A.Skips bs v l) := by
  unfold Skips Readable Magic TblOk
  infer_instance

variable {A bs v} {l : Nat}

omit [Crc32c] in
theorem used_of_mask {i : Nat} (marked : (A.arenaMask v l).testBit i = true) : A.Used v (l, i) := by
  rw [arenaMask, openBlock] at marked
  split at marked
  · rename_i magic
    exact ⟨magic, marked⟩
  · have zero : getU32 (putU32 zeros 0 ALLOC_MAGIC) 16 = 0 := by
      rw [getU32, putU32, getBE_putBE_disjoint _ (by decide), getBE_zeros]
    rw [zero, Nat.zero_testBit] at marked
    cases marked

omit [Crc32c] in
theorem mask_of_used {i : Nat} (used : A.Used v (l, i)) : (A.arenaMask v l).testBit i = true := by
  have opened : openBlock (v (A.blk l)) = v (A.blk l) := if_pos used.1
  rw [arenaMask, opened]
  exact used.2

omit [Crc32c] in
theorem mask_iff_used {i : Nat} : (A.arenaMask v l).testBit i = true ↔ A.Used v (l, i) :=
  ⟨used_of_mask, mask_of_used⟩

end Ag

namespace Work

variable [Crc32c] {A : Ag} {w : Work} {hdr : AgHeader}

omit [Crc32c] in
/-- The block with which the scan of the arena starts. -/
def scanStart (hdr : AgHeader) (w : Work) : Nat :=
  match w.fs.hints hdr.agNum with
  | some (b, _) => if hdr.tblArena ≤ b ∧ b < hdr.tblArena + CELL_BLOCKS then b else hdr.tblArena
  | none => hdr.tblArena

/-- The blocks in the order of the scan. -/
def scanOrder (hdr : AgHeader) (w : Work) : List Nat :=
  if hdr.tblArena = 0 then []
  else (wrapRange (scanStart hdr w - hdr.tblArena) CELL_BLOCKS).map fun o => hdr.tblArena + o

/-- The blocks that the scan passes over before it ends. -/
def skipped (A : Ag) (hdr : AgHeader) (w : Work) : List Nat :=
  (scanOrder hdr w).takeWhile fun l => A.Skips w.blocksize w.view l

omit [Crc32c] in
theorem mem_scanOrder {l : Nat} : l ∈ scanOrder hdr w ↔
    hdr.tblArena ≠ 0 ∧ hdr.tblArena ≤ l ∧ l < hdr.tblArena + CELL_BLOCKS := by
  rw [scanOrder]
  split
  · rename_i none
    simp [none]
  · rename_i some
    constructor
    · intro member
      obtain ⟨o, inside, rfl⟩ := List.mem_map.mp member
      have bound := mem_wrapRange.mp inside
      exact ⟨some, by omega, by omega⟩
    · rintro ⟨-, low, high⟩
      exact List.mem_map.mpr ⟨l - hdr.tblArena, mem_wrapRange.mpr (by omega), by omega⟩

theorem tblAllocRec_run (hdr : AgHeader) (w : Work) : tblAllocRec hdr w =
    (arenaScan hdr (recsPerBlock w.blocksize) (scanOrder hdr w) >>= fun found =>
      match found with
      | some r => pure (r, hdr)
      | none => claimArena hdr) w := by
  rw [tblAllocRec, bind_ok _ _ (get_run (s := w)), ite_run]
  by_cases some : hdr.tblArena = 0
  · rw [if_neg (not_not_intro some), scanOrder, if_pos some]
    rfl
  · rw [if_pos some, scanOrder, if_neg some, bind_ok _ _ (get_run (s := w))]
    rfl

theorem arenaRead_run {l : Nat} (mapped : w.Mapped (A.blk l))
    (readable : A.Readable w.blocksize w.view l) :
    arenaRead A.num l w = (.ok (Ag.openBlock (w.view (A.blk l))), w) := by
  have raw : txnRead (blkAddr A.num l) w = (.ok (w.view (A.blk l)), w) := txnRead_run mapped
  rw [arenaRead, bind_ok _ _ raw, ite_run, Ag.openBlock]
  split
  · rename_i magic
    exact tblRead_run mapped (readable magic)
  · rfl

theorem arenaRead_unreadable {l : Nat} (mapped : w.Mapped (A.blk l))
    (unreadable : ¬ A.Readable w.blocksize w.view l) : ∃ m,
    arenaRead A.num l w = (.error (.bail m), w) := by
  have raw : txnRead (blkAddr A.num l) w = (.ok (w.view (A.blk l)), w) := txnRead_run mapped
  rw [Ag.Readable, Classical.not_imp] at unreadable
  obtain ⟨magic, broken⟩ := unreadable
  have here : getU32 (w.view (A.blk l)) 0 = ALLOC_MAGIC := magic
  have failed : wp (tblRead A.num l) (fun _ _ => False) (fun e w' => ∃ m, e = .bail m ∧ w' = w) w :=
    tblRead_wp mapped broken fun m => ⟨m, rfl, rfl⟩
  rw [arenaRead, bind_ok _ _ raw, ite_run, if_pos here]
  rcases run : tblRead A.num l w with ⟨e | buf, w'⟩
  · obtain ⟨m, rfl, rfl⟩ := wp_error failed run
    exact ⟨m, rfl⟩
  · exact (wp_ok failed run).elim

theorem arenaScan_skipped (on : A.On w) (of : A.Of hdr) {order : List Nat}
    (inside : ∀ b ∈ order, b < A.length) :
    arenaScan hdr (recsPerBlock w.blocksize) order w =
      arenaScan hdr (recsPerBlock w.blocksize)
        (order.dropWhile fun l => A.Skips w.blocksize w.view l) w := by
  induction order with
  | nil => rfl
  | cons b rest ih =>
      rw [List.dropWhile_cons]
      split
      · rename_i skips
        have skips := of_decide_eq_true skips
        rw [← ih fun b hb => inside b (List.mem_cons_of_mem _ hb), arenaScan, of.num,
          bind_ok _ _ (arenaRead_run (on.mapped b (inside b List.mem_cons_self)) skips.1), ite_run]
        exact if_pos skips.2
      · rfl

/-- All the bits of the mask are set in the block that is scanned first, and it has more records. -/
def Clogged (A : Ag) (hdr : AgHeader) (w : Work) : Prop :=
  32 < recsPerBlock w.blocksize ∧ ∃ l, (scanOrder hdr w).head? = some l ∧
    A.Readable w.blocksize w.view l ∧ ∀ i < 32, (A.arenaMask w.view l).testBit i = true

omit [Crc32c] in
theorem freeRec_full {used nrec : Nat} (room : countOnes used < nrec) :
    wp (freeRec used nrec) (fun _ w' => w' = w)
    (fun e w' => w' = w ∧ (∃ m, e = .panic m) ∧ 32 < nrec ∧ ∀ i < 32, used.testBit i = true) w := by
  rw [freeRec]
  split
  · rfl
  · rename_i none
    have all : ∀ i < min nrec 32, used.testBit i = true := by
      intro i hi
      have bit := List.find?_eq_none.mp none i (List.mem_range.mpr hi)
      rwa [Bool.not_eq_true', Bool.not_eq_false] at bit
    have many : 32 < nrec := by
      by_contra few
      obtain ⟨i, hi, clear⟩ := exists_clear (Nat.le_of_not_lt few) room
      rw [all i (by omega)] at clear
      cases clear
    rw [wp_ite, if_pos many]
    exact ⟨rfl, ⟨_, rfl⟩, many, fun i hi => all i (by omega)⟩

theorem arenaScan_ends (on : A.On w) (of : A.Of hdr) {l : Nat} {rest : List Nat}
    (mapped : w.Mapped (A.blk l))
    (apart : ¬ A.Root l) (stops : ¬ A.Skips w.blocksize w.view l) :
    wp (arenaScan hdr (recsPerBlock w.blocksize) (l :: rest))
    (fun found w' => ∃ r, found = some r ∧ r.1 = l ∧
      w.Kin w' ∧ w'.fs.sb = w.fs.sb ∧ A.Claimed w.blocksize w.view w'.view r none)
      (fun e w' => w' = w ∧ ((∃ m, e = .bail m) ∨ (∃ m, e = .panic m) ∧
      32 < recsPerBlock w.blocksize ∧
        A.Readable w.blocksize w.view l ∧ ∀ i < 32, (A.arenaMask w.view l).testBit i = true))
        w := by
  rw [arenaScan, of.num, wp_bind]
  by_cases readable : A.Readable w.blocksize w.view l
  · rw [wp_run (arenaRead_run mapped readable)]
    dsimp only
    rw [wp_ite]
    split
    · rename_i full
      exact (stops ⟨readable, full⟩).elim
    · rename_i room
      have room := Nat.lt_of_not_le room
      rw [wp_bind]
      apply wp_mono (wp_and (freeRec_wp _ _) (freeRec_full room))
      · rintro idx w' ⟨⟨rfl, index, bit, clear⟩, -⟩
        rw [wp_bind, wp_run (recRange_run (recIn_of_lt index)), wp_bind,
            wp_run (tblWrite_run _ _ _ _)]
        refine ⟨(l, idx), rfl, rfl, ⟨rfl, rfl, rfl⟩, rfl, ?_⟩
        have claimed := Ag.claimed_scan (A := A) (v := w'.view) (r := (l, idx)) on.blocksize index
            bit apart room
          clear
        rwa [Ag.claimedBlock, ← view_put] at claimed
      · rintro e w' ⟨-, rfl, broken, many, full⟩
        exact ⟨rfl, .inr ⟨broken, many, readable, full⟩⟩
  · obtain ⟨m, failed⟩ := arenaRead_unreadable mapped readable
    rw [wp_run_error failed]
    exact ⟨rfl, .inl ⟨m, rfl⟩⟩

theorem not_skips {bs : Nat} {v : Nat → Bytes} {l : Nat} (many : 32 < recsPerBlock bs) :
    ¬ A.Skips bs v l := by
  intro skips
  have few := countOnes_le (A.arenaMask v l)
  have enough := skips.2
  omega

theorem tblAllocRec_ends (on : A.On w) (of : A.Of hdr) (counted : Counted A w hdr)
    (arena : ∀ l ∈ scanOrder hdr w, l < A.length ∧ ¬ A.Root l) :
    wp (tblAllocRec hdr) (fun (r, hdr') w' => w.Kin w' ∧ ∃ grown,
      A.Claimed w.blocksize w.view w'.view r grown ∧ Growth A w w' hdr r grown hdr')
      (fun e w' => w' = w ∧ ((∃ m, e = .bail m) ∨ (∃ m, e = .panic m) ∧ Clogged A hdr w)) w := by
  rw [wp_congr (tblAllocRec_run hdr w), wp_bind,
      wp_congr (arenaScan_skipped on of fun b hb => (arena b hb).1)]
  cases stops : (scanOrder hdr w).dropWhile fun l => A.Skips w.blocksize w.view l with
  | nil => exact claimArena_wp on of counted fun m => ⟨rfl, .inl ⟨m, rfl⟩⟩
  | cons l rest =>
      have member : l ∈ scanOrder hdr w := by
        apply (List.dropWhile_sublist fun l => decide (A.Skips w.blocksize w.view l)).subset
        rw [stops]
        exact List.mem_cons_self
      have here : ¬ A.Skips w.blocksize w.view l := by
        have first := List.head?_dropWhile_not (fun l => decide (A.Skips w.blocksize w.view l))
            (scanOrder hdr w)
        rw [stops] at first
        exact of_decide_eq_false first
      obtain ⟨inside, apart⟩ := arena l member
      apply wp_mono (arenaScan_ends on of (on.mapped l inside) apart here)
      · rintro found w' ⟨r, rfl, block, kin, sb, claimed⟩
        obtain ⟨some, low, high⟩ := mem_scanOrder.mp member
        exact ⟨kin, none, claimed, .kept some (block ▸ low) (block ▸ high) sb⟩
      · rintro e w' ⟨unchanged, refused | ⟨broken, many, readable, full⟩⟩
        · exact ⟨unchanged, .inl refused⟩
        · refine ⟨unchanged, .inr ⟨broken, many, l, ?_, readable, full⟩⟩
          cases order : scanOrder hdr w with
          | nil =>
              rw [order] at stops
              cases stops
          | cons first later =>
              rw [order, List.dropWhile_cons, if_neg (by simpa using not_skips many)] at stops
              rw [(List.cons.inj stops).1]
              rfl

theorem tblFreeRec_ends {r : Ref} (mapped : w.Mapped (A.blk r.1)) :
    wp (tblFreeRec A.num r) (fun _ w' => A.Magic w.view r.1 ∧ RecIn w.blocksize r.2 ∧
      w' = w.put (A.blk r.1) (Ag.freedBlock w.blocksize (w.view (A.blk r.1)) r.2))
      (fun e w' => ∀ m, e = .bail m → w' = w) w := by
  rw [tblFreeRec, wp_bind]
  refine tblRead_wp mapped (fun sound => ?_) fun _ _ _ => rfl
  rw [wp_ite]
  split
  · exact fun _ _ => rfl
  · rw [wp_bind, recRange, wp_bind, wp_get, wp_ite]
    split
    · exact fun _ _ => rfl
    · rename_i inside
      rw [wp_pure, wp_run (tblWrite_run _ _ _ _)]
      exact ⟨sound.1, Nat.le_of_not_lt inside, rfl⟩

end Work

/-- An AG between two calls: the state of the filesystem, the header that the calls pass on, and the
records that are allocated. -/
structure RecState where
  w : Work
  hdr : AgHeader
  lots : Set Ref

namespace RecState

variable [Crc32c] (A : Ag)

/-- A call of `tbl_alloc_rec` or of `tbl_free_rec` that does not panic. -/
inductive Step : RecState → RecState → Prop
  | claimed {s : RecState} {r : Ref} {hdr' : AgHeader} {w' : Work} :
      Work.tblAllocRec s.hdr s.w = (.ok (r, hdr'), w') → Step s ⟨w', hdr', insert r s.lots⟩
  | refused {s : RecState} {m : String} {w' : Work} :
      Work.tblAllocRec s.hdr s.w = (.error (.bail m), w') → Step s ⟨w', s.hdr, s.lots⟩
  | released {s : RecState} {r : Ref} {w' : Work} : r.1 < A.length → ¬ A.Root r.1 →
      Work.tblFreeRec A.num r s.w = (.ok (), w') → Step s ⟨w', s.hdr, s.lots \ {r}⟩
  | missed {s : RecState} {r : Ref} {m : String} {w' : Work} : r.1 < A.length → ¬ A.Root r.1 →
      Work.tblFreeRec A.num r s.w = (.error (.bail m), w') → Step s ⟨w', s.hdr, s.lots⟩

inductive Reached (s₀ : RecState) : RecState → Prop
  | start : Reached s₀ s₀
  | step {s s' : RecState} : Reached s₀ s → Step A s s' → Reached s₀ s'

/-- The FREE cells. -/
def freeCells (v : Nat → Bytes) : Finset Nat :=
  (Finset.range A.cells).filter fun c => cellGet (A.table v) c = CELL_FREE

/-- The cell was claimed for table blocks. -/
def Arena (v : Nat → Bytes) (c : Nat) : Prop :=
  c < A.cells ∧ ¬ A.reserved c ∧ A.rootMark v c = .leaf .rsvd

/-- A mounted AG: its header names an arena, its FREE cells are counted, and the allocated records
are marked in table blocks of arenas. -/
structure Sane (s : RecState) : Prop where
  on : A.On s.w
  of : A.Of s.hdr
  arena : s.hdr.tblArena ≠ 0 → ∃ c, Arena A s.w.view c ∧ s.hdr.tblArena = c * CELL_BLOCKS
  free : ∀ c < A.cells, A.rootMark s.w.view c = .leaf .free → ¬ A.reserved c
  header : (freeCells A s.w.view).card * CELL_BLOCKS ≤ s.hdr.freeBlocks
  volume : (freeCells A s.w.view).card * CELL_BLOCKS ≤ s.w.fs.sb.freeBlocks
  lots : ∀ r ∈ s.lots, r.2 < recsPerBlock s.w.blocksize ∧ Arena A s.w.view (r.1 / CELL_BLOCKS) ∧
    A.Used s.w.view r ∧ TblOk s.w.blocksize (s.w.view (A.blk r.1))

/-- Record `r` was claimed. -/
structure Lot (s : RecState) (r : Ref) (hdr' : AgHeader) (w' : Work) : Prop where
  index : r.2 < recsPerBlock s.w.blocksize
  block : hdr'.tblArena ≤ r.1 ∧ r.1 < hdr'.tblArena + CELL_BLOCKS
  arena : Arena A w'.view (r.1 / CELL_BLOCKS)
  fresh : r ∉ s.lots
  marked : A.Used w'.view r
  others : ∀ r' ≠ r, ¬ A.Root r'.1 → r'.1 ≠ r.1 ∨ Arena A s.w.view (r.1 / CELL_BLOCKS) →
    (A.Used w'.view r' ↔ A.Used s.w.view r')
  alone : ∀ r' ≠ r, r'.1 = r.1 → ¬ Arena A s.w.view (r.1 / CELL_BLOCKS) → ¬ A.Used w'.view r'

variable {A} {s s' s₀ : RecState}

omit [Crc32c] in
theorem mem_freeCells {v : Nat → Bytes} {c : Nat} : c ∈ freeCells A v ↔ c < A.cells ∧
    A.rootMark v c = .leaf .free := by
  rw [freeCells, Finset.mem_filter, Finset.mem_range, Ag.rootMark, cellMark_eq_free]

theorem Sane.inside (sane : Sane A s) {l : Nat} (member : l ∈ Work.scanOrder s.hdr s.w) :
    l < A.length ∧ ¬ A.Root l ∧ Arena A s.w.view (l / CELL_BLOCKS) := by
  obtain ⟨some, low, high⟩ := Work.mem_scanOrder.mp member
  obtain ⟨c, arena, place⟩ := sane.arena some
  have whole := A.whole arena.1 arena.2.1
  rw [place] at low high
  have cell : l / CELL_BLOCKS = c := by
    rw [CELL_BLOCKS] at *
    omega
  refine ⟨?_, fun root => arena.2.1 (cell ▸ A.root_reserved root), cell ▸ arena⟩
  rw [CELL_BLOCKS] at *
  omega

theorem Sane.counted (sane : Sane A s) : Work.Counted A s.w s.hdr := by
  intro c hc free
  have some : 1 ≤ (freeCells A s.w.view).card :=
      Finset.card_pos.mpr ⟨c, mem_freeCells.mpr ⟨hc, free⟩⟩
  have one : CELL_BLOCKS ≤ (freeCells A s.w.view).card * CELL_BLOCKS :=
      Nat.le_mul_of_pos_left _ some
  exact ⟨sane.free c hc free, one.trans sane.header, one.trans sane.volume⟩

theorem Sane.ends (sane : Sane A s) : wp (Work.tblAllocRec s.hdr)
    (fun (r, hdr') w' => s.w.Kin w' ∧ ∃ grown,
    A.Claimed s.w.blocksize s.w.view w'.view r grown ∧ Work.Growth A s.w w' s.hdr r grown hdr')
    (fun e w' => w' = s.w ∧ ((∃ m, e = .bail m) ∨ (∃ m, e = .panic m) ∧ Work.Clogged A s.hdr s.w))
    s.w :=
  Work.tblAllocRec_ends sane.on sane.of sane.counted fun _ member =>
    ⟨(sane.inside member).1, (sane.inside member).2.1⟩

theorem Sane.lot_arena (sane : Sane A s) {r : Ref} {grown : Option Nat} {hdr' : AgHeader}
    {w' : Work}
    (claimed : A.Claimed s.w.blocksize s.w.view w'.view r grown)
    (growth : Work.Growth A s.w w' s.hdr r grown hdr') : Arena A w'.view (r.1 / CELL_BLOCKS) := by
  cases growth with
  | kept some low high sb =>
      obtain ⟨-, -, arena⟩ := sane.inside (Work.mem_scanOrder.mpr ⟨some, low, high⟩)
      refine ⟨arena.1, arena.2.1, ?_⟩
      rw [claimed.root _ arena.1, if_neg (fun h => by cases h)]
      exact arena.2.2
  | grown c hc free place sb hint =>
      have cell : r.1 / CELL_BLOCKS = c := by
        rw [place]
        exact Nat.mul_div_cancel _ (by decide)
      rw [cell]
      refine ⟨hc, sane.free c hc free, ?_⟩
      rw [claimed.root c hc, if_pos rfl]

theorem Arena.claimed {v v' : Nat → Bytes} {bs c : Nat} {r : Ref} {grown : Option Nat}
    (arena : Arena A v c)
    (claimed : A.Claimed bs v v' r grown) : Arena A v' c := by
  refine ⟨arena.1, arena.2.1, ?_⟩
  rw [claimed.root c arena.1]
  split
  · rfl
  · exact arena.2.2

omit [Crc32c] in
theorem Arena.ne_grown {w w' : Work} {hdr hdr' : AgHeader} {c : Nat} {r : Ref} {grown : Option Nat}
    (arena : Arena A w.view c) (growth : Work.Growth A w w' hdr r grown hdr') : ∀ c',
    grown = some c' → c ≠ c' := by
  rintro c' equal rfl
  cases growth with
  | kept => cases equal
  | grown c hc free =>
      cases equal
      rw [arena.2.2] at free
      cases free

omit [Crc32c] in
theorem Arena.not_root {v : Nat → Bytes} {l : Nat} (arena : Arena A v (l / CELL_BLOCKS)) :
    ¬ A.Root l :=
  fun root => arena.2.1 (A.root_reserved root)

theorem Sane.lot (sane : Sane A s) {r : Ref} {grown : Option Nat} {hdr' : AgHeader} {w' : Work}
    (claimed : A.Claimed s.w.blocksize s.w.view w'.view r grown)
    (growth : Work.Growth A s.w w' s.hdr r grown hdr') : Lot A s r hdr' w' := by
  have arena := sane.lot_arena claimed growth
  refine ⟨claimed.index, ?_, arena, fun member => ?_, claimed.used, fun r' other apart place => ?_,
    fun r' other here fresh => ?_⟩
  · cases growth with
    | kept _ low high => exact ⟨low, high⟩
    | grown c _ _ place =>
        exact ⟨place ▸ Nat.le_refl _, place ▸ Nat.lt_add_of_pos_right (by decide)⟩
  · obtain ⟨-, before, used, -⟩ := sane.lots r member
    cases growth with
    | kept => exact claimed.unused rfl used
    | grown c hc free place =>
        apply before.ne_grown (.grown c hc free place ‹_› ‹_›) c rfl
        rw [place]
        exact Nat.mul_div_cancel _ (by decide)
  · by_cases here : r'.1 = r.1
    · have before := place.resolve_left (not_not_intro here)
      have none : grown = none := by
        cases growth with
        | kept => rfl
        | grown c hc free place =>
            refine (before.ne_grown (.grown c hc free place ‹_› ‹_›) c rfl ?_).elim
            rw [place]
            exact Nat.mul_div_cancel _ (by decide)
      have mask := (claimed.filled none).2.2
      have index : r'.2 ≠ r.2 := fun equal => other (Prod.ext here equal)
      rw [← Prod.eta r', here, ← Ag.mask_iff_used, ← Ag.mask_iff_used, mask, testBit_set]
      simp [index]
    · have same : w'.view (A.blk r'.1) = s.w.view (A.blk r'.1) := by
        apply claimed.frame
        · exact fun equal => here (A.blk_inj.mp equal)
        · intro l root equal
          exact apart (A.blk_inj.mp equal ▸ root)
      rw [Ag.Used, Ag.Used, Ag.Magic, Ag.Magic, same]
  · cases growth with
    | kept some low high =>
        exact (fresh (sane.inside (Work.mem_scanOrder.mpr ⟨some, low, high⟩)).2.2).elim
    | grown c hc free place =>
        have index : r'.2 ≠ 0 := fun equal => other (Prod.ext here (equal.trans (place ▸ rfl)))
        rw [← Prod.eta r', here, ← Ag.mask_iff_used, claimed.first (fun h => by cases h),
          show (1 : Nat) = 2 ^ 0 from rfl, Nat.testBit_two_pow]
        simp [Ne.symm index]

theorem freeCells_claimed {v v' : Nat → Bytes} {bs : Nat} {r : Ref} {grown : Option Nat}
    (claimed : A.Claimed bs v v' r grown) : freeCells A v' = (freeCells A v).filter fun c =>
    grown ≠ some c := by
  ext c
  rw [Finset.mem_filter, mem_freeCells, mem_freeCells]
  constructor
  · rintro ⟨hc, free⟩
    rw [claimed.root c hc] at free
    split at free
    · cases free
    · rename_i other
      exact ⟨⟨hc, free⟩, other⟩
  · rintro ⟨⟨hc, free⟩, other⟩
    rw [claimed.root c hc, if_neg other]
    exact ⟨hc, free⟩

theorem card_kept {v v' : Nat → Bytes} {bs : Nat} {r : Ref} (claimed : A.Claimed bs v v' r none) :
    (freeCells A v').card = (freeCells A v).card := by
  rw [freeCells_claimed claimed, Finset.filter_true_of_mem fun _ _ => (fun h => by cases h)]

theorem card_grown {v v' : Nat → Bytes} {bs c : Nat} {r : Ref}
    (claimed : A.Claimed bs v v' r (some c))
    (hc : c < A.cells) (free : A.rootMark v c = .leaf .free) :
    (freeCells A v').card + 1 = (freeCells A v).card := by
  have erased : freeCells A v' = (freeCells A v).erase c := by
    rw [freeCells_claimed claimed]
    ext c'
    simp [and_comm, eq_comm]
  rw [erased]
  exact Finset.card_erase_add_one (mem_freeCells.mpr ⟨hc, free⟩)

theorem Sane.claimed (sane : Sane A s) {r : Ref} {grown : Option Nat} {hdr' : AgHeader} {w' : Work}
    (kin : s.w.Kin w') (claimed : A.Claimed s.w.blocksize s.w.view w'.view r grown)
    (growth : Work.Growth A s.w w' s.hdr r grown hdr') : Sane A ⟨w', hdr', insert r s.lots⟩ where
  on := sane.on.kin kin
  of := by
    cases growth with
    | kept => exact sane.of
    | grown => exact ⟨sane.of.num, sane.of.length, sane.of.root⟩
  arena := by
    cases growth with
    | kept =>
        intro some
        obtain ⟨c, arena, place⟩ := sane.arena some
        exact ⟨c, arena.claimed claimed, place⟩
    | grown c hc free place =>
        intro _
        have arena := sane.lot_arena claimed (.grown c hc free place ‹_› ‹_›)
        rw [place] at arena
        exact ⟨c, Nat.mul_div_cancel c (by decide : 0 < CELL_BLOCKS) ▸ arena, rfl⟩
  free c hc free := by
    rw [claimed.root c hc] at free
    split at free
    · cases free
    · exact sane.free c hc free
  header := by
    cases growth with
    | kept => exact card_kept claimed ▸ sane.header
    | grown c hc free =>
        have header := sane.header
        rw [← card_grown claimed hc free, Nat.add_mul, Nat.one_mul] at header
        exact Nat.le_sub_of_add_le header
  volume := by
    cases growth with
    | kept _ _ _ sb => exact card_kept claimed ▸ sb.symm ▸ sane.volume
    | grown c hc free _ sb =>
        have volume := sane.volume
        rw [← card_grown claimed hc free, Nat.add_mul, Nat.one_mul] at volume
        rw [sb]
        exact Nat.le_sub_of_add_le volume
  lots := by
    rintro r' (rfl | old)
    · rw [kin.blocksize]
      exact ⟨claimed.index, sane.lot_arena claimed growth, claimed.used, claimed.sound⟩
    · obtain ⟨index, arena, used, sound⟩ := sane.lots r' old
      have other : r' ≠ r := by
        rintro rfl
        exact (sane.lot claimed growth).fresh old
      have kept := claimed.kept r' other (recIn_of_lt index) used sound arena.not_root
          (arena.ne_grown growth)
      rw [kin.blocksize]
      exact ⟨index, arena.claimed claimed, kept.2.1, kept.2.2⟩

theorem Sane.released (sane : Sane A s) {r : Ref} (apart : ¬ A.Root r.1)
    (inside : RecIn s.w.blocksize r.2)
    (magic : A.Magic s.w.view r.1) : Sane A ⟨s.w.put (A.blk r.1)
      (Ag.freedBlock s.w.blocksize (s.w.view (A.blk r.1)) r.2), s.hdr, s.lots \ {r}⟩ := by
  have large := sane.on.blocksize
  have freed := Ag.rewritten_freeRec (A := A) (v := s.w.view) large inside magic
  have roots : ∀ c < A.cells, A.rootMark (s.w.put (A.blk r.1)
      (Ag.freedBlock s.w.blocksize (s.w.view (A.blk r.1)) r.2)).view c = A.rootMark s.w.view c := by
    intro c hc
    rw [Work.view_put]
    exact freed.root apart hc
  have arenas : ∀ c, Arena A s.w.view c → Arena A (s.w.put (A.blk r.1)
      (Ag.freedBlock s.w.blocksize (s.w.view (A.blk r.1)) r.2)).view c :=
    fun c arena => ⟨arena.1, arena.2.1, (roots c arena.1).trans arena.2.2⟩
  have cells : freeCells A (s.w.put (A.blk r.1)
      (Ag.freedBlock s.w.blocksize (s.w.view (A.blk r.1)) r.2)).view = freeCells A s.w.view := by
    ext c
    rw [mem_freeCells, mem_freeCells]
    exact and_congr_right fun hc => by rw [roots c hc]
  refine ⟨sane.on.put _ _, sane.of, fun some => ?_, fun c hc free => ?_, cells ▸ sane.header,
    cells ▸ sane.volume, ?_⟩
  · obtain ⟨c, arena, place⟩ := sane.arena some
    exact ⟨c, arenas c arena, place⟩
  · exact sane.free c hc ((roots c hc).symm.trans free)
  · rintro r' ⟨old, other⟩
    obtain ⟨index, arena, used, sound⟩ := sane.lots r' old
    rw [Work.view_put]
    rw [Work.view_put] at arenas
    exact ⟨index, arenas _ arena, (Ag.used_freeRec large r r').mpr ⟨used, other⟩,
        freed.sound _ sound⟩

theorem Sane.step (sane : Sane A s) (step : Step A s s') : Sane A s' := by
  cases step with
  | claimed run =>
      obtain ⟨kin, grown, claimed, growth⟩ := wp_ok sane.ends run
      exact sane.claimed kin claimed growth
  | refused run =>
      obtain ⟨rfl, -⟩ := wp_error sane.ends run
      exact sane
  | released inside apart run =>
      obtain ⟨magic, whole, rfl⟩ := wp_ok (Work.tblFreeRec_ends (sane.on.mapped _ inside)) run
      exact sane.released apart whole magic
  | missed inside apart run =>
      cases wp_error (Work.tblFreeRec_ends (sane.on.mapped _ inside)) run _ rfl
      exact sane

theorem Sane.reached (sane : Sane A s₀) (reached : Reached A s₀ s) : Sane A s := by
  induction reached with
  | start => exact sane
  | step _ step ih => exact ih.step step

end RecState

-- a volume with blocks of 8 KiB

section Clogged

variable [Crc32c]

end Clogged

end FiveFs
