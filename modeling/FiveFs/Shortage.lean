import FiveFs.Header

/-! What a failed allocation leaves. A cell is marked REFINED before a record is found for it, so an
allocation that runs out of records in between fails with the mark set. -/

namespace FiveFs

open Buffer Prog Refine

namespace Ag

/-- Free records of an arena block. -/
def freeRecs (A : Ag) (bs : Nat) (v : Nat → Bytes) (l : Nat) : Nat :=
  recsPerBlock bs - countOnes (A.arenaMask v l)

/-- Free records of the arena that begins at block `arena`; 0 stands for none. -/
def vacant (A : Ag) (bs : Nat) (v : Nat → Bytes) (arena : Nat) : Nat :=
  if arena = 0 then 0 else ∑ o ∈ Finset.range CELL_BLOCKS, A.freeRecs bs v (arena + o)

/-- The root table has the cell as FREE. -/
def FreeCell (A : Ag) (v : Nat → Bytes) (c : Nat) : Prop :=
  c < A.cells ∧ cellGet (A.table v) c = CELL_FREE

abbrev record (A : Ag) (v : Nat → Bytes) (r : Ref) : Bytes := recAt (v (A.blk r.1)) r.2

/-- The record of the cell has no room for `m` L1 cells. -/
def BarrenL1 (A : Ag) (v : Nat → Bytes) (m c : Nat) : Prop :=
  findRun (A.record v (A.rootRef v c)) m = none

/-- No L2 record of the cell has room for `n` blocks. -/
def BarrenL2 (A : Ag) (v : Nat → Bytes) (n c : Nat) : Prop :=
  ∀ i < ALLOC_FANOUT, recState (A.record v (A.rootRef v c)) i = CELL_REFINED →
    findRun (A.record v (recRef (A.record v (A.rootRef v c)) i)) n = none

/-- No L1 cell of the cell is FREE. -/
def Crowded (A : Ag) (v : Nat → Bytes) (c : Nat) : Prop :=
  ∀ i < ALLOC_FANOUT, recState (A.record v (A.rootRef v c)) i ≠ CELL_FREE

/-- No refined cell has room for `n` blocks, and every refined cell's reference can be read. -/
def NoRoom (A : Ag) (v : Nat → Bytes) (n c : Nat) : Prop :=
  cellGet (A.table v) c = CELL_REFINED → ¬ A.Split c ∧
    if n > ALLOC_FANOUT then A.BarrenL1 v ((n + ALLOC_FANOUT - 1) / ALLOC_FANOUT) c
    else A.BarrenL2 v n c ∧ A.Crowded v c

/-- `n` blocks have to come from the last FREE cell, and the records to refine it are not there. -/
structure Starved (A : Ag) (w : Work) (hdr : AgHeader) (n : Nat) : Prop where
  small : n < CELL_BLOCKS
  noRoom : ∀ c < A.cells, A.NoRoom w.view n c
  last : ∃ c, A.FreeCell w.view c ∧ ∀ c', A.FreeCell w.view c' → c' = c
  records : A.vacant w.blocksize w.view hdr.tblArena < if n > ALLOC_FANOUT then 1 else 2

/-- Every block of the arena is blank or a whole table block. -/
def Sealed [Crc32c] (A : Ag) (w : Work) (hdr : AgHeader) : Prop :=
  hdr.tblArena ≠ 0 → ∀ l, hdr.tblArena ≤ l → l < hdr.tblArena + CELL_BLOCKS →
    A.Magic w.view l → TblOk w.blocksize (w.view (A.blk l))

end Ag

theorem recs_large {bs : Nat} (power : ∃ k, bs = 2 ^ k) (many : 32 < recsPerBlock bs) :
    63 ≤ recsPerBlock bs := by
  obtain ⟨k, rfl⟩ := power
  rw [recsPerBlock, REC_SIZE] at *
  have large : 13 ≤ k := by
    by_contra small
    have le : 2 ^ k ≤ 2 ^ 12 := Nat.pow_le_pow_right (by decide) (by omega)
    omega
  have le : 2 ^ 13 ≤ 2 ^ k := Nat.pow_le_pow_right (by decide) large
  omega

namespace Work

variable {A : Ag} {w : Work} {hdr : AgHeader}

theorem freeRec_verdict {used nrec : Nat} (some : countOnes used < nrec) :
    wp (freeRec used nrec) (fun _ w' => w' = w) (fun e _ => (∃ m, e = .panic m) ∧ 32 < nrec) w := by
  rw [freeRec]
  split
  · rfl
  · rename_i none
    split
    · rename_i many
      exact ⟨⟨_, rfl⟩, many⟩
    · rename_i few
      obtain ⟨i, hi, clear⟩ := exists_clear (Nat.le_of_not_lt few) some
      have set := List.find?_eq_none.mp none i (List.mem_range.mpr (by omega))
      rw [clear] at set
      exact (set rfl).elim

theorem find_none {v : Nat → Bytes}
    (none : (List.range A.cells).find? (fun c => cellGet (A.table v) c == CELL_FREE) = none)
    (c : Nat) :
    ¬ A.FreeCell v c := by
  rintro ⟨hc, free⟩
  exact List.find?_eq_none.mp none c (List.mem_range.mpr hc) (beq_iff_eq.mpr free)

variable [Crc32c]

theorem arenaScan_verdict (on : A.On w) (of : A.Of hdr) {order : List Nat}
    (inside : ∀ b ∈ order, b < A.length ∧ (A.Magic w.view b →
    TblOk w.blocksize (w.view (A.blk b)))) :
    wp (arenaScan hdr (recsPerBlock w.blocksize) order)
      (fun found w' => (found = none ↔ ∀ b ∈ order, A.freeRecs w.blocksize w.view b = 0) ∧
        (found = none → w' = w))
      (fun e _ => (∃ m, e = .panic m) ∧ ∃ b ∈ order, 31 ≤ A.freeRecs w.blocksize w.view b) w := by
  induction order with
  | nil => exact ⟨by simp, fun _ => rfl⟩
  | cons b rest ih =>
      obtain ⟨low, sealed'⟩ := inside b List.mem_cons_self
      have read : arenaRead A.num b w = (.ok (Ag.openBlock (w.view (A.blk b))), w) := by
        have raw : txnRead (blkAddr A.num b) w = (.ok (w.view (A.blk b)), w) :=
          txnRead_run (on.mapped b low)
        rw [arenaRead, bind_ok _ _ raw, ite_run, Ag.openBlock]
        split
        · rename_i magic
          exact tblRead_run (on.mapped b low) (sealed' magic)
        · rfl
      rw [arenaScan, of.num, wp_bind, wp_run read]
      dsimp only
      rw [wp_ite]
      split
      · rename_i full
        have zero : A.freeRecs w.blocksize w.view b = 0 := Nat.sub_eq_zero_of_le full
        apply wp_mono (ih fun b hb => inside b (List.mem_cons_of_mem _ hb))
        · rintro found w' ⟨iff, same⟩
          rw [iff]
          exact ⟨by simp [zero], fun none => same (iff.mpr none)⟩
        · rintro e w' ⟨panic, b', member, many⟩
          exact ⟨panic, b', List.mem_cons_of_mem _ member, many⟩
      · rename_i room
        have some := Nat.lt_of_not_le room
        have positive : A.freeRecs w.blocksize w.view b ≠ 0 := by
          rw [Ag.freeRecs, Ag.arenaMask]
          omega
        rw [wp_bind]
        apply wp_mono (wp_and (freeRec_verdict some) (freeRec_wp _ _))
        · rintro idx w' ⟨rfl, -, index, -, -⟩
          rw [wp_bind, wp_run (recRange_run (recIn_of_lt index)), wp_bind,
              wp_run (tblWrite_run _ _ _ _)]
          exact ⟨by simp [positive], (fun h => by cases h)⟩
        · rintro e w' ⟨⟨panic, many⟩, -⟩
          refine ⟨panic, b, List.mem_cons_self, ?_⟩
          have large := recs_large (on.size.symm ▸ A.power) many
          have ones := countOnes_le (A.arenaMask w.view b)
          rw [Ag.freeRecs]
          omega

theorem claimArena_verdict (on : A.On w) (of : A.Of hdr) (counted : Counted A w hdr) :
    wp (claimArena hdr) (fun _ _ => ∃ c, A.FreeCell w.view c)
      (fun e w' => (∃ m, e = .bail m) ∧ (∀ c, ¬ A.FreeCell w.view c) ∧ w' = w) w := by
  have scan := findFree_run on of fun c (hc : c ∈ List.range A.cells) => List.mem_range.mp hc
  rw [claimArena, wp_bind, wp_get, cells_eq A of, wp_bind, wp_run scan]
  split
  · rename_i none
    exact ⟨⟨_, rfl⟩, find_none none, rfl⟩
  · rename_i c found
    have hc : c < A.cells := List.mem_range.mp (List.mem_of_find?_eq_some found)
    have state := List.find?_some found
    have free : A.rootMark w.view c = .leaf .free := cellMark_eq_free.mpr (beq_iff_eq.mp state)
    obtain ⟨-, inHdr, inSb⟩ := counted c hc free
    obtain ⟨w₁, written, put⟩ := rtStateSet_run on of hc CELL_RSVD
    rw [wp_bind, wp_run written, wp_bind, wp_run (setTblHint_run _ _ _), wp_bind,
        wp_run (subtract_run inHdr)]
    dsimp only
    have sb : ((w₁.rehint (Function.update w₁.fs.hints hdr.agNum
        (Option.some (c * CELL_BLOCKS, ((w₁.fs.hints hdr.agNum).getD (0, 0)).2)))).fs.sb) =
        w.fs.sb := put.sb
    rw [← sb] at inSb
    rw [wp_bind, wp_get, wp_bind, wp_run (subtract_run inSb), wp_bind, wp_modify, wp_bind,
      wp_run (tblWrite_run _ _ _ _)]
    exact ⟨c, hc, beq_iff_eq.mp state⟩

/-- No record is left, and no cell to claim for more. -/
def Stuck (A : Ag) (w : Work) (hdr : AgHeader) : Prop :=
  A.vacant w.blocksize w.view hdr.tblArena = 0 ∧ ∀ c, ¬ A.FreeCell w.view c

theorem tblAllocRec_verdict (on : A.On w) (of : A.Of hdr) (counted : Counted A w hdr)
    (arena : hdr.tblArena ≠ 0 → ∀ b, hdr.tblArena ≤ b → b < hdr.tblArena + CELL_BLOCKS →
      b < A.length ∧ ¬ A.Root b) (intact : A.Sealed w hdr) :
    wp (tblAllocRec hdr) (fun _ _ => ¬ Stuck A w hdr)
      (fun e w' => match e with
        | .bail _ => Stuck A w hdr ∧ w' = w
        | .panic _ => 31 ≤ A.vacant w.blocksize w.view hdr.tblArena) w := by
  have claim : A.vacant w.blocksize w.view hdr.tblArena = 0 →
      wp (claimArena hdr) (fun _ _ => ¬ Stuck A w hdr)
        (fun e w' => match e with
          | .bail _ => Stuck A w hdr ∧ w' = w
          | .panic _ => 31 ≤ A.vacant w.blocksize w.view hdr.tblArena) w := by
    intro none
    apply wp_mono (claimArena_verdict on of counted)
    · rintro _ _ ⟨c, free⟩ stuck
      exact stuck.2 c free
    · rintro e w' ⟨⟨m, rfl⟩, empty, same⟩
      exact ⟨⟨none, empty⟩, same⟩
  rw [tblAllocRec, wp_bind, wp_get]
  dsimp only
  rw [wp_ite]
  split
  · rename_i some
    have sum : A.vacant w.blocksize w.view hdr.tblArena =
        ∑ o ∈ Finset.range CELL_BLOCKS, A.freeRecs w.blocksize w.view (hdr.tblArena + o) :=
        if_neg some
    rw [wp_bind, wp_get, wp_bind]
    apply wp_mono (arenaScan_verdict on of ?_)
    · rintro (_ | r) w' ⟨iff, same⟩
      · cases same rfl
        apply claim
        rw [sum]
        apply Finset.sum_eq_zero
        intro o member
        apply iff.mp rfl
        exact List.mem_map_of_mem (mem_wrapRange.mpr (Finset.mem_range.mp member))
      · rintro ⟨none, -⟩
        rw [sum, Finset.sum_eq_zero_iff] at none
        cases iff.mpr fun b member => by
          obtain ⟨o, inside, rfl⟩ := List.mem_map.mp member
          exact none o (Finset.mem_range.mpr (mem_wrapRange.mp inside))
    · rintro e w' ⟨⟨m, rfl⟩, b, member, many⟩
      obtain ⟨o, inside, rfl⟩ := List.mem_map.mp member
      have le := Finset.single_le_sum
        (f := fun o => A.freeRecs w.blocksize w.view (hdr.tblArena + o))
        (fun _ _ => Nat.zero_le _) (Finset.mem_range.mpr (mem_wrapRange.mp inside))
      rw [← sum] at le
      exact Nat.le_trans many le
    · intro b member
      obtain ⟨o, inside, rfl⟩ := List.mem_map.mp member
      have bound := Nat.add_lt_add_left (mem_wrapRange.mp inside) hdr.tblArena
      exact ⟨(arena some _ (Nat.le_add_right _ _) bound).1,
          intact some _ (Nat.le_add_right _ _) bound⟩
  · rename_i none
    exact claim (if_pos (Decidable.not_not.mp none))

end Work

namespace Ag

variable {A : Ag} {w w' w'' : Work} {hdr hdr' : AgHeader} {c : Nat} {data : Bytes}

theorem vacant_congr {bs : Nat} {v v' : Nat → Bytes} {arena : Nat}
    (same : arena ≠ 0 → ∀ l, arena ≤ l → l < arena + CELL_BLOCKS → v' (A.blk l) = v (A.blk l)) :
    A.vacant bs v' arena = A.vacant bs v arena := by
  rw [vacant, vacant]
  split
  · rfl
  · rename_i some
    apply Finset.sum_congr rfl
    intro o member
    have bound := Nat.add_lt_add_left (Finset.mem_range.mp member) arena
    rw [freeRecs, freeRecs, arenaMask, arenaMask, same some _ (Nat.le_add_right _ _) bound]

/-- The arena lies outside the root table. -/
def Clear (A : Ag) (hdr : AgHeader) : Prop :=
  hdr.tblArena ≠ 0 → ∀ b, hdr.tblArena ≤ b → b < hdr.tblArena + CELL_BLOCKS → b < A.length ∧
  ¬ A.Root b

theorem Tabled.vacant (put : A.Tabled w w' data) (clear : A.Clear hdr) :
    A.vacant w'.blocksize w'.view hdr.tblArena = A.vacant w.blocksize w.view hdr.tblArena := by
  rw [put.kin.blocksize]
  exact vacant_congr fun some l low high => put.view (clear some l low high).2

theorem Tabled.intact [Crc32c] (put : A.Tabled w w' data) (clear : A.Clear hdr)
    (intact : A.Sealed w hdr) :
    A.Sealed w' hdr := by
  intro some l low high magic
  have same := put.view (clear some l low high).2
  rw [Magic, same] at magic
  rw [put.kin.blocksize, same]
  exact intact some l low high magic

theorem freeCell_refined (put : A.Tabled w w' (cellSet (A.table w.view) c CELL_REFINED))
    (c' : Nat) :
    A.FreeCell w'.view c' ↔ A.FreeCell w.view c' ∧ c' ≠ c := by
  constructor
  · rintro ⟨hc', free⟩
    rw [put.state hc', cellGet, cellSet, get2_set2 _ _ _ (by decide)] at free
    split at free
    · cases free
    · rename_i other
      exact ⟨⟨hc', free⟩, Ne.symm other⟩
  · rintro ⟨⟨hc', free⟩, other⟩
    refine ⟨hc', ?_⟩
    rw [put.state hc', cellGet, cellSet, get2_set2 _ _ _ (by decide), if_neg (Ne.symm other)]
    exact free

theorem freeCell_refSet {r : Ref}
    (put : A.Tabled w w' (copyAt (A.table w.view) (rtRefOff A.cells c) 6 (sixBytes r))) (c' : Nat) :
    A.FreeCell w'.view c' ↔ A.FreeCell w.view c' := by
  have same : ∀ c' < A.cells, cellGet (A.table w'.view) c' = cellGet (A.table w.view) c' := by
    intro c' hc'
    rw [put.state hc']
    apply get2_congr
    rw [copyAt_of_not_mem]
    rw [rtRefOff]
    omega
  constructor
  · exact fun free => ⟨free.1, same c' free.1 ▸ free.2⟩
  · exact fun free => ⟨free.1, (same c' free.1).symm ▸ free.2⟩

theorem view_flipped (before : A.FreeCell w.view c)
    (after : cellGet (A.table w'.view) c = CELL_REFINED) :
    w'.view ≠ w.view := by
  intro same
  rw [same, before.2] at after
  cases after

/-- The first block of a new arena, which the next claim tries first. -/
structure Fresh [Crc32c] (A : Ag) (w : Work) (hdr : AgHeader) : Prop where
  some : hdr.tblArena ≠ 0
  hint : (w.fs.hints hdr.agNum).map Prod.fst = Option.some hdr.tblArena
  sound : TblOk w.blocksize (w.view (A.blk hdr.tblArena))
  mask : A.arenaMask w.view hdr.tblArena = 1

/-- What a claim leaves of the records and the FREE cells. -/
inductive Left [Crc32c] (A : Ag) (w w' : Work) (hdr : AgHeader) : AgHeader → Prop
  | kept : A.vacant w'.blocksize w'.view hdr.tblArena + 1 = A.vacant w.blocksize w.view
      hdr.tblArena →
      (∀ c, A.FreeCell w'.view c ↔ A.FreeCell w.view c) → A.Sealed w' hdr → Left A w w' hdr hdr
  | grown (c : Nat) (hdr' : AgHeader) : A.FreeCell w.view c → A.Fresh w' hdr' → Left A w w' hdr hdr'

end Ag

namespace Work

variable [Crc32c] {A : Ag} {stale : Nat → Prop} {w w' : Work} {T : Nat → Tree} {hdr : AgHeader}
variable {half : Option Nat} {c : Nat} {r : Ref}

theorem claim_left (ready : A.Ready stale w hdr T half none) (intact : A.Sealed w hdr) :
    wp (tblAllocRec hdr) (fun (_, hdr') w' => A.Left w w' hdr hdr') NoUnderflow w := by
  apply wp_mono (tblAllocRec_wp ready.held.on ready.tally.of ready.counted ready.tally.place)
  · rintro ⟨r, hdr'⟩ w' ⟨kin, grown, claimed, growth⟩
    cases growth with
    | kept some low high sb =>
        have clear : A.Clear hdr := ready.tally.place
        have other : ∀ l, ¬ A.Root l → l ≠ r.1 → w'.view (A.blk l) = w.view (A.blk l) := by
          intro l root block
          apply claimed.frame
          · exact fun equal => block (A.blk_inj.mp equal)
          · exact fun l' inRoot equal => root (A.blk_inj.mp equal ▸ inRoot)
        apply Ag.Left.kept
        · obtain ⟨room, bit, mask⟩ := claimed.filled rfl
          have position : r.1 - hdr.tblArena ∈ Finset.range CELL_BLOCKS :=
            Finset.mem_range.mpr (by omega)
          have here : hdr.tblArena + (r.1 - hdr.tblArena) = r.1 := by omega
          have ones := countOnes_set claimed.bit bit
          have one_more : A.freeRecs w.blocksize w'.view r.1 + 1 = A.freeRecs w.blocksize w.view
              r.1 := by
            rw [Ag.freeRecs, Ag.freeRecs, mask, ones]
            omega
          rw [kin.blocksize, Ag.vacant, Ag.vacant, if_neg some, if_neg some,
            ← Finset.add_sum_erase _ _ position, ← Finset.add_sum_erase _ _ position,
            here, ← one_more]
          have rest : ∑ o ∈ (Finset.range CELL_BLOCKS).erase (r.1 - hdr.tblArena),
              A.freeRecs w.blocksize w'.view (hdr.tblArena + o) =
              ∑ o ∈ (Finset.range CELL_BLOCKS).erase (r.1 - hdr.tblArena),
              A.freeRecs w.blocksize w.view (hdr.tblArena + o) := by
            apply Finset.sum_congr rfl
            intro o member
            obtain ⟨apart, inside⟩ := Finset.mem_erase.mp member
            have bound := Nat.add_lt_add_left (Finset.mem_range.mp inside) hdr.tblArena
            have block := other (hdr.tblArena + o) (clear some _ (Nat.le_add_right _ _) bound).2
                (by omega)
            rw [Ag.freeRecs, Ag.freeRecs, Ag.arenaMask, Ag.arenaMask, block]
          rw [rest]
          omega
        · intro c
          have state : c < A.cells → (cellGet (A.table w'.view) c = CELL_FREE ↔
              cellGet (A.table w.view) c = CELL_FREE) := by
            intro hc
            have mark := claimed.root c hc
            rw [if_neg (fun h => by cases h)] at mark
            rw [← cellMark_eq_free (r := A.rootRef w'.view c), ← cellMark_eq_free
                (r := A.rootRef w.view c)]
            exact (Eq.congr_left mark)
          exact and_congr_right state
        · intro _ l low' high' magic
          by_cases block : l = r.1
          · rw [block, kin.blocksize]
            exact claimed.sound
          · have same := other l (clear some l low' high').2 block
            rw [Ag.Magic, same] at magic
            rw [kin.blocksize, same]
            exact intact some l low' high' magic
    | grown c hc free equal sb hint =>
        refine .grown c _ ⟨hc, cellMark_eq_free.mp free⟩ ⟨?_, hint, ?_, ?_⟩
        · have later := A.reserved_ne (ready.counted c hc free).1
          simp only [CELL_BLOCKS]
          omega
        · have sound := claimed.sound
          rw [equal] at sound
          rw [kin.blocksize]
          exact sound
        · have mask := claimed.first (fun h => by cases h)
          rw [equal] at mask
          exact mask
  · exact fun _ _ err => err

omit [Crc32c] in
theorem wrapRange_zero (n : Nat) : wrapRange 0 (n + 1) = 0 :: List.range' 1 n := by
  simp [wrapRange, List.range'_succ]

theorem tblAllocRec_fresh (on : A.On w) (of : A.Of hdr) (clear : A.Clear hdr)
    (fresh : A.Fresh w hdr) :
    wp (tblAllocRec hdr) (fun _ _ => True) (fun e _ => ∃ m, e = .panic m) w := by
  have first := (clear fresh.some hdr.tblArena (Nat.le_refl _)
      (Nat.lt_add_of_pos_right (by decide))).1
  obtain ⟨k, hint⟩ : ∃ k, w.fs.hints hdr.agNum = some (hdr.tblArena, k) := by
    obtain ⟨⟨b, k⟩, found, same⟩ := Option.map_eq_some_iff.mp fresh.hint
    cases same
    exact ⟨k, found⟩
  have order : (wrapRange (hdr.tblArena - hdr.tblArena) CELL_BLOCKS).map
      (fun o => hdr.tblArena + o) =
      hdr.tblArena :: (List.range' 1 255).map fun o => hdr.tblArena + o := by
    rw [Nat.sub_self, show CELL_BLOCKS = 255 + 1 from rfl, wrapRange_zero, List.map_cons,
        Nat.add_zero]
  have read : arenaRead A.num hdr.tblArena w = (.ok (w.view (A.blk hdr.tblArena)), w) := by
    have raw : txnRead (blkAddr A.num hdr.tblArena) w = (.ok (w.view (A.blk hdr.tblArena)), w) :=
      txnRead_run (on.mapped _ first)
    rw [arenaRead, bind_ok _ _ raw, ite_run, if_pos fresh.sound.1]
    exact tblRead_run (on.mapped _ first) fresh.sound
  have opened : Ag.openBlock (w.view (A.blk hdr.tblArena)) = w.view (A.blk hdr.tblArena) :=
    if_pos fresh.sound.1
  have mask := fresh.mask
  rw [Ag.arenaMask, opened] at mask
  have recs : 1 < recsPerBlock w.blocksize := by
    have large := on.blocksize
    rw [recsPerBlock, REC_SIZE]
    omega
  have room : ¬ countOnes 1 ≥ recsPerBlock w.blocksize := by
    rw [countOnes_one]
    omega
  rw [tblAllocRec, wp_bind, wp_get]
  dsimp only
  rw [wp_ite, if_pos fresh.some, wp_bind, wp_get, hint]
  dsimp only
  rw [if_pos ⟨Nat.le_refl _, Nat.lt_add_of_pos_right (by decide)⟩, order, arenaScan, of.num,
      wp_bind, wp_bind,
    wp_run read]
  dsimp only
  rw [mask, wp_ite, if_neg room, wp_bind]
  apply wp_mono (wp_and (freeRec_verdict (Nat.lt_of_not_le room)) (freeRec_wp _ _))
  · rintro idx w' ⟨rfl, -, index, -, -⟩
    rw [wp_bind, wp_run (recRange_run (recIn_of_lt index)), wp_bind, wp_run (tblWrite_run _ _ _ _),
        wp_bind,
      wp_run (setTblHint_run _ _ _)]
    trivial
  · exact fun e w' failed => failed.1.1

theorem refineL1_claim (ready : A.Ready stale w hdr T none none) (hc : c < A.cells)
    {kids : Fin ALLOC_FANOUT → Tree} (was : T c = .refined r kids) (i : Nat) {P : Prop}
    {E : Err → Work → Prop} (claim : wp (tblAllocRec hdr) (fun _ _ => P) E w) :
    wp (refineL1 hdr r i) (fun _ _ => P) E w := by
  rw [refineL1, wp_bind]
  apply wp_mono (wp_and claim (claim_wp ready))
  · rintro ⟨r', hdr'⟩ w' ⟨holds, grown, grows, ready', _⟩
    have cell : Ag.grow T grown c = .refined r kids := by
      rw [grows.other (.inl (by rw [was]; exact fun h => by cases h)), was]
    have known : A.Known (Ag.grow T grown) (some r') r :=
      Ag.known_of_tree hc (cell ▸ refCount_self r kids)
    dsimp only
    rw [ready'.tally.of.num, wp_bind, wp_run (ready'.held.recRead_run known), wp_bind,
      wp_run (ready'.held.recWrite_run known _)]
    exact holds
  · exact fun e w' both => both.1

/-- No FREE cell but `c`. -/
def Lone (A : Ag) (w : Work) (c : Nat) : Prop := ∀ c', A.FreeCell w.view c' → c' = c

/-- What refining the FREE cell `c` leaves of the records and the FREE cells. -/
inductive After (A : Ag) (w : Work) (c : Nat) (w' : Work) (hdr : AgHeader) : AgHeader → Prop
  | kept : A.vacant w'.blocksize w'.view hdr.tblArena + 1 = A.vacant w.blocksize w.view
      hdr.tblArena →
      (∀ c', A.FreeCell w'.view c' ↔ A.FreeCell w.view c' ∧ c' ≠ c) → A.Sealed w' hdr →
      After A w c w' hdr hdr
  | grown (c' : Nat) (hdr' : AgHeader) : A.FreeCell w.view c' → c' ≠ c → A.Fresh w' hdr' →
      After A w c w' hdr hdr'

/-- Refining a FREE cell fails where it is the last one and no record is left; its mark stays. -/
theorem refineL0_verdict (ready : A.Ready stale w hdr T none none) (intact : A.Sealed w hdr)
    (free : A.FreeCell w.view c) :
    wp (refineL0 hdr c) (fun (_, hdr') w' => After A w c w' hdr hdr' ∧
        ¬ (A.vacant w.blocksize w.view hdr.tblArena = 0 ∧ Lone A w c))
      (fun e w' => match e with
        | .bail _ => (A.vacant w.blocksize w.view hdr.tblArena = 0 ∧ Lone A w c) ∧ w'.view ≠ w.view
        | .panic _ => 31 ≤ A.vacant w.blocksize w.view hdr.tblArena) w := by
  have held := ready.held
  have hc := free.1
  have leaf := (held.root hc (fun h => by cases h)).free.mp free.2
  have clear : A.Clear hdr := ready.tally.place
  obtain ⟨w₀, written, put⟩ := rtStateSet_run held.on ready.tally.of hc CELL_REFINED
  have started := Moved.tabled put hdr (T := T) fun _ => id
  have begun : A.Ready stale w₀ hdr T (some c) none :=
    ⟨held.begin hc put leaf, ready.tally, started.covered ready.covered⟩
  have vacant := put.vacant clear
  have intact₀ := put.intact clear intact
  have cells := Ag.freeCell_refined put
  have stuck : Stuck A w₀ hdr ↔ A.vacant w.blocksize w.view hdr.tblArena = 0 ∧ Lone A w c := by
    rw [Stuck, vacant]
    apply and_congr_right'
    constructor
    · intro none c' free'
      by_contra other
      exact none c' ((cells c').mpr ⟨free', other⟩)
    · intro lone c' free'
      have before := (cells c').mp free'
      exact before.2 (lone c' before.1)
  have flipped : w₀.view ≠ w.view := by
    apply Ag.view_flipped free
    rw [put.state hc, cellGet, cellSet, get2_set2 _ _ _ (by decide), if_pos rfl]
  rw [refineL0, wp_bind, wp_run written, wp_bind]
  apply wp_mono (wp_and (wp_and (tblAllocRec_verdict begun.held.on begun.tally.of begun.counted
      clear intact₀)
    (claim_left begun intact₀)) (claim_wp begun))
  · rintro ⟨r, hdr'⟩ w' ⟨⟨some, left⟩, grown, grows, ready', moved⟩
    obtain ⟨w'', written', put'⟩ := rtRefSet_run ready'.held.on ready'.tally.of hc r
    dsimp only
    rw [wp_bind, wp_run written']
    refine ⟨?_, fun both => some (stuck.mpr both)⟩
    have clear' : A.Clear hdr' := ready'.tally.place
    cases left with
    | kept count same sealed' =>
        refine .kept ?_ (fun c' => ?_) (put'.intact clear' sealed')
        · rw [put'.vacant clear', count, vacant]
        · rw [Ag.freeCell_refSet put', same, cells]
    | grown c' hdr' free' fresh =>
        have before := (cells c').mp free'
        have arena := clear' fresh.some hdr'.tblArena (Nat.le_refl _)
            (Nat.lt_add_of_pos_right (by decide))
        have block := put'.view arena.2
        refine .grown c' hdr' before.1 before.2 ⟨fresh.some, ?_, ?_, ?_⟩
        · rw [put'.fs]
          exact fresh.hint
        · rw [put'.kin.blocksize, block]
          exact fresh.sound
        · rw [Ag.arenaMask, block]
          exact fresh.mask
  · rintro e w' ⟨⟨verdict, -⟩, -⟩
    cases e with
    | bail m =>
        obtain ⟨isStuck, rfl⟩ := verdict
        exact ⟨stuck.mp isStuck, flipped⟩
    | panic m => exact vacant ▸ verdict

/-- A scan finds nothing exactly under `C`, and has then changed nothing. -/
def Scanned {α : Type} (C : Prop) (w : Work) (found : Option α) (w' : Work) : Prop :=
  (found = none ↔ C) ∧ (found = none → w' = w)

def Panicked (C : Prop) (e : Err) (_ : Work) : Prop := (∃ m, e = .panic m) ∧ ¬ C

omit [Crc32c] in
theorem scan_on {α : Type} {x : Prog Work (Option α)} {P : Nat → Prop} {i : Nat} {rest : List Nat}
    (here : P i) (later : wp x (Scanned (∀ j ∈ rest, P j) w) (Panicked (∀ j ∈ rest, P j)) w) :
    wp x (Scanned (∀ j ∈ i :: rest, P j) w) (Panicked (∀ j ∈ i :: rest, P j)) w := by
  have all : (∀ j ∈ i :: rest, P j) ↔ ∀ j ∈ rest, P j := by simp [here]
  rw [all]
  exact later

omit [Crc32c] in
theorem scan_stop {P : Nat → Prop} {i : Nat} {rest : List Nat} (here : ¬ P i) :
    ¬ ∀ j ∈ i :: rest, P j := fun all => here (all i List.mem_cons_self)

/-- The cell has nothing for an allocation of `m` L1 cells, and its reference can be read. -/
def PassedL1 (A : Ag) (w : Work) (m c : Nat) : Prop :=
  cellGet (A.table w.view) c = CELL_REFINED → ¬ A.Split c ∧ A.BarrenL1 w.view m c

theorem allocL1Scan_verdict (ready : A.Ready stale w hdr T none none) {m : Nat} (some_run : 0 < m)
    {cs : List Nat} (inside : ∀ c ∈ cs, c < A.cells) :
    wp (allocL1Scan hdr m cs) (Scanned (∀ c ∈ cs, PassedL1 A w m c) w)
      (Panicked (∀ c ∈ cs, PassedL1 A w m c)) w := by
  induction cs with
  | nil => exact ⟨by simp, fun _ => rfl⟩
  | cons c rest ih =>
      have hc := inside c List.mem_cons_self
      have later := ih fun c' hc' => inside c' (List.mem_cons_of_mem _ hc')
      rw [allocL1Scan, wp_bind, wp_run (rtState_run ready.held.on ready.tally.of hc), wp_ite]
      split
      · rename_i open'
        exact scan_on (fun refined => (open' refined).elim) later
      · rename_i state
        have refined := Decidable.not_not.mp state
        rw [wp_bind]
        apply refinedCell_wp ready hc refined
        · rintro r kids was whole rfl rec
          have at_path := (Cell.sub_nil (T c)).trans (congrArg some was)
          rw [wp_bind, wp_run rec]
          cases run : findRun (recAt (w.view (A.blk (A.rootRef w.view c).1)) (A.rootRef w.view c).2)
              m with
          | none => exact scan_on (fun _ => ⟨whole, run⟩) later
          | some start =>
              obtain ⟨room, states⟩ := findRun_spec some_run run
              obtain ⟨w₁, w₂, hdr', T', written, counted, -, -⟩ := ready.giveL1 hc was some_run room
                fun i low high => (ready.held.kid hc (fun h => by cases h) at_path i).free.mp
                (states i low high)
              dsimp only
              rw [wp_bind, wp_run written, wp_bind, wp_run counted, wp_bind,
                  wp_run (setCellHint_run _ _ _),
                wp_pure]
              refine ⟨⟨(fun h => by cases h), fun all => (scan_stop (fun passed => ?_) all).elim⟩,
                  (fun h => by cases h)⟩
              have barren := (passed refined).2
              rw [Ag.BarrenL1, Ag.record, run] at barren
              cases barren
        · exact fun split => ⟨⟨_, rfl⟩, scan_stop fun passed => (passed refined).1 split⟩

/-- The verdict on an allocation: it runs out of records, and the cell it began to refine shows, or
it changed nothing. -/
def Verdict (C : Prop) (w : Work) : Err → Work → Prop
  | .bail _, w' => C ∧ w'.view ≠ w.view ∨ ¬ C ∧ w' = w
  | .panic _, _ => ¬ C

theorem allocL1_verdict (ready : A.Ready stale w hdr T none none) (intact : A.Sealed w hdr)
    {m : Nat}
    (some_run : 0 < m) (fits : m ≤ ALLOC_FANOUT) :
    wp (allocL1 hdr m)
      (fun _ _ => ¬ ((∀ c < A.cells, PassedL1 A w m c) ∧
        A.vacant w.blocksize w.view hdr.tblArena = 0 ∧ ∃ c, A.FreeCell w.view c ∧ Lone A w c))
      (Verdict ((∀ c < A.cells, PassedL1 A w m c) ∧
        A.vacant w.blocksize w.view hdr.tblArena = 0 ∧ ∃ c, A.FreeCell w.view c ∧ Lone A w c) w)
        w := by
  have all : (∀ c ∈ wrapRange (((w.fs.hints hdr.agNum).map Prod.snd).getD 0) A.cells,
      PassedL1 A w m c) ↔
      ∀ c < A.cells, PassedL1 A w m c := by
    simp only [mem_wrapRange]
  have wraps : ∀ c ∈ wrapRange (((w.fs.hints hdr.agNum).map Prod.snd).getD 0) A.cells,
      c < A.cells :=
    fun c hc => mem_wrapRange.mp hc
  have pass := allocL1Scan_verdict ready some_run wraps
  rw [all] at pass
  rw [allocL1, wp_bind, wp_get]
  dsimp only
  rw [cells_eq A ready.tally.of, wp_bind, cellHint, wp_bind, wp_get, wp_pure, wp_bind]
  apply wp_mono pass
  · rintro (_ | found) w' ⟨iff, same⟩
    · cases same rfl
      have passed := iff.mp rfl
      dsimp only
      rw [wp_bind, wp_run (findFree_run ready.held.on ready.tally.of fun c hc =>
          List.mem_range.mp hc)]
      cases first : (List.range A.cells).find? fun c => cellGet (A.table w.view) c == CELL_FREE with
      | none =>
          right
          refine ⟨?_, rfl⟩
          rintro ⟨-, -, c, free, -⟩
          exact find_none first c free
      | some c =>
          have free : A.FreeCell w.view c := find_free first
          have leaf := (ready.held.root free.1 (fun h => by cases h)).free.mp free.2
          have short : ((∀ c < A.cells, PassedL1 A w m c) ∧
              A.vacant w.blocksize w.view hdr.tblArena = 0 ∧
              ∃ c, A.FreeCell w.view c ∧ Lone A w c) ↔
              A.vacant w.blocksize w.view hdr.tblArena = 0 ∧ Lone A w c := by
            constructor
            · rintro ⟨-, none, c', free', lone⟩
              cases lone c free
              exact ⟨none, lone⟩
            · rintro ⟨empty, lone⟩
              exact ⟨passed, empty, c, free, lone⟩
          rw [short]
          dsimp only
          rw [wp_bind]
          apply wp_mono (wp_and (refineL0_verdict ready intact free)
              (refineL0_wp ready free.1 leaf))
          · rintro ⟨r, hdr₁⟩ w₁ ⟨⟨-, holds⟩, grown, grows, ready₁, moved⟩
            have was : Function.update (Ag.grow T grown) c (blank r) c = .refined r fun _ =>
                .leaf .free :=
              Function.update_self ..
            have known : A.Known (Function.update (Ag.grow T grown) c (blank r)) none r := by
              apply Ag.known_of_tree free.1
              rw [was]
              exact refCount_self r _
            have room : 0 + m ≤ ALLOC_FANOUT := by omega
            obtain ⟨w₂, w₃, hdr', T', written, counted, -, -⟩ :=
                ready₁.giveL1 free.1 was some_run room
              fun _ _ _ => rfl
            rw [ready₁.tally.of.num] at written
            dsimp only
            rw [ready₁.tally.of.num, wp_bind, wp_run (ready₁.held.recRead_run known), wp_bind,
              wp_run written, wp_bind, wp_run counted, wp_pure]
            exact holds
          · rintro e w₁ ⟨verdict, -⟩
            cases e with
            | bail msg => exact .inl verdict
            | panic msg =>
                rintro ⟨none, -⟩
                have many : 31 ≤ A.vacant w.blocksize w.view hdr.tblArena := verdict
                omega
    · intro starved
      cases iff.mpr starved.1
  · rintro e w' ⟨⟨msg, rfl⟩, failed⟩
    exact fun starved => failed starved.1

/-- No L2 record of the cell has room for `n` blocks, and its reference can be read. -/
def PassedL2 (A : Ag) (w : Work) (n c : Nat) : Prop :=
  cellGet (A.table w.view) c = CELL_REFINED → ¬ A.Split c ∧ A.BarrenL2 w.view n c

/-- No L1 cell of the cell is FREE, and its reference can be read. -/
def PassedRefine (A : Ag) (w : Work) (c : Nat) : Prop :=
  cellGet (A.table w.view) c = CELL_REFINED → ¬ A.Split c ∧ A.Crowded w.view c

theorem allocL2Children_verdict (ready : A.Ready stale w hdr T none none) {n c : Nat}
    (some_block : 0 < n)
    (hc : c < A.cells) {r : Ref} {kids : Fin ALLOC_FANOUT → Tree} (was : T c = .refined r kids)
    {is : List Nat} (inside : ∀ i ∈ is, i < ALLOC_FANOUT) :
    wp (allocL2Children hdr n c (A.record w.view r) is)
      (Scanned (∀ i ∈ is, recState (A.record w.view r) i = CELL_REFINED →
        findRun (A.record w.view (recRef (A.record w.view r) i)) n = none) w)
      (Panicked (∀ i ∈ is, recState (A.record w.view r) i = CELL_REFINED →
        findRun (A.record w.view (recRef (A.record w.view r) i)) n = none)) w := by
  have at_path := (Cell.sub_nil (T c)).trans (congrArg some was)
  induction is with
  | nil => exact ⟨by simp, fun _ => rfl⟩
  | cons i rest ih =>
      have later := ih fun j hj => inside j (List.mem_cons_of_mem _ hj)
      obtain ⟨i, rfl⟩ : ∃ i' : Fin ALLOC_FANOUT, i'.val = i :=
          ⟨⟨i, inside i List.mem_cons_self⟩, rfl⟩
      rw [allocL2Children, wp_ite]
      split
      · rename_i open'
        exact scan_on (fun refined => (open' refined).elim) later
      · rename_i state
        have refined := Decidable.not_not.mp state
        obtain ⟨kids', child⟩ := (ready.held.kid hc (fun h => by cases h) at_path i).refined.mp
            refined
        have child_path : (T c).sub [i] = some (.refined (recRef (A.record w.view r) i) kids') := by
          rw [was, Cell.sub_refined]
          exact (congrArg (Cell.sub · []) child).trans (Cell.sub_nil _)
        have known : A.Known T none (recRef (A.record w.view r) i) :=
          Ag.known_of_tree hc (refCount_sub_pos child_path)
        dsimp only
        rw [ready.tally.of.num, wp_bind, wp_run (ready.held.recRead_run known)]
        cases run : findRun (A.record w.view (recRef (A.record w.view r) i)) n with
        | none => exact scan_on (fun _ => run) later
        | some start =>
            have stop : ¬ (recState (A.record w.view r) i = CELL_REFINED →
                findRun (A.record w.view (recRef (A.record w.view r) i)) n = none) := by
              intro passed
              have barren := passed refined
              rw [run] at barren
              cases barren
            obtain ⟨room, states⟩ := findRun_spec some_block run
            obtain ⟨w₁, w₂, hdr', T', written, counted, -, -⟩ :=
                ready.giveL2 hc was child some_block room
              fun j low high => (ready.held.kid hc (fun h => by cases h) child_path j).free.mp
              (states j low high)
            rw [ready.tally.of.num] at written
            dsimp only
            rw [wp_bind, wp_run written, wp_bind, wp_run counted, wp_bind,
                wp_run (setCellHint_run _ _ _),
              wp_pure]
            exact ⟨⟨(fun h => by cases h), fun all => (scan_stop stop all).elim⟩,
                (fun h => by cases h)⟩

theorem allocL2Scan_verdict (ready : A.Ready stale w hdr T none none) {n : Nat} (some_block : 0 < n)
    {cs : List Nat} (inside : ∀ c ∈ cs, c < A.cells) :
    wp (allocL2Scan hdr n cs) (Scanned (∀ c ∈ cs, PassedL2 A w n c) w)
      (Panicked (∀ c ∈ cs, PassedL2 A w n c)) w := by
  induction cs with
  | nil => exact ⟨by simp, fun _ => rfl⟩
  | cons c rest ih =>
      have hc := inside c List.mem_cons_self
      have later := ih fun c' hc' => inside c' (List.mem_cons_of_mem _ hc')
      rw [allocL2Scan, wp_bind, wp_run (rtState_run ready.held.on ready.tally.of hc), wp_ite]
      split
      · rename_i open'
        exact scan_on (fun refined => (open' refined).elim) later
      · rename_i state
        have refined := Decidable.not_not.mp state
        rw [wp_bind]
        apply refinedCell_wp ready hc refined
        · rintro r kids was whole rfl rec
          have below : (∀ i ∈ List.range ALLOC_FANOUT, recState
              (A.record w.view (A.rootRef w.view c)) i =
              CELL_REFINED → findRun (A.record w.view
              (recRef (A.record w.view (A.rootRef w.view c)) i)) n =
              none) ↔ A.BarrenL2 w.view n c := by
            simp only [List.mem_range]
            rfl
          have slots : ∀ i ∈ List.range ALLOC_FANOUT, i < ALLOC_FANOUT :=
              fun i hi => List.mem_range.mp hi
          have pass := allocL2Children_verdict ready some_block hc was slots
          rw [below] at pass
          rw [wp_bind, wp_run rec, wp_bind]
          apply wp_mono pass
          · rintro (_ | found) w' ⟨iff, same⟩
            · cases same rfl
              exact scan_on (fun _ => ⟨whole, iff.mp rfl⟩) later
            · refine ⟨⟨(fun h => by cases h), fun all => (scan_stop (fun passed => ?_) all).elim⟩,
                  (fun h => by cases h)⟩
              cases iff.mpr (passed refined).2
          · rintro e w' ⟨panic, failed⟩
            exact ⟨panic, scan_stop fun passed => failed (passed refined).2⟩
        · exact fun split => ⟨⟨_, rfl⟩, scan_stop fun passed => (passed refined).1 split⟩

/-- A pass that fails has something to offer, and with a message it changed nothing. -/
def Refused (C : Prop) (w : Work) : Err → Work → Prop
  | .bail _, w' => ¬ C ∧ w' = w
  | .panic _, _ => ¬ C

theorem allocL2Refine_verdict (ready : A.Ready stale w hdr T none none) (intact : A.Sealed w hdr)
    {n : Nat}
    (some_block : 0 < n) (fits : n ≤ ALLOC_FANOUT) {cs : List Nat}
    (inside : ∀ c ∈ cs, c < A.cells) :
    wp (allocL2Refine hdr n cs) (Scanned (∀ c ∈ cs, PassedRefine A w c) w)
      (Refused (∀ c ∈ cs, PassedRefine A w c) w) w := by
  have clear : A.Clear hdr := ready.tally.place
  induction cs with
  | nil => exact ⟨by simp, fun _ => rfl⟩
  | cons c rest ih =>
      have hc := inside c List.mem_cons_self
      have later := ih fun c' hc' => inside c' (List.mem_cons_of_mem _ hc')
      have skip : PassedRefine A w c → wp (allocL2Refine hdr n rest)
          (Scanned (∀ c' ∈ c :: rest, PassedRefine A w c') w)
          (Refused (∀ c' ∈ c :: rest, PassedRefine A w c') w) w := by
        intro here
        have all : (∀ c' ∈ c :: rest, PassedRefine A w c') ↔ ∀ c' ∈ rest, PassedRefine A w c' := by
          simp [here]
        rw [all]
        exact later
      rw [allocL2Refine, wp_bind, wp_run (rtState_run ready.held.on ready.tally.of hc), wp_ite]
      split
      · rename_i open'
        exact skip fun refined => (open' refined).elim
      · rename_i state
        have refined := Decidable.not_not.mp state
        rw [wp_bind]
        apply refinedCell_wp ready hc refined
        · rintro r kids was whole rfl rec
          have at_path := (Cell.sub_nil (T c)).trans (congrArg some was)
          rw [wp_bind, wp_run rec]
          cases found : (List.range ALLOC_FANOUT).find? fun i =>
              recState (recAt (w.view (A.blk (A.rootRef w.view c).1)) (A.rootRef w.view c).2) i ==
                CELL_FREE with
          | none =>
              apply skip
              refine fun _ => ⟨whole, fun i hi free => ?_⟩
              exact List.find?_eq_none.mp found i (List.mem_range.mpr hi) (beq_iff_eq.mpr free)
          | some i =>
              obtain ⟨i, rfl, child⟩ := find_child found
              have free := (ready.held.kid hc (fun h => by cases h) at_path i).free.mp child
              have stop : ¬ ∀ c' ∈ c :: rest, PassedRefine A w c' :=
                scan_stop fun passed => (passed refined).2 i i.isLt child
              have claim := tblAllocRec_verdict ready.held.on ready.tally.of ready.counted clear
                  intact
              dsimp only
              rw [wp_bind]
              apply wp_mono (wp_and (refineL1_claim ready hc was i claim)
                  (refineL1_wp ready hc was free))
              · rintro ⟨r', hdr₁⟩ w₁ ⟨-, grown, grows, ready₁, moved⟩
                obtain ⟨rec', w₂, w₃, hdr', T', written, counted, -, -⟩ :=
                  fillFresh_wp ready₁ some_block fits hc (Function.update_self ..)
                dsimp only
                rw [wp_bind, wp_run rec', wp_bind, wp_run written, wp_bind, wp_run counted, wp_bind,
                  wp_run (setCellHint_run _ _ _), wp_pure]
                exact ⟨⟨(fun h => by cases h), fun all => (stop all).elim⟩, (fun h => by cases h)⟩
              · rintro e w₁ ⟨verdict, -⟩
                cases e with
                | bail m => exact ⟨stop, verdict.2⟩
                | panic m => exact stop
        · intro split
          exact scan_stop fun passed => (passed refined).1 split

/-- A FREE cell is refined twice. With one record left, the second refinement is the one that
fails. -/
theorem refineBoth_verdict (ready : A.Ready stale w hdr T none none) (intact : A.Sealed w hdr)
    {n : Nat}
    (some_block : 0 < n) (fits : n ≤ ALLOC_FANOUT) (free : A.FreeCell w.view c) :
    wp (do
      let (l0, hdr) ← refineL0 hdr c
      let (l1, hdr) ← refineL1 hdr l0 firstKid
      let l1rec ← recRead hdr.agNum l1
      recWrite hdr.agNum l1 (recFill l1rec 0 n CELL_FULL)
      let hdr ← accountAlloc hdr n
      return (blkAddr hdr.agNum (c * CELL_BLOCKS), hdr))
      (fun _ _ => ¬ (A.vacant w.blocksize w.view hdr.tblArena < 2 ∧ Lone A w c))
      (Verdict (A.vacant w.blocksize w.view hdr.tblArena < 2 ∧ Lone A w c) w) w := by
  have leaf := (ready.held.root free.1 (fun h => by cases h)).free.mp free.2
  rw [wp_bind]
  apply wp_mono (wp_and (refineL0_verdict ready intact free) (refineL0_wp ready free.1 leaf))
  · rintro ⟨r, hdr₁⟩ w₁ ⟨⟨after, some⟩, grown, grows, ready₁, moved⟩
    have was : Function.update (Ag.grow T grown) c (blank r) c = .refined r fun _ => .leaf .free :=
      Function.update_self ..
    have mark := ready₁.held.models c free.1 (fun h => by cases h)
    rw [was] at mark
    have refined : cellGet (A.table w₁.view) c = CELL_REFINED := (cellMark_eq_refined.mp mark.1).1
    have flipped := Ag.view_flipped free refined
    have clear : A.Clear hdr₁ := ready₁.tally.place
    -- the second refinement fails under the same condition, seen from where it starts
    have second : wp (refineL1 hdr₁ r firstKid)
        (fun _ _ => ¬ (A.vacant w.blocksize w.view hdr.tblArena < 2 ∧ Lone A w c))
        (Verdict (A.vacant w.blocksize w.view hdr.tblArena < 2 ∧ Lone A w c) w) w₁ := by
      cases after with
      | kept count cells sealed' =>
          have stuck : Stuck A w₁ hdr ↔ A.vacant w.blocksize w.view hdr.tblArena < 2 ∧
              Lone A w c := by
            constructor
            · rintro ⟨none, empty⟩
              refine ⟨by omega, fun c' free' => ?_⟩
              by_contra other
              exact empty c' ((cells c').mpr ⟨free', other⟩)
            · rintro ⟨few, lone⟩
              refine ⟨by omega, fun c' free' => ?_⟩
              have before := (cells c').mp free'
              exact before.2 (lone c' before.1)
          have claim := tblAllocRec_verdict ready₁.held.on ready₁.tally.of ready₁.counted clear
              sealed'
          apply wp_mono (refineL1_claim ready₁ free.1 was firstKid claim)
          · exact fun _ _ some both => some (stuck.mpr both)
          · intro e w' verdict
            cases e with
            | bail m =>
                obtain ⟨isStuck, rfl⟩ := verdict
                exact .inl ⟨stuck.mp isStuck, flipped⟩
            | panic m =>
                have many : 31 ≤ A.vacant w₁.blocksize w₁.view hdr.tblArena := verdict
                rintro ⟨few, -⟩
                omega
      | grown c' hdr' free' other fresh =>
          have claim := tblAllocRec_fresh ready₁.held.on ready₁.tally.of clear fresh
          apply wp_mono (refineL1_claim ready₁ free.1 was firstKid claim)
          · exact fun _ _ _ both => other (both.2 c' free')
          · rintro e w' ⟨m, rfl⟩
            exact fun both => other (both.2 c' free')
    dsimp only
    rw [wp_bind]
    apply wp_mono (wp_and second (refineL1_wp ready₁ free.1 was (i := firstKid) rfl))
    · rintro ⟨r', hdr₂⟩ w₂ ⟨holds, grown', grows', ready₂, moved'⟩
      obtain ⟨rec', w₃, w₄, hdr', T', written, counted, -, -⟩ :=
        fillFresh_wp ready₂ some_block fits free.1 (Function.update_self ..)
      dsimp only
      rw [wp_bind, wp_run rec', wp_bind, wp_run written, wp_bind, wp_run counted, wp_pure]
      exact holds
    · exact fun e w' both => both.1
  · rintro e w' ⟨verdict, -⟩
    cases e with
    | bail m =>
        obtain ⟨⟨none, lone⟩, flipped⟩ := verdict
        exact .inl ⟨⟨by omega, lone⟩, flipped⟩
    | panic m =>
        have many : 31 ≤ A.vacant w.blocksize w.view hdr.tblArena := verdict
        rintro ⟨few, -⟩
        omega

/-- The condition under which an allocation of at most 16 blocks runs out of records. -/
structure ShortL2 (A : Ag) (w : Work) (hdr : AgHeader) (n : Nat) : Prop where
  scanned : ∀ c < A.cells, PassedL2 A w n c
  crowded : ∀ c < A.cells, PassedRefine A w c
  records : A.vacant w.blocksize w.view hdr.tblArena < 2
  last : ∃ c, A.FreeCell w.view c ∧ Lone A w c

theorem allocL2_verdict (ready : A.Ready stale w hdr T none none) (intact : A.Sealed w hdr)
    {n : Nat}
    (some_block : 0 < n) (fits : n ≤ ALLOC_FANOUT) :
    wp (allocL2 hdr n) (fun _ _ => ¬ ShortL2 A w hdr n) (Verdict (ShortL2 A w hdr n) w) w := by
  have inside : ∀ c ∈ wrapRange (((w.fs.hints hdr.agNum).map Prod.snd).getD 0) A.cells,
      c < A.cells :=
    fun c hc => mem_wrapRange.mp hc
  have pass := allocL2Scan_verdict ready some_block inside
  have pass' := allocL2Refine_verdict ready intact some_block fits inside
  simp only [mem_wrapRange] at pass pass'
  rw [allocL2, wp_bind, wp_get]
  dsimp only
  rw [cells_eq A ready.tally.of, wp_bind, cellHint, wp_bind, wp_get, wp_pure, wp_bind]
  apply wp_mono pass
  · rintro (_ | found) w' ⟨iff, same⟩
    · cases same rfl
      have scanned := iff.mp rfl
      dsimp only
      rw [wp_bind]
      apply wp_mono pass'
      · rintro (_ | found) w' ⟨iff', same'⟩
        · cases same' rfl
          have crowded := iff'.mp rfl
          dsimp only
          rw [wp_bind, wp_run (findFree_run ready.held.on ready.tally.of fun c hc =>
              List.mem_range.mp hc)]
          cases first : (List.range A.cells).find? fun c =>
              cellGet (A.table w.view) c == CELL_FREE with
          | none =>
              right
              refine ⟨fun short => ?_, rfl⟩
              obtain ⟨c, free, -⟩ := short.last
              exact find_none first c free
          | some c =>
              have free : A.FreeCell w.view c := find_free first
              have short : ShortL2 A w hdr n ↔
                  A.vacant w.blocksize w.view hdr.tblArena < 2 ∧ Lone A w c := by
                constructor
                · rintro ⟨-, -, few, c', free', lone⟩
                  cases lone c free
                  exact ⟨few, lone⟩
                · rintro ⟨few, lone⟩
                  exact ⟨scanned, crowded, few, c, free, lone⟩
              rw [short]
              exact refineBoth_verdict ready intact some_block fits free
        · intro short
          cases iff'.mpr short.crowded
      · rintro e w' refused
        cases e with
        | bail m => exact .inr ⟨fun short => refused.1 short.crowded, refused.2⟩
        | panic m => exact fun short => refused short.crowded
    · intro short
      cases iff.mpr short.scanned
  · rintro e w' ⟨⟨m, rfl⟩, failed⟩
    exact fun short => failed short.scanned

theorem allocSized_verdict (ready : A.Ready stale w hdr T none none) (intact : A.Sealed w hdr)
    {n : Nat}
    (some_block : 0 < n) :
    wp (allocSized hdr n) (fun _ _ => ¬ A.Starved w hdr n) (Verdict (A.Starved w hdr n) w) w := by
  rw [allocSized]
  split
  · rename_i large
    have not : ¬ A.Starved w hdr n := fun starved => Nat.not_lt.mpr large starved.small
    apply wp_mono (allocL0_wp ready (by rw [CELL_BLOCKS]; omega))
    · exact fun _ _ _ => not
    · rintro e w' ⟨⟨m, rfl⟩, same⟩
      exact .inr ⟨not, same⟩
  · rename_i small
    split
    · rename_i more
      have starved : A.Starved w hdr n ↔
          (∀ c < A.cells, PassedL1 A w ((n + ALLOC_FANOUT - 1) / ALLOC_FANOUT) c) ∧
            A.vacant w.blocksize w.view hdr.tblArena = 0 ∧ ∃ c, A.FreeCell w.view c ∧
            Lone A w c := by
        constructor
        · rintro ⟨-, noRoom, last, records⟩
          rw [if_pos more] at records
          refine ⟨fun c hc refined => ?_, by omega, last⟩
          have barren := noRoom c hc refined
          rwa [if_pos more] at barren
        · rintro ⟨passed, none, last⟩
          refine ⟨by omega, fun c hc refined => ?_, last, ?_⟩
          · rw [if_pos more]
            exact passed c hc refined
          · rw [if_pos more]
            omega
      rw [starved]
      rw [CELL_BLOCKS] at small
      rw [ALLOC_FANOUT] at more
      apply allocL1_verdict ready intact
      · rw [ALLOC_FANOUT]
        omega
      · rw [ALLOC_FANOUT]
        omega
    · rename_i few
      have starved : A.Starved w hdr n ↔ ShortL2 A w hdr n := by
        constructor
        · rintro ⟨-, noRoom, last, records⟩
          rw [if_neg few] at records
          refine ⟨fun c hc refined => ?_, fun c hc refined => ?_, records, last⟩
          · have barren := noRoom c hc refined
            rw [if_neg few] at barren
            exact ⟨barren.1, barren.2.1⟩
          · have barren := noRoom c hc refined
            rw [if_neg few] at barren
            exact ⟨barren.1, barren.2.2⟩
        · rintro ⟨scanned, crowded, records, last⟩
          refine ⟨by omega, fun c hc refined => ?_, last, ?_⟩
          · rw [if_neg few]
            exact ⟨(scanned c hc refined).1, (scanned c hc refined).2, (crowded c hc refined).2⟩
          · rw [if_neg few]
            exact records
      rw [starved]
      exact allocL2_verdict ready intact some_block (Nat.le_of_not_lt few)

/-- An AG between calls: store, header and superblock agree, and the arena holds whole table blocks.
-/
structure Valid (A : Ag) (stale : Nat → Prop) (w : Work) (hdr : AgHeader) (T : Nat → Tree) :
    Prop where
  sound : A.Sound stale w hdr T
  intact : A.Sealed w hdr

theorem allocExtent_verdict (valid : Valid A stale w hdr T) {n : Nat} (some_block : 0 < n) :
    wp (allocExtent A.num n) (fun _ _ => ¬ A.Starved w hdr n) (Verdict (A.Starved w hdr n) w)
    w := by
  have sound := valid.sound
  have fits := sound.fits
  rw [allocExtent, wp_bind, wp_run sound.read, wp_bind]
  apply wp_mono (wp_and (allocSized_verdict sound.ready valid.intact some_block)
    (allocSized_wp sound.ready some_block))
  · rintro ⟨blk, hdr'⟩ w' ⟨holds, T', l, gave, -⟩
    have fixed := gave.moved.fixed
    have fits' := gave.ready.fits (by rw [fixed]; exact fits.gen)
        (by rw [fixed]; exact fits.inoHint)
      (by rw [fixed]; exact fits.dataHint)
    obtain ⟨w'', written, -⟩ := gave.ready.put fits'
    dsimp only
    rw [wp_bind, wp_run written, wp_pure]
    exact holds
  · exact fun e w' both => both.1

theorem starved_changes (valid : Valid A stale w hdr T) {n : Nat} (some_block : 0 < n)
    (starved : A.Starved w hdr n) :
    ∃ m w', allocExtent A.num n w = (.error (.bail m), w') ∧ w'.view ≠ w.view := by
  have verdict := allocExtent_verdict valid some_block
  cases run : allocExtent A.num n w with
  | mk res w' =>
      rw [wp, run] at verdict
      cases res with
      | ok blk => exact (verdict starved).elim
      | error e =>
          cases e with
          | bail m =>
              rcases verdict with ⟨-, changed⟩ | ⟨fed, -⟩
              · exact ⟨m, w', rfl, changed⟩
              · exact (fed starved).elim
          | panic m => exact (verdict starved).elim

theorem fed_clean (valid : Valid A stale w hdr T) {n : Nat} (some_block : 0 < n)
    (fed : ¬ A.Starved w hdr n) {m : String} {w' : Work}
    (run : allocExtent A.num n w = (.error (.bail m), w')) : w' = w := by
  rcases wp_error (allocExtent_verdict valid some_block) run with ⟨starved, -⟩ | ⟨-, same⟩
  · exact (fed starved).elim
  · exact same

/-- A failed allocation leaves every block and the counters as they were, exactly where the AG is
not starved of records for its last FREE cell. -/
theorem failed_alloc_clean_iff (valid : Valid A stale w hdr T) {n : Nat} (some_block : 0 < n) :
    (∀ m w', allocExtent A.num n w = (.error (.bail m), w') → w'.view = w.view ∧
    w'.fs.sb = w.fs.sb) ↔
      ¬ A.Starved w hdr n := by
  constructor
  · intro clean starved
    obtain ⟨m, w', run, changed⟩ := starved_changes valid some_block starved
    exact changed (clean m w' run).1
  · intro fed m w' run
    cases fed_clean valid some_block fed run
    exact ⟨rfl, rfl⟩

end Work

-- an AG of four cells with one of them left

theorem edge_sized : Ag.Sized 1 1024 1 2048 (fun c => c = 0) where
  num_lt := by decide
  length_lt := by decide
  power := ⟨11, rfl⟩
  large := by decide
  root_le := by decide
  hdr_lt := by decide
  head l small := by
    have table : (rtGeometry 1024 2048).2 = 1 := rfl
    rw [CELL_BLOCKS]
    omega
  tail c low high := by
    rw [CELL_BLOCKS] at *
    omega

def edgeAg : Ag := .ofSized edge_sized

def edgeHeader : AgHeader := {
  agNum := 1
  gen := 2
  length := 1024
  freeBlocks := 256
  rsvdBlocks := 256
  fullBlocks := 512
  allocRoot := 1
  inoHint := 0
  dataHint := 256
  tblArena := 0 }

/-- RSVD, FULL, FULL, FREE. -/
def edgeTable : Bytes := ofList [0b00101001]

def edgeTree (c : Nat) : Tree :=
  if c = 0 then .leaf .rsvd else if c < 3 then .leaf .full else .leaf .free

section Edge

variable [Crc32c]

/-- The AG lies behind AG 0, which has the first 8 MiB. -/
def edgeBytes : Bytes := fun i =>
  if i < 8388608 then 0
  else if i < 8390656 then clip AGHDR_SIZE edgeHeader.toBytes (i - 8388608)
  else if i < 8392704 then edgeTable (i - 8390656)
  else 0

def edgeWork : Work := {
  fs := {
    dev := ⟨edgeBytes, 10485760, 10485760, []⟩
    sb := { blocksize := 2048, inodesize := 256, nextAg := 2, freeBlocks := 256, rsvdBlocks := 256
            fullBlocks := 512 }
    map := ⟨2, [⟨AGF_PRESENT ||| AGF_IMMOVABLE, 4096, [⟨0, 4096, 0⟩]⟩,
      ⟨AGF_PRESENT, 1024, [⟨0, 1024, 8388608⟩]⟩]⟩ } }

theorem edge_resolve {l : Nat} (inside : l < 1024) :
    edgeWork.fs.map.resolve (edgeAg.blk l) 2048 = some (8388608 + l * 2048) := by
  have split : blkSplit (edgeAg.blk l) = (1, l) := blkSplit_blkAddr 1 (by omega)
  have entry : edgeWork.fs.map.entries[1]? = some ⟨AGF_PRESENT, 1024, [⟨0, 1024, 8388608⟩]⟩ := rfl
  rw [AgMap.resolve, split]
  simp only [entry]
  have present : ¬ (AGF_PRESENT &&& AGF_PRESENT = 0 ∨ l ≥ 1024) := by
    rw [not_or]
    exact ⟨by decide, by omega⟩
  rw [if_neg present]
  simp [inside]

theorem edge_view {l : Nat} (inside : l < 1024) :
    edgeWork.view (edgeAg.blk l) = clip 2048 (drop (8388608 + l * 2048) edgeBytes) := by
  have empty : edgeWork.t.find (edgeAg.blk l) = none := rfl
  have size : edgeWork.blocksize = 2048 := rfl
  rw [Work.view, empty]
  simp only [size, edge_resolve inside]
  rfl

theorem edge_on : edgeAg.On edgeWork where
  mapped l inside := by
    have bound : l < 1024 := inside
    refine ⟨_, edge_resolve bound, ?_⟩
    show 8388608 + l * 2048 + 2048 ≤ 10485760
    omega
  size := rfl

theorem edge_table {i : Nat} (inside : i < 2048) : edgeAg.table edgeWork.view i = edgeTable i := by
  have size : edgeAg.blocksize = 2048 := rfl
  have root : edgeAg.root = 1 := rfl
  rw [Ag.table, size, root, Nat.div_eq_of_lt inside, Nat.mod_eq_of_lt inside, Nat.add_zero,
    edge_view (by decide), clip_of_lt _ inside, drop, edgeBytes, if_neg (by omega),
    if_neg (by omega),
    if_pos (by omega)]
  exact congrArg edgeTable (by omega)

theorem edge_state {c : Nat} (hc : c < 4) : cellGet (edgeAg.table edgeWork.view) c = cellGet
    edgeTable c :=
  get2_congr (edge_table (by omega))

omit [Crc32c] in
theorem edge_states : cellGet edgeTable 0 = CELL_RSVD ∧ cellGet edgeTable 1 = CELL_FULL ∧
    cellGet edgeTable 2 = CELL_FULL ∧ cellGet edgeTable 3 = CELL_FREE := by decide

theorem edge_models {c : Nat} (hc : c < 4) :
    Models (edgeAg.kidMark edgeWork.view) (edgeAg.rootMark edgeWork.view c) (edgeTree c) := by
  obtain ⟨first, second, third, last⟩ := edge_states
  rw [Ag.rootMark, edge_state hc]
  have cases : c = 0 ∨ c = 1 ∨ c = 2 ∨ c = 3 := by omega
  rcases cases with rfl | rfl | rfl | rfl
  · rw [first]
    rfl
  · rw [second]
    rfl
  · rw [third]
    rfl
  · rw [last]
    rfl

omit [Crc32c] in
theorem edge_refs (r : Ref) : refTotal edgeAg.cells edgeTree r = 0 := by
  apply Finset.sum_eq_zero
  intro c _
  rw [edgeTree]
  split
  · rfl
  · split <;> rfl

theorem edge_blank {l : Nat} (inside : l < 1024) (later : 2 ≤ l) :
    ¬ edgeAg.Magic edgeWork.view l := by
  have zero : edgeWork.view (edgeAg.blk l) = zeros := by
    rw [edge_view inside]
    funext i
    rw [clip]
    split
    · rw [drop, edgeBytes, if_neg (by omega), if_neg (by omega), if_neg (by omega)]
      rfl
    · rfl
  rw [Ag.Magic, zero, getU32, getBE_zeros]
  decide

theorem edge_held : edgeAg.Held (fun _ => False) edgeWork edgeTree none none := by
  have unknown : ∀ r, ¬ edgeAg.Known edgeTree none r := by
    rintro r (referred | loose)
    · rw [edge_refs] at referred
      exact Nat.lt_irrefl 0 referred
    · cases loose
  have rsvd : ∀ c, edgeTree c = .leaf .rsvd → c = 0 := by
    intro c equal
    rw [edgeTree] at equal
    split at equal
    · assumption
    · split at equal <;> cases equal
  refine ⟨edge_on, fun c hc _ => edge_models hc, (fun _ h => by cases h), ?_, ?_,
      (fun _ h => by cases h), ?_, ?_, ?_, ?_⟩
  · intro r
    rw [edge_refs]
    exact Nat.zero_le 1
  · exact fun r known => (unknown r known).elim
  · rintro c _ rfl
    rfl
  · intro c _
    rw [edgeTree]
    split
    · exact fun _ => rfl
    · split
      · exact fun h => by cases h
      · exact fun h => by cases h
  · exact fun r _ arena _ => (arena.2.2 (rsvd _ arena.2.1)).elim
  · intro l inside open' _
    apply edge_blank inside
    by_contra small
    apply open'
    rw [Nat.div_eq_of_lt (by rw [CELL_BLOCKS]; omega)]
    rfl

omit [Crc32c] in
theorem edge_tally : edgeAg.Tally edgeHeader edgeTree where
  of := ⟨rfl, rfl, rfl⟩
  free := by
    simp [total, Finset.sum_range_succ, edgeTree, edgeAg, Ag.ofSized, Ag.cells, edgeHeader,
        CELL_BLOCKS, granule]
  full := by
    simp [total, Finset.sum_range_succ, edgeTree, edgeAg, Ag.ofSized, Ag.cells, edgeHeader,
        CELL_BLOCKS, granule]
  rsvd := by
    simp [total, Finset.sum_range_succ, edgeTree, edgeAg, Ag.ofSized, Ag.cells, edgeHeader,
        CELL_BLOCKS, rsvdWeight]
  arena some := (some rfl).elim

theorem edge_valid : Work.Valid edgeAg (fun _ => False) edgeWork edgeHeader edgeTree := by
  have fits : edgeHeader.Fits := by constructor <;> decide
  have block : edgeAg.hdrBlk = edgeAg.blk 0 := rfl
  refine ⟨⟨⟨edge_held, edge_tally, ⟨Nat.le_refl 256, Nat.le_refl 512⟩⟩, ?_⟩,
      fun some => (some rfl).elim⟩
  rw [block, edge_view (by decide), ← AgHeader.parse_clip, AGHDR_SIZE, clip_clip_of_le (by decide)]
  have same : clip 64 (drop (8388608 + 0 * 2048) edgeBytes) = clip AGHDR_SIZE
      edgeHeader.toBytes := by
    rw [AGHDR_SIZE]
    funext i
    rw [clip, clip]
    split
    · rename_i i inside
      have index : 8388608 + 0 * 2048 + i - 8388608 = i := by omega
      rw [drop, edgeBytes, if_neg (by omega), if_pos (by omega), index, AGHDR_SIZE,
        clip_of_lt _ inside]
    · rfl
  rw [same, AgHeader.parse_clip]
  exact AgHeader.parse_toBytes fits

theorem edge_starved : edgeAg.Starved edgeWork edgeHeader 17 := by
  obtain ⟨first, second, third, last⟩ := edge_states
  refine ⟨by decide, ?_, ⟨3, ⟨by decide, ?_⟩, ?_⟩, ?_⟩
  · intro c hc refined
    rw [edge_state hc] at refined
    have cases : c = 0 ∨ c = 1 ∨ c = 2 ∨ c = 3 := by
      have four : edgeAg.cells = 4 := rfl
      omega
    rcases cases with rfl | rfl | rfl | rfl
    · rw [first] at refined
      cases refined
    · rw [second] at refined
      cases refined
    · rw [third] at refined
      cases refined
    · rw [last] at refined
      cases refined
  · rw [edge_state (by decide)]
    exact last
  · rintro c ⟨hc, free⟩
    rw [edge_state hc] at free
    have four : edgeAg.cells = 4 := rfl
    by_contra other
    have cases : c = 0 ∨ c = 1 ∨ c = 2 := by omega
    rcases cases with rfl | rfl | rfl
    · rw [first] at free
      cases free
    · rw [second] at free
      cases free
    · rw [third] at free
      cases free
  · have none : edgeHeader.tblArena = 0 := rfl
    rw [Ag.vacant, if_pos none]
    decide

end Edge

/-- 17 blocks asked of the AG with one FREE cell: the call fails, and changes the AG. -/
theorem failed_alloc_not_clean : ¬ ∀ (A : Ag) (w : Work) (hdr : AgHeader) (T : Nat → Tree)
    (n : Nat),
    @Work.Valid castagnoli A (fun _ => False) w hdr T → 0 < n → ∀ m w',
      @Work.allocExtent castagnoli A.num n w = (.error (.bail m), w') →
        w'.view = w.view ∧ w'.fs.sb = w.fs.sb := by
  intro clean
  have valid := @edge_valid castagnoli
  have starved := @edge_starved castagnoli
  obtain ⟨m, w', run, changed⟩ := @Work.starved_changes castagnoli _ _ _ _ _ valid 17 (by decide)
      starved
  exact changed (clean edgeAg _ edgeHeader edgeTree 17 valid (by decide) m w' run).1

theorem failed_alloc_edge : (∀ m w', @Work.allocExtent castagnoli edgeAg.num 17
    (@edgeWork castagnoli) =
      (.error (.bail m), w') → w'.view = (@edgeWork castagnoli).view ∧
        w'.fs.sb = (@edgeWork castagnoli).fs.sb) ↔
    ¬ edgeAg.Starved (@edgeWork castagnoli) edgeHeader 17 :=
  @Work.failed_alloc_clean_iff castagnoli _ _ _ _ _ (@edge_valid castagnoli) 17 (by decide)

end FiveFs
