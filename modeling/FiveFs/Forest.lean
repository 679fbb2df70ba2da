import FiveFs.Grant
import FiveFs.Mkfs

/-! The forest that mkfs builds by hand: the marks it stores, and what they count. -/

namespace FiveFs

open Buffer Refine

-- tables of reserved cells

theorem cellGet_reserveCells (t : Bytes) (n c : Nat) :
    cellGet (reserveCells t n) c = if c < n then CELL_RSVD else cellGet t c := by
  induction n with
  | zero => rfl
  | succ n ih =>
      have step : reserveCells t (n + 1) = cellSet (reserveCells t n) n CELL_RSVD := by
        rw [reserveCells, List.range_succ, List.foldl_append]
        rfl
      rw [step, cellGet, cellSet, get2_set2 _ _ _ (by decide)]
      by_cases last : n = c
      · rw [if_pos last, if_pos (by omega)]
      · rw [if_neg last, ← cellGet, ih]
        by_cases below : c < n
        · rw [if_pos below, if_pos (by omega)]
        · rw [if_neg below, if_neg (by omega)]

theorem cellGet_cellSet (t : Bytes) (i j : Nat) {st : Nat} (small : st < 4) :
    cellGet (cellSet t i st) j = if i = j then st else cellGet t j := get2_set2 t i j small

def cellCount (len : Nat) : Nat := (len + CELL_BLOCKS - 1) / CELL_BLOCKS

namespace Mkfs

/-- The cells that a new AG reserves: those of its metadata, and the last one where it is partial or
has the backup superblock. -/
def Reserved (ag len head c : Nat) : Prop :=
  c < head ∨ c + 1 = cellCount len ∧ (len % CELL_BLOCKS ≠ 0 ∨ ag = 0)

instance (ag len head c : Nat) : Decidable (Reserved ag len head c) :=
  inferInstanceAs (Decidable (_ ∨ _))

theorem cellGet_newAgTable {len : Nat} (head : Nat) (some_cell : 0 < cellCount len) (c : Nat) :
    cellGet (Gofs.newAgTable len (cellCount len) head).1 c =
      if c < head ∨ c + 1 = cellCount len ∧ len %
      CELL_BLOCKS ≠ 0 then CELL_RSVD else CELL_FREE := by
  have reserve : ∀ c, cellGet (reserveCells zeros head)
      c = if c < head then CELL_RSVD else CELL_FREE := by
    intro c
    rw [cellGet_reserveCells, cellGet, get2_zeros]
    rfl
  rw [Gofs.newAgTable, reserve]
  by_cases below : cellCount len - 1 < head
  · rw [if_pos below, if_neg fun both => absurd both.2 (by decide)]
    dsimp only
    rw [reserve]
    by_cases inside : c < head
    · rw [if_pos inside, if_pos (.inl inside)]
    · rw [if_neg inside, if_neg (by omega)]
  · rw [if_neg below]
    by_cases whole : len % CELL_BLOCKS ≠ 0
    · rw [if_pos ⟨whole, rfl⟩]
      dsimp only
      rw [cellGet_cellSet _ _ _ (by decide), reserve]
      by_cases last : cellCount len - 1 = c
      · rw [if_pos last, if_pos (.inr ⟨by omega, whole⟩)]
      · rw [if_neg last]
        by_cases inside : c < head
        · rw [if_pos inside, if_pos (.inl inside)]
        · rw [if_neg inside, if_neg (by omega)]
    · rw [if_neg fun both => whole both.1]
      dsimp only
      rw [reserve]
      by_cases inside : c < head
      · rw [if_pos inside, if_pos (.inl inside)]
      · rw [if_neg inside, if_neg (by omega)]

theorem newAgTable_count {len : Nat} (head : Nat) (some_cell : 0 < cellCount len) :
    (Gofs.newAgTable len (cellCount len) head).2 =
      if head < cellCount len ∧ len % CELL_BLOCKS ≠ 0 then head + 1 else head := by
  rw [Gofs.newAgTable, cellGet_reserveCells, cellGet, get2_zeros]
  by_cases below : cellCount len - 1 < head
  · rw [if_pos below, if_neg fun both => absurd both.2 (by decide)]
    have full : ¬ head < cellCount len := by omega
    rw [if_neg fun both => full both.1]
  · rw [if_neg below]
    by_cases whole : len % CELL_BLOCKS ≠ 0
    · rw [if_pos ⟨whole, rfl⟩, if_pos ⟨by omega, whole⟩]
    · rw [if_neg fun both => whole both.1, if_neg fun both => whole both.2]

theorem cellGet_reservedTable {ag len head : Nat} (some_cell : 0 < cellCount len) (c : Nat) :
    cellGet (reservedTable ag len (cellCount len) head).1 c =
      if Reserved ag len head c then CELL_RSVD else CELL_FREE := by
  have table := cellGet_newAgTable head some_cell
  rw [reservedTable]
  dsimp only
  rw [table (cellCount len - 1)]
  by_cases last : cellCount len - 1 < head ∨
      cellCount len - 1 + 1 = cellCount len ∧ len % CELL_BLOCKS ≠ 0
  · rw [if_pos last, if_neg fun both => absurd both.2 (by decide)]
    dsimp only
    rw [table c]
    congr 1
    rw [Reserved, eq_iff_iff]
    omega
  · rw [if_neg last]
    by_cases first : ag = 0
    · rw [if_pos ⟨first, rfl⟩]
      dsimp only
      rw [cellGet_cellSet _ _ _ (by decide), table c]
      by_cases here : cellCount len - 1 = c
      · rw [if_pos here, if_pos (.inr ⟨by omega, .inr first⟩)]
      · rw [if_neg here]
        congr 1
        rw [Reserved, eq_iff_iff]
        omega
    · rw [if_neg fun both => first both.1]
      dsimp only
      rw [table c]
      congr 1
      rw [Reserved, eq_iff_iff]
      omega

theorem reservedTable_count {ag len head : Nat} (some_cell : 0 < cellCount len) :
    (reservedTable ag len (cellCount len) head).2 =
      if head < cellCount len ∧ (len % CELL_BLOCKS ≠ 0 ∨ ag = 0) then head + 1 else head := by
  have table := cellGet_newAgTable head some_cell (cellCount len - 1)
  have count := newAgTable_count head some_cell
  rw [reservedTable]
  dsimp only
  rw [table, count]
  by_cases last : cellCount len - 1 < head ∨
      cellCount len - 1 + 1 = cellCount len ∧ len % CELL_BLOCKS ≠ 0
  · rw [if_pos last, if_neg fun both => absurd both.2 (by decide)]
    dsimp only
    congr 1
    rw [eq_iff_iff]
    omega
  · rw [if_neg last]
    by_cases first : ag = 0
    · rw [if_pos ⟨first, rfl⟩, if_neg (by omega), if_pos (by omega)]
    · rw [if_neg fun both => first both.1]
      dsimp only
      congr 1
      rw [eq_iff_iff]
      omega

end Mkfs

-- what a forest counts

theorem weigh_whole (length c : Nat) {x : Tree} {d : Nat} (shape : Shape d x) (deep : 0 < d) :
    x.weigh freeWeight d + x.weigh fullWeight d + x.weigh (rsvdWeight length c) d = granule d := by
  induction x generalizing d with
  | leaf s =>
      cases s with
      | free => simp [freeWeight, fullWeight, rsvdWeight]
      | full => simp [freeWeight, fullWeight, rsvdWeight]
      | rsvd =>
          have root : d = 0 := shape rfl
          omega
  | refined r kids ih =>
      rw [Cell.weigh_refined, Cell.weigh_refined, Cell.weigh_refined]
      have below : ∑ i, (kids i).weigh freeWeight (d + 1) + ∑ i, (kids i).weigh fullWeight (d + 1) +
          ∑ i, (kids i).weigh (rsvdWeight length c) (d + 1) = ALLOC_FANOUT * granule (d + 1) := by
        rw [← Finset.sum_add_distrib, ← Finset.sum_add_distrib,
          Finset.sum_congr rfl fun i _ => ih i (shape.2 i) (Nat.succ_pos d), Finset.sum_const,
          Finset.card_univ, Fintype.card_fin, smul_eq_mul]
      have node : freeWeight.node d r + fullWeight.node d r + (rsvdWeight length c).node d r +
          ALLOC_FANOUT * granule (d + 1) = granule d := by
        have depth : d = 1 ∨ d = 2 := by
          have bound := shape.1
          omega
        rcases depth with rfl | rfl <;> rfl
      omega

theorem weigh_root {length c : Nat} {x : Tree} (shape : Shape 0 x)
    (whole : x ≠ .leaf .rsvd → (c + 1) * CELL_BLOCKS ≤ length) :
    x.weigh freeWeight 0 + x.weigh fullWeight 0 + x.weigh (rsvdWeight length c) 0 =
      min CELL_BLOCKS (length - c * CELL_BLOCKS) := by
  cases x with
  | leaf s =>
      cases s with
      | rsvd => simp [freeWeight, fullWeight, rsvdWeight]
      | free =>
          have bound := whole (fun h => by cases h)
          simp only [Cell.weigh_leaf, freeWeight, fullWeight, rsvdWeight, granule,
              CELL_BLOCKS] at bound ⊢
          simp
          omega
      | full =>
          have bound := whole (fun h => by cases h)
          simp only [Cell.weigh_leaf, freeWeight, fullWeight, rsvdWeight, granule,
              CELL_BLOCKS] at bound ⊢
          simp
          omega
  | refined r kids =>
      have bound := whole (fun h => by cases h)
      rw [Cell.weigh_refined, Cell.weigh_refined, Cell.weigh_refined]
      have below : ∑ i, (kids i).weigh freeWeight (0 + 1) + ∑ i, (kids i).weigh fullWeight (0 + 1) +
          ∑ i, (kids i).weigh (rsvdWeight length c) (0 + 1) = ALLOC_FANOUT * granule (0 + 1) := by
        rw [← Finset.sum_add_distrib, ← Finset.sum_add_distrib,
          Finset.sum_congr rfl fun i _ => weigh_whole length c (shape.2 i) Nat.one_pos,
          Finset.sum_const,
          Finset.card_univ, Fintype.card_fin, smul_eq_mul]
      have node : freeWeight.node 0 r + fullWeight.node 0 r + (rsvdWeight length c).node 0 r +
          ALLOC_FANOUT * granule (0 + 1) = CELL_BLOCKS := rfl
      rw [Nat.add_mul, Nat.one_mul] at bound
      rw [Nat.min_eq_left (by omega)]
      omega

theorem sum_blocks (length n : Nat) :
    ∑ c ∈ Finset.range n, min CELL_BLOCKS (length - c * CELL_BLOCKS) = min (n * CELL_BLOCKS)
    length := by
  induction n with
  | zero => simp
  | succ n ih =>
      rw [Finset.sum_range_succ, ih, CELL_BLOCKS]
      omega

theorem total_blocks {length : Nat} {T : Nat → Tree} (shape : ∀ c < cellCount length, Shape 0 (T c))
    (whole : ∀ c < cellCount length, T c ≠ .leaf .rsvd → (c + 1) * CELL_BLOCKS ≤ length) :
    total (cellCount length) (fun _ => freeWeight) T + total (cellCount length)
    (fun _ => fullWeight) T +
      total (cellCount length) (rsvdWeight length) T = length := by
  rw [total, total, total, ← Finset.sum_add_distrib, ← Finset.sum_add_distrib]
  have each : ∀ c ∈ Finset.range (cellCount length),
      (T c).weigh freeWeight 0 + (T c).weigh fullWeight 0 +
      (T c).weigh (rsvdWeight length c) 0 = min CELL_BLOCKS (length - c * CELL_BLOCKS) := by
    intro c hc
    have inside := Finset.mem_range.mp hc
    exact weigh_root (shape c inside) (whole c inside)
  rw [Finset.sum_congr rfl each, sum_blocks, cellCount, CELL_BLOCKS]
  omega

namespace Mkfs

/-- The forest of an AG with nothing in it. -/
def bare (ag len head c : Nat) : Tree := if Reserved ag len head c then .leaf .rsvd else .leaf .free

/-- A record whose first child is `x` and whose others are FREE. -/
def lone (r : Ref) (x : Tree) : Tree := .refined r fun i => if i.val = 0 then x else .leaf .free

/-- The slot record: the root inode, and the kernel inode behind it. -/
def slotTree (r : Ref) (kernel : Bool) : Tree :=
  .refined r fun i => if i.val = 0 ∨ i.val = 1 ∧ kernel = true then .leaf .full else .leaf .free

/-- The cell of the inode block, refined down to its slots. -/
def inoTree (arena : Nat) (kernel : Bool) : Tree :=
  lone (arena, 0) (lone (arena, 1) (slotTree (arena, 2) kernel))

/-- The forest of AG 0: an arena cell and an inode cell follow the head. -/
def planted (len head : Nat) (kernel : Bool) : Nat → Tree :=
  Function.update (Function.update (bare 0 len head) head (.leaf .rsvd)) (head + 1)
    (inoTree (head * CELL_BLOCKS) kernel)

/-- The cells that are not reserved. -/
def openCells (ag len head : Nat) : Nat :=
  cellCount len - if head < cellCount len ∧ (len % CELL_BLOCKS ≠ 0 ∨ ag = 0) then head + 1 else head

theorem bare_free (ag len head : Nat) :
    total (cellCount len) (fun _ => freeWeight) (bare ag len head) = openCells ag len
    head * CELL_BLOCKS := by
  have each : ∀ c ∈ Finset.range (cellCount len), (bare ag len head c).weigh freeWeight 0 =
      if ¬ Reserved ag len head c then CELL_BLOCKS else 0 := by
    intro c _
    rw [bare]
    by_cases fixed : Reserved ag len head c
    · rw [if_pos fixed, if_neg (not_not.mpr fixed)]
      rfl
    · rw [if_neg fixed, if_pos fixed]
      rfl
  rw [total, Finset.sum_congr rfl each, ← Finset.sum_filter, Finset.sum_const, smul_eq_mul]
  congr 1
  rw [openCells]
  have run : (Finset.range (cellCount len)).filter (fun c => ¬ Reserved ag len head c) =
      Finset.Ico head (cellCount len -
        if head < cellCount len ∧ (len % CELL_BLOCKS ≠ 0 ∨ ag = 0) then 1 else 0) := by
    ext c
    rw [Finset.mem_filter, Finset.mem_range, Finset.mem_Ico, Reserved]
    split <;> omega
  rw [run, Nat.card_Ico]
  split <;> omega

theorem bare_full (ag len head : Nat) :
    total (cellCount len) (fun _ => fullWeight) (bare ag len head) = 0 := by
  apply Finset.sum_eq_zero
  intro c _
  rw [bare]
  split <;> rfl

theorem sum_lone (a b : Nat) : ∑ i : Fin ALLOC_FANOUT,
    (if i.val = 0 then a else b) = a + 15 * b := by
  show ∑ i : Fin 16, (if i.val = 0 then a else b) = a + 15 * b
  simp [Fin.sum_univ_succ]

theorem weigh_lone (w : Weight CellState Ref) (r : Ref) (x : Tree) (d : Nat) :
    (lone r x).weigh w d = w.node d r + (x.weigh w (d + 1) + 15 * w.leaf (d + 1) .free) := by
  rw [lone, Cell.weigh_refined, ← sum_lone]
  refine congrArg (w.node d r + ·) (Finset.sum_congr rfl fun i _ => ?_)
  split <;> rfl

theorem inoTree_free (arena : Nat) (kernel : Bool) :
    (inoTree arena kernel).weigh freeWeight 0 = CELL_BLOCKS - 1 := by
  have slots : (slotTree (arena, 2) kernel).weigh freeWeight 2 = 0 := by
    rw [slotTree, Cell.weigh_refined]
    have node : freeWeight.node 2 (arena, 2) = 0 := rfl
    rw [node, Nat.zero_add]
    apply Finset.sum_eq_zero
    intro i _
    split <;> rfl
  rw [inoTree, weigh_lone, weigh_lone, slots]
  simp only [freeWeight, granule, ALLOC_FANOUT, CELL_BLOCKS, reduceIte]

theorem inoTree_full (arena : Nat) (kernel : Bool) :
    (inoTree arena kernel).weigh fullWeight 0 = 1 := by
  have slots : (slotTree (arena, 2) kernel).weigh fullWeight 2 = 1 := by
    rw [slotTree, Cell.weigh_refined]
    have node : fullWeight.node 2 (arena, 2) = 1 := rfl
    rw [node, Nat.add_eq_left]
    apply Finset.sum_eq_zero
    intro i _
    split <;> rfl
  rw [inoTree, weigh_lone, weigh_lone, slots]
  rfl

section Planted

variable {len head : Nat} {kernel : Bool}

theorem open_arena (room : head + 2 < cellCount len) : ¬ Reserved 0 len head head := by
  rw [Reserved]
  omega

theorem open_ino (room : head + 2 < cellCount len) : ¬ Reserved 0 len head (head + 1) := by
  rw [Reserved]
  omega

theorem planted_ino : planted len head kernel (head + 1) = inoTree (head * CELL_BLOCKS) kernel :=
  Function.update_self ..

theorem planted_arena : planted len head kernel head = .leaf .rsvd := by
  rw [planted, Function.update_of_ne (by omega), Function.update_self]

theorem planted_other {c : Nat} (arena : c ≠ head) (ino : c ≠ head + 1) :
    planted len head kernel c = bare 0 len head c := by
  rw [planted, Function.update_of_ne ino, Function.update_of_ne arena]

theorem planted_total (kernel : Bool) (w : Nat → Weight CellState Ref)
    (room : head + 2 < cellCount len) :
    total (cellCount len) w (planted len head kernel) + (w head).leaf 0 .free + (w (head + 1)).leaf
    0 .free =
      total (cellCount len) w (bare 0 len head) + (w head).leaf 0 .rsvd +
        (inoTree (head * CELL_BLOCKS) kernel).weigh (w (head + 1)) 0 := by
  have arena : bare 0 len head head = .leaf .free := if_neg (open_arena room)
  have ino : bare 0 len head (head + 1) = .leaf .free := if_neg (open_ino room)
  have first := total_update (cellCount len) w (bare 0 len head) (c := head) (by omega)
      (.leaf .rsvd)
  have second := total_update (cellCount len) w
      (Function.update (bare 0 len head) head (.leaf .rsvd))
    (c := head + 1) (by omega) (inoTree (head * CELL_BLOCKS) kernel)
  rw [Function.update_of_ne (by omega), ino] at second
  rw [arena] at first
  simp only [Cell.weigh_leaf] at first second
  rw [planted]
  omega

theorem planted_free (room : head + 2 < cellCount len) :
    total (cellCount len) (fun _ => freeWeight) (planted len head kernel) =
      (openCells 0 len head - 2) * CELL_BLOCKS + (CELL_BLOCKS - 1) := by
  have sum := planted_total kernel (fun _ => freeWeight) room
  have cells : 2 ≤ openCells 0 len head := by
    rw [openCells]
    split <;> omega
  rw [bare_free, inoTree_free] at sum
  have free : freeWeight.leaf 0 .free = CELL_BLOCKS := rfl
  have rsvd : freeWeight.leaf 0 .rsvd = 0 := rfl
  rw [free, rsvd] at sum
  rw [Nat.sub_mul]
  have rows : 2 * CELL_BLOCKS ≤ openCells 0 len head * CELL_BLOCKS := Nat.mul_le_mul_right _ cells
  omega

theorem planted_full (room : head + 2 < cellCount len) :
    total (cellCount len) (fun _ => fullWeight) (planted len head kernel) = 1 := by
  have sum := planted_total kernel (fun _ => fullWeight) room
  rw [bare_full, inoTree_full] at sum
  exact sum

end Planted

theorem shape_bare (ag len head c : Nat) : Shape 0 (bare ag len head c) := by
  rw [bare]
  split
  · exact fun _ => rfl
  · exact fun h => by cases h

theorem shape_planted (len head : Nat) (kernel : Bool) (c : Nat) :
    Shape 0 (planted len head kernel c) := by
  have open' : ∀ d (x : Tree) (r : Ref), d < 3 → Shape (d + 1) x → Shape d (lone r x) := by
    intro d x r low below
    refine ⟨low, fun i => ?_⟩
    dsimp only
    split
    · exact below
    · exact fun h => by cases h
  by_cases ino : c = head + 1
  · rw [ino, planted_ino]
    refine open' 0 _ _ (by decide) (open' 1 _ _ (by decide) ⟨by decide, fun i => ?_⟩)
    dsimp only
    split <;> exact fun h => by cases h
  · by_cases arena : c = head
    · rw [arena, planted_arena]
      exact fun _ => rfl
    · rw [planted_other arena ino]
      exact shape_bare 0 len head c

theorem whole_of_open {ag len head c : Nat} (inside : c < cellCount len)
    (open' : ¬ Reserved ag len head c) :
    (c + 1) * CELL_BLOCKS ≤ len := by
  rw [Reserved, cellCount, CELL_BLOCKS] at open'
  rw [cellCount, CELL_BLOCKS] at inside
  rw [CELL_BLOCKS]
  omega

theorem whole_bare {ag len head c : Nat} (inside : c < cellCount len)
    (open' : bare ag len head c ≠ .leaf .rsvd) : (c + 1) * CELL_BLOCKS ≤ len :=
  whole_of_open inside fun fixed => open' (if_pos fixed)

theorem whole_planted {len head : Nat} {kernel : Bool} (room : head + 2 < cellCount len) {c : Nat}
    (inside : c < cellCount len) (open' : planted len head kernel c ≠ .leaf .rsvd) :
    (c + 1) * CELL_BLOCKS ≤ len := by
  by_cases ino : c = head + 1
  · exact whole_of_open inside (ino ▸ open_ino room)
  · have arena : c ≠ head := fun equal => open' (equal ▸ planted_arena)
    rw [planted_other arena ino] at open'
    exact whole_bare inside open'

theorem planted_head {len next l : Nat} {kernel : Bool} (low : l < next) :
    planted len (divCeil next CELL_BLOCKS) kernel (l / CELL_BLOCKS) = .leaf .rsvd := by
  have below : l / CELL_BLOCKS < divCeil next CELL_BLOCKS := by
    rw [divCeil, CELL_BLOCKS]
    omega
  rw [planted_other (by omega) (by omega)]
  exact if_pos (.inl below)

theorem planted_last {len head : Nat} {kernel : Bool} (room : head + 2 < cellCount len) :
    planted len head kernel ((len - 1) / CELL_BLOCKS) = .leaf .rsvd := by
  have last : (len - 1) / CELL_BLOCKS + 1 = cellCount len := by
    rw [cellCount, CELL_BLOCKS] at room ⊢
    omega
  rw [planted_other (by omega) (by omega)]
  exact if_pos (.inr ⟨last, .inr rfl⟩)

-- the slots

theorem spot_leaf {T : Nat → Tree} {b : Nat} {st : CellState}
    (leaf : T (b / CELL_BLOCKS) = .leaf st)
    (s : Nat) : spot T b s = some (st, 0) := by
  rw [spot, leaf, Cell.look_leaf]

theorem spot_bare (ag len head b s : Nat) : ∃ st, spot (bare ag len head) b s = some (st, 0) := by
  by_cases fixed : Reserved ag len head (b / CELL_BLOCKS)
  · exact ⟨_, spot_leaf (if_pos fixed) s⟩
  · exact ⟨_, spot_leaf (if_neg fixed) s⟩

theorem spot_planted (len : Nat) (kernel : Bool) {head b : Nat}
    (other : b ≠ (head + 1) * CELL_BLOCKS)
    (s : Nat) : ∃ st, ∃ d ≤ 2, spot (planted len head kernel) b s = some (st, d) := by
  by_cases ino : b / CELL_BLOCKS = head + 1
  · rw [spot, ino, planted_ino, inoTree, digits_eq, lone, Cell.look_refined]
    split
    · rename_i l1
      rw [lone, Cell.look_refined]
      split
      · rename_i l2
        have offset : b % CELL_BLOCKS = 0 := by
          have low : b % CELL_BLOCKS / ALLOC_FANOUT = 0 := l1
          have rest : b % ALLOC_FANOUT = 0 := l2
          rw [CELL_BLOCKS, ALLOC_FANOUT] at *
          omega
        exfalso
        apply other
        rw [← ino, CELL_BLOCKS] at *
        omega
      · exact ⟨_, 2, Nat.le_refl 2, Cell.look_leaf _ _ _⟩
    · exact ⟨_, 1, by decide, Cell.look_leaf _ _ _⟩
  · by_cases arena : b / CELL_BLOCKS = head
    · have leaf : planted len head kernel (b / CELL_BLOCKS) = .leaf .rsvd := by
        rw [arena, planted_arena]
      exact ⟨_, 0, by decide, spot_leaf leaf s⟩
    · obtain ⟨st, leaf⟩ := spot_bare 0 len head b s
      refine ⟨st, 0, by decide, ?_⟩
      rw [spot, planted_other arena ino]
      exact leaf

theorem spot_slots {len head : Nat} {kernel : Bool} {s : Nat} (small : s < ALLOC_FANOUT) :
    spot (planted len head kernel) ((head + 1) * CELL_BLOCKS) s =
      some (if s = 0 ∨ s = 1 ∧ kernel = true then .full else .free, 3) := by
  have cell : (head + 1) * CELL_BLOCKS / CELL_BLOCKS = head + 1 :=
    Nat.mul_div_cancel _ (by decide)
  have l1 : l1Index ((head + 1) * CELL_BLOCKS) = 0 := by
    rw [l1Index, Nat.mul_mod_left, Nat.zero_div]
  have l2 : l2Index ((head + 1) * CELL_BLOCKS) = 0 := by
    rw [l2Index, CELL_BLOCKS, ALLOC_FANOUT]
    omega
  have slot : s % ALLOC_FANOUT = s := Nat.mod_eq_of_lt small
  rw [spot, cell, planted_ino, inoTree, digits_eq, lone, Cell.look_refined, if_pos l1, lone,
    Cell.look_refined, if_pos l2, slotTree, Cell.look_refined]
  simp only [slot]
  split <;> rfl

-- what is stored

theorem cellGet_inodeCells (table : Bytes) {cells cArena c : Nat} (inside : c < cells) :
    cellGet (inodeCells table cells cArena) c =
      if c = cArena + 1 then CELL_REFINED else if c = cArena then CELL_RSVD else cellGet table
      c := by
  have states : cellGet (inodeCells table cells cArena) c =
      cellGet (cellSet (cellSet table cArena CELL_RSVD) (cArena + 1) CELL_REFINED) c := by
    apply get2_congr
    rw [inodeCells, rtRefOff, putU16, putBE_of_not_mem (by omega), putU32,
        putBE_of_not_mem (by omega)]
  rw [states, cellGet_cellSet _ _ _ (by decide), cellGet_cellSet _ _ _ (by decide)]
  simp only [eq_comm (a := c)]

theorem ref_inodeCells (table : Bytes) (cells : Nat) {cArena : Nat}
    (small : cArena * CELL_BLOCKS < 2 ^ 32) :
    getU32 (inodeCells table cells cArena) (rtRefOff cells (cArena + 1)) = cArena * CELL_BLOCKS ∧
      getU16 (inodeCells table cells cArena) (rtRefOff cells (cArena + 1) + 4) = 0 := by
  constructor
  · rw [inodeCells, getU32, putU16, getBE_putBE_disjoint _ (by omega), putU32, getBE_putBE]
    exact Nat.mod_eq_of_lt small
  · rw [inodeCells, getU16, putU16, getBE_putBE, Nat.zero_mod]

variable [Crc32c]

/-- The L0 and L1 records on the way to the slots. -/
def leadRec (ref : Ref) : Bytes := recRefSet (recStateSet zeros 0 CELL_REFINED) 0 ref

def slotRec (kernel : Bool) : Bytes :=
  if kernel then recStateSet (recStateSet zeros 0 CELL_FULL) 1 CELL_FULL else recStateSet zeros 0
  CELL_FULL

theorem recAt_arenaTable (bs l : Nat) (kernel : Bool) :
    recAt (arenaTable bs l kernel) 0 = clip REC_SIZE (leadRec (l, 1)) ∧
      recAt (arenaTable bs l kernel) 1 = clip REC_SIZE (leadRec (l, 2)) ∧
      recAt (arenaTable bs l kernel) 2 = clip REC_SIZE (slotRec kernel) := by
  have layout : ∃ base sum, arenaTable bs l kernel = putU32
      (copyAt (copyAt (copyAt base (recOff 0) REC_SIZE
      (leadRec (l, 1))) (recOff 1) REC_SIZE (leadRec (l, 2))) (recOff 2) REC_SIZE (slotRec kernel))
      4 sum :=
    ⟨_, _, rfl⟩
  obtain ⟨base, sum, layout⟩ := layout
  rw [layout]
  have header : 4 + 4 ≤ REC_SIZE := by decide
  refine ⟨?_, ?_, ?_⟩
  · rw [recAt_putU32 header, recAt_copyAt, if_neg (by decide), recAt_copyAt, if_neg (by decide),
        recAt_copyAt,
      if_pos rfl]
  · rw [recAt_putU32 header, recAt_copyAt, if_neg (by decide), recAt_copyAt, if_pos rfl]
  · rw [recAt_putU32 header, recAt_copyAt, if_pos rfl]

theorem recAt_stored {bs idx : Nat} (large : 2048 ≤ bs) (index : idx ≤ 2) (l : Nat)
    (kernel : Bool) :
    recAt (clip bs (arenaTable bs l kernel)) idx = recAt (arenaTable bs l kernel) idx := by
  apply clip_congr
  intro k hk
  rw [drop, drop, clip_of_lt]
  simp only [recOff, REC_SIZE] at *
  omega

theorem arenaTable_sound {bs : Nat} (large : 2048 ≤ bs) (l : Nat) (kernel : Bool) :
    TblOk bs (clip bs (arenaTable bs l kernel)) := by
  constructor
  · rw [getU32, getBE_clip _ (by omega), arenaTable, REC_SIZE]
    simp (disch := omega) only [putU32, getBE_putBE_disjoint, getBE_copyAt_disjoint, getBE_putBE]
    decide
  · rw [arenaTable, csum_clip _ (by omega), csum_putU32 _ (by omega), getU32,
        getBE_clip _ (by omega),
      putU32, getBE_putBE]
    exact Nat.mod_eq_of_lt (csum_lt _ _ _)

omit [Crc32c] in
theorem recMark_clip (r : Bytes) (i : Fin ALLOC_FANOUT) :
    recMark (clip REC_SIZE r) i = recMark r i :=
  recMark_congr (fun _ hk => clip_of_lt r hk) i

omit [Crc32c] in
theorem recMark_leadRec {ref : Ref} (block : ref.1 < 2 ^ 32) (index : ref.2 < 2 ^ 16)
    (i : Fin ALLOC_FANOUT) :
    recMark (leadRec ref) i = if i.val = 0 then .refined ref else .leaf .free := by
  have set := recMark_set zeros ⟨0, by decide⟩ i (by decide : CELL_REFINED < 4) block index
  rw [recMark_zeros, cellMark_refined] at set
  rw [leadRec, set]
  congr 1
  rw [Fin.ext_iff, eq_iff_iff]
  exact eq_comm

omit [Crc32c] in
theorem recMark_slotRec (kernel : Bool) (i : Fin ALLOC_FANOUT) :
    recMark (slotRec kernel) i = if i.val = 0 ∨ i.val = 1 ∧
    kernel = true then .leaf .full else .leaf .free := by
  have first := fun i => recMark_stateSet zeros ⟨0, by decide⟩ i (by decide : CELL_FULL < 4)
  have second := recMark_stateSet (recStateSet zeros 0 CELL_FULL) ⟨1, by decide⟩ i
      (by decide : CELL_FULL < 4)
  simp only [recMark_zeros, cellMark_full, Fin.ext_iff] at first second
  rw [slotRec]
  by_cases with_kernel : kernel = true
  · rw [if_pos with_kernel, second, first]
    by_cases zero : i.val = 0
    · rw [if_neg (by omega), if_pos zero.symm, if_pos (.inl zero)]
    · by_cases one : i.val = 1
      · rw [if_pos one.symm, if_pos (.inr ⟨one, with_kernel⟩)]
      · rw [if_neg (by omega), if_neg (by omega), if_neg (by omega)]
  · rw [if_neg with_kernel, first]
    by_cases zero : i.val = 0
    · rw [if_pos zero.symm, if_pos (.inl zero)]
    · rw [if_neg (by omega), if_neg fun either => either.elim zero fun both => with_kernel both.2]

section Stored

variable {A : Ag} {v : Nat → Bytes}

omit [Crc32c] in
theorem models_bare {ag head c : Nat}
    (state : cellGet (A.table v) c = if Reserved ag A.length head c then CELL_RSVD else CELL_FREE) :
    Models (A.kidMark v) (A.rootMark v c) (bare ag A.length head c) := by
  rw [Ag.rootMark, state, bare]
  split
  · exact cellMark_rsvd _
  · exact cellMark_free _

theorem models_inoTree {bs l : Nat} {kernel : Bool} (large : 2048 ≤ bs) (small : l < 2 ^ 32)
    (block : v (A.blk l) = clip bs (arenaTable bs l kernel)) :
    Models (A.kidMark v) (.refined (l, 0)) (inoTree l kernel) := by
  obtain ⟨lead, lead', slots⟩ := recAt_arenaTable bs l kernel
  have record : ∀ idx ≤ 2, recAt (v (A.blk l)) idx = recAt (arenaTable bs l kernel) idx := by
    intro idx low
    rw [block, recAt_stored large low]
  have kid : ∀ i, A.kidMark v (l, 0) i = if i.val = 0 then .refined (l, 1) else .leaf .free := by
    intro i
    rw [Ag.kidMark, record 0 (by decide), lead, recMark_clip,
        recMark_leadRec small (show 1 < 2 ^ 16 by decide)]
  have kid' : ∀ i, A.kidMark v (l, 1) i = if i.val = 0 then .refined (l, 2) else .leaf .free := by
    intro i
    rw [Ag.kidMark, record 1 (by decide), lead', recMark_clip,
        recMark_leadRec small (show 2 < 2 ^ 16 by decide)]
  have slot : ∀ i, A.kidMark v (l, 2) i =
      if i.val = 0 ∨ i.val = 1 ∧ kernel = true then .leaf .full else .leaf .free := by
    intro i
    rw [Ag.kidMark, record 2 (by decide), slots, recMark_clip, recMark_slotRec]
  have tree : ∀ r x, Models (A.kidMark v) (.refined r) x → ∀ i : Fin ALLOC_FANOUT,
      Models (A.kidMark v) (if i.val = 0 then .refined r else .leaf .free)
        (if i.val = 0 then x else .leaf .free) := by
    intro r x below i
    split
    · exact below
    · rfl
  have lowest : Models (A.kidMark v) (.refined (l, 2)) (slotTree (l, 2) kernel) := by
    refine ⟨rfl, fun i => ?_⟩
    rw [slot]
    dsimp only
    split <;> rfl
  have middle : Models (A.kidMark v) (.refined (l, 1)) (lone (l, 1) (slotTree (l, 2) kernel)) :=
    ⟨rfl, fun i => (kid' i).symm ▸ tree _ _ lowest i⟩
  exact ⟨rfl, fun i => (kid i).symm ▸ tree _ _ middle i⟩

/-- What mkfs stores for AG 0. -/
structure Sown (A : Ag) (v : Nat → Bytes) (head : Nat) (kernel : Bool) : Prop where
  states : ∀ c < A.cells, cellGet (A.table v) c = if c = head + 1 then CELL_REFINED else if c =
      head then CELL_RSVD
    else if Reserved 0 A.length head c then CELL_RSVD else CELL_FREE
  ref : A.rootRef v (head + 1) = (head * CELL_BLOCKS, 0)
  arena : v (A.blk (head * CELL_BLOCKS)) = clip A.blocksize
      (arenaTable A.blocksize (head * CELL_BLOCKS) kernel)
  room : head + 2 < A.cells

theorem Sown.models {head c : Nat} {kernel : Bool} (sown : Sown A v head kernel)
    (inside : c < A.cells) :
    Models (A.kidMark v) (A.rootMark v c) (planted A.length head kernel c) := by
  have state := sown.states c inside
  by_cases ino : c = head + 1
  · subst ino
    rw [if_pos rfl] at state
    rw [planted_ino, Ag.rootMark, state, cellMark_refined, sown.ref]
    have large := A.large
    have small : head * CELL_BLOCKS < A.length := A.cell_bounds (by omega)
    exact models_inoTree large (Nat.lt_trans small A.length_lt) sown.arena
  · rw [if_neg ino] at state
    by_cases arena : c = head
    · rw [if_pos arena] at state
      rw [Ag.rootMark, state, arena, planted_arena]
      exact cellMark_rsvd _
    · rw [if_neg arena] at state
      rw [planted_other arena ino]
      exact models_bare state

end Stored

end Mkfs

end FiveFs
